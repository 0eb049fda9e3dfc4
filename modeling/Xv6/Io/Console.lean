import Xv6.Io.Pipe
/-!
# Io.Console — the line discipline of the console (console.c)

`consoleintr` and `consoleread` over the ring `input`.  A step takes one key, or is what a call of `consoleread` does with
`cons.lock` held up to where it sleeps or returns; its events are the bytes that it stores at `dst`.
-/
namespace Xv6
namespace Console

open Io (Byte Pause)

abbrev inputBuf : Nat := 128

structure Input where
  buf : Nat → Byte
  r   : BitVec 32
  w   : BitVec 32
  e   : BitVec 32

def newline : Byte := 10
/-- `C('D')`, `C('H')`, `C('P')`, `C('U')` and DEL. -/
def ctrlD : Byte := 4
def ctrlH : Byte := 8
def ctrlP : Byte := 16
def ctrlU : Byte := 21
def del : Byte := 127

/-! ## Keys -/

/-- The loop of `^U`, in at most `k` turns. -/
def killLine : Nat → Input → Input
  | 0, s     => s
  | k + 1, s =>
    if s.e ≠ s.w ∧ s.buf ((s.e - 1).toNat % inputBuf) ≠ newline then killLine k { s with e := s.e - 1 } else s

/-- `input.buf[input.e++ % INPUT_BUF] = c`. -/
def Input.put (s : Input) (c : Byte) : Input :=
  { s with buf := fun k => if k = s.e.toNat % inputBuf then c else s.buf k, e := s.e + 1 }

/-- `consoleintr` after it has stored a character. -/
def Input.commit (s : Input) (c : Byte) : Input :=
  if c = newline ∨ c = ctrlD ∨ s.e = s.r + BitVec.ofNat 32 inputBuf then { s with w := s.e } else s

/-- `c == '\r' ? '\n' : c`. -/
def cooked (c : Byte) : Byte := if c = 13 then newline else c

/-- A turn of the loop of `consoleintr`. -/
def key (c : Byte) (s : Input) : Input :=
  if c = ctrlP then s
  else if c = ctrlU then killLine (s.e - s.w).toNat s
  else if c = ctrlH ∨ c = del then (if s.e ≠ s.w then { s with e := s.e - 1 } else s)
  else if c ≠ 0 ∧ (s.e - s.r).toNat < inputBuf then (s.put (cooked c)).commit (cooked c)
  else s

/-! ## Reading -/

abbrev C := Prog Empty Input Byte

/-- The loop of `consoleread` with `n` bytes of `target` left; a process that wakes up tests again. -/
def readLoop (killed : Bool) (target : Nat) : Nat → C (Pause Nat)
  | 0     => pure (.ret target)
  | n + 1 => do
    let s ← Prog.get
    if s.r = s.w then pure (if killed = true then .ret (-1) else .sleep (n + 1))
    else
      let c := s.buf (s.r.toNat % inputBuf)
      Prog.modify (fun s => { s with r := s.r + 1 })
      if c = ctrlD then
        Prog.when (n + 1 < target) (Prog.modify (fun s => { s with r := s.r - 1 }))
        pure (.ret (target - (n + 1) : Nat))
      else
        Prog.emit c
        if c = newline then pure (.ret (target - n : Nat)) else readLoop killed target n

/-! ## Processes -/

/-- A call of `consoleread` that sleeps, with `n` bytes of `target` left. -/
structure Reader where
  call   : Nat
  target : Nat
  n      : Nat

/-- A return from `consoleread`, with the input that is committed and not read then. -/
structure Return where
  call   : Nat
  target : Nat
  killed : Bool
  v      : Int
  unread : List Byte

/-- The input and the readers, and what has happened: the input that was committed, the characters typed since, how much
was read, the bytes that the read index went over and those that the readers stored, each with its call. -/
structure Sys where
  input     : Input
  reader    : Nat → Option Reader
  next      : Nat
  committed : List Byte
  pending   : List Byte
  consumed  : Nat
  passed    : List (Nat × Byte)
  taken     : List (Nat × Byte)
  returns   : List Return

inductive Act where
  | key (c : Byte)
  | read (q : Nat) (n : Int) (killed : Bool)
  /-- A sleeping process goes on. -/
  | resume (q : Nat) (killed : Bool)

/-- What a key does to the line that is edited, where `free` places are free: what it commits, and the line. -/
def edit (free : Nat) (c : Byte) (line : List Byte) : List Byte × List Byte :=
  if c = ctrlP then ([], line)
  else if c = ctrlU then ([], [])
  else if c = ctrlH ∨ c = del then ([], line.dropLast)
  else if c = 0 ∨ free = 0 then ([], line)
  else if cooked c = newline ∨ cooked c = ctrlD ∨ free = 1 then (line ++ [cooked c], [])
  else ([], line ++ [cooked c])

def Sys.unread (s : Sys) : List Byte := s.committed.drop s.consumed

def Sys.free (s : Sys) : Nat := inputBuf - (s.unread ++ s.pending).length

def Sys.key (s : Sys) (c : Byte) : Sys :=
  { s with input := Console.key c s.input, committed := s.committed ++ (edit s.free c s.pending).1,
           pending := (edit s.free c s.pending).2 }

def Sys.set (s : Sys) (q : Nat) (a : Option Reader) : Sys := { s with reader := fun p => if p = q then a else s.reader p }

/-- The call `call` of `q` has stored `ev`; the read index has moved over what was read. -/
def Sys.after (s : Sys) (q call : Nat) (x : Option Reader) (t : Input) (ev : List Byte) (news : List Return) : Sys :=
  { s.set q x with input := t, consumed := s.consumed + (t.r - s.input.r).toNat,
                   passed := s.passed ++ (s.unread.take (t.r - s.input.r).toNat).map (fun b => (call, b)),
                   taken := s.taken ++ ev.map (fun b => (call, b)), returns := s.returns ++ news }

def Sys.took (s : Sys) (q : Nat) (a : Reader) (killed : Bool) (o : Outcome Empty Input Byte (Pause Nat)) : Sys :=
  match o.res with
  | .ok (.ret v)   =>
    s.after q a.call none o.st o.tr [⟨a.call, a.target, killed, v, s.unread.drop o.tr.length⟩]
  | .ok (.sleep n) => s.after q a.call (some { a with n := n }) o.st o.tr []
  | .error e       => nomatch e

def Sys.read (s : Sys) (q : Nat) (a : Reader) (killed : Bool) : Sys :=
  s.took q a killed (readLoop killed a.target a.n s.input)

def Sys.step (s : Sys) (a : Act) : Sys :=
  match a with
  | .key c => s.key c
  | .read q n killed =>
    match s.reader q with
    | none   => { s with next := s.next + 1 }.read q ⟨s.next, n.toNat, n.toNat⟩ killed
    | some _ => s
  | .resume q killed =>
    match s.reader q with
    | none   => s
    | some a => s.read q a killed

def Sys.run (s : Sys) (as : List Act) : Sys := as.foldl Sys.step s

/-- What the call `k` has stored. -/
def Sys.takenBy (s : Sys) (k : Nat) : List Byte := (s.taken.filter (fun x => x.1 = k)).map Prod.snd

/-- What the call `k` has moved the read index over. -/
def Sys.passedBy (s : Sys) (k : Nat) : List Byte := (s.passed.filter (fun x => x.1 = k)).map Prod.snd

def Sys.init (buf : Nat → Byte) : Sys := ⟨⟨buf, 0, 0, 0⟩, fun _ => none, 0, [], [], 0, [], [], []⟩

/-! ## The ring -/

/-- The ring holds the committed input `ready`, and `line`, which is edited. -/
structure Holds (s : Input) (ready line : List Byte) : Prop where
  length : (ready ++ line).length ≤ inputBuf
  w      : s.w = s.r + BitVec.ofNat 32 ready.length
  e      : s.e = s.r + BitVec.ofNat 32 (ready ++ line).length
  window : Window inputBuf s.buf s.r.toNat (ready ++ line)
  clean  : newline ∉ line
  /-- A full ring is committed. -/
  room   : line ≠ [] → (ready ++ line).length < inputBuf

variable {s : Input} {ready line : List Byte} {a c : Byte}

theorem Holds.bounds (h : Holds s ready line) : ready.length + line.length ≤ 128 := by
  have := h.length
  rwa [List.length_append] at this

theorem Holds.sub_r (h : Holds s ready line) : (s.e - s.r).toNat = ready.length + line.length := by
  have hb := h.bounds
  rw [h.e, List.length_append]
  bv_omega

theorem Holds.sub_w (h : Holds s ready line) : (s.e - s.w).toNat = line.length := by
  have hb := h.bounds
  rw [h.e, h.w, List.length_append]
  bv_omega

theorem Holds.idle (h : Holds s ready line) : s.e = s.w ↔ line = [] := by
  have hb := h.bounds
  rw [h.e, h.w, List.length_append]
  constructor
  · intro he
    refine List.eq_nil_of_length_eq_zero ?_
    bv_omega
  · rintro rfl
    rfl

theorem Holds.empty (h : Holds s ready line) : s.r = s.w ↔ ready = [] := by
  have hb := h.bounds
  rw [h.w]
  constructor
  · intro he
    refine List.eq_nil_of_length_eq_zero ?_
    bv_omega
  · rintro rfl
    exact (BitVec.add_zero s.r).symm

theorem Holds.erase (h : Holds s ready (line ++ [a])) :
    s.buf ((s.e - 1).toNat % inputBuf) = a ∧ Holds { s with e := s.e - 1 } ready line := by
  have hb := h.bounds
  rw [List.length_append, List.length_singleton] at hb
  have hwin : Window inputBuf s.buf s.r.toNat ((ready ++ line) ++ [a]) := by
    rw [List.append_assoc]
    exact h.window
  have he : s.e - 1 = s.r + BitVec.ofNat 32 (ready ++ line).length := by
    rw [h.e, List.length_append, List.length_append, List.length_append, List.length_singleton]
    bv_omega
  have hlt : (ready ++ line).length < inputBuf := by
    rw [List.length_append]
    unfold inputBuf
    omega
  refine ⟨?_, Nat.le_of_lt hlt, h.w, he, hwin.take, fun hn => h.clean (List.mem_append_left _ hn), fun _ => hlt⟩
  rw [he, toNat_add_mod (by decide)]
  exact hwin.last

theorem Holds.killLine (h : Holds s ready line) : Holds (killLine line.length s) ready [] := by
  induction line using List.reverseRecOn generalizing s with
  | nil => exact h
  | append_singleton line a ih =>
    obtain ⟨ha, he⟩ := h.erase
    have hne : s.e ≠ s.w := fun e => List.append_ne_nil_of_right_ne_nil line (List.cons_ne_nil a []) (h.idle.1 e)
    have hnl : a ≠ newline := fun e => h.clean (e ▸ List.mem_append_right line List.mem_cons_self)
    rw [List.length_append, List.length_singleton]
    unfold Console.killLine
    rw [if_pos ⟨hne, ha ▸ hnl⟩]
    exact ih he

theorem Holds.put (h : Holds s ready line) (hlt : (ready ++ line).length < inputBuf) (a : Byte) :
    Window inputBuf (s.put a).buf s.r.toNat (ready ++ (line ++ [a])) ∧
      (s.put a).e = s.r + BitVec.ofNat 32 (ready ++ (line ++ [a])).length := by
  have hpush := h.window.push hlt a
  rw [← toNat_add_mod (by decide), ← h.e, List.append_assoc] at hpush
  refine ⟨hpush, ?_⟩
  change s.e + 1 = _
  rw [h.e]
  simp only [List.length_append, List.length_singleton]
  bv_omega

theorem Holds.key (h : Holds s ready line) (c : Byte) :
    Holds (key c s) (ready ++ (edit (inputBuf - (ready ++ line).length) c line).1)
      (edit (inputBuf - (ready ++ line).length) c line).2 := by
  have hb := h.bounds
  unfold Console.key edit
  by_cases hP : c = ctrlP
  · rw [if_pos hP, if_pos hP, List.append_nil]
    exact h
  rw [if_neg hP, if_neg hP]
  by_cases hU : c = ctrlU
  · rw [if_pos hU, if_pos hU, List.append_nil, h.sub_w]
    exact h.killLine
  rw [if_neg hU, if_neg hU]
  by_cases hH : c = ctrlH ∨ c = del
  · rw [if_pos hH, if_pos hH, List.append_nil]
    rcases List.eq_nil_or_concat line with rfl | ⟨l, a, rfl⟩
    · rw [if_neg (not_not.2 (h.idle.2 rfl))]
      exact h
    · rw [List.concat_eq_append] at h ⊢
      have hne : s.e ≠ s.w := fun e => List.append_ne_nil_of_right_ne_nil l (List.cons_ne_nil a []) (h.idle.1 e)
      rw [if_pos hne, List.dropLast_concat]
      exact h.erase.2
  rw [if_neg hH, if_neg hH, h.sub_r]
  by_cases hfull : c = 0 ∨ inputBuf - (ready ++ line).length = 0
  · have hno : ¬ (c ≠ 0 ∧ ready.length + line.length < inputBuf) := by
      rw [List.length_append] at hfull
      rintro ⟨hc, hlt⟩
      exact hfull.elim hc fun e => by omega
    rw [if_pos hfull, if_neg hno, List.append_nil]
    exact h
  · obtain ⟨hc0, hroom⟩ := not_or.1 hfull
    have hlt : (ready ++ line).length < inputBuf := by omega
    rw [if_pos ⟨hc0, List.length_append ▸ hlt⟩, if_neg hfull]
    obtain ⟨hwin, he⟩ := h.put hlt (cooked c)
    have hlen : (ready ++ (line ++ [cooked c])).length = (ready ++ line).length + 1 := by
      simp only [List.length_append, List.length_singleton]
      omega
    have hlast : (s.put (cooked c)).e = (s.put (cooked c)).r + BitVec.ofNat 32 inputBuf ↔
        inputBuf - (ready ++ line).length = 1 := by
      rw [he, hlen]
      change s.r + _ = s.r + _ ↔ _
      generalize (ready ++ line).length = k at hlt ⊢
      unfold inputBuf at hlt ⊢
      constructor
      · intro e
        bv_omega
      · intro e
        rw [show k + 1 = 128 by omega]
    unfold Input.commit
    by_cases hc : cooked c = newline ∨ cooked c = ctrlD ∨ inputBuf - (ready ++ line).length = 1
    · rw [if_pos hc, if_pos (hc.imp_right fun e => e.imp_right hlast.2)]
      have hnil : (ready ++ (line ++ [cooked c])) ++ [] = ready ++ (line ++ [cooked c]) := List.append_nil _
      exact ⟨hnil.symm ▸ hlen ▸ hlt, he, hnil.symm ▸ he, hnil.symm ▸ hwin, List.not_mem_nil, fun e => absurd rfl e⟩
    · rw [if_neg hc, if_neg fun e => hc (e.imp_right fun e => e.imp_right hlast.1), List.append_nil]
      refine ⟨hlen ▸ hlt, h.w, he, hwin, fun e => ?_, fun _ => ?_⟩
      · rcases List.mem_append.1 e with e | e
        · exact h.clean e
        · exact hc (.inl (List.mem_singleton.1 e).symm)
      · rw [hlen]
        refine Nat.lt_of_le_of_ne hlt fun e => hc (.inr (.inr ?_))
        omega

/-! ## Reading -/

theorem Holds.next (h : Holds s (a :: ready) line) :
    s.buf (s.r.toNat % inputBuf) = a ∧ Holds { s with r := s.r + 1 } ready line := by
  have hlen := h.length
  have hw := h.w
  have he := h.e
  rw [List.cons_append, List.length_cons] at hlen he
  rw [List.length_cons] at hw
  refine ⟨h.window.head, Nat.le_of_succ_le hlen, ?_, ?_, h.window.pop.congr (toNat_add_mod (by decide) s.r 1), h.clean,
    fun hl => ?_⟩
  · change s.w = s.r + 1 + _
    rw [hw]
    bv_omega
  · change s.e = s.r + 1 + _
    rw [he]
    bv_omega
  · exact Nat.lt_of_succ_lt (h.room hl)

open Prog (wpt wpt_bind wpt_get wpt_modify wpt_emit wpt_pure)

/-- How a read ends: with all it asked for, after a newline, or at a `^D`. -/
def Ends (target : Nat) (got unread : List Byte) : Prop :=
  got.length ≤ target ∧ newline ∉ got.dropLast ∧
    (got.length = target ∨ got.getLast? = some newline ∨ unread.head? = some ctrlD)

/-- **A step of `consoleread`** takes committed input up to the end of the read, or all there is. -/
theorem readLoop_wpt (killed : Bool) {target : Nat} : ∀ (n : Nat) (ready got : List Byte) (s : Input),
    Holds s ready line → got.length + n = target → newline ∉ got →
    wpt (readLoop killed target n) (fun res t ev => ∃ eof rest, ready = ev ++ eof ++ rest ∧
      (eof = [] ∨ eof = [ctrlD] ∧ got ++ ev = [] ∧ res = .ret 0) ∧ ctrlD ∉ ev ∧ Holds t rest line ∧
      t.r = s.r + BitVec.ofNat 32 (ev ++ eof).length ∧ (killed = true ∧ res = .ret (-1) ∨
        (res = .ret (got ++ ev).length ∧ Ends target (got ++ ev) (ready.drop ev.length)) ∨
        ∃ m, res = .sleep m ∧ (got ++ ev).length + m = target ∧ newline ∉ got ++ ev)) (fun _ => False) s
  | 0, ready, got, s, h, hn, hnl => by
    have hlen : (got ++ []).length = target := by rw [List.append_nil]; exact hn
    refine ⟨[], ready, rfl, .inl rfl, List.not_mem_nil, h, (BitVec.add_zero s.r).symm,
      .inr (.inl ⟨?_, Nat.le_of_eq hlen, ?_, .inl hlen⟩)⟩
    · exact congrArg (fun k : Nat => Pause.ret k) hlen.symm
    · exact fun e => hnl (List.append_nil got ▸ List.mem_of_mem_dropLast e)
  | n + 1, [], got, s, h, hn, hnl => by
    unfold readLoop
    rw [wpt_bind, wpt_get, if_pos (h.empty.2 rfl), wpt_pure]
    refine ⟨[], [], rfl, .inl rfl, List.not_mem_nil, h, (BitVec.add_zero s.r).symm, ?_⟩
    rw [List.append_nil, List.append_nil]
    split
    · next hk => exact .inl ⟨hk, rfl⟩
    · exact .inr (.inr ⟨n + 1, rfl, hn, hnl⟩)
  | n + 1, a :: ready, got, s, h, hn, hnl => by
    obtain ⟨ha, ht⟩ := h.next
    unfold readLoop
    rw [wpt_bind, wpt_get, if_neg fun e => List.cons_ne_nil a ready (h.empty.1 e)]
    dsimp only
    rw [wpt_bind, wpt_modify, ha]
    refine Prog.wpt_ite (fun hD => ?_) fun hD => ?_
    · rw [wpt_bind]
      have hgot : got ++ [] = got := List.append_nil got
      have hends : Ends target (got ++ []) ((a :: ready).drop ([] : List Byte).length) := by
        rw [hgot]
        exact ⟨by omega, fun e => hnl (List.mem_of_mem_dropLast e), .inr (.inr (congrArg some hD))⟩
      have hret : Pause.ret ((target - (n + 1) : Nat) : Int) = (.ret (got ++ []).length : Pause Nat) := by
        rw [hgot, ← hn, Nat.add_sub_cancel]
      by_cases hlt : n + 1 < target
      · -- the `^D` stays for the next call
        rw [Prog.when, if_pos hlt, wpt_modify, wpt_pure]
        refine ⟨[], a :: ready, rfl, .inl rfl, List.not_mem_nil, ?_, ?_, .inr (.inl ⟨hret, hends⟩)⟩
        · change Holds { s with r := s.r + 1 - 1 } (a :: ready) line
          rw [BitVec.add_sub_cancel]
          exact h
        · change s.r + 1 - 1 = s.r + 0#32
          rw [BitVec.add_sub_cancel, BitVec.add_zero]
      · have hnil : got ++ [] = [] := by
          rw [hgot]
          exact List.eq_nil_of_length_eq_zero (by omega)
        have hzero : Pause.ret ((target - (n + 1) : Nat) : Int) = (.ret 0 : Pause Nat) := by
          rw [hret, hnil]
          rfl
        rw [Prog.when, if_neg hlt]
        exact ⟨[a], ready, rfl, .inr ⟨congrArg (fun x => [x]) hD, hnil, hzero⟩, List.not_mem_nil, ht, rfl,
          .inr (.inl ⟨hret, hends⟩)⟩
    · have hlen : (got ++ [a]).length + n = target := by
        rw [List.length_append, List.length_singleton]
        omega
      rw [wpt_bind, wpt_emit]
      refine Prog.wpt_ite (fun hN => ?_) fun hN => ?_
      · rw [wpt_pure, List.append_nil, List.nil_append, List.nil_append]
        refine ⟨[], ready, rfl, .inl rfl, fun e => hD (List.mem_singleton.1 e).symm, ht, rfl,
          .inr (.inl ⟨?_, by omega, ?_, ?_⟩)⟩
        · exact congrArg (fun k : Nat => Pause.ret k) (by omega)
        · rw [List.dropLast_concat]
          exact hnl
        · exact .inr (.inl (hN ▸ List.getLast?_concat))
      · have hgot : newline ∉ got ++ [a] := fun e =>
          (List.mem_append.1 e).elim hnl fun e => hN (List.mem_singleton.1 e).symm
        refine Prog.wpt.mono (readLoop_wpt killed n ready (got ++ [a]) _ ht hlen hgot) ?_ fun _ e => e
        rintro res t ev ⟨eof, rest, hev, heof, hd, hh, hr, hres⟩
        rw [List.append_assoc] at heof hres
        rw [List.nil_append, List.nil_append]
        refine ⟨eof, rest, congrArg (a :: ·) hev, heof, ?_, hh, ?_, hres⟩
        · exact fun e => (List.mem_cons.1 e).elim (fun e => hD e.symm) hd
        · rw [hr, List.append_assoc]
          change s.r + 1 + _ = s.r + BitVec.ofNat 32 (a :: (ev ++ eof)).length
          rw [List.length_cons]
          generalize (ev ++ eof).length = k
          bv_omega

/-! ## Runs -/

/-- The call `a` of the process `q` is not over. -/
structure Sys.Open (s : Sys) (q : Nat) (a : Reader) : Prop where
  fresh : a.call < s.next
  left  : (s.takenBy a.call).length + a.n = a.target
  line  : newline ∉ s.takenBy a.call
  eof   : ctrlD ∉ s.passedBy a.call
  alone : ∀ p b, s.reader p = some b → b.call = a.call → p = q
  out   : ∀ x ∈ s.returns, x.call ≠ a.call

/-- What a call returns fits the bytes that it stored. -/
def Return.Fits (x : Return) (got : List Byte) : Prop :=
  x.killed = true ∧ x.v = -1 ∨ x.v = got.length ∧ Ends x.target got x.unread

/-- A call goes over no `^D`, or over one alone. -/
def Stops (passed : List Byte) : Prop := ctrlD ∉ passed ∨ passed = [ctrlD]

structure Inv (s : Sys) : Prop where
  holds    : Holds s.input s.unread s.pending
  consumed : s.consumed ≤ s.committed.length
  passed   : s.passed.map Prod.snd = s.committed.take s.consumed
  taken    : s.taken = s.passed.filter (fun x => x.2 ≠ ctrlD)
  fresh    : ∀ c, s.next ≤ c → s.passedBy c = []
  reader   : ∀ q a, s.reader q = some a → s.Open q a
  returns  : ∀ x ∈ s.returns, x.call < s.next ∧ x.Fits (s.takenBy x.call) ∧ Stops (s.passedBy x.call)

variable {s : Sys} {q : Nat} {a : Reader}

theorem Inv.takenBy (h : Inv s) (k : Nat) : s.takenBy k = (s.passedBy k).filter (fun c => c ≠ ctrlD) := by
  unfold Sys.takenBy Sys.passedBy
  rw [h.taken, List.filter_map, List.filter_filter, List.filter_filter]
  exact congrArg _ (List.filter_congr fun x _ => Bool.and_comm _ _)

theorem Inv.key (h : Inv s) (c : Byte) : Inv (s.key c) := by
  have hnew : (s.key c).unread = s.unread ++ (edit s.free c s.pending).1 := List.drop_append_of_le_length h.consumed
  refine ⟨?_, ?_, ?_, h.taken, h.fresh, fun q a ha => ?_, h.returns⟩
  · rw [hnew]
    exact h.holds.key c
  · refine Nat.le_trans h.consumed ?_
    change _ ≤ (s.committed ++ _).length
    rw [List.length_append]
    exact Nat.le_add_right _ _
  · exact h.passed.trans (List.take_append_of_le_length h.consumed).symm
  · obtain ⟨hf, hl, hn, hd, ho, hr⟩ := h.reader q a ha
    exact ⟨hf, hl, hn, hd, ho, hr⟩

theorem Sys.after_takenBy (s : Sys) (x : Option Reader) (t : Input) (k : Nat) (ev : List Byte) (news : List Return) :
    (s.after q k x t ev news).takenBy k = s.takenBy k ++ ev := by
  refine (Io.storedBy_append s.taken k k ev).trans ?_
  rw [if_pos rfl]
  rfl

theorem Sys.after_takenBy_ne (s : Sys) (x : Option Reader) (t : Input) {c k : Nat} (h : c ≠ k) (ev : List Byte)
    (news : List Return) : (s.after q k x t ev news).takenBy c = s.takenBy c := by
  refine (Io.storedBy_append s.taken k c ev).trans ?_
  rw [if_neg h, List.append_nil]
  rfl

section
variable (s) (x : Option Reader) (t : Input) (ev : List Byte) (news : List Return)

theorem Sys.after_passedBy (k : Nat) :
    (s.after q k x t ev news).passedBy k = s.passedBy k ++ s.unread.take (t.r - s.input.r).toNat := by
  refine (Io.storedBy_append s.passed k k _).trans ?_
  rw [if_pos rfl]
  rfl

theorem Sys.after_passedBy_ne {c k : Nat} (h : c ≠ k) : (s.after q k x t ev news).passedBy c = s.passedBy c := by
  refine (Io.storedBy_append s.passed k c _).trans ?_
  rw [if_neg h, List.append_nil]
  rfl

end

theorem Inv.stores (h : Inv s) (ha : s.Open q a) {t : Input} {ev eof rest : List Byte} (hun : s.unread = ev ++ eof ++ rest)
    {x : Option Reader} (heof : eof = [] ∨ eof = [ctrlD] ∧ s.takenBy a.call ++ ev = [] ∧ x = none) (hd : ctrlD ∉ ev)
    (hh : Holds t rest s.pending) (hr : t.r = s.input.r + BitVec.ofNat 32 (ev ++ eof).length)
    (hx : ∀ b, x = some b → b.call = a.call ∧ (s.takenBy a.call ++ ev).length + b.n = b.target ∧
      newline ∉ s.takenBy a.call ++ ev) {news : List Return}
    (hnews : ∀ e ∈ news, x = none ∧ e.call = a.call ∧ e.Fits (s.takenBy a.call ++ ev)) :
    Inv (s.after q a.call x t ev news) := by
  have hcount : (t.r - s.input.r).toNat = (ev ++ eof).length := by
    have hb := h.holds.bounds
    rw [hun, @List.length_append _ _ rest] at hb
    rw [hr]
    generalize (ev ++ eof).length = k at hb ⊢
    bv_omega
  have hover : s.unread.take (t.r - s.input.r).toNat = ev ++ eof := by
    rw [hcount, hun, List.take_left]
  have hdrop : s.committed.drop (s.consumed + (ev ++ eof).length) = rest := by
    rw [← List.drop_drop]
    change s.unread.drop _ = rest
    rw [hun, List.drop_left]
  have htake : s.committed.take (s.consumed + (ev ++ eof).length) = s.committed.take s.consumed ++ (ev ++ eof) := by
    rw [List.take_add]
    change _ ++ s.unread.take _ = _
    rw [hun, List.take_left]
  have hall : s.consumed + (ev ++ eof).length ≤ s.committed.length := by
    have hlen := congrArg List.length hun
    have hc := h.consumed
    unfold Sys.unread at hlen
    rw [List.length_drop, @List.length_append _ _ rest] at hlen
    omega
  have hby : (s.after q a.call x t ev news).passedBy a.call = s.passedBy a.call ++ (ev ++ eof) := by
    rw [s.after_passedBy, hover]
  refine ⟨?_, ?_, ?_, ?_, fun c hc => ?_, fun p b hp => ?_, fun e he => ?_⟩
  · change Holds t (s.committed.drop (s.consumed + (t.r - s.input.r).toNat)) s.pending
    rw [hcount, hdrop]
    exact hh
  · change s.consumed + (t.r - s.input.r).toNat ≤ s.committed.length
    rw [hcount]
    exact hall
  · change (s.passed ++ (s.unread.take (t.r - s.input.r).toNat).map _).map Prod.snd =
      s.committed.take (s.consumed + (t.r - s.input.r).toNat)
    rw [hover, hcount, htake, ← h.passed, List.map_append, List.map_map]
    exact congrArg _ (List.map_id (ev ++ eof))
  · change s.taken ++ ev.map _ = (s.passed ++ (s.unread.take (t.r - s.input.r).toNat).map _).filter _
    have hev : ev.filter (fun c => c ≠ ctrlD) = ev :=
      List.filter_eq_self.2 fun b hb => decide_eq_true fun e => hd (e ▸ hb)
    have heof' : eof.filter (fun c => c ≠ ctrlD) = [] := by
      rcases heof with rfl | ⟨rfl, -⟩
      · rfl
      · rfl
    have hnew : (ev ++ eof).filter (fun c => c ≠ ctrlD) = ev := by
      rw [List.filter_append, hev, heof', List.append_nil]
    rw [hover, List.filter_append, ← h.taken, List.filter_map]
    exact congrArg (fun l => s.taken ++ l.map fun b => (a.call, b)) hnew.symm
  · rw [s.after_passedBy_ne x t ev news (Nat.ne_of_gt (Nat.lt_of_lt_of_le ha.fresh hc))]
    exact h.fresh c hc
  · change (if p = q then x else s.reader p) = some b at hp
    split_ifs at hp with hpq
    · obtain ⟨hcall, hleft, hline⟩ := hx b hp
      refine ⟨hcall ▸ ha.fresh, ?_, ?_, ?_, fun p' b' hp' hc' => ?_, fun e he => ?_⟩
      · rw [hcall, s.after_takenBy]
        exact hleft
      · rw [hcall, s.after_takenBy]
        exact hline
      · have hnil : eof = [] := heof.resolve_right fun e => Option.some_ne_none b (hp.symm.trans e.2.2)
        rw [hcall, hby, hnil, List.append_nil]
        exact fun e => (List.mem_append.1 e).elim ha.eof hd
      · change (if p' = q then x else s.reader p') = some b' at hp'
        split_ifs at hp' with hpq'
        · rw [hpq, hpq']
        · exact absurd (ha.alone p' b' hp' (hc'.trans hcall)) hpq'
      · rcases List.mem_append.1 he with he | he
        · exact hcall ▸ ha.out e he
        · rw [(hnews e he).1] at hp
          cases hp
    · have hne : b.call ≠ a.call := fun e => hpq (ha.alone p b hp e)
      have hb := h.reader p b hp
      refine ⟨hb.fresh, ?_, ?_, ?_, fun p' b' hp' hc' => ?_, fun e he => ?_⟩
      · rw [s.after_takenBy_ne x t hne]
        exact hb.left
      · rw [s.after_takenBy_ne x t hne]
        exact hb.line
      · rw [s.after_passedBy_ne x t ev news hne]
        exact hb.eof
      · change (if p' = q then x else s.reader p') = some b' at hp'
        split_ifs at hp' with hpq'
        · exact absurd (hc'.symm.trans (hx b' hp').1) hne
        · exact hb.alone p' b' hp' hc'
      · rcases List.mem_append.1 he with he | he
        · exact hb.out e he
        · rw [(hnews e he).2.1]
          exact Ne.symm hne
  · rcases List.mem_append.1 he with he | he
    · obtain ⟨hf, hfits, hstop⟩ := h.returns e he
      refine ⟨hf, ?_, ?_⟩
      · rw [s.after_takenBy_ne x t (ha.out e he)]
        exact hfits
      · rw [s.after_passedBy_ne x t ev news (ha.out e he)]
        exact hstop
    · obtain ⟨-, hcall, hfits⟩ := hnews e he
      refine ⟨hcall ▸ ha.fresh, ?_, ?_⟩
      · rw [hcall, s.after_takenBy]
        exact hfits
      · rw [hcall, hby]
        rcases heof with rfl | ⟨rfl, hgot, -⟩
        · rw [List.append_nil]
          exact .inl fun e => (List.mem_append.1 e).elim ha.eof hd
        · -- the call has stored nothing, so it went over nothing
          obtain ⟨hnone, rfl⟩ := List.append_eq_nil_iff.1 hgot
          have hid : (s.passedBy a.call).filter (fun c => c ≠ ctrlD) = s.passedBy a.call :=
            List.filter_eq_self.2 fun b hb => decide_eq_true fun e => ha.eof (e ▸ hb)
          rw [← hid, ← h.takenBy, hnone]
          exact .inr rfl

theorem Inv.read (h : Inv s) (ha : s.Open q a) (killed : Bool) : Inv (s.read q a killed) := by
  obtain ⟨res, t, ev, hrun, eof, rest, hun, heof, hd, hh, hr, hres⟩ :=
    (readLoop_wpt killed a.n s.unread (s.takenBy a.call) s.input h.holds ha.left ha.line).run
  unfold Sys.read
  rw [hrun]
  rcases hres with ⟨hk, rfl⟩ | ⟨rfl, hends⟩ | ⟨m, rfl, hm, hline⟩
  · refine h.stores ha hun (heof.imp_right fun e => ⟨e.1, e.2.1, rfl⟩) hd hh hr (fun b hb => by cases hb) fun e he => ?_
    obtain rfl := List.mem_singleton.1 he
    exact ⟨rfl, rfl, .inl ⟨hk, rfl⟩⟩
  · refine h.stores ha hun (heof.imp_right fun e => ⟨e.1, e.2.1, rfl⟩) hd hh hr (fun b hb => by cases hb) fun e he => ?_
    obtain rfl := List.mem_singleton.1 he
    exact ⟨rfl, rfl, .inr ⟨rfl, hends⟩⟩
  · refine h.stores ha hun (x := some { a with n := m }) (.inl (heof.resolve_right fun e => by cases e.2.2)) hd hh hr ?_
      fun e he => absurd he List.not_mem_nil
    rintro b ⟨⟩
    exact ⟨rfl, hm, hline⟩

theorem Inv.step (h : Inv s) (a : Act) : Inv (s.step a) := by
  cases a with
  | key c => exact h.key c
  | read q n killed =>
    unfold Sys.step
    dsimp only
    split
    · have hover : s.passedBy s.next = [] := h.fresh _ (Nat.le_refl _)
      have hnone : s.takenBy s.next = [] := by
        rw [h.takenBy, hover]
        rfl
      have hs : Inv { s with next := s.next + 1 } := by
        refine ⟨h.holds, h.consumed, h.passed, h.taken, fun c hc => h.fresh c (Nat.le_of_succ_le hc), fun p b hp => ?_,
          fun x hx => ?_⟩
        · obtain ⟨hf, hl, hn, hd, ho, hr⟩ := h.reader p b hp
          exact ⟨Nat.lt_succ_of_lt hf, hl, hn, hd, ho, hr⟩
        · exact ⟨Nat.lt_succ_of_lt (h.returns x hx).1, (h.returns x hx).2⟩
      refine hs.read ⟨Nat.lt_succ_self _, ?_, ?_, ?_, fun p b hp hc => ?_, fun x hx => ?_⟩ killed
      · exact (congrArg (fun l : List Byte => l.length + n.toNat) hnone).trans (Nat.zero_add _)
      · exact fun e => List.not_mem_nil (hnone ▸ e)
      · exact fun e => List.not_mem_nil (hover ▸ e)
      · exact absurd hc (Nat.ne_of_lt (h.reader p b hp).fresh)
      · exact Nat.ne_of_lt (h.returns x hx).1
    · exact h
  | resume q killed =>
    unfold Sys.step
    dsimp only
    split
    · exact h
    · next a ha => exact h.read (h.reader q a ha) killed

theorem Inv.run (as : List Act) : ∀ s, Inv s → Inv (s.run as) := by
  induction as with
  | nil => exact fun _ h => h
  | cons a as ih => exact fun s h => ih _ (h.step a)

theorem Inv.init (buf : Nat → Byte) : Inv (Sys.init buf) where
  holds    := ⟨Nat.zero_le _, rfl, rfl, Window.nil, List.not_mem_nil, fun h => absurd rfl h⟩
  consumed := Nat.le_refl _
  passed   := rfl
  taken    := rfl
  fresh    := fun _ _ => rfl
  reader   := fun _ _ h => by cases h
  returns  := fun _ h => absurd h List.not_mem_nil

/-- What the readers get, in the order in which they take it, and when. -/
structure Delivers (s : Sys) : Prop where
  r_le_w : (s.input.w - s.input.r).toNat ≤ (s.input.e - s.input.r).toNat
  e_le   : (s.input.e - s.input.r).toNat ≤ inputBuf
  /-- What is committed and not read is in the ring, and after it the line that is edited. -/
  unread : Window inputBuf s.input.buf s.input.r.toNat (s.unread ++ s.pending)
  w      : (s.input.w - s.input.r).toNat = s.unread.length
  e      : (s.input.e - s.input.w).toNat = s.pending.length
  /-- A kill or a backspace removes from the line only. -/
  erase  : ∀ c, c = ctrlU ∨ c = ctrlH ∨ c = del →
    (s.key c).committed = s.committed ∧ (s.key c).pending <+: s.pending
  order  : s.taken.map Prod.snd = (s.committed.take s.consumed).filter (fun c => c ≠ ctrlD)
  /-- The calls go over the committed input once, and each stores what it goes over, but for the `^D`. -/
  passed : s.passed.map Prod.snd = s.committed.take s.consumed
  taken  : s.taken = s.passed.filter (fun x => x.2 ≠ ctrlD)
  stops  : ∀ x ∈ s.returns, x.Fits (s.takenBy x.call)
  eof    : ∀ x ∈ s.returns, Stops (s.passedBy x.call)
  /-- A call that sleeps has gone over none. -/
  asleep : ∀ q a, s.reader q = some a → ctrlD ∉ s.passedBy a.call

theorem edit_erase (free : Nat) {c : Byte} (hc : c = ctrlU ∨ c = ctrlH ∨ c = del) (line : List Byte) :
    (edit free c line).1 = [] ∧ (edit free c line).2 <+: line := by
  unfold edit
  split_ifs with hP hU hH
  · exact ⟨rfl, List.prefix_rfl⟩
  · exact ⟨rfl, List.nil_prefix⟩
  · exact ⟨rfl, List.dropLast_prefix line⟩
  all_goals exact absurd (hc.resolve_left hU) hH

/-- **In every run the readers take the committed input**, each byte once and in order, without `^D`; a call ends at its
first newline, with all it asked for or at a `^D`, which it goes over only where it has nothing. -/
theorem delivers (buf : Nat → Byte) (as : List Act) : Delivers ((Sys.init buf).run as) := by
  have h := (Inv.init buf).run as
  have hb := h.holds.bounds
  have hsub := h.holds.sub_r
  have hw : (((Sys.init buf).run as).input.w - ((Sys.init buf).run as).input.r).toNat =
      ((Sys.init buf).run as).unread.length := by
    rw [h.holds.w]
    bv_omega
  refine ⟨?_, ?_, h.holds.window, hw, h.holds.sub_w, fun c hc => ?_, ?_, h.passed, h.taken,
    fun x hx => (h.returns x hx).2.1, fun x hx => (h.returns x hx).2.2, fun q a ha => (h.reader q a ha).eof⟩
  · rw [hw, hsub]
    exact Nat.le_add_right _ _
  · rw [hsub]
    exact hb
  · obtain ⟨hnone, hpre⟩ := edit_erase ((Sys.init buf).run as).free hc ((Sys.init buf).run as).pending
    exact ⟨(congrArg _ hnone).trans (List.append_nil _), hpre⟩
  · rw [h.taken, ← h.passed, List.filter_map]
    rfl

/-- Process 0 asks for 200 bytes and gets the 128 that fill the ring; process 1 then reads a line, and process 0 the next. -/
def twoReaders : List Act :=
  .read 0 200 false :: List.replicate 128 (.key 97) ++ [.resume 0 false, .key 98, .key 10, .read 1 10 false, .key 99,
    .key 10, .resume 0 false]

/-- What the readers return is no part of what was committed, in any order. -/
theorem twoReaders_mixed : ((Sys.init fun _ => 0).run twoReaders).returns.map (fun x => (x.call, x.v)) = [(1, 2), (0, 130)] ∧
    ¬ (((Sys.init fun _ => 0).run twoReaders).takenBy 1 ++ ((Sys.init fun _ => 0).run twoReaders).takenBy 0 <+:
      ((Sys.init fun _ => 0).run twoReaders).committed) ∧
    ¬ (((Sys.init fun _ => 0).run twoReaders).takenBy 0 ++ ((Sys.init fun _ => 0).run twoReaders).takenBy 1 <+:
      ((Sys.init fun _ => 0).run twoReaders).committed) := by
  decide +kernel

end Console
end Xv6
