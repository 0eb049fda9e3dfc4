import Xv6.Lib.Traced
import Xv6.Lib.Window
/-!
# Io.Pipe — pipes (pipe.c)

The calls on one pipe, cut where a process sleeps: what a call does with `p->lock` held is one step.  The events of a step
are the bytes that it stores, or takes.
-/
namespace Xv6
namespace Io

abbrev Byte := BitVec 8

abbrev pipeSize : Nat := 512

structure Pipe where
  data      : Nat → Byte
  nread     : BitVec 32
  nwrite    : BitVec 32
  readopen  : Bool
  writeopen : Bool

/-- A step of a call ends with its return value, or asleep with the rest of its work. -/
inductive Pause (α : Type) where
  | ret (v : Int)
  | sleep (rest : α)

abbrev P := Prog Empty Pipe Byte

/-- `p->data[p->nwrite++ % PIPESIZE] = b`. -/
def Pipe.put (p : Pipe) (b : Byte) : Pipe :=
  { p with data := fun k => if k = p.nwrite.toNat % pipeSize then b else p.data k, nwrite := p.nwrite + 1 }

def put (b : Byte) : P Unit := do
  Prog.modify (·.put b)
  Prog.emit b

/-- The loop of `pipewrite` on the bytes that are left; a process that wakes up tests again. -/
def pipewriteLoop (killed : Bool) (n : Int) : List Byte → P (Pause (List Byte))
  | []     => pure (.ret n)
  | b :: l => do
    let p ← Prog.get
    if p.nwrite = p.nread + BitVec.ofNat 32 pipeSize then
      pure (if p.readopen = false ∨ killed = true then .ret (-1) else .sleep (b :: l))
    else
      put b
      pipewriteLoop killed n l

/-- `p->data[p->nread++ % PIPESIZE]`. -/
def get : P Unit := do
  let p ← Prog.get
  Prog.modify (fun p => { p with nread := p.nread + 1 })
  Prog.emit (p.data (p.nread.toNat % pipeSize))

/-- The loop of `piperead`, with the number of bytes that it copies. -/
def copy : Nat → P Nat
  | 0     => pure 0
  | n + 1 => do
    let p ← Prog.get
    if p.nread = p.nwrite then pure 0
    else
      get
      let i ← copy n
      pure (i + 1)

/-- `piperead`; a process that wakes up tests again. -/
def pipereadFrom (killed : Bool) (n : Int) : P (Pause Unit) := do
  let p ← Prog.get
  if p.nread = p.nwrite ∧ p.writeopen = true then pure (if killed = true then .ret (-1) else .sleep ())
  else
    let i ← copy n.toNat
    pure (.ret i)

def pipeclose (writable : Bool) (p : Pipe) : Pipe :=
  if writable then { p with writeopen := false } else { p with readopen := false }

/-! ## Processes -/

inductive Activity where
  | idle
  /-- Asleep in `pipewrite`, the call numbered `call`, with bytes left. -/
  | writing (call : Nat) (n : Int) (rest : List Byte)
  | reading (n : Int)

inductive Return where
  | write (call : Nat) (n v : Int)
  /-- From `piperead`, with the pipe as the last step found it. -/
  | read (n v : Int) (p : Pipe)

/-- The pipe and the processes, and what has happened: the bytes of each call of `pipewrite`, the bytes stored, each with
its call, the bytes taken, and the returns. -/
structure Sys where
  pipe    : Pipe
  doing   : Nat → Activity
  next    : Nat
  bytes   : Nat → List Byte
  stored  : List (Nat × Byte)
  taken   : List Byte
  returns : List Return

inductive Act where
  | write (q : Nat) (addr : Nat → Byte) (n : Int) (killed : Bool)
  | read (q : Nat) (n : Int) (killed : Bool)
  | close (writable : Bool)
  /-- A sleeping process goes on. -/
  | resume (q : Nat) (killed : Bool)

def Sys.set (s : Sys) (q : Nat) (a : Activity) : Sys := { s with doing := fun r => if r = q then a else s.doing r }

/-- After a step of `pipewrite`. -/
def Sys.wrote (s : Sys) (q call : Nat) (n : Int) (o : Outcome Empty Pipe Byte (Pause (List Byte))) : Sys :=
  let t := { s with pipe := o.st, stored := s.stored ++ o.tr.map (fun b => (call, b)) }
  match o.res with
  | .ok (.ret v)      => { t.set q .idle with returns := s.returns ++ [.write call n v] }
  | .ok (.sleep rest) => t.set q (.writing call n rest)
  | .error _          => t

/-- After a step of `piperead`. -/
def Sys.took (s : Sys) (q : Nat) (n : Int) (o : Outcome Empty Pipe Byte (Pause Unit)) : Sys :=
  let t := { s with pipe := o.st, taken := s.taken ++ o.tr }
  match o.res with
  | .ok (.ret v)   => { t.set q .idle with returns := s.returns ++ [.read n v s.pipe] }
  | .ok (.sleep _) => t.set q (.reading n)
  | .error _       => t

def Sys.write (s : Sys) (q call : Nat) (n : Int) (rest : List Byte) (killed : Bool) : Sys :=
  s.wrote q call n (pipewriteLoop killed n rest s.pipe)

def Sys.read (s : Sys) (q : Nat) (n : Int) (killed : Bool) : Sys := s.took q n (pipereadFrom killed n s.pipe)

/-- One step; a process is in one call at a time, and a pipe that is closed at both ends is gone. -/
def Sys.step (s : Sys) (a : Act) : Sys :=
  if s.pipe.readopen = false ∧ s.pipe.writeopen = false then s
  else
    match a with
    | .close writable => { s with pipe := pipeclose writable s.pipe }
    | .write q addr n killed =>
      match s.doing q with
      | .idle =>
        let bytes := (List.range n.toNat).map addr
        { s with
          next  := s.next + 1
          bytes := fun c => if c = s.next then bytes else s.bytes c }.write q s.next n bytes killed
      | _ => s
    | .read q n killed =>
      match s.doing q with
      | .idle => s.read q n killed
      | _     => s
    | .resume q killed =>
      match s.doing q with
      | .idle                => s
      | .writing call n rest => s.write q call n rest killed
      | .reading n           => s.read q n killed

/-- A pipe that `pipealloc` has made. -/
def Sys.init (data : Nat → Byte) : Sys := ⟨⟨data, 0, 0, true, true⟩, fun _ => .idle, 0, fun _ => [], [], [], []⟩

/-! ## The ring -/

/-- The bytes `l` are in the pipe. -/
structure Holds (p : Pipe) (l : List Byte) : Prop where
  length : l.length ≤ pipeSize
  nwrite : p.nwrite = p.nread + BitVec.ofNat 32 l.length
  window : Window pipeSize p.data p.nread.toNat l

variable {p : Pipe} {b : Byte} {l : List Byte} {n : Int} {killed : Bool}

theorem Holds.nil (p : Pipe) (h : p.nwrite = p.nread) : Holds p [] :=
  ⟨Nat.zero_le _, h.trans (BitVec.add_zero p.nread).symm, Window.nil⟩

theorem Holds.full (h : Holds p l) : p.nwrite = p.nread + BitVec.ofNat 32 pipeSize ↔ l.length = pipeSize := by
  have hl := h.length
  rw [h.nwrite]
  unfold pipeSize at *
  refine ⟨fun he => ?_, fun he => by rw [he]⟩
  bv_omega

theorem Holds.empty (h : Holds p l) : p.nread = p.nwrite ↔ l = [] := by
  have hl := h.length
  rw [h.nwrite]
  unfold pipeSize at *
  constructor
  · intro he
    refine List.eq_nil_of_length_eq_zero ?_
    bv_omega
  · rintro rfl
    exact (BitVec.add_zero p.nread).symm

theorem Holds.put (h : Holds p l) (hl : l.length < pipeSize) (b : Byte) : Holds (p.put b) (l ++ [b]) where
  length := by
    rw [List.length_append, List.length_singleton]
    exact hl
  nwrite := by
    rw [List.length_append, List.length_singleton]
    change p.nwrite + 1 = p.nread + _
    rw [h.nwrite]
    unfold pipeSize at *
    bv_omega
  window := by
    have hpush := h.window.push hl b
    rw [← toNat_add_mod (by decide), ← h.nwrite] at hpush
    exact hpush

theorem Holds.take (h : Holds p (b :: l)) : p.data (p.nread.toNat % pipeSize) = b ∧
    Holds { p with nread := p.nread + 1 } l := by
  refine ⟨h.window.head, Nat.le_of_succ_le h.length, ?_, h.window.pop.congr (toNat_add_mod (by decide) p.nread 1)⟩
  have hn := h.nwrite
  rw [List.length_cons] at hn
  change p.nwrite = p.nread + 1 + BitVec.ofNat 32 l.length
  rw [hn]
  bv_omega

theorem Holds.close (h : Holds p l) (writable : Bool) : Holds (pipeclose writable p) l := by
  cases writable with
  | false => exact ⟨h.length, h.nwrite, h.window⟩
  | true => exact ⟨h.length, h.nwrite, h.window⟩

open Prog (wpt wpt_bind wpt_get wpt_modify wpt_emit wpt_pure)

/-- **A step of `pipewrite`** stores the first bytes of what is left, in order. -/
theorem pipewriteLoop_wpt (killed : Bool) (n : Int) : ∀ (rest l : List Byte) (p : Pipe), Holds p l →
    wpt (pipewriteLoop killed n rest) (fun r t ev => Holds t (l ++ ev) ∧ ((r = .ret n ∧ ev = rest) ∨
      ∃ m, rest = ev ++ m ∧ m ≠ [] ∧ (r = .ret (-1) ∨ r = .sleep m))) (fun _ => False) p
  | [], l, p, h => ⟨(List.append_nil l).symm ▸ h, .inl ⟨rfl, rfl⟩⟩
  | b :: rest, l, p, h => by
    unfold pipewriteLoop
    rw [wpt_bind, wpt_get]
    refine Prog.wpt_ite (fun _ => ?_) fun hfull => ?_
    · refine ⟨(List.append_nil l).symm ▸ h, .inr ⟨b :: rest, rfl, List.cons_ne_nil b rest, ?_⟩⟩
      split
      · exact .inl rfl
      · exact .inr rfl
    · have hlt : l.length < pipeSize := Nat.lt_of_le_of_ne h.length fun e => hfull (h.full.2 e)
      unfold put
      rw [wpt_bind, wpt_bind, wpt_modify, wpt_emit]
      refine (pipewriteLoop_wpt killed n rest (l ++ [b]) _ (h.put hlt b)).imp fun r t ev ⟨hh, hr⟩ => ?_
      rw [List.append_assoc] at hh
      refine ⟨hh, ?_⟩
      rcases hr with ⟨hr, rfl⟩ | ⟨m, rfl, hm, hr⟩
      · exact .inl ⟨hr, rfl⟩
      · exact .inr ⟨m, rfl, hm, hr⟩

theorem copy_wpt : ∀ (n : Nat) (l : List Byte) (p : Pipe), Holds p l →
    wpt (copy n) (fun i t ev => i = ev.length ∧ ∃ m, l = ev ++ m ∧ Holds t m ∧ (ev.length = n ∨ m = [])) (fun _ => False) p
  | 0, l, p, h => ⟨rfl, l, rfl, h, .inl rfl⟩
  | n + 1, l, p, h => by
    unfold copy
    rw [wpt_bind, wpt_get]
    refine Prog.wpt_ite (fun he => ?_) fun he => ?_
    · exact ⟨rfl, l, rfl, h, .inr (h.empty.1 he)⟩
    · cases l with
      | nil => exact absurd (h.empty.2 rfl) he
      | cons b l =>
        obtain ⟨hb, ht⟩ := h.take
        unfold get
        rw [wpt_bind, wpt_bind, wpt_get, wpt_bind, wpt_modify, wpt_emit, wpt_bind]
        refine (copy_wpt n l _ ht).imp fun i t ev ⟨hi, m, hl, hm, hend⟩ => ?_
        subst hl
        rw [wpt_pure]
        refine ⟨?_, m, ?_, hm, ?_⟩
        · rw [hi]
          simp
        · simp [hb]
        · rcases hend with hend | hend
          · exact .inl (by simp [hend])
          · exact .inr hend

/-- **A step of `piperead`** takes the first bytes; it returns 0 when there are none and the write end is closed. -/
theorem pipereadFrom_wpt (killed : Bool) (n : Int) (h : Holds p l) :
    wpt (pipereadFrom killed n) (fun r t ev => ∃ m, l = ev ++ m ∧ Holds t m ∧
    ((ev = [] ∧ (r = .ret (-1) ∨ r = .sleep ())) ∨ r = .ret ev.length ∧
      (ev = [] → 0 < n → l = [] ∧ p.writeopen = false))) (fun _ => False) p := by
  unfold pipereadFrom
  rw [wpt_bind, wpt_get]
  refine Prog.wpt_ite (fun _ => ?_) fun he => ?_
  · refine ⟨l, rfl, h, .inl ⟨rfl, ?_⟩⟩
    split
    · exact .inl rfl
    · exact .inr rfl
  · rw [wpt_bind]
    refine (copy_wpt n.toNat l p h).imp fun i t ev ⟨hi, m, hl, hm, hend⟩ => ?_
    rw [wpt_pure, List.append_nil, List.nil_append]
    refine ⟨m, hl, hm, .inr ⟨by rw [hi], fun hev hn => ?_⟩⟩
    subst hev
    have hnil : l = [] := by
      rcases hend with hend | hend
      · rw [List.length_nil] at hend
        omega
      · rw [hl, hend]
        rfl
    rw [h.empty.2 hnil] at he
    exact ⟨hnil, by simpa using he⟩

/-! ## Runs -/

def Sys.storedBy (s : Sys) (c : Nat) : List Byte := (s.stored.filter (fun e => e.1 = c)).map Prod.snd

structure Inv (s : Sys) : Prop where
  /-- What was stored was taken, or is in the pipe. -/
  queue  : ∃ l, s.stored.map Prod.snd = s.taken ++ l ∧ Holds s.pipe l
  prefixes : ∀ c, s.storedBy c <+: s.bytes c
  /-- A sleeping writer has the rest of its bytes left. -/
  rest   : ∀ q c n m, s.doing q = .writing c n m → c < s.next ∧ s.storedBy c ++ m = s.bytes c ∧
    ∀ r n' m', s.doing r = .writing c n' m' → r = q
  fresh  : ∀ c, s.next ≤ c → s.storedBy c = []
  /-- A call of `pipewrite` that succeeds has stored all. -/
  wrote  : ∀ c n v, .write c n v ∈ s.returns → c < s.next ∧ (v ≠ -1 → s.storedBy c = s.bytes c ∧ v = n)
  /-- `piperead` returns 0 for want of writers only. -/
  ended  : ∀ n p, .read n 0 p ∈ s.returns → 0 < n → p.nread = p.nwrite ∧ p.writeopen = false

variable {s : Sys} {q call : Nat} {rest : List Byte}

theorem storedBy_append (l : List (Nat × Byte)) (call c : Nat) (ev : List Byte) :
    ((l ++ ev.map (fun b => (call, b))).filter (fun e => e.1 = c)).map Prod.snd =
      (l.filter (fun e => e.1 = c)).map Prod.snd ++ if c = call then ev else [] := by
  rw [List.filter_append, List.map_append, List.filter_map, List.map_map]
  split_ifs with hc
  · subst hc
    have hall : ev.filter ((fun e : Nat × Byte => decide (e.1 = c)) ∘ fun b => (c, b)) = ev :=
      List.filter_eq_self.2 fun _ _ => decide_eq_true rfl
    rw [hall]
    exact congrArg _ (List.map_id ev)
  · have hnone : ev.filter ((fun e : Nat × Byte => decide (e.1 = c)) ∘ fun b => (call, b)) = [] :=
      List.filter_eq_nil_iff.2 fun _ _ h => hc (of_decide_eq_true h).symm
    rw [hnone]
    rfl

theorem Inv.stores (h : Inv s) (hc : call < s.next) {ev m l : List Byte}
    (hrest : s.storedBy call ++ (ev ++ m) = s.bytes call)
    (hown : ∀ r n' m', s.doing r = .writing call n' m' → r = q) (hl : s.stored.map Prod.snd = s.taken ++ l)
    (hp : Holds p (l ++ ev)) {a : Activity} (ha : a = .idle ∨ a = .writing call n m) {news : List Return}
    (hnews : ∀ e ∈ news, ∃ v, e = .write call n v ∧ (v ≠ -1 → m = [] ∧ v = n)) :
    Inv { s.set q a with pipe := p, stored := s.stored ++ ev.map (fun b => (call, b)), returns := s.returns ++ news } := by
  have hby := fun c => storedBy_append s.stored call c ev
  refine ⟨⟨l ++ ev, ?_, hp⟩, fun c => ?_, fun r c n' m' hr => ?_, fun c hcn => ?_, fun c n' v hv => ?_, fun n' p' hp' => ?_⟩
  · simp only [Sys.set, List.map_append, List.map_map, hl, List.append_assoc]
    exact congrArg _ (congrArg _ (List.map_id ev))
  · have hpre : (s.storedBy c ++ if c = call then ev else []) <+: s.bytes c := by
      split_ifs with he
      · subst he
        refine ⟨m, ?_⟩
        rw [List.append_assoc]
        exact hrest
      · rw [List.append_nil]
        exact h.prefixes c
    unfold Sys.storedBy at hpre
    rw [← hby c] at hpre
    exact hpre
  · change (if r = q then a else s.doing r) = _ at hr
    split_ifs at hr with hrq
    · rcases ha with rfl | rfl
      · cases hr
      · cases hr
        refine ⟨hc, ?_, fun r' n'' m'' hr' => ?_⟩
        · refine (congrArg (· ++ m) (hby call)).trans ?_
          rw [if_pos rfl, List.append_assoc]
          exact hrest
        · change (if r' = q then _ else s.doing r') = _ at hr'
          split_ifs at hr' with hr'q
          · rw [hr'q, hrq]
          · rw [hown r' n'' m'' hr', hrq]
    · have hne : c ≠ call := by
        rintro rfl
        exact hrq (hown r n' m' hr)
      obtain ⟨hcn, hm, huniq⟩ := h.rest r c n' m' hr
      refine ⟨hcn, ?_, fun r' n'' m'' hr' => ?_⟩
      · refine (congrArg (· ++ m') (hby c)).trans ?_
        rw [if_neg hne, List.append_nil]
        exact hm
      · change (if r' = q then a else s.doing r') = _ at hr'
        split_ifs at hr' with hr'q
        · rcases ha with rfl | rfl
          · cases hr'
          · cases hr'
            exact absurd rfl hne
        · exact huniq r' n'' m'' hr'
  · have hne : c ≠ call := Nat.ne_of_gt (Nat.lt_of_lt_of_le hc hcn)
    refine (hby c).trans ?_
    rw [if_neg hne, List.append_nil]
    exact h.fresh c hcn
  · rcases List.mem_append.1 hv with hv | hv
    · refine ⟨(h.wrote c n' v hv).1, fun hne => ?_⟩
      obtain ⟨hall, hvn⟩ := (h.wrote c n' v hv).2 hne
      refine ⟨(hby c).trans ?_, hvn⟩
      split_ifs with he
      · subst he
        have hev : ev = [] := by
          have hlen := congrArg List.length (hall.trans hrest.symm)
          rw [List.length_append, List.length_append] at hlen
          exact List.eq_nil_of_length_eq_zero (by omega)
        rw [hev, List.append_nil]
        exact hall
      · rw [List.append_nil]
        exact hall
    · obtain ⟨v', he, hm⟩ := hnews _ hv
      cases he
      refine ⟨hc, fun hne => ?_⟩
      obtain ⟨rfl, hvn⟩ := hm hne
      refine ⟨(hby call).trans ?_, hvn⟩
      rw [List.append_nil] at hrest
      rw [if_pos rfl]
      exact hrest
  · rcases List.mem_append.1 hp' with hp' | hp'
    · exact h.ended n' p' hp'
    · obtain ⟨v', he, -⟩ := hnews _ hp'
      cases he

theorem Inv.write (h : Inv s) (hc : call < s.next) (hrest : s.storedBy call ++ rest = s.bytes call)
    (hown : ∀ r n' m', s.doing r = .writing call n' m' → r = q) (n : Int) (killed : Bool) :
    Inv (s.write q call n rest killed) := by
  obtain ⟨l, hl, hp⟩ := h.queue
  obtain ⟨r, t, ev, hrun, hh, hcase⟩ := (pipewriteLoop_wpt killed n rest l s.pipe hp).run
  unfold Sys.write
  rw [hrun]
  rcases hcase with ⟨rfl, rfl⟩ | ⟨m, rfl, hm, rfl | rfl⟩
  · refine h.stores (n := n) (m := []) hc (by rwa [List.append_nil]) hown hl hh (.inl rfl) fun e he => ?_
    exact ⟨n, List.mem_singleton.1 he, fun _ => ⟨rfl, rfl⟩⟩
  · refine h.stores (n := n) hc hrest hown hl hh (.inl rfl) fun e he => ?_
    exact ⟨-1, List.mem_singleton.1 he, fun hne => absurd rfl hne⟩
  · have hstep := h.stores (n := n) (m := m) hc hrest hown hl hh (.inr rfl) fun e he => absurd he List.not_mem_nil
    rw [List.append_nil] at hstep
    exact hstep

theorem Inv.read (h : Inv s) (q : Nat) (n : Int) (killed : Bool) : Inv (s.read q n killed) := by
  obtain ⟨l, hl, hp⟩ := h.queue
  obtain ⟨r, t, ev, hrun, m, rfl, hh, hcase⟩ := (pipereadFrom_wpt killed n hp).run
  have hqueue : s.stored.map Prod.snd = s.taken ++ ev ++ m := by rw [hl, List.append_assoc]
  have hkeep : ∀ (a : Activity) (news : List Return), (∀ c n' m', a ≠ .writing c n' m') →
      (∀ e ∈ news, ∃ v, e = .read n v s.pipe ∧ (v = 0 → 0 < n → s.pipe.nread = s.pipe.nwrite ∧ s.pipe.writeopen = false)) →
      Inv { s.set q a with pipe := t, taken := s.taken ++ ev, returns := s.returns ++ news } := by
    intro a news ha hnews
    have hdoing : ∀ r c n' m', (s.set q a).doing r = .writing c n' m' → s.doing r = .writing c n' m' := by
      intro r c n' m' hr
      change (if r = q then a else s.doing r) = _ at hr
      split_ifs at hr with hrq
      · exact absurd hr (ha c n' m')
      · exact hr
    refine ⟨⟨m, hqueue, hh⟩, h.prefixes, fun r c n' m' hr => ?_, h.fresh, fun c n' v hv => ?_, fun n' p' hp' hn' => ?_⟩
    · obtain ⟨hcn, hm, huniq⟩ := h.rest r c n' m' (hdoing r c n' m' hr)
      exact ⟨hcn, hm, fun r' n'' m'' hr' => huniq r' n'' m'' (hdoing r' c n'' m'' hr')⟩
    · rcases List.mem_append.1 hv with hv | hv
      · exact h.wrote c n' v hv
      · obtain ⟨v', he, -⟩ := hnews _ hv
        cases he
    · rcases List.mem_append.1 hp' with hp' | hp'
      · exact h.ended n' p' hp' hn'
      · obtain ⟨v', he, hv⟩ := hnews _ hp'
        cases he
        exact hv rfl hn'
  unfold Sys.read
  rw [hrun]
  rcases hcase with ⟨-, rfl | rfl⟩ | ⟨rfl, hzero⟩
  · refine hkeep .idle [.read n (-1) s.pipe] (fun _ _ _ he => by cases he) fun e he => ?_
    exact ⟨-1, List.mem_singleton.1 he, fun h0 => absurd h0 (by decide)⟩
  · have hstep := hkeep (.reading n) [] (fun _ _ _ he => by cases he) fun e he => absurd he List.not_mem_nil
    rw [List.append_nil] at hstep
    exact hstep
  · refine hkeep .idle [.read n _ s.pipe] (fun _ _ _ he => by cases he) fun e he => ?_
    refine ⟨_, List.mem_singleton.1 he, fun h0 hn => ?_⟩
    obtain ⟨hnil, hclosed⟩ := hzero (List.eq_nil_of_length_eq_zero (Int.ofNat_eq_zero.1 h0)) hn
    exact ⟨hp.empty.2 hnil, hclosed⟩

theorem Inv.numbered (h : Inv s) (bytes : List Byte) :
    Inv { s with next := s.next + 1, bytes := fun c => if c = s.next then bytes else s.bytes c } where
  queue := h.queue
  prefixes c := by
    change s.storedBy c <+: if c = s.next then bytes else s.bytes c
    split_ifs with he
    · rw [h.fresh c (Nat.le_of_eq he.symm)]
      exact List.nil_prefix
    · exact h.prefixes c
  rest q c n m hr := by
    obtain ⟨hcn, hm, huniq⟩ := h.rest q c n m hr
    exact ⟨Nat.lt_succ_of_lt hcn, hm.trans (if_neg (Nat.ne_of_lt hcn)).symm, huniq⟩
  fresh c hc := h.fresh c (Nat.le_of_succ_le hc)
  wrote c n v hv := by
    obtain ⟨hcn, hall⟩ := h.wrote c n v hv
    refine ⟨Nat.lt_succ_of_lt hcn, fun hne => ⟨(hall hne).1.trans (if_neg (Nat.ne_of_lt hcn)).symm, (hall hne).2⟩⟩
  ended := h.ended

theorem Inv.step (h : Inv s) (a : Act) : Inv (s.step a) := by
  unfold Sys.step
  split_ifs
  · exact h
  · cases a with
    | close writable =>
      refine ⟨?_, h.prefixes, h.rest, h.fresh, h.wrote, h.ended⟩
      obtain ⟨l, hl, hp⟩ := h.queue
      exact ⟨l, hl, hp.close writable⟩
    | write q addr n killed =>
      dsimp only
      split
      · refine (h.numbered _).write (Nat.lt_succ_self _) ?_ (fun r n' m' hr => ?_) n killed
        · refine (congrArg (· ++ _) (h.fresh s.next (Nat.le_refl _))).trans ?_
          exact (if_pos rfl).symm
        · exact absurd (h.rest r s.next n' m' hr).1 (Nat.lt_irrefl _)
      · exact h
    | read q n killed =>
      dsimp only
      split
      · exact h.read q n killed
      · exact h
    | resume q killed =>
      dsimp only
      split
      · exact h
      · rename_i call n rest hw
        obtain ⟨hc, hrest, huniq⟩ := h.rest q call n rest hw
        exact h.write hc hrest huniq n killed
      · exact h.read q _ killed

theorem Inv.init (data : Nat → Byte) : Inv (Sys.init data) where
  queue := ⟨[], rfl, Holds.nil _ rfl⟩
  prefixes _ := List.prefix_refl _
  rest _ _ _ _ h := by cases h
  fresh _ _ := rfl
  wrote _ _ _ h := absurd h List.not_mem_nil
  ended _ _ h := absurd h List.not_mem_nil

theorem Inv.run (acts : List Act) : ∀ s, Inv s → Inv (acts.foldl Sys.step s) := by
  induction acts with
  | nil => exact fun _ h => h
  | cons a acts ih => exact fun s h => ih _ (h.step a)

structure Fifo (s : Sys) : Prop where
  bounded : (s.pipe.nwrite - s.pipe.nread).toNat ≤ pipeSize
  /-- The bytes taken are the first of those stored, and the pipe holds the others. -/
  taken   : ∃ l, s.stored.map Prod.snd = s.taken ++ l ∧ l.length = (s.pipe.nwrite - s.pipe.nread).toNat ∧
    Window pipeSize s.pipe.data s.pipe.nread.toNat l
  /-- The bytes of a call are stored in order, and all of them where it succeeds. -/
  stored  : ∀ c, s.storedBy c <+: s.bytes c
  wrote   : ∀ c n v, .write c n v ∈ s.returns → v ≠ -1 → s.storedBy c = s.bytes c ∧ v = n
  /-- `piperead` returns 0 where the pipe is empty and the write end closed. -/
  ended   : ∀ n p, .read n 0 p ∈ s.returns → 0 < n → p.nread = p.nwrite ∧ p.writeopen = false

theorem Holds.count (h : Holds p l) : (p.nwrite - p.nread).toNat = l.length := by
  have hle := h.length
  rw [h.nwrite]
  unfold pipeSize at hle
  bv_omega

/-- **A pipe is a bounded FIFO**, whatever the processes do. -/
theorem pipe_fifo (data : Nat → Byte) (acts : List Act) : Fifo (acts.foldl Sys.step (Sys.init data)) := by
  have h := Inv.run acts _ (Inv.init data)
  obtain ⟨l, hl, hp⟩ := h.queue
  exact ⟨hp.count ▸ hp.length, ⟨l, hl, hp.count.symm, hp.window⟩, h.prefixes, fun c n v hv => (h.wrote c n v hv).2, h.ended⟩

end Io
end Xv6
