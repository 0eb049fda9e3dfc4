import Xv6.Lib.Cells
import Xv6.Lib.Lines
import Xv6.Lib.Pattern
import Xv6.Lib.Prog
import Xv6.User.Input
/-!
# User.Grep — the matcher and the buffer of grep (grep.c)

`match`, `matchhere` and `matchstar` walk two strings, a suffix of a list being what a pointer into it stands for; they
accept the language of the pattern.  `grep` reads into a buffer, cuts it into lines in place and moves what is left over to
its start.
-/
namespace Xv6
namespace Grep

open User (Byte Input)
open Computability

def nl     : Byte := 10
def dollar : Byte := 36
def star   : Byte := 42
def dot    : Byte := 46
def caret  : Byte := 94

/-! ## The matcher -/

def matchstar (c : Byte) (here : List Byte → Bool) : List Byte → Bool
  | []        => here []
  | t :: text => here (t :: text) || (decide (t = c ∨ c = dot) && matchstar c here text)

/-- The last test of `matchhere`, where `here` is `matchhere(re+1, ·)`. -/
def matchone (c : Byte) (here : List Byte → Bool) : List Byte → Bool
  | []        => false
  | t :: text => decide (c = dot ∨ c = t) && here text

def matchhere : List Byte → List Byte → Bool
  | [], _              => true
  | [c], text          => if c = dollar then decide (text = []) else matchone c (fun _ => true) text
  | c :: d :: re, text => if d = star then matchstar c (matchhere re) text else matchone c (matchhere (d :: re)) text

/-- The loop of `match`. -/
def matchany (here : List Byte → Bool) : List Byte → Bool
  | []        => here []
  | t :: text => here (t :: text) || matchany here text

/-- `match(re, text)`. -/
def «match» (re text : List Byte) : Bool :=
  if re.head? = some caret then matchhere re.tail text else matchany (matchhere re) text

/-! ## The pattern that a string is -/

def letter (c : Byte) : Option Byte := if c = dot then none else some c

/-- The items of a string, and whether it ends with `$`. -/
def items : List Byte → List (Item Byte) × Bool
  | []           => ([], false)
  | [c]          => if c = dollar then ([], true) else ([.one (letter c)], false)
  | c :: d :: re =>
    if d = star then (.star (letter c) :: (items re).1, (items re).2)
    else (.one (letter c) :: (items (d :: re)).1, (items (d :: re)).2)

def pattern (re : List Byte) : Pattern Byte :=
  if re.head? = some caret then ⟨true, (items re.tail).1, (items re.tail).2⟩ else ⟨false, (items re).1, (items re).2⟩

variable {c : Byte} {here : List Byte → Bool} {l : Language Byte} {re text : List Byte}

theorem letter_accepts (c t : Byte) : letter c = none ∨ letter c = some t ↔ c = dot ∨ c = t := by
  unfold letter
  split_ifs with h <;> simp [h]

theorem matchone_iff (h : ∀ t, here t = true ↔ t ∈ l) (text : List Byte) :
    matchone c here text = true ↔ text ∈ symbol (letter c) * l := by
  rw [Pattern.mem_symbol_mul]
  cases text with
  | nil => simp [matchone]
  | cons t text => simp [matchone, h, letter_accepts]

theorem matchstar_iff (h : ∀ t, here t = true ↔ t ∈ l) (text : List Byte) :
    matchstar c here text = true ↔ text ∈ (symbol (letter c))∗ * l := by
  induction text with
  | nil =>
    rw [Pattern.mem_star_mul, Pattern.mem_symbol_mul]
    simp [matchstar, h]
  | cons t text ih =>
    rw [Pattern.mem_star_mul, Pattern.mem_symbol_mul]
    have hc : (t = c ∨ c = dot) ↔ (letter c = none ∨ letter c = some t) := by
      rw [letter_accepts, or_comm, eq_comm (a := t)]
    simp [matchstar, h, ih, hc]

theorem matchany_iff (h : ∀ t, here t = true ↔ t ∈ l) (text : List Byte) :
    matchany here text = true ↔ text ∈ ⊤ * l := by
  induction text with
  | nil => simp [matchany, h, Pattern.nil_mem_top_mul]
  | cons t text ih => simp [matchany, h, ih, Pattern.mem_top_mul_cons]

theorem matchhere_iff : ∀ re text : List Byte,
    matchhere re text = true ↔ text ∈ Pattern.tail (items re).1 (items re).2
  | [], text          => by simp [matchhere, items, Pattern.tail_nil_false, Pattern.mem_top]
  | [c], text         => by
    by_cases hc : c = dollar
    · simp [matchhere, items, hc, Pattern.tail_nil_true]
    · simp only [matchhere, items, if_neg hc, Pattern.tail_one, Pattern.tail_nil_false]
      exact matchone_iff (fun t => by simp [Pattern.mem_top]) text
  | c :: d :: re, text => by
    by_cases hd : d = star
    · simp only [matchhere, items, if_pos hd, Pattern.tail_star]
      exact matchstar_iff (matchhere_iff re) text
    · simp only [matchhere, items, if_neg hd, Pattern.tail_one]
      exact matchone_iff (matchhere_iff (d :: re)) text

/-- **`match` accepts the language of its pattern.** -/
theorem match_iff (re text : List Byte) : «match» re text = true ↔ text ∈ (pattern re).lang := by
  unfold «match» pattern
  split
  · simp [Pattern.lang, matchhere_iff]
  · simp [Pattern.lang, matchany_iff (matchhere_iff re)]

/-! ## The buffer -/

inductive Stop where
  /-- An access outside the buffer. -/
  | outside
  /-- A loop does not end. -/
  | stuck

structure State where
  buf   : Nat → Byte
  input : Input

/-- An event is what one `write(1, ..)` writes. -/
abbrev C := Prog Stop State (List Byte)

abbrev bufSize : Nat := 1024

def load (s : Nat) : C Byte := if s < bufSize then Prog.read (fun p => p.buf s) else Prog.stop .outside

def State.set (p : State) (s : Nat) (c : Byte) : State := { p with buf := Function.update p.buf s c }

def store (s : Nat) (c : Byte) : C Unit :=
  if s < bufSize then Prog.modify (fun p => p.set s c) else Prog.stop .outside

def strchr (c : Byte) : Nat → Nat → C (Option Nat)
  | 0, _     => Prog.stop .stuck
  | k + 1, s => do
    let x ← load s
    if x = 0 then pure none else if x = c then pure (some s) else strchr c k (s + 1)

def cstring : Nat → Nat → C (List Byte)
  | 0, _     => Prog.stop .stuck
  | k + 1, s => do
    let x ← load s
    if x = 0 then pure [] else do
      let text ← cstring k (s + 1)
      pure (x :: text)

/-- The `n` bytes at a pointer. -/
def bytes : Nat → Nat → C (List Byte)
  | 0, _     => pure []
  | n + 1, s => do
    let x ← load s
    let l ← bytes n (s + 1)
    pure (x :: l)

def put : List Byte → Nat → C Unit
  | [], _     => pure ()
  | x :: l, s => do
    store s x
    put l (s + 1)

def memmove : Nat → Nat → Nat → C Unit
  | 0, _, _         => pure ()
  | n + 1, dst, src => do
    let x ← load src
    store dst x
    memmove n (dst + 1) (src + 1)

def read (m len : Nat) : C (Option Nat) := do
  let inp ← Prog.read (fun p => p.input)
  Prog.modify (fun p => { p with input := (User.read len inp).2 })
  match (User.read len inp).1 with
  | some (c :: l) => do
    put (c :: l) m
    pure (some (c :: l).length)
  | _             => pure none

variable (re : List Byte)

/-- The line from `p` to `q`, where the newline is. -/
def oneLine (p q : Nat) : C Unit := do
  store q 0
  let text ← cstring bufSize p
  Prog.when («match» re text = true) do
    store q nl
    let line ← bytes (q + 1 - p) p
    Prog.emit line

/-- The inner loop of `grep`, from `p` on; it ends with the last value of `p`. -/
def eachLine : Nat → Nat → C Nat
  | 0, _     => Prog.stop .stuck
  | k + 1, p => do
    let q ← strchr nl bufSize p
    match q with
    | none   => pure p
    | some q => do
      oneLine re p q
      eachLine k (q + 1)

/-- The loop of `grep`, with `m` bytes in the buffer. -/
def grepLoop : Nat → Nat → C Unit
  | 0, _     => Prog.stop .stuck
  | k + 1, m => do
    let n ← read m (bufSize - m - 1)
    match n with
    | none   => pure ()
    | some n => do
      let m := m + n
      store m 0
      let p ← eachLine re bufSize 0
      let m := if p = 0 then 0 else m
      if 0 < m then do
        memmove (m - p) 0 p
        grepLoop k (m - p)
      else grepLoop k m

def grep : C Unit := do
  let inp ← Prog.read (fun p => p.input)
  grepLoop re (inp.size + 1) 0

/-! ## What the buffer's functions do -/

section Buffer

variable {p q k n : Nat} {s : State} {l a b : List Byte}

/-- A string is in the buffer at `p`. -/
structure Text (s : State) (p : Nat) (l : List Byte) : Prop where
  cells : Cells s.buf p (l ++ [0])
  nul   : 0 ∉ l
  fits  : p + l.length < bufSize

theorem Text.tail {x : Byte} (h : Text s p (x :: l)) : Text s (p + 1) l :=
  ⟨h.cells.2, fun hm => h.nul (List.mem_cons_of_mem x hm), by have := h.fits; simp only [List.length_cons] at this; omega⟩

theorem load_run (h : p < bufSize) : load p s = ⟨.ok (s.buf p), s, []⟩ := by
  unfold load
  rw [if_pos h]
  rfl

theorem store_run (h : p < bufSize) (x : Byte) :
    store p x s = ⟨.ok (), s.set p x, []⟩ := by
  unfold store
  rw [if_pos h]
  rfl

theorem Text.load_nil (h : Text s p []) : load p s = ⟨.ok 0, s, []⟩ := by
  have hfits := h.fits
  rw [load_run (by omega), h.cells.1]

theorem Text.load_cons {x : Byte} (h : Text s p (x :: l)) : load p s = ⟨.ok x, s, []⟩ := by
  have hfits := h.fits
  rw [load_run (by omega), h.cells.1]

theorem strchr_none : ∀ {k p : Nat} {l : List Byte}, Text s p l → nl ∉ l → l.length < k →
    strchr nl k p s = ⟨.ok none, s, []⟩
  | 0, _, _, _, _, hk         => by omega
  | k + 1, p, [], h, _, _     => by
    rw [strchr, Prog.bind_run_nil h.load_nil]
    rfl
  | k + 1, p, x :: l, h, hl, hk => by
    have hx : x ≠ 0 := fun e => h.nul (e ▸ List.mem_cons_self)
    have hnl : x ≠ nl := fun e => hl (e ▸ List.mem_cons_self)
    rw [strchr, Prog.bind_run_nil h.load_cons, if_neg hx, if_neg hnl]
    exact strchr_none h.tail (fun hm => hl (List.mem_cons_of_mem x hm)) (by simp at hk; omega)

theorem strchr_some : ∀ {k p : Nat} {a : List Byte}, Text s p (a ++ nl :: b) → nl ∉ a → a.length < k →
    strchr nl k p s = ⟨.ok (some (p + a.length)), s, []⟩
  | 0, _, _, _, _, hk             => by omega
  | k + 1, p, [], h, _, _         => by
    rw [strchr, Prog.bind_run_nil h.load_cons]
    rfl
  | k + 1, p, x :: a, h, hl, hk => by
    have hx : x ≠ 0 := fun e => h.nul (e ▸ List.mem_cons_self)
    have hnl : x ≠ nl := fun e => hl (e ▸ List.mem_cons_self)
    rw [strchr, Prog.bind_run_nil h.load_cons, if_neg hx, if_neg hnl,
      strchr_some h.tail (fun hm => hl (List.mem_cons_of_mem x hm)) (by simp at hk; omega), List.length_cons,
      Nat.add_right_comm, Nat.add_assoc]

theorem cstring_run : ∀ {k p : Nat} {l : List Byte}, Text s p l → l.length < k → cstring k p s = ⟨.ok l, s, []⟩
  | 0, _, _, _, hk          => by omega
  | k + 1, p, [], h, _      => by
    rw [cstring, Prog.bind_run_nil h.load_nil]
    rfl
  | k + 1, p, x :: l, h, hk => by
    have hx : x ≠ 0 := fun e => h.nul (e ▸ List.mem_cons_self)
    rw [cstring, Prog.bind_run_nil h.load_cons, if_neg hx, Prog.bind_run_nil (cstring_run h.tail (by simp at hk; omega))]
    rfl

theorem bytes_run : ∀ {l : List Byte} {p : Nat}, Cells s.buf p l → p + l.length ≤ bufSize →
    bytes l.length p s = ⟨.ok l, s, []⟩
  | [], _, _, _      => rfl
  | x :: l, p, h, hb => by
    rw [List.length_cons] at hb
    rw [List.length_cons, bytes, Prog.bind_run_nil (load_run (by omega)),
      Prog.bind_run_nil (bytes_run h.2 (by omega)), h.1]
    rfl

theorem put_run : ∀ {l : List Byte} {p : Nat} {s : State}, p + l.length ≤ bufSize →
    put l p s = ⟨.ok (), { s with buf := Cells.fill l p s.buf }, []⟩
  | [], _, _, _      => rfl
  | x :: l, p, s, hb => by
    rw [List.length_cons] at hb
    rw [put, Prog.bind_run_nil (store_run (by omega) x), put_run (by omega)]
    rfl

/-- **A move to lower cells**: each byte is read before its cell is written. -/
theorem memmove_run : ∀ {l : List Byte} {dst src : Nat} {s : State}, Cells s.buf src l → dst ≤ src →
    src + l.length ≤ bufSize →
      ∃ buf, memmove l.length dst src s = ⟨.ok (), { s with buf := buf }, []⟩ ∧ Cells buf dst l ∧
        ∀ i, i < dst → buf i = s.buf i
  | [], _, _, s, _, _, _             => ⟨s.buf, rfl, trivial, fun _ _ => rfl⟩
  | x :: l, dst, src, s, h, hle, hb => by
    rw [List.length_cons] at hb
    have hnext : Cells (Function.update s.buf dst x) (src + 1) l :=
      h.2.congr fun i hi _ => Function.update_of_ne (by omega) _ _
    obtain ⟨buf, hrun, hcells, hlow⟩ :=
      memmove_run (s := s.set dst x) hnext (show dst + 1 ≤ src + 1 by omega) (by omega)
    refine ⟨buf, ?_, ⟨?_, hcells⟩, fun i hi => ?_⟩
    · rw [List.length_cons, memmove, Prog.bind_run_nil (load_run (by omega)), h.1,
        Prog.bind_run_nil (store_run (by omega) x), hrun]
      rfl
    · rw [hlow dst (by omega)]
      exact Function.update_self ..
    · rw [hlow i (by omega)]
      exact Function.update_of_ne (by omega) _ _

def printed (re l : List Byte) : List (List Byte) := ((l.lines nl).filter («match» re)).map (· ++ [nl])

theorem printed_of_notMem (h : nl ∉ l) : printed re l = [] := by simp [printed, List.lines_of_notMem h]

theorem printed_append_cons (h : nl ∉ a) :
    printed re (a ++ nl :: b) = (if «match» re a = true then [a ++ [nl]] else []) ++ printed re b := by
  unfold printed
  rw [List.lines_append_cons h]
  split_ifs with hm <;> simp [hm]

@[simp] theorem set_self (s : State) (p : Nat) (x : Byte) : (s.set p x).buf p = x := Function.update_self ..

theorem set_other (h : q ≠ p) (x : Byte) : (s.set p x).buf q = s.buf q := Function.update_of_ne h ..

theorem oneLine_run (h : Text s p (a ++ nl :: b)) :
    ∃ buf, oneLine re p (p + a.length) s =
        ⟨.ok (), { s with buf := buf }, if «match» re a = true then [a ++ [nl]] else []⟩ ∧
      ∀ i, i ≠ p + a.length → buf i = s.buf i := by
  have hfits := h.fits
  simp only [List.length_append, List.length_cons] at hfits
  have hcells : Cells s.buf p a := (Cells.append_iff.1 (Cells.append_iff.1 h.cells).1).1
  have hkeep : ∀ {t : State}, (∀ i, i ≠ p + a.length → t.buf i = s.buf i) → Cells t.buf p a := fun ht =>
    hcells.congr fun i _ hi => ht i (by omega)
  have hset : ∀ (x : Byte) (i : Nat), i ≠ p + a.length → (s.set (p + a.length) x).buf i = s.buf i := fun x i hi =>
    set_other hi x
  have hline : Text (s.set (p + a.length) 0) p a :=
    ⟨Cells.append_iff.2 ⟨hkeep (hset 0), by simp⟩, fun hm => h.nul (List.mem_append_left _ hm), by omega⟩
  rw [oneLine, Prog.bind_run_nil (store_run (by omega) 0), Prog.bind_run_nil (cstring_run hline (by omega))]
  by_cases hm : «match» re a = true
  · have hset' : ∀ i, i ≠ p + a.length → ((s.set (p + a.length) 0).set (p + a.length) nl).buf i = s.buf i := fun i hi => by
      rw [set_other hi, hset 0 i hi]
    have hbytes := bytes_run (s := (s.set (p + a.length) 0).set (p + a.length) nl) (l := a ++ [nl]) (p := p)
      (Cells.append_iff.2 ⟨hkeep hset', by simp⟩) (by simp; omega)
    have hlen : p + a.length + 1 - p = (a ++ [nl]).length := by simp; omega
    rw [Prog.when_pos hm, if_pos hm, Prog.bind_run_nil (store_run (by omega) nl), hlen, Prog.bind_run_nil hbytes]
    exact ⟨_, rfl, hset'⟩
  · rw [Prog.when_neg hm, if_neg hm]
    exact ⟨_, rfl, hset 0⟩

/-- **The lines of a text are written in order**, and the pointer comes to what is unended. -/
theorem eachLine_run : ∀ {k : Nat} {l : List Byte} {p : Nat} {s : State}, Text s p l → l.length < k →
    ∃ buf q, eachLine re k p s = ⟨.ok q, { s with buf := buf }, printed re l⟩ ∧
      q + (l.unended nl).length = p + l.length ∧ ∀ i, q ≤ i → buf i = s.buf i
  | 0, _, _, _, _, hk     => by omega
  | k + 1, l, p, s, h, hk => by
    have hfits := h.fits
    by_cases hl : nl ∈ l
    · obtain ⟨a, b, rfl, ha⟩ := List.eq_append_cons_of_mem hl
      obtain ⟨buf, hone, hsame⟩ := oneLine_run re h
      simp only [List.length_append, List.length_cons] at hfits hk
      have hcells : Cells s.buf (p + a.length) (nl :: (b ++ [0])) := by
        have := h.cells
        rw [List.append_assoc] at this
        exact (Cells.append_iff.1 this).2
      have hnext : Text { s with buf := buf } (p + a.length + 1) b :=
        ⟨hcells.2.congr fun i hi _ => hsame i (by omega),
          fun hm => h.nul (List.mem_append_right _ (List.mem_cons_of_mem _ hm)), by omega⟩
      obtain ⟨buf', q, hrun, hlen, hsame'⟩ := eachLine_run (k := k) hnext (by omega)
      have hle := List.length_unended_le nl b
      refine ⟨buf', q, ?_, ?_, fun i hi => ?_⟩
      · rw [eachLine, Prog.bind_run_nil (strchr_some h ha (by omega)), printed_append_cons re ha]
        simp only [Prog.bind_run_ok hone, hrun]
      · rw [List.unended_append_cons ha]
        simp only [List.length_append, List.length_cons]
        omega
      · rw [hsame' i hi]
        exact hsame i (by omega)
    · refine ⟨s.buf, p, ?_, by rw [List.unended_of_notMem hl], fun _ _ => rfl⟩
      rw [eachLine, Prog.bind_run_nil (strchr_none h hl (by omega)), printed_of_notMem re hl]
      rfl

/-- **What `grep` writes of an input**: it keeps what a read leaves unended, unless the buffer holds no newline at all. -/
def fed : Nat → List Byte → Input → List (List Byte)
  | 0, _, _           => []
  | k + 1, carry, inp =>
    match User.read (bufSize - carry.length - 1) inp with
    | (some (c :: d), inp) =>
      printed re (carry ++ c :: d) ++ fed k (if (carry ++ c :: d).contains nl then (carry ++ c :: d).unended nl else []) inp
    | _                    => []

theorem read_run {m len : Nat} {c : Byte} {d : List Byte} {inp : Input}
    (h : User.read len s.input = (some (c :: d), inp)) (hm : m + len ≤ bufSize) :
    Grep.read m len s = ⟨.ok (some (c :: d).length), ⟨Cells.fill (c :: d) m s.buf, inp⟩, []⟩ := by
  have hlen := (User.read_some h (List.cons_ne_nil c d)).2.2.2
  unfold Grep.read
  rw [Prog.read_bind_run, Prog.modify_bind_run]
  simp only [h]
  rw [Prog.bind_run_nil (put_run (by omega))]
  rfl

theorem read_end {m len : Nat} {r : Option (List Byte)} {inp : Input} (h : User.read len s.input = (r, inp))
    (hr : r.getD [] = []) : Grep.read m len s = ⟨.ok none, { s with input := inp }, []⟩ := by
  unfold Grep.read
  rw [Prog.read_bind_run, Prog.modify_bind_run]
  simp only [h]
  cases r with
  | none => rfl
  | some l =>
    obtain rfl : l = [] := hr
    rfl

/-- **The lines of a full buffer**: its first part is written, and what is unended is left at the pointer. -/
theorem buffer_run (h : Text s 0 l) : ∃ buf p, eachLine re bufSize 0 s = ⟨.ok p, { s with buf := buf }, printed re l⟩ ∧
    p + (l.unended nl).length = l.length ∧ Cells buf p (l.unended nl) := by
  have hfits := h.fits
  obtain ⟨buf, p, hrun, hp, hsame⟩ := eachLine_run re (k := bufSize) h (by omega)
  obtain ⟨pre, hpre⟩ := List.unended_suffix nl l
  have hlen := congrArg List.length hpre
  rw [List.length_append] at hlen
  have hcells : Cells s.buf 0 (pre ++ l.unended nl) := hpre ▸ (Cells.append_iff.1 h.cells).1
  have hat : Cells s.buf p (l.unended nl) := by
    have := (Cells.append_iff.1 hcells).2
    rwa [show 0 + pre.length = p by omega] at this
  exact ⟨buf, p, hrun, by omega, hat.congr fun i hi _ => hsame i hi⟩

/-- **The loop writes what `fed` says**, and stays inside the buffer. -/
theorem grepLoop_run : ∀ {k : Nat} {carry : List Byte} {s : State}, Cells s.buf 0 carry → 0 ∉ carry →
    carry.length + 1 < bufSize → 0 ∉ s.input.data → s.input.size < k →
      ∃ t, grepLoop re k carry.length s = ⟨.ok (), t, fed re k carry s.input⟩
  | 0, _, _, _, _, _, _, hk                 => by omega
  | k + 1, carry, s, hcells, h0, hlen, hdata, hk => by
    rw [grepLoop, fed]
    rcases hr : User.read (bufSize - carry.length - 1) s.input with ⟨_ | _ | ⟨c, d⟩, inp⟩
    · exact ⟨_, by rw [Prog.bind_run_nil (read_end hr rfl)]; rfl⟩
    · exact ⟨_, by rw [Prog.bind_run_nil (read_end hr rfl)]; rfl⟩
    obtain ⟨hin, -, hsize, hle⟩ := User.read_some hr (List.cons_ne_nil c d)
    rw [hin, List.mem_append, not_or] at hdata
    rw [Prog.bind_run_nil (read_run hr (by omega))]
    simp only [List.contains_iff_mem]
    have hm : carry.length + (c :: d).length = (carry ++ c :: d).length := by rw [List.length_append]
    have hfill : Cells (Cells.fill (c :: d) carry.length s.buf) 0 (carry ++ c :: d) := by
      rw [Cells.append_iff, Nat.zero_add]
      exact ⟨hcells.congr fun i _ hi => Cells.fill_other (by omega), Cells.fill_cells _ _ _⟩
    generalize Cells.fill (c :: d) carry.length s.buf = b at *
    rw [hm]
    have hnul : 0 ∉ carry ++ c :: d := by
      rw [List.mem_append, not_or]
      exact ⟨h0, hdata.1⟩
    generalize carry ++ c :: d = all at *
    have htext : Text (State.set ⟨b, inp⟩ all.length 0) 0 all :=
      ⟨Cells.append_iff.2 ⟨hfill.congr fun i _ hi => set_other (by omega) 0, by simp⟩, hnul, by omega⟩
    obtain ⟨buf, p, hrun, hp, hcarry⟩ := buffer_run re htext
    have hlines : eachLine re bufSize 0 (State.set ⟨b, inp⟩ all.length 0) = ⟨.ok p, ⟨buf, inp⟩, printed re all⟩ := hrun
    have hfuel : (State.mk buf inp).input.size < k := Nat.lt_of_lt_of_le hsize (Nat.le_of_lt_succ hk)
    rw [Prog.bind_run_nil (store_run (by omega) 0), Prog.bind_run_ok hlines]
    by_cases hnl : nl ∈ all
    · have hlt := List.length_unended_lt hnl
      obtain ⟨pre, hpre⟩ := List.unended_suffix nl all
      have hcarry0 : 0 ∉ all.unended nl := fun h => hnul (by rw [hpre]; exact List.mem_append_right _ h)
      obtain ⟨buf', hmove, hcells', -⟩ := memmove_run (s := ⟨buf, inp⟩) hcarry (Nat.zero_le p) (by omega)
      obtain ⟨t, ht⟩ := grepLoop_run (k := k) (s := ⟨buf', inp⟩) hcells' hcarry0 (by omega) hdata.2 hfuel
      refine ⟨t, ?_⟩
      rw [if_pos hnl, if_neg (show p ≠ 0 by omega), if_pos (show 0 < all.length by omega),
        show all.length - p = (all.unended nl).length by omega]
      rw [Prog.bind_run_nil hmove, ht]
    · rw [List.unended_of_notMem hnl] at hp
      have hempty : Cells buf 0 [] := trivial
      obtain ⟨t, ht⟩ := grepLoop_run (k := k) (s := ⟨buf, inp⟩) hempty List.not_mem_nil (by simp) hdata.2 hfuel
      refine ⟨t, ?_⟩
      rw [if_neg hnl, if_pos (show p = 0 by omega), if_neg (Nat.lt_irrefl 0)]
      rw [List.length_nil] at ht
      rw [ht]

end Buffer

/-! ## A file -/

/-- What `grep` sees of a line: of a line that does not fit, whole buffers are dropped. -/
def cut (l : List Byte) : List Byte := l.drop (l.length / (bufSize - 1) * (bufSize - 1))

theorem cut_short {l : List Byte} (h : l.length < bufSize - 1) : cut l = l := by
  unfold cut
  rw [Nat.div_eq_of_lt h, Nat.zero_mul, List.drop_zero]

theorem cut_append {a : List Byte} (h : a.length = bufSize - 1) (l : List Byte) : cut (a ++ l) = cut l := by
  have hdiv : (a ++ l).length / (bufSize - 1) * (bufSize - 1) = a.length + l.length / (bufSize - 1) * (bufSize - 1) := by
    rw [List.length_append, h, Nat.add_div_left _ (by decide), Nat.succ_mul, Nat.add_comm]
  unfold cut
  rw [hdiv, List.drop_length_add_append]

def output (data : List Byte) : List (List Byte) :=
  (((data.lines nl).map cut).filter («match» re)).map (· ++ [nl])

variable {re}

theorem output_of_notMem {data : List Byte} (h : nl ∉ data) : output re data = [] := by
  simp [output, List.lines_of_notMem h]

theorem output_append {l : List Byte} (hl : l.length < bufSize) (m : List Byte) :
    output re (l ++ m) = printed re l ++ output re (l.unended nl ++ m) := by
  have hcut : (l.lines nl).map cut = l.lines nl := by
    refine (List.map_congr_left fun x hx => cut_short ?_).trans (List.map_id _)
    have := List.length_line_lt hx
    omega
  unfold output printed
  rw [List.lines_append, List.map_append, List.filter_append, List.map_append, hcut]

theorem output_drop {l : List Byte} (hl : l.length = bufSize - 1) (hnl : nl ∉ l) (m : List Byte) :
    output re (l ++ m) = output re m := by
  by_cases hm : nl ∈ m
  · obtain ⟨a, b, rfl, ha⟩ := List.eq_append_cons_of_mem hm
    have hmem : nl ∉ l ++ a := by
      rw [List.mem_append, not_or]
      exact ⟨hnl, ha⟩
    unfold output
    rw [← List.append_assoc, List.lines_append_cons hmem, List.lines_append_cons ha, List.map_cons, List.map_cons,
      cut_append hl]
  · rw [output_of_notMem hm, output_of_notMem (by rw [List.mem_append, not_or]; exact ⟨hnl, hm⟩)]

theorem read_file (len : Nat) (data : List Byte) : ∃ inp, User.read len [some data] = (some (data.take len), inp) ∧
    (inp = [some (data.drop len)] ∨ inp = [] ∧ data.drop len = []) := by
  refine ⟨_, rfl, ?_⟩
  split
  · exact Or.inl rfl
  · exact Or.inr ⟨rfl, List.drop_of_length_le (by omega)⟩

theorem fed_file : ∀ {k : Nat} {carry data : List Byte} {inp : Input}, inp.size < k → carry.length + 1 < bufSize →
    nl ∉ carry → (inp = [some data] ∨ inp = [] ∧ data = []) → fed re k carry inp = output re (carry ++ data)
  | 0, _, _, _, hk, _, _, _                      => by omega
  | k + 1, carry, data, inp, hk, hlen, hnl, hinp => by
    by_cases hdata : data = []
    · rw [fed, hdata, List.append_nil, output_of_notMem hnl]
      rcases hinp with rfl | ⟨rfl, -⟩ <;> simp [User.read, hdata]
    obtain rfl : inp = [some data] := hinp.resolve_right fun h => hdata h.2
    obtain ⟨inp, hread, hinp'⟩ := read_file (bufSize - carry.length - 1) data
    have htake : data.take (bufSize - carry.length - 1) ≠ [] := by
      simp only [ne_eq, List.take_eq_nil_iff, not_or]
      exact ⟨by omega, hdata⟩
    have hsize := (User.read_some hread htake).2.2.1
    obtain ⟨c, d, hcd⟩ := List.exists_cons_of_ne_nil htake
    have hsplit : carry ++ data = carry ++ c :: d ++ data.drop (bufSize - carry.length - 1) := by
      rw [← hcd, List.append_assoc, List.take_append_drop]
    have hall : (carry ++ c :: d).length = min (bufSize - 1) (carry.length + data.length) := by
      rw [← hcd, List.length_append, List.length_take]
      omega
    rw [fed, hread, hcd, hsplit]
    simp only [List.contains_iff_mem]
    by_cases hmem : nl ∈ carry ++ c :: d
    · have hlt := List.length_unended_lt hmem
      rw [if_pos hmem, fed_file (by omega) (by omega) (List.notMem_unended nl _) hinp',
        output_append (l := carry ++ c :: d) (by omega)]
    · rw [if_neg hmem, fed_file (by omega) (by decide) List.not_mem_nil hinp', printed_of_notMem re hmem, List.nil_append,
        List.nil_append]
      by_cases hfull : (carry ++ c :: d).length = bufSize - 1
      · rw [output_drop hfull hmem]
      · -- the file ends before the buffer is full
        have hdrop : data.drop (bufSize - carry.length - 1) = [] := List.drop_of_length_le (by omega)
        rw [hdrop, List.append_nil, output_of_notMem hmem, output_of_notMem List.not_mem_nil]

/-- **`grep` writes the lines of a file that match**, in order, and stays inside its buffer. -/
theorem grep_file (re : List Byte) {data : List Byte} (h : 0 ∉ data) (buf : Nat → Byte) :
    ∃ t, grep re ⟨buf, [some data]⟩ = ⟨.ok (), t, output re data⟩ := by
  have hdata : 0 ∉ Input.data [some data] := by
    by_cases hd : data = []
    · simp [hd, Input.data]
    · simpa [User.data_some hd, Input.data] using h
  have hempty : Cells buf 0 [] := trivial
  obtain ⟨t, ht⟩ := grepLoop_run re (s := ⟨buf, [some data]⟩) hempty List.not_mem_nil (by decide) hdata
    (Nat.lt_succ_self _)
  refine ⟨t, ?_⟩
  rw [grep, Prog.read_bind_run]
  refine ht.trans ?_
  rw [fed_file (Nat.lt_succ_self _) (by decide) List.not_mem_nil (Or.inl rfl), List.nil_append]

/-- `grep ^b*c$` on the lines `a`, `bbc` and `bcd`. -/
theorem grep_file_three : ∃ t, grep [94, 98, 42, 99, 36] ⟨fun _ => 0, [some [97, 10, 98, 98, 99, 10, 98, 99, 100, 10]]⟩ =
    ⟨.ok (), t, [[98, 98, 99, 10]]⟩ := by
  have hout : output [94, 98, 42, 99, 36] [97, 10, 98, 98, 99, 10, 98, 99, 100, 10] = [[98, 98, 99, 10]] := by decide
  rw [← hout]
  exact grep_file [94, 98, 42, 99, 36] (by decide) _

end Grep
end Xv6
