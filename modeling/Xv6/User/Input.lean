import Mathlib
/-!
# User.Input — programs that read to the end (wc.c, cat.c)

A `read` of `len` bytes gives some first bytes of what is there.  What is there comes in entries, a file as one and a pipe as
its writers and the scheduler have it; an empty entry ends the input and `none` is a `read` that returns -1.
-/
namespace Xv6
namespace User

abbrev Byte := BitVec 8

abbrev Input := List (Option (List Byte))

def read (len : Nat) : Input → Option (List Byte) × Input
  | []            => (some [], [])
  | none :: rest  => (none, rest)
  | some c :: rest => (some (c.take len), if len < c.length then some (c.drop len) :: rest else rest)

def Input.data : Input → List Byte
  | some (b :: c) :: rest => b :: c ++ Input.data rest
  | _                     => []

def Input.fails : Input → Bool
  | some (_ :: _) :: rest => Input.fails rest
  | none :: _             => true
  | _                     => false

def Input.size (inp : Input) : Nat := (inp.map fun c => (c.getD []).length + 1).sum

variable {len : Nat} {inp inp' rest : Input} {b : Byte} {c d : List Byte}

theorem data_some (hc : c ≠ []) (rest : Input) : Input.data (some c :: rest) = c ++ rest.data := by
  cases c with
  | nil => exact absurd rfl hc
  | cons b c => rfl

theorem fails_some (hc : c ≠ []) (rest : Input) : Input.fails (some c :: rest) = rest.fails := by
  cases c with
  | nil => exact absurd rfl hc
  | cons b c => rfl

theorem size_some (c : List Byte) (rest : Input) : Input.size (some c :: rest) = c.length + 1 + rest.size := by
  simp [Input.size]

/-- **A read that gives bytes**: they are the first ones, and fewer reads are left. -/
theorem read_some (h : read len inp = (some d, inp')) (hd : d ≠ []) :
    inp.data = d ++ inp'.data ∧ inp'.fails = inp.fails ∧ inp'.size < inp.size ∧ d.length ≤ len := by
  cases inp with
  | nil =>
    simp only [read, Prod.mk.injEq, Option.some.injEq] at h
    exact absurd h.1.symm hd
  | cons c rest =>
    cases c with
    | none => simp [read] at h
    | some c =>
      simp only [read, Prod.mk.injEq, Option.some.injEq] at h
      obtain ⟨rfl, rfl⟩ := h
      have hc : c ≠ [] := by
        rintro rfl
        exact hd List.take_nil
      rw [data_some hc, fails_some hc, size_some]
      split
      · rename_i hlt
        have hdrop : c.drop len ≠ [] := by simpa using hlt
        have hpos : 0 < len := by
          by_contra h0
          rw [Nat.eq_zero_of_not_pos h0] at hd
          exact hd List.take_zero
        rw [data_some hdrop, fails_some hdrop, size_some, ← List.append_assoc, List.take_append_drop, List.length_drop]
        exact ⟨rfl, rfl, by omega, List.length_take_le len c⟩
      · rename_i hge
        rw [List.take_of_length_le (by omega)]
        exact ⟨rfl, rfl, by omega, by omega⟩

theorem read_nil (hlen : 0 < len) (h : read len inp = (some [], inp')) : inp.data = [] ∧ inp.fails = false := by
  cases inp with
  | nil => simp [Input.data, Input.fails]
  | cons c rest =>
    cases c with
    | none => simp [read] at h
    | some c =>
      cases c with
      | nil => simp [Input.data, Input.fails]
      | cons a c =>
        obtain ⟨n, rfl⟩ := Nat.exists_eq_succ_of_ne_zero (Nat.ne_of_gt hlen)
        simp [read] at h

theorem read_none (h : read len inp = (none, inp')) : inp.data = [] ∧ inp.fails = true := by
  cases inp with
  | nil => simp [read] at h
  | cons c rest =>
    cases c with
    | none => simp [Input.data, Input.fails]
    | some c => simp [read] at h

/-! ## wc -/

/-- `" \r\t\n\v"`. -/
def spaces : List Byte := [32, 13, 9, 10, 11]

structure Counts where
  l      : BitVec 32
  w      : BitVec 32
  c      : BitVec 32
  inword : Bool
deriving DecidableEq

/-- The body of the inner loop of `wc`. -/
def Counts.byte (s : Counts) (b : Byte) : Counts :=
  let s := { s with c := s.c + 1, l := if b = 10 then s.l + 1 else s.l }
  if b ∈ spaces then { s with inword := false }
  else if s.inword = false then { s with w := s.w + 1, inword := true } else s

/-- The loop of `wc` over the reads; `none` is the read error. -/
def wcLoop : Nat → Counts → Input → Option Counts
  | 0, _, _       => none
  | k + 1, s, inp =>
    match read 512 inp with
    | (none, _)           => none
    | (some [], _)        => some s
    | (some (b :: d), inp) => wcLoop k ((b :: d).foldl Counts.byte s) inp

def wc (inp : Input) : Option Counts := wcLoop (inp.size + 1) ⟨0, 0, 0, false⟩ inp

theorem wcLoop_eq : ∀ (k : Nat) (s : Counts) (inp : Input), inp.size < k →
    wcLoop k s inp = if inp.fails then none else some (inp.data.foldl Counts.byte s)
  | 0, _, _, h       => by omega
  | k + 1, s, inp, h => by
    unfold wcLoop
    split
    · rename_i hr
      simp [read_none hr]
    · rename_i hr
      simp [read_nil (by decide) hr]
    · rename_i b d inp' hr
      obtain ⟨hdata, hfails, hsize, -⟩ := read_some hr (List.cons_ne_nil b d)
      rw [wcLoop_eq k _ inp' (by omega), hdata, hfails, List.foldl_append]

/-- The words of a text: what stands between white space. -/
def words (data : List Byte) : List (List Byte) := (data.splitOnP (· ∈ spaces)).filter fun w => w ≠ []

/-- The words that begin in a text, where the text may begin inside one. -/
def begun (inword : Bool) (data : List Byte) : List (List Byte) :=
  if inword then ((data.splitOnP (· ∈ spaces)).tail).filter fun w => w ≠ [] else words data

theorem begun_nil (inword : Bool) : begun inword [] = [] := by cases inword <;> rfl

theorem begun_space (hb : b ∈ spaces) (inword : Bool) (d : List Byte) : begun inword (b :: d) = begun false d := by
  have hsplit : (b :: d).splitOnP (· ∈ spaces) = [] :: d.splitOnP (· ∈ spaces) := by
    rw [List.splitOnP_cons_eq_if_modifyHead, if_pos (by simpa using hb)]
  cases inword <;> simp [begun, words, hsplit]

theorem begun_letter (hb : b ∉ spaces) (inword : Bool) (d : List Byte) :
    (begun inword (b :: d)).length = (begun true d).length + if inword then 0 else 1 := by
  have hsplit : (b :: d).splitOnP (· ∈ spaces) = (d.splitOnP (· ∈ spaces)).modifyHead (b :: ·) := by
    rw [List.splitOnP_cons_eq_if_modifyHead, if_neg (by simpa using hb)]
  obtain ⟨w, ws, hw⟩ := List.exists_cons_of_ne_nil (List.splitOnP_ne_nil (· ∈ spaces) d)
  cases inword <;> simp [begun, words, hsplit, hw]

theorem byte_l (s : Counts) (b : Byte) : (s.byte b).l = if b = 10 then s.l + 1 else s.l := by
  simp only [Counts.byte]
  split_ifs <;> rfl

theorem byte_c (s : Counts) (b : Byte) : (s.byte b).c = s.c + 1 := by
  simp only [Counts.byte]
  split_ifs <;> rfl

theorem add_one_ofNat (x : BitVec 32) (n : Nat) : x + 1#32 + BitVec.ofNat 32 n = x + BitVec.ofNat 32 (n + 1) := by
  rw [BitVec.ofNat_add, BitVec.add_assoc, BitVec.add_comm 1#32]

theorem fold_byte : ∀ (d : List Byte) (s : Counts), ∃ inword, d.foldl Counts.byte s =
    ⟨s.l + BitVec.ofNat 32 (d.count 10), s.w + BitVec.ofNat 32 (begun s.inword d).length,
      s.c + BitVec.ofNat 32 d.length, inword⟩
  | [], s     => ⟨s.inword, by simp [begun_nil]⟩
  | b :: d, s => by
    obtain ⟨inword, ih⟩ := fold_byte d (s.byte b)
    refine ⟨inword, ?_⟩
    rw [List.foldl_cons, ih]
    have hlines : (s.byte b).l + BitVec.ofNat 32 (d.count 10) = s.l + BitVec.ofNat 32 ((b :: d).count 10) := by
      rw [byte_l]
      by_cases h : b = 10
      · simp [h, add_one_ofNat]
      · rw [if_neg h, List.count_cons_of_ne h]
    have hwords : (s.byte b).w + BitVec.ofNat 32 (begun (s.byte b).inword d).length =
        s.w + BitVec.ofNat 32 (begun s.inword (b :: d)).length := by
      by_cases hb : b ∈ spaces
      · rw [begun_space hb]
        simp [Counts.byte, hb]
      · rw [begun_letter hb]
        cases hin : s.inword <;> simp [Counts.byte, hb, hin, add_one_ofNat]
    rw [hlines, hwords, byte_c, List.length_cons]
    simp [add_one_ofNat]

/-- **`wc` counts lines, words and bytes**, modulo 2^32, however the input comes in pieces. -/
theorem wc_counts (inp : Input) : (wc inp).map (fun s => (s.l, s.w, s.c)) = if inp.fails then none else
    some (BitVec.ofNat 32 (inp.data.count 10), BitVec.ofNat 32 (words inp.data).length,
      BitVec.ofNat 32 inp.data.length) := by
  unfold wc
  rw [wcLoop_eq _ _ _ (Nat.lt_succ_self _)]
  split
  · rfl
  · obtain ⟨inword, h⟩ := fold_byte inp.data ⟨0, 0, 0, false⟩
    rw [h]
    simp [begun]

end User
end Xv6
