import Xv6.Lib.Numeral
/-!
# Io.Printf — `cprintf` (console.c, virtual memory)

What `printint` and `cprintf` give to `consputc`, as a list of characters.  An argument that is missing prints nothing.
-/
namespace Xv6
namespace Printf

abbrev uint := BitVec 32

/-- An argument of `cprintf`; `str none` is the null pointer. -/
inductive Arg where
  | int (x : uint)
  | str (s : Option (List Char))

/-- The loop that fills `buf`, low digit first, in at most `n` turns. -/
def bufDigits (base : uint) : Nat → uint → List Char
  | 0, _     => []
  | n + 1, x => Nat.digitChar (x % base).toNat :: if x / base = 0#32 then [] else bufDigits base n (x / base)

/-- `buf` has 16 places.  The spaces up to `width` come after the digits. -/
def printint (xx base : uint) (sign : Bool) (width : Nat) : List Char :=
  let sign := sign && xx.slt 0#32
  let buf := bufDigits base 16 (if sign then -xx else xx) ++ if sign then ['-'] else []
  buf.reverse ++ List.replicate (width - buf.length) ' '

def printstr (s : Option (List Char)) (width : Nat) : List Char :=
  let s := s.getD "(null)".toList
  s ++ List.replicate (width - s.length) ' '

/-- The loop over the format; `spec` is the width read so far after a `%`. -/
def cprintfLoop : List Char → Option Nat → List Arg → List Char
  | [], _, _                => []
  | c :: fmt, none, args    => if c = '%' then cprintfLoop fmt (some 0) args else c :: cprintfLoop fmt none args
  | c :: fmt, some w, args =>
    if '0' ≤ c ∧ c ≤ '9' then cprintfLoop fmt (some (w * 10 + (c.toNat - 48))) args
    else if c = 'd' then
      match args with
      | .int x :: args => printint x 10 true w ++ cprintfLoop fmt none args
      | _              => cprintfLoop fmt none args.tail
    else if c = 'x' ∨ c = 'p' then
      match args with
      | .int x :: args => printint x 16 false w ++ cprintfLoop fmt none args
      | _              => cprintfLoop fmt none args.tail
    else if c = 's' then
      match args with
      | .str s :: args => printstr s w ++ cprintfLoop fmt none args
      | _              => cprintfLoop fmt none args.tail
    else if c = '%' then '%' :: cprintfLoop fmt none args
    else '%' :: c :: cprintfLoop fmt none args

def cprintf (fmt : String) (args : List Arg) : List Char := cprintfLoop fmt.toList none args

/-! ## `%d` -/

theorem bufDigits_ten (n : Nat) : ∀ x : uint, x.toNat < 10 ^ n → 0 < n →
    (bufDigits 10#32 n x).reverse = Nat.toDigits 10 x.toNat := by
  induction n with
  | zero =>
    intro x _ hn
    cases hn
  | succ n ih =>
    intro x hx _
    have hmod : (x % 10#32).toNat = x.toNat % 10 := rfl
    have hdiv : (x / 10#32).toNat = x.toNat / 10 := BitVec.toNat_udiv
    unfold bufDigits
    rw [Nat.toDigits_eq_if (by decide), List.reverse_cons, hmod]
    by_cases hlt : x.toNat < 10
    · have hz : x / 10#32 = 0#32 := by
        apply BitVec.eq_of_toNat_eq
        rw [hdiv, Nat.div_eq_of_lt hlt]
        rfl
      rw [if_pos hz, if_pos hlt, Nat.mod_eq_of_lt hlt]
      rfl
    · have hz : x / 10#32 ≠ 0#32 := by
        intro h
        have := congrArg BitVec.toNat h
        rw [hdiv] at this
        simp only [BitVec.toNat_ofNat] at this
        omega
      have hrest : (x / 10#32).toNat < 10 ^ n := by
        rw [hdiv]
        rw [Nat.pow_succ] at hx
        omega
      have hn : 0 < n := by
        rcases Nat.eq_zero_or_pos n with rfl | h
        · simp at hx
          omega
        · exact h
      rw [if_neg hz, if_neg hlt, ih _ hrest hn, hdiv]

/-- **`%d` prints the decimal numeral** of an int that is not negative. -/
theorem printint_nonneg {x : uint} (h : x.slt 0#32 = false) : printint x 10 true 0 = Nat.toDigits 10 x.toNat := by
  unfold printint
  have hx : x.toNat < 10 ^ 16 := by have := x.isLt; omega
  simp [h, bufDigits_ten 16 x hx]

end Printf
end Xv6
