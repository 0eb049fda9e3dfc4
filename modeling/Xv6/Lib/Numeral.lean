import Mathlib.Data.Nat.Digits.Lemmas
/-!
# Numerals in parts

A numeral written in two parts: the high digits, and the low digits padded with zeros to a fixed number of places.
`places b n` are the digits of `n` in base `b`, high first; zero has none.
-/

def Nat.places (b n : Nat) : List Char := (Nat.digits b n).reverse.map Nat.digitChar

namespace Nat

variable {b n : Nat}

@[simp] theorem places_zero (b : Nat) : places b 0 = [] := by
  unfold places
  rw [Nat.digits_zero]
  rfl

theorem places_length (b n : Nat) : (places b n).length = (Nat.digits b n).length := by
  unfold places
  rw [List.length_map, List.length_reverse]

theorem places_pos (hb : 1 < b) (hn : 0 < n) : places b n = places b (n / b) ++ [Nat.digitChar (n % b)] := by
  unfold places
  rw [Nat.digits_def' hb hn, List.reverse_cons, List.map_append]
  rfl

theorem places_length_pos (hb : 1 < b) (hn : 0 < n) : (places b n).length = (places b (n / b)).length + 1 := by
  rw [places_pos hb hn, List.length_append]
  rfl

theorem toDigits_eq_places (hb : 1 < b) : 0 < n → Nat.toDigits b n = places b n := by
  induction n using Nat.strong_induction_on with
  | _ n ih =>
    intro hn
    rw [Nat.toDigits_eq_if hb, places_pos hb hn]
    split
    · rename_i hlt
      rw [Nat.div_eq_of_lt hlt, places_zero, Nat.mod_eq_of_lt hlt]
      rfl
    · rename_i hge
      rw [ih (n / b) (Nat.div_lt_self hn hb) (Nat.div_pos (Nat.not_lt.1 hge) (by omega))]

theorem places_length_le (hb : 1 < b) {k : Nat} : (places b n).length ≤ k ↔ n < b ^ k := by
  rw [places_length]
  exact Nat.digits_length_le_iff hb n

/-- **A numeral in two parts**: the low part has `k` places, the missing ones are zeros. -/
theorem places_pad (hb : 1 < b) {high low k : Nat} (hh : 0 < high) (hl : low < b ^ k) :
    places b (high * b ^ k + low) = places b high ++ (List.replicate (k - (places b low).length) '0' ++ places b low) := by
  have hlen : (Nat.digits b low).length ≤ k := (Nat.digits_length_le_iff hb low).2 hl
  have hsum : (Nat.digits b low).length + (k - (Nat.digits b low).length) = k := Nat.add_sub_cancel' hlen
  have hdigits := Nat.digits_append_zeroes_append_digits (k := k - (Nat.digits b low).length) (n := low) hb hh
  rw [hsum] at hdigits
  have hnum : high * b ^ k + low = low + b ^ k * high := by ring
  rw [hnum, places_length, places, ← hdigits]
  simp [places]

end Nat
