import Mathlib
/-!
# Windows of a ring of places

A list is kept in `n` places, from a counter on that runs freely: entry `k` is at place `(r + k) % n`.  The counter itself
may wrap around at a multiple of `n`.
-/

/-- The entries `l` are in the places from counter `r` on. -/
def Window {α : Type} (n : Nat) (data : Nat → α) (r : Nat) (l : List α) : Prop :=
  ∀ k a, l[k]? = some a → data ((r + k) % n) = a

namespace Window

variable {α : Type} {n r r' : Nat} {data : Nat → α} {a : α} {l m : List α}

protected theorem nil : Window n data r [] := fun _ _ h => by cases h

theorem congr (h : Window n data r l) (hr : r' % n = r % n) : Window n data r' l := by
  intro k a hk
  rw [← h k a hk, Nat.add_mod, hr, ← Nat.add_mod]

theorem place_ne {j k : Nat} (hj : j < k) (hk : k < n) : (r + j) % n ≠ (r + k) % n := by
  intro he
  have hd : n ∣ k - j := by
    have := (Nat.modEq_iff_dvd' (Nat.add_le_add_left (Nat.le_of_lt hj) r)).1 he
    rwa [Nat.add_sub_add_left] at this
  have := Nat.le_of_dvd (Nat.sub_pos_of_lt hj) hd
  omega

theorem push (h : Window n data r l) (hl : l.length < n) (a : α) :
    Window n (fun p => if p = (r + l.length) % n then a else data p) r (l ++ [a]) := by
  intro k b hk
  rcases Nat.lt_trichotomy k l.length with hlt | rfl | hlt
  · rw [List.getElem?_append_left hlt] at hk
    exact (if_neg (place_ne hlt hl)).trans (h k b hk)
  · rw [List.getElem?_append_right (Nat.le_refl _), Nat.sub_self] at hk
    exact (if_pos rfl).trans (Option.some.inj hk)
  · rw [List.getElem?_eq_none (by rw [List.length_append, List.length_singleton]; omega)] at hk
    cases hk

theorem head (h : Window n data r (a :: l)) : data (r % n) = a := h 0 a rfl

theorem pop (h : Window n data r (a :: l)) : Window n data (r + 1) l := by
  intro k b hk
  rw [Nat.add_right_comm, Nat.add_assoc]
  exact h (k + 1) b hk

theorem last (h : Window n data r (l ++ [a])) : data ((r + l.length) % n) = a :=
  h l.length a (by rw [List.getElem?_append_right (Nat.le_refl _), Nat.sub_self]; rfl)

theorem take (h : Window n data r (l ++ m)) : Window n data r l := by
  intro k a hk
  have hlt := (List.getElem?_eq_some_iff.1 hk).1
  exact h k a (by rwa [List.getElem?_append_left hlt])

end Window

theorem toNat_add_mod {n : Nat} (hn : n ∣ 2 ^ 32) (x : BitVec 32) (k : Nat) :
    (x + BitVec.ofNat 32 k).toNat % n = (x.toNat + k) % n := by
  rw [BitVec.toNat_add, BitVec.toNat_ofNat, Nat.mod_mod_of_dvd _ hn, Nat.add_mod, Nat.mod_mod_of_dvd _ hn, ← Nat.add_mod]
