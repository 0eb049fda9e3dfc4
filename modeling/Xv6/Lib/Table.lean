import Mathlib
/-!
# Tables that give out the lowest free slot

A table has `n` slots, each free or with a value.  A value goes into the lowest free slot, and a slot is freed by its number.
A slot that is freed below all other free ones is the next to be taken.
-/

abbrev Table (n : Nat) (α : Type) : Type := Fin n → Option α

namespace Table

variable {n m : Nat} {α : Type} {f g : Table n α} {i j : Fin n} {x y : α}

/-- The table with `x` at `i`. -/
def set (f : Table n α) (i : Fin n) (x : α) : Table n α := fun j => if j = i then some x else f j

/-- Slot `k` is freed; a number beyond the table frees none. -/
def close (f : Table n α) (k : Nat) : Table n α := fun j => if (j : Nat) = k then none else f j

def lowest (f : Table n α) : Option (Fin n) := Fin.find? fun i => (f i).isNone

/-- `x` goes into the lowest free slot. -/
def take (f : Table n α) (x : α) : Option (Fin n × Table n α) := f.lowest.map fun i => (i, f.set i x)

def get (f : Table n α) (k : Nat) : Option α := if h : k < n then f ⟨k, h⟩ else none

/-- The value of slot `k` goes into the lowest free slot too; where there is no such value or slot, nothing happens. -/
def dup (f : Table n α) (k : Nat) : Table n α :=
  match (f.get k).bind f.take with
  | none        => f
  | some (_, g) => g

/-- The slots below `m` are the ones that are taken. -/
def Filled (f : Table n α) (m : Nat) : Prop := ∀ i, (f i).isSome = true ↔ (i : Nat) < m

@[simp] theorem set_self (f : Table n α) (i : Fin n) (x : α) : f.set i x i = some x := if_pos rfl

theorem set_ne (h : j ≠ i) (x : α) : f.set i x j = f j := if_neg h

@[simp] theorem close_self (f : Table n α) (i : Fin n) : f.close i i = none := if_pos rfl

theorem close_ne {k : Nat} (h : (j : Nat) ≠ k) : f.close k j = f j := if_neg h

theorem lowest_eq_some : f.lowest = some i ↔ f i = none ∧ ∀ j < i, (f j).isSome := by
  unfold lowest
  rw [Fin.find?_eq_some_iff]
  simp [Option.isSome_iff_ne_none]

theorem of_set {z : α} (h : f.set i x j = some z) : z = x ∨ f j = some z := by
  by_cases hj : j = i
  · rw [hj, set_self] at h
    exact .inl (Option.some.inj h).symm
  · exact .inr (by rwa [set_ne hj] at h)

theorem of_close {k : Nat} {z : α} (h : f.close k j = some z) : f j = some z := by
  by_cases hj : (j : Nat) = k
  · rw [close, if_pos hj] at h
    cases h
  · rwa [close_ne hj] at h

theorem of_take {z : α} (h : f.take x = some (i, g)) (hz : g j = some z) : z = x ∨ f j = some z := by
  unfold take at h
  cases hl : f.lowest with
  | none => simp [hl] at h
  | some k =>
    simp only [hl, Option.map_some, Option.some.injEq, Prod.mk.injEq] at h
    obtain ⟨rfl, rfl⟩ := h
    exact of_set hz

theorem of_dup {k : Nat} {z : α} (h : f.dup k j = some z) : ∃ i, f i = some z := by
  unfold dup at h
  cases hg : f.get k with
  | none => exact ⟨j, by simpa [hg] using h⟩
  | some x =>
    cases ht : f.take x with
    | none => exact ⟨j, by simpa [hg, ht] using h⟩
    | some v =>
      simp only [hg, ht, Option.bind_some] at h
      rcases of_take ht h with rfl | hj
      · unfold get at hg
        split at hg
        · exact ⟨_, hg⟩
        · cases hg
      · exact ⟨j, hj⟩

theorem dup_eq (hg : f j = some x) (ht : f.take x = some (i, g)) : f.dup j = g := by
  have hget : f.get j = some x := by rw [get, dif_pos j.isLt, Fin.eta, hg]
  rw [dup, hget, Option.bind_some, ht]

/-- **The slot that was freed is taken** where every slot below it is taken. -/
theorem take_close (h : ∀ j < i, (f j).isSome) (x : α) : (f.close i).take x = some (i, f.set i x) := by
  have hl : (f.close i).lowest = some i := by
    refine lowest_eq_some.2 ⟨close_self f i, fun j hj => ?_⟩
    rw [close_ne fun e => absurd (Fin.ext e) (Fin.ne_of_lt hj)]
    exact h j hj
  have hset : (f.close i).set i x = f.set i x := by
    funext j
    by_cases hj : j = i
    · rw [hj, set_self, set_self]
    · rw [set_ne hj, set_ne hj, close_ne fun e => hj (Fin.ext e)]
  rw [take, hl, Option.map_some, hset]

namespace Filled

theorem free (h : f.Filled m) (hi : m ≤ i) : f i = none := by
  rw [← Option.not_isSome_iff_eq_none, h i]
  omega

theorem below (h : f.Filled m) (hi : (i : Nat) < m) : (f i).isSome = true := (h i).2 hi

theorem take (h : f.Filled m) (hm : m < n) (x : α) : f.take x = some (⟨m, hm⟩, f.set ⟨m, hm⟩ x) := by
  have hl : f.lowest = some ⟨m, hm⟩ := lowest_eq_some.2 ⟨h.free (Nat.le_refl m), fun j hj => h.below hj⟩
  rw [Table.take, hl, Option.map_some]

theorem push (h : f.Filled m) (hm : m < n) (x : α) : (f.set ⟨m, hm⟩ x).Filled (m + 1) := by
  intro i
  by_cases hi : i = ⟨m, hm⟩
  · rw [hi, set_self]
    simp
  · have hne : (i : Nat) ≠ m := fun e => hi (Fin.ext e)
    rw [set_ne hi, h i]
    omega

theorem set (h : f.Filled m) (hi : (i : Nat) < m) (x : α) : (f.set i x).Filled m := by
  intro j
  by_cases hj : j = i
  · rw [hj, set_self]
    simpa using hi
  · rw [set_ne hj, h j]

end Filled

theorem close_pair (hi : f i = none) (hj : f j = none) (x y : α) : (((f.set i x).set j y).close i).close j = f := by
  funext k
  by_cases hkj : k = j
  · rw [hkj, close_self, hj]
  rw [close_ne fun e => hkj (Fin.ext e)]
  by_cases hki : k = i
  · rw [hki, close_self, hi]
  · rw [close_ne fun e => hki (Fin.ext e), set_ne hkj, set_ne hki]

theorem set_comm (h : i ≠ j) (x y : α) : (f.set i x).set j y = (f.set j y).set i x := by
  funext k
  by_cases hk : k = i
  · rw [hk, set_self, set_ne h, set_self]
  · rw [set_ne hk]
    by_cases hj : k = j
    · rw [hj, set_self, set_self]
    · rw [set_ne hj, set_ne hj, set_ne hk]

end Table
