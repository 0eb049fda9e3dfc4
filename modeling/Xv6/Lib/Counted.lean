import Xv6.Lib.Held
/-!
# Reference counts

`Counted ref R`: the count of every object is the number of references to it among those that are held, `R`; each of
several holders holds some of them.
-/

def Counted {ι : Type} [DecidableEq ι] (ref : ι → Nat) (R : Multiset ι) : Prop := ∀ i, ref i = R.count i

namespace Counted

variable {ι κ : Type}

/-! ## The holders -/

section Holders

variable [Fintype κ]

theorem count_held [DecidableEq ι] (g : κ → Option ι) (i : ι) :
    (held g).count i = (Finset.univ.filter fun a => g a = some i).card := by
  have hcount : ∀ s : Multiset κ, (s.filterMap g).count i = s.countP fun a => g a = some i := by
    intro s
    induction s using Multiset.induction_on with
    | empty => rfl
    | cons a s ih =>
      rw [Multiset.filterMap_cons, Multiset.count_add, ih, Multiset.countP_cons, Nat.add_comm]
      cases hg : g a with
      | none => rfl
      | some j =>
        change _ + Multiset.count i {j} = _
        rw [Multiset.count_singleton]
        simp [eq_comm]
  exact (hcount _).trans (Multiset.countP_eq_card_filter _ _)

variable [DecidableEq κ] {u v : κ → Multiset ι} {a : κ} {i : ι}

theorem split (u : κ → Multiset ι) (a : κ) : ∑ b, u b = u a + ∑ b ∈ Finset.univ.erase a, u b :=
  (Finset.add_sum_erase Finset.univ u (Finset.mem_univ a)).symm

theorem rest_congr (h : ∀ b, b ≠ a → v b = u b) : ∑ b ∈ Finset.univ.erase a, v b = ∑ b ∈ Finset.univ.erase a, u b :=
  Finset.sum_congr rfl fun b hb => h b (Finset.ne_of_mem_erase hb)

theorem sum_cons (ha : v a = i ::ₘ u a) (h : ∀ b, b ≠ a → v b = u b) : ∑ b, v b = i ::ₘ ∑ b, u b := by
  rw [split v a, split u a, rest_congr h, ha, Multiset.cons_add]

theorem sum_same (ha : v a = u a) (h : ∀ b, b ≠ a → v b = u b) : ∑ b, v b = ∑ b, u b := by
  rw [split v a, split u a, rest_congr h, ha]

theorem mem_sum (ha : i ∈ u a) : i ∈ ∑ b, u b := by
  rw [split u a]
  exact Multiset.mem_add.2 (.inl ha)

end Holders

/-! ## The counts -/

variable [DecidableEq ι] {ref ref' : ι → Nat} {R A B : Multiset ι} {i : ι}

theorem add (h : Counted ref R) (hi : ref' i = ref i + 1) (hne : ∀ j, j ≠ i → ref' j = ref j) :
    Counted ref' (i ::ₘ R) := by
  intro j
  by_cases hj : j = i
  · rw [hj, Multiset.count_cons_self, hi, h i]
  · rw [Multiset.count_cons_of_ne hj, hne j hj, h j]

theorem drop (h : Counted ref (i ::ₘ R)) (hi : ref' i + 1 = ref i) (hne : ∀ j, j ≠ i → ref' j = ref j) :
    Counted ref' R := by
  intro j
  by_cases hj : j = i
  · have hcount := h i
    rw [Multiset.count_cons_self] at hcount
    rw [hj]
    omega
  · rw [hne j hj, h j, Multiset.count_cons_of_ne hj]

theorem pos (h : Counted ref R) (hi : i ∈ R) : 0 < ref i := by
  rw [h i]
  exact Multiset.count_pos.2 hi

theorem only (h : Counted ref (A + B)) (h1 : ref i = 1) (hi : i ∈ A) : i ∉ B := by
  intro hB
  have hcount := h i
  have hA := Multiset.count_pos.2 hi
  have hB := Multiset.count_pos.2 hB
  rw [Multiset.count_add] at hcount
  omega

theorem sum_only [Fintype κ] [DecidableEq κ] {u : κ → Multiset ι} {a b : κ} (h : Counted ref (∑ c, u c)) (h1 : ref i = 1)
    (ha : i ∈ u a) (hb : b ≠ a) : i ∉ u b := by
  intro hi
  rw [split u a] at h
  refine h.only h1 ha ?_
  rw [← Finset.add_sum_erase _ u (Finset.mem_erase.2 ⟨hb, Finset.mem_univ b⟩)]
  exact Multiset.mem_add.2 (.inl hi)

end Counted
