import Mathlib
/-!
# What a table holds

The values of a finite table with empty entries, as a multiset: an entry filled adds its value, an entry emptied takes it
away.
-/

variable {α β : Type}

theorem filterMap_congr {f g : α → Option β} (s : Multiset α) (h : ∀ x ∈ s, g x = f x) :
    s.filterMap g = s.filterMap f := by
  induction s using Multiset.induction_on with
  | empty => rfl
  | cons a s ih =>
    rw [Multiset.filterMap_cons, Multiset.filterMap_cons, h a (Multiset.mem_cons_self a s),
      ih fun x hx => h x (Multiset.mem_cons_of_mem hx)]

variable [Fintype α]

/-- The values of the entries of `f`. -/
def held (f : α → Option β) : Multiset β := (Finset.univ : Finset α).val.filterMap f

theorem mem_held {f : α → Option β} {b : β} : b ∈ held f ↔ ∃ a, f a = some b := by
  unfold held
  simp [Multiset.mem_filterMap]

variable [DecidableEq α]

theorem held_split (f : α → Option β) (a : α) :
    held f = (f a).elim 0 (fun b => {b}) + ((Finset.univ : Finset α).erase a).val.filterMap f := by
  have huniv : (Finset.univ : Finset α).val = a ::ₘ ((Finset.univ : Finset α).erase a).val := by
    rw [Finset.erase_val, Multiset.cons_erase (Finset.mem_univ a)]
  unfold held
  rw [huniv, Multiset.filterMap_cons, Finset.erase_val]
  cases f a with
  | none => rfl
  | some b => rfl

theorem filterMap_erase_congr {f g : α → Option β} {a : α} (h : ∀ x, x ≠ a → g x = f x) :
    ((Finset.univ : Finset α).erase a).val.filterMap g = ((Finset.univ : Finset α).erase a).val.filterMap f := by
  exact filterMap_congr _ fun x hx => h x (Finset.ne_of_mem_erase hx)

theorem held_fill {f g : α → Option β} {a : α} {b : β} (hf : f a = none) (hg : g a = some b)
    (h : ∀ x, x ≠ a → g x = f x) : held g = b ::ₘ held f := by
  rw [held_split g a, held_split f a, filterMap_erase_congr h, hf, hg]
  simp

theorem held_clear {f g : α → Option β} {a : α} {b : β} (hf : f a = some b) (hg : g a = none)
    (h : ∀ x, x ≠ a → g x = f x) : held f = b ::ₘ held g :=
  held_fill hg hf fun x hx => (h x hx).symm

theorem sum_change {ι G : Type} [DecidableEq ι] [AddCommGroup G] {l : Finset ι} {u v : ι → G} {a : ι} (ha : a ∈ l)
    (h : ∀ b, b ≠ a → v b = u b) : ∑ b ∈ l, v b = ∑ b ∈ l, u b + (v a - u a) := by
  have hrest : ∑ b ∈ l.erase a, v b = ∑ b ∈ l.erase a, u b :=
    Finset.sum_congr rfl fun b hb => h b (Finset.ne_of_mem_erase hb)
  rw [← Finset.add_sum_erase l v ha, ← Finset.add_sum_erase l u ha, hrest]
  abel
