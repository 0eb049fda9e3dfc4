import Mathlib
/-!
# A list in consecutive cells

`Cells mem p l`: the entries of `l` are in the cells of `mem` from `p` on.
-/

def Cells {β : Type} (mem : Nat → β) : Nat → List β → Prop
  | _, []     => True
  | p, x :: l => mem p = x ∧ Cells mem (p + 1) l

namespace Cells

variable {β : Type} {mem mem' : Nat → β} {p q : Nat} {x : β} {l m : List β}

@[simp] protected theorem nil (mem : Nat → β) (p : Nat) : Cells mem p [] := trivial
@[simp] theorem cons_iff : Cells mem p (x :: l) ↔ mem p = x ∧ Cells mem (p + 1) l := Iff.rfl

theorem append_iff : ∀ {l : List β} {p : Nat}, Cells mem p (l ++ m) ↔ Cells mem p l ∧ Cells mem (p + l.length) m
  | [], p     => by simp
  | x :: l, p => by
    have hadd : p + 1 + l.length = p + (l.length + 1) := by omega
    simp only [List.cons_append, cons_iff, append_iff, List.length_cons, hadd, and_assoc]

theorem congr : ∀ {l : List β} {p : Nat}, Cells mem p l → (∀ i, p ≤ i → i < p + l.length → mem' i = mem i) →
    Cells mem' p l
  | [], _, _, _     => trivial
  | x :: l, p, h, he => by
    refine ⟨(he p le_rfl (by simp)).trans h.1, congr h.2 fun i hi hlt => he i (by omega) ?_⟩
    rw [List.length_cons]
    omega

def fill : List β → Nat → (Nat → β) → Nat → β
  | [], _, mem     => mem
  | x :: l, p, mem => fill l (p + 1) (Function.update mem p x)

theorem fill_other : ∀ {l : List β} {p : Nat} {mem : Nat → β} {i : Nat}, i < p ∨ p + l.length ≤ i → fill l p mem i = mem i
  | [], _, _, _, _     => rfl
  | x :: l, p, mem, i, h => by
    rw [List.length_cons] at h
    rw [fill, fill_other (by omega), Function.update_of_ne (by omega)]

theorem fill_cells : ∀ (l : List β) (p : Nat) (mem : Nat → β), Cells (fill l p mem) p l
  | [], _, _       => trivial
  | x :: l, p, mem => by
    refine ⟨?_, fill_cells l (p + 1) _⟩
    rw [fill, fill_other (by omega), Function.update_self]

end Cells
