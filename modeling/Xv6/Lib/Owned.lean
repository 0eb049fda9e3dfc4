import Mathlib
/-!
# One owner for each block

Places hold blocks, or the null block `z`.  `Owned A z bit f`: every block that a place holds lies in the area `A`, no
block is held by two places, and in the area exactly the blocks that are held have their bit set.
-/

structure Owned {ι β : Type} (A : β → Prop) (z : β) (bit : β → Bool) (f : ι → β) : Prop where
  area : ∀ p, f p ≠ z → A (f p)
  once : ∀ p q, f p ≠ z → f p = f q → p = q
  bits : ∀ b, A b → (bit b = true ↔ ∃ p, f p = b)

namespace Owned

variable {ι β : Type} {A : β → Prop} {z : β} {bit : β → Bool} {f : ι → β}

theorem fresh (h : Owned A z bit f) {b : β} (hA : A b) (hb : bit b = false) (p : ι) : f p ≠ b := by
  intro hp
  rw [(h.bits b hA).2 ⟨p, hp⟩] at hb
  cases hb

theorem set (h : Owned A z bit f) {p : ι} (hp : f p ≠ z) : bit (f p) = true := (h.bits _ (h.area p hp)).2 ⟨p, rfl⟩

variable [DecidableEq ι] [DecidableEq β]

theorem put (h : Owned A z bit f) {p : ι} {b : β} (hp : f p = z) (hz : ¬ A z) (hA : A b) (hb : bit b = false) :
    Owned A z (Function.update bit b true) (Function.update f p b) where
  area q hq := by
    rw [Function.update_apply] at hq ⊢
    split_ifs at hq ⊢ with hqp
    · exact hA
    · exact h.area q hq
  once q r hq hqr := by
    rw [Function.update_apply, Function.update_apply] at hqr
    rw [Function.update_apply] at hq
    by_cases hqp : q = p <;> by_cases hrp : r = p
    · rw [hqp, hrp]
    · rw [if_pos hqp, if_neg hrp] at hqr
      exact absurd hqr.symm (h.fresh hA hb r)
    · rw [if_neg hqp, if_pos hrp] at hqr
      exact absurd hqr (h.fresh hA hb q)
    · rw [if_neg hqp, if_neg hrp] at hqr
      rw [if_neg hqp] at hq
      exact h.once q r hq hqr
  bits c hc := by
    rw [Function.update_apply]
    by_cases hcb : c = b
    · rw [if_pos hcb]
      exact ⟨fun _ => ⟨p, by rw [Function.update_self, hcb]⟩, fun _ => rfl⟩
    · rw [if_neg hcb, h.bits c hc]
      constructor
      · rintro ⟨q, rfl⟩
        have hqp : q ≠ p := by
          rintro rfl
          exact hz (hp ▸ hc)
        exact ⟨q, Function.update_of_ne hqp b f⟩
      · rintro ⟨q, hq⟩
        by_cases hqp : q = p
        · rw [hqp, Function.update_self] at hq
          exact absurd hq.symm hcb
        · exact ⟨q, by rwa [Function.update_of_ne hqp] at hq⟩

theorem drop (h : Owned A z bit f) (hz : ¬ A z) (p : ι) :
    Owned A z (Function.update bit (f p) false) (Function.update f p z) where
  area q hq := by
    rw [Function.update_apply] at hq ⊢
    split_ifs at hq ⊢ with hqp
    · exact absurd rfl hq
    · exact h.area q hq
  once q r hq hqr := by
    rw [Function.update_apply] at hq
    split_ifs at hq with hqp
    · exact absurd rfl hq
    · rw [Function.update_apply, Function.update_apply, if_neg hqp] at hqr
      split_ifs at hqr with hrp
      · exact absurd hqr hq
      · exact h.once q r hq hqr
  bits c hc := by
    have hcz : c ≠ z := fun e => hz (e ▸ hc)
    rw [Function.update_apply]
    by_cases hcp : c = f p
    · rw [if_pos hcp]
      refine ⟨fun e => (by cases e), ?_⟩
      rintro ⟨q, hq⟩
      by_cases hqp : q = p
      · rw [hqp, Function.update_self] at hq
        exact absurd hq.symm hcz
      · rw [Function.update_of_ne hqp] at hq
        exact absurd (h.once q p (hq ▸ hcz) (hq.trans hcp)) hqp
    · rw [if_neg hcp, h.bits c hc]
      constructor
      · rintro ⟨q, rfl⟩
        have hqp : q ≠ p := fun e => hcp (by rw [e])
        exact ⟨q, Function.update_of_ne hqp z f⟩
      · rintro ⟨q, hq⟩
        by_cases hqp : q = p
        · rw [hqp, Function.update_self] at hq
          exact absurd hq.symm hcz
        · exact ⟨q, by rwa [Function.update_of_ne hqp] at hq⟩

end Owned
