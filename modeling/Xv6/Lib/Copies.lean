import Mathlib
/-!
# Assignments in sequence

A memory of cells `A` runs through a list of assignments `*d = *s`, each a pair of cells.  Where no cell is written twice
and none is read after it was written, every destination ends with what its source held at the start.  Where a run copies
upwards onto its own source, at a distance `δ`, the first `δ` cells repeat.
-/

variable {A β : Type} [DecidableEq A]

def copies : List (A × A) → (A → β) → A → β
  | [], m     => m
  | p :: l, m => copies l (Function.update m p.1 (m p.2))

namespace copies

variable {l l' : List (A × A)} {m : A → β} {p : A × A} {a : A}

@[simp] theorem nil (m : A → β) : copies [] m = m := rfl
@[simp] theorem cons (p : A × A) (l : List (A × A)) (m : A → β) :
    copies (p :: l) m = copies l (Function.update m p.1 (m p.2)) := rfl

theorem append : ∀ (l l' : List (A × A)) (m : A → β), copies (l ++ l') m = copies l' (copies l m)
  | [], _, _      => rfl
  | p :: l, l', m => append l l' (Function.update m p.1 (m p.2))

theorem other : ∀ {l : List (A × A)} {m : A → β}, (∀ p ∈ l, p.1 ≠ a) → copies l m a = m a
  | [], _, _     => rfl
  | p :: l, m, h => by
    have hp : a ≠ p.1 := Ne.symm (h p List.mem_cons_self)
    simp [other fun q hq => h q (List.mem_cons_of_mem p hq), hp]

/-- **Every destination has what its source held**, where cells are written once and read before they are written. -/
theorem apart : ∀ {l : List (A × A)} {m : A → β}, l.Pairwise (fun p q => p.1 ≠ q.1 ∧ p.1 ≠ q.2) → p ∈ l →
    copies l m p.1 = m p.2
  | [], _, _, hp     => by cases hp
  | q :: l, m, h, hp => by
    obtain ⟨hq, hl⟩ := List.pairwise_cons.1 h
    rcases List.mem_cons.1 hp with rfl | hp
    · rw [cons, other fun r hr => Ne.symm (hq r hr).1, Function.update_self]
    · rw [cons, apart hl hp, Function.update_of_ne (Ne.symm (hq p hp).2)]

/-- **A copy onto its own source**: cell `i + δ` is given what cell `i` has by then. -/
theorem shifted {c : Nat → A} {δ : Nat} (hδ : 0 < δ) : ∀ (n : Nat), (∀ i j, i < n + δ → j < n + δ → c i = c j → i = j) →
    ∀ i, i < n + δ → copies ((List.range n).map fun i => (c (i + δ), c i)) m (c i) = m (c (i % δ))
  | 0, _, i, hi      => by rw [Nat.mod_eq_of_lt (by omega)]; rfl
  | n + 1, hc, i, hi => by
    have ih := shifted hδ n fun i j hi hj => hc i j (by omega) (by omega)
    rw [List.range_succ, List.map_append, append, List.map_singleton, cons, nil]
    by_cases hin : i = n + δ
    · rw [hin, Function.update_self, ih n (by omega), Nat.add_mod_right]
    · rw [Function.update_of_ne fun h => hin (hc _ _ hi (by omega) h), ih i (by omega)]

end copies
