import Mathlib
/-!
# Forests of processes

A process is named by the numbers of the children that lead to it.  It forks the child whose number is how many it has forked
before, and a child that has ended is there until it is waited for.
-/

abbrev Forest (ρ : Type) : Type := List Nat → Option ρ

namespace Forest

variable {ρ : Type} {kids : ρ → Nat} {s t : Forest ρ} {p q : List Nat} {r c : ρ} {n j : Nat}

/-- No process goes by a number that its parent has still to give. -/
def Fresh (kids : ρ → Nat) (s : Forest ρ) : Prop := ∀ p r, s p = some r → ∀ j, kids r ≤ j → ∀ q, s (p ++ j :: q) = none

/-- How many of the first `n` children are there. -/
def left (s : Forest ρ) (p : List Nat) (n : Nat) : Nat := ((Finset.range n).filter fun j => (s (p ++ [j])).isSome).card

def put (s : Forest ρ) (p : List Nat) (r : ρ) : Forest ρ := Function.update s p (some r)

def fork (s : Forest ρ) (p : List Nat) (n : Nat) (c r : ρ) : Forest ρ := (s.put (p ++ [n]) c).put p r

def drop (s : Forest ρ) (p : List Nat) : Forest ρ := Function.update s p none

@[simp] theorem put_self (s : Forest ρ) (p : List Nat) (r : ρ) : s.put p r p = some r := Function.update_self _ _ _

theorem put_ne (h : q ≠ p) (r : ρ) : s.put p r q = s q := Function.update_of_ne h _ _

@[simp] theorem drop_self (s : Forest ρ) (p : List Nat) : s.drop p p = none := Function.update_self _ _ _

theorem drop_ne (h : q ≠ p) : s.drop p q = s q := Function.update_of_ne h _ _

theorem ne_child (p : List Nat) (j : Nat) : p ++ [j] ≠ p := fun h => by
  have := congrArg List.length h
  simp at this

theorem of_put {x : ρ} (h : s.put p r q = some x) : (q = p ∧ x = r) ∨ (q ≠ p ∧ s q = some x) := by
  by_cases hq : q = p
  · rw [hq, put_self] at h
    exact .inl ⟨hq, (Option.some.inj h).symm⟩
  · exact .inr ⟨hq, by rwa [put_ne hq] at h⟩

theorem of_drop {x : ρ} (h : s.drop p q = some x) : q ≠ p ∧ s q = some x := by
  by_cases hq : q = p
  · rw [hq, drop_self] at h
    cases h
  · exact ⟨hq, by rwa [drop_ne hq] at h⟩

theorem of_fork {x : ρ} (h : s.fork p n c r q = some x) :
    (q = p ∧ x = r) ∨ (q = p ++ [n] ∧ x = c) ∨ (q ≠ p ∧ q ≠ p ++ [n] ∧ s q = some x) := by
  rcases of_put h with h | ⟨hp, h⟩
  · exact .inl h
  · rcases of_put h with h | ⟨hn, h⟩
    · exact .inr (.inl h)
    · exact .inr (.inr ⟨hp, hn, h⟩)

theorem Fresh.drop (h : Fresh kids s) (p : List Nat) : Fresh kids (s.drop p) := by
  intro q x hq j hj l
  have hnone := h q x (of_drop hq).2 j hj l
  by_cases he : q ++ j :: l = p
  · rw [he, drop_self]
  · rw [drop_ne he, hnone]

theorem Fresh.put (h : Fresh kids s) (hp : s p = some r) (hk : kids r ≤ kids c) : Fresh kids (s.put p c) := by
  have hsome : ∀ q j l, s (q ++ j :: l) = none → (s.put p c) (q ++ j :: l) = none := fun q j l hnone => by
    have hqp : q ++ j :: l ≠ p := fun e => by
      rw [e, hp] at hnone
      cases hnone
    rwa [put_ne hqp]
  intro q x hq j hj l
  rcases of_put hq with ⟨rfl, rfl⟩ | ⟨-, hq⟩
  · exact hsome q j l (h q r hp j (Nat.le_trans hk hj) l)
  · exact hsome q j l (h q x hq j hj l)

theorem Fresh.fork (h : Fresh kids s) (hp : s p = some r) {x : ρ} (hx : kids x = kids r + 1) :
    Fresh kids (s.fork p (kids r) c x) := by
  have hchild := h p r hp (kids r) (Nat.le_refl _)
  have hother : ∀ q j l, s (q ++ j :: l) = none → q ++ j :: l ≠ p ++ [kids r] →
      (s.fork p (kids r) c x) (q ++ j :: l) = none := fun q j l hnone hne => by
    have hqp : q ++ j :: l ≠ p := fun e => by
      rw [e, hp] at hnone
      cases hnone
    rw [Forest.fork, put_ne hqp, put_ne hne, hnone]
  intro q y hq j hj l
  rcases of_fork hq with ⟨rfl, rfl⟩ | ⟨rfl, rfl⟩ | ⟨hqp, -, hq⟩
  · refine hother q j l (h q r hp j (by omega) l) fun e => ?_
    have := List.append_cancel_left e
    simp at this
    omega
  · rw [List.append_assoc, List.singleton_append]
    have hlong : p ++ kids r :: (j :: l) ≠ p ++ [kids r] := fun e => by
      have := List.append_cancel_left e
      simp at this
    exact hother p (kids r) (j :: l) (hchild (j :: l)) hlong
  · refine hother q j l (h q y hq j hj l) fun e => ?_
    -- the parent of the new child would be below `q`, or `q` itself
    rcases List.eq_nil_or_concat l with rfl | ⟨l', a, rfl⟩
    · obtain ⟨rfl, -⟩ := List.append_inj' e rfl
      exact hqp rfl
    · rw [List.concat_eq_append, ← List.cons_append, ← List.append_assoc] at e
      obtain ⟨e, -⟩ := List.append_inj' e rfl
      have hnone := h q y hq j hj l'
      rw [e, hp] at hnone
      cases hnone

theorem left_eq_zero : s.left p n = 0 ↔ ∀ j < n, s (p ++ [j]) = none := by
  unfold left
  rw [Finset.card_eq_zero, Finset.filter_eq_empty_iff]
  simp

theorem left_congr (h : ∀ j < n, (s (p ++ [j])).isSome = (t (p ++ [j])).isSome) : s.left p n = t.left p n := by
  unfold left
  refine congrArg Finset.card (Finset.filter_congr fun j hj => ?_)
  rw [h j (Finset.mem_range.1 hj)]

theorem left_put (hq : (s q).isSome) : (s.put q r).left p n = s.left p n :=
  left_congr fun j _ => by
    by_cases hj : p ++ [j] = q
    · rw [hj, put_self, hq]
      rfl
    · rw [put_ne hj]

theorem left_put_ne (hq : ∀ j, p ++ [j] ≠ q) : (s.put q r).left p n = s.left p n :=
  left_congr fun j _ => by rw [put_ne (hq j)]

theorem left_drop_ne (hq : ∀ j, p ++ [j] ≠ q) : (s.drop q).left p n = s.left p n :=
  left_congr fun j _ => by rw [drop_ne (hq j)]

theorem left_fork (hp : (s p).isSome) : (s.fork p n c r).left p (n + 1) = s.left p n + 1 := by
  have hchild : ((s.put (p ++ [n]) c).put p r).left p (n + 1) = (s.put (p ++ [n]) c).left p (n + 1) :=
    left_put (by rwa [put_ne (ne_child p n).symm])
  rw [fork, hchild, left, Finset.range_add_one, Finset.filter_insert, if_pos (by rw [put_self]; rfl),
    Finset.card_insert_of_notMem (by simp)]
  exact congrArg (· + 1) (left_congr fun j hj => by rw [put_ne (by simp; omega)])

theorem left_drop (hj : j < n) (hs : (s (p ++ [j])).isSome) : (s.drop (p ++ [j])).left p n + 1 = s.left p n := by
  have hmem : j ∈ (Finset.range n).filter fun i => (s (p ++ [i])).isSome := by simp [hj, hs]
  rw [left, left, ← Finset.card_erase_add_one hmem]
  refine congrArg (· + 1) (congrArg Finset.card (Finset.ext fun i => ?_))
  rw [Finset.mem_filter, Finset.mem_erase, Finset.mem_filter]
  by_cases hi : i = j
  · simp [hi]
  · rw [drop_ne (by simpa using hi)]
    simp [hi]

end Forest
