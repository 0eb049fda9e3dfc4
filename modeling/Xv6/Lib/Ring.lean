import Mathlib
/-!
# Rings of doubly linked nodes

Two partial functions `next` and `prev` on nodes link the nodes of a nonempty list into a ring, if they lead from each
node to the one after it and back, and from the last to the first.  A ring may be entered at any of its nodes, a node
leaves it when its neighbours are joined, and a node joins it before the first.
-/

/-- `b` comes after `a`, and the links say so both ways. -/
def Link {α : Type} (next prev : α → Option α) (a b : α) : Prop := next a = some b ∧ prev b = some a

/-- The nodes `x :: l` are linked into a ring. -/
structure IsRing {α : Type} (next prev : α → Option α) (x : α) (l : List α) : Prop where
  nodup : (x :: l).Nodup
  chain : (x :: (l ++ [x])).IsChain (Link next prev)

namespace IsRing

variable {α : Type} {next prev next' prev' : α → Option α} {x y z : α} {l l₁ l₂ : List α}

/-- **A ring can be entered at any of its nodes.** -/
theorem rotate (h : IsRing next prev x (l₁ ++ y :: l₂)) : IsRing next prev y (l₂ ++ x :: l₁) := by
  obtain ⟨hnd, hch⟩ := h
  refine ⟨?_, ?_⟩
  · refine (List.Perm.nodup_iff ?_).1 hnd
    calc x :: (l₁ ++ y :: l₂) = (x :: l₁) ++ (y :: l₂) := rfl
      _ |>.Perm ((y :: l₂) ++ (x :: l₁)) := List.perm_append_comm
  · rw [List.append_assoc, List.cons_append, List.isChain_cons_split] at hch
    rw [List.append_assoc, List.cons_append, List.isChain_cons_split]
    exact ⟨hch.2, hch.1⟩

theorem link_last (h : IsRing next prev x l) (hz : (x :: l).getLast? = some z) : Link next prev z x := by
  obtain ⟨w, hw⟩ : ∃ w, x :: l = w ++ [z] := by
    obtain ⟨w, hw⟩ := List.getLast?_eq_some_iff.1 hz
    exact ⟨w, hw⟩
  have hch := h.chain
  rw [← List.cons_append, hw, List.append_assoc, List.singleton_append, List.isChain_append_cons_cons] at hch
  exact hch.2.1

theorem next_cons (h : IsRing next prev x (y :: l)) : Link next prev x y := by
  have hch := h.chain
  rw [List.cons_append, List.isChain_cons_cons] at hch
  exact hch.1

theorem link_append (h : IsRing next prev x l) (hl : x :: l = l₁ ++ y :: z :: l₂) : Link next prev y z := by
  have hch := h.chain
  rw [← List.cons_append, hl, List.append_assoc, List.cons_append, List.cons_append,
    List.isChain_append_cons_cons] at hch
  exact hch.2.1

/-- Links survive where only the `next` of a node `z` and the `prev` of a first node change, if `z` leads outside. -/
theorem relink (hch : l.IsChain (Link next prev)) (hz : next z = some x) (hx : x ∉ l.tail)
    (hnext : ∀ a ∈ l, a ≠ z → next' a = next a) (hprev : ∀ b ∈ l.tail, prev' b = prev b) :
    l.IsChain (Link next' prev') := by
  refine hch.imp_of_mem_tail_imp fun a b ha hb hab => ?_
  have haz : a ≠ z := by
    rintro rfl
    exact hx (Option.some.inj (hab.1.symm.trans hz) ▸ hb)
  exact ⟨(hnext a ha haz).trans hab.1, (hprev b hb).trans hab.2⟩

theorem unlink (h : IsRing next prev x (y :: l)) (hz : (y :: l).getLast? = some z)
    (hnext : ∀ a ∈ y :: l, a ≠ z → next' a = next a) (hprev : ∀ b ∈ l, prev' b = prev b)
    (hlink : Link next' prev' z y) : IsRing next' prev' y l := by
  have hnd := List.nodup_cons.1 h.nodup
  refine ⟨hnd.2, ?_⟩
  obtain ⟨w, hw⟩ := List.getLast?_eq_some_iff.1 hz
  have hzx : (x :: y :: l).getLast? = some z := by rw [List.getLast?_cons_cons]; exact hz
  have hch : (y :: l).IsChain (Link next prev) := by
    have := h.chain
    rw [List.cons_append, List.isChain_cons_cons, ← List.cons_append] at this
    exact List.IsChain.left_of_append this.2
  have hin := relink hch (h.link_last hzx).1 (fun hm => hnd.1 (List.mem_cons_of_mem y hm)) hnext hprev
  rw [← List.cons_append, hw, List.append_assoc, List.singleton_append, List.isChain_append_cons_cons, ← hw]
  exact ⟨hin, hlink, List.isChain_singleton _⟩

theorem append {q : α} (h : IsRing next prev x l) (hz : (x :: l).getLast? = some z) (hq : q ∉ x :: l)
    (hnext : ∀ a ∈ x :: l, a ≠ z → next' a = next a) (hprev : ∀ b ∈ l, prev' b = prev b)
    (hzq : Link next' prev' z q) (hqx : Link next' prev' q x) : IsRing next' prev' x (l ++ [q]) := by
  refine ⟨?_, ?_⟩
  · rw [← List.cons_append]
    exact List.nodup_append_comm.1 (List.nodup_cons.2 ⟨hq, h.nodup⟩)
  · have hch : (x :: l).IsChain (Link next prev) := by
      have := h.chain
      rw [← List.cons_append] at this
      exact List.IsChain.left_of_append this
    have hin := relink hch (h.link_last hz).1 (List.nodup_cons.1 h.nodup).1 hnext hprev
    obtain ⟨w, hw⟩ := List.getLast?_eq_some_iff.1 hz
    rw [List.append_assoc, List.singleton_append, ← List.cons_append, hw, List.append_assoc, List.singleton_append,
      List.isChain_append_cons_cons, ← hw, List.isChain_cons_cons]
    exact ⟨hin, hzq, hqx, List.isChain_singleton _⟩

theorem congr (h : IsRing next prev x l) (hnext : ∀ a ∈ x :: l, next' a = next a)
    (hprev : ∀ b ∈ x :: l, prev' b = prev b) : IsRing next' prev' x l := by
  refine ⟨h.nodup, h.chain.imp_of_mem_imp fun a b ha hb hab => ?_⟩
  have hmem : ∀ c, c ∈ x :: (l ++ [x]) → c ∈ x :: l := by
    intro c hc
    simp only [List.mem_cons, List.mem_append, List.not_mem_nil, or_false] at hc ⊢
    tauto
  exact ⟨(hnext a (hmem a ha)).trans hab.1, (hprev b (hmem b hb)).trans hab.2⟩

theorem next_mem (h : IsRing next prev x l) (hy : y ∈ x :: l) (hz : next y = some z) : z ∈ x :: l := by
  obtain ⟨l₁, l₂, hl⟩ := List.append_of_mem hy
  cases l₂ with
  | nil =>
    have hlast : (x :: l).getLast? = some y := by rw [hl]; simp
    obtain rfl : x = z := Option.some.inj ((h.link_last hlast).1.symm.trans hz)
    exact List.mem_cons_self
  | cons w l₂ =>
    obtain rfl : w = z := Option.some.inj ((h.link_append hl).1.symm.trans hz)
    rw [hl]
    simp

/-- **Two rings through one node have the same nodes.** -/
theorem mem_of_mem (h : IsRing next prev x l₁) (h' : IsRing next prev x l₂) (hy : y ∈ x :: l₂) : y ∈ x :: l₁ := by
  rcases List.mem_cons.1 hy with rfl | hy
  · exact List.mem_cons_self
  · exact h'.chain.cons_induction (fun z => z ∈ x :: l₁) _ (fun _ _ hlink hm => h.next_mem hm hlink.1)
      List.mem_cons_self y (List.mem_append_left _ hy)

theorem singleton (h : Link next prev x x) : IsRing next prev x [] :=
  ⟨by simp, List.isChain_pair.2 h⟩

end IsRing
