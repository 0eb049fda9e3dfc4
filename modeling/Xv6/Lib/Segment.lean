import Mathlib
/-!
# Segments of singly linked nodes

A partial function `next` links nodes; `Seg next p l q` says that from `p` one comes through the nodes `l` to `q`, where
`none` is the end of all.
-/

/-- From `p` the links lead through `l` to `q`. -/
def Seg {α : Type} (next : α → Option α) : Option α → List α → Option α → Prop
  | p, [], q     => p = q
  | p, a :: l, q => p = some a ∧ Seg next (next a) l q

namespace Seg

variable {α : Type} {next next' : α → Option α} {p q r : Option α} {a b : α} {l m : List α}

theorem append : ∀ {p : Option α} {l : List α}, Seg next p (l ++ m) q ↔ ∃ r, Seg next p l r ∧ Seg next r m q
  | p, [] => ⟨fun h => ⟨p, rfl, h⟩, fun ⟨_, he, h⟩ => by cases he; exact h⟩
  | p, a :: l => by
    refine Iff.trans (and_congr_right fun _ => append) ?_
    exact ⟨fun ⟨hp, r, hl, hm⟩ => ⟨r, ⟨hp, hl⟩, hm⟩, fun ⟨r, ⟨hp, hl⟩, hm⟩ => ⟨hp, r, hl, hm⟩⟩

theorem congr : ∀ {p : Option α} {l : List α}, (∀ a ∈ l, next' a = next a) → Seg next p l q → Seg next' p l q
  | _, [], _, h => h
  | _, a :: _, he, ⟨hp, h⟩ => by
    refine ⟨hp, congr (fun b hb => he b (List.mem_cons_of_mem a hb)) ?_⟩
    rw [he a List.mem_cons_self]
    exact h

theorem head (h : Seg next p l none) : p = l.head? := by
  cases l with
  | nil => exact h
  | cons a l => exact h.1

theorem link [DecidableEq α] (h : Seg next p (l ++ [a]) r) (hnd : (l ++ [a]).Nodup) (hb : b ∉ l ++ [a])
    (hq : next b = q) : Seg (Function.update next a (some b)) p (l ++ [a] ++ [b]) q := by
  obtain ⟨s, hl, hs, -⟩ := append.1 h
  have ha : a ∉ l := fun ha => (List.nodup_append.1 hnd).2.2 a ha a List.mem_cons_self rfl
  have hne : b ≠ a := fun e => hb (e ▸ List.mem_append_right l List.mem_cons_self)
  refine append.2 ⟨some b, append.2 ⟨s, ?_, hs, ?_⟩, rfl, ?_⟩
  · exact congr (fun c hc => Function.update_of_ne (fun e : c = a => ha (e ▸ hc)) (some b) next) hl
  · exact Function.update_self a (some b) next
  · exact (Function.update_of_ne hne (some b) next).trans hq

theorem next_mem : ∀ {p : Option α} {l : List α}, Seg next p l (some b) → ∀ {y}, y ∈ l → ∃ z ∈ l.tail ++ [b], next y = some z
  | _, [_], ⟨_, h⟩, y, hy => by
    rw [List.mem_singleton.1 hy]
    exact ⟨b, List.mem_singleton_self b, h⟩
  | _, x :: a :: l, ⟨_, h⟩, y, hy => by
    rcases List.mem_cons.1 hy with rfl | hy
    · exact ⟨a, List.mem_cons_self, h.1⟩
    · obtain ⟨z, hz, he⟩ := next_mem h hy
      exact ⟨z, List.mem_cons_of_mem a hz, he⟩

theorem next_lt [Preorder α] : ∀ {p : Option α} {l : List α}, Seg next p l (some b) → (l ++ [b]).Pairwise (· < ·) →
    ∀ {y}, y ∈ l → ∃ z, next y = some z ∧ y < z ∧ z ≤ b
  | _, [x], ⟨_, h⟩, hs, y, hy => by
    rw [List.mem_singleton.1 hy]
    exact ⟨b, h, (List.pairwise_cons.1 hs).1 b (List.mem_singleton_self b), le_refl b⟩
  | _, x :: a :: l, ⟨_, h⟩, hs, y, hy => by
    obtain ⟨hx, htail⟩ := List.pairwise_cons.1 hs
    rcases List.mem_cons.1 hy with rfl | hy
    · refine ⟨a, h.1, hx a List.mem_cons_self, ?_⟩
      exact ((List.pairwise_cons.1 htail).1 b (List.mem_append_right l (List.mem_singleton_self b))).le
    · exact next_lt h htail hy

theorem suffix (h : Seg next p (l ++ a :: m) q) : Seg next (some a) (a :: m) q := by
  obtain ⟨_, -, rfl, hm⟩ := append.1 h
  exact ⟨rfl, hm⟩

end Seg
