import Mathlib
/-!
# Lists threaded through a memory

A list given by the pointer to its first cell, each cell holding the pointer to the next and the last one `null`.
-/

variable {P : Type} {null r : P} {next next' : P → P} {l l' : List P}

/-- The cells `l` are threaded from `r` on. -/
def Threaded (null : P) (next : P → P) : P → List P → Prop
  | r, []     => r = null
  | r, x :: l => r = x ∧ x ≠ null ∧ Threaded null next (next x) l

namespace Threaded

theorem nil_iff (h : Threaded null next r l) : r = null ↔ l = [] := by
  cases l with
  | nil => exact iff_of_true h rfl
  | cons x l => exact iff_of_false (h.1 ▸ h.2.1) nofun

/-- **A pointer has one list**: where it ends, it ends. -/
theorem unique : ∀ {l l' : List P} {r : P}, Threaded null next r l → Threaded null next r l' → l = l'
  | [], l', _, h, h'          => (h'.nil_iff.1 h).symm
  | x :: l, [], _, h, h'      => absurd (h.1.symm.trans h') h.2.1
  | x :: l, y :: l', r, h, h' => by
    obtain rfl : x = y := h.1.symm.trans h'.1
    rw [unique h.2.2 h'.2.2]

theorem suffix : ∀ {l : List P} {r x : P}, Threaded null next r l → x ∈ l →
    ∃ l', Threaded null next x l' ∧ l'.length ≤ l.length
  | y :: l, r, x, h, hx => by
    by_cases hxy : x = y
    · exact ⟨y :: l, ⟨hxy, h.2⟩, le_rfl⟩
    · obtain ⟨l', hl', hlen⟩ := suffix h.2.2 ((List.mem_cons.1 hx).resolve_left hxy)
      exact ⟨l', hl', hlen.trans (Nat.le_succ _)⟩

/-- **A list that ends has no cycle.** -/
theorem nodup : ∀ {l : List P} {r : P}, Threaded null next r l → l.Nodup
  | [], _, _     => List.nodup_nil
  | x :: l, r, h => by
    refine List.nodup_cons.2 ⟨fun hx => ?_, nodup h.2.2⟩
    obtain ⟨l', hl', hlen⟩ := h.2.2.suffix hx
    have hx' : Threaded null next x (x :: l) := ⟨rfl, h.2⟩
    rw [unique hl' hx', List.length_cons] at hlen
    omega

theorem congr : ∀ {l : List P} {r : P}, Threaded null next r l → (∀ x ∈ l, next' x = next x) → Threaded null next' r l
  | [], _, h, _      => h
  | x :: l, r, h, hn => by
    refine ⟨h.1, h.2.1, ?_⟩
    rw [hn x List.mem_cons_self]
    exact congr h.2.2 fun y hy => hn y (List.mem_cons_of_mem x hy)

theorem push {x : P} (h : Threaded null next r l) (hx : x ≠ null) (hr : next' x = r) (hn : ∀ y ∈ l, next' y = next y) :
    Threaded null next' x (x :: l) := by
  refine ⟨rfl, hx, ?_⟩
  rw [hr]
  exact h.congr hn

theorem pop (h : Threaded null next r l) (hr : r ≠ null) : ∃ l', l = r :: l' ∧ Threaded null next (next r) l' := by
  cases l with
  | nil => exact absurd h hr
  | cons x l' => exact ⟨l', by rw [h.1], h.1 ▸ h.2.2⟩

end Threaded
