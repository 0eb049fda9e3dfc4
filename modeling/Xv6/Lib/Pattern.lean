import Mathlib.Computability.Language
/-!
# Patterns of symbols and stars

A pattern is a list of items, each a symbol or any number of times a symbol, and may be bound to the start and to the end
of a text.  A symbol is a letter, or `none` for every letter.  Its language is built from Mathlib's operations on languages.
-/

open Computability

def symbol {α : Type} (x : Option α) : Language α := {w | ∃ a, (x = none ∨ x = some a) ∧ w = [a]}

inductive Item (α : Type) where
  | one (x : Option α)
  | star (x : Option α)

def Item.lang {α : Type} : Item α → Language α
  | .one x  => symbol x
  | .star x => (symbol x)∗

structure Pattern (α : Type) where
  atStart : Bool
  items   : List (Item α)
  atEnd   : Bool

namespace Pattern

variable {α : Type}

/-- The texts that the items match from their first letter on. -/
def tail (items : List (Item α)) (atEnd : Bool) : Language α := (items.map Item.lang).prod * if atEnd then 1 else ⊤

def lang (p : Pattern α) : Language α := (if p.atStart then 1 else ⊤) * tail p.items p.atEnd

/-! ## Membership by the first letter -/

variable {x : Option α} {l : Language α} {w : List α}

theorem mem_symbol_mul : w ∈ symbol x * l ↔ ∃ a v, w = a :: v ∧ (x = none ∨ x = some a) ∧ v ∈ l := by
  rw [Language.mem_mul]
  constructor
  · rintro ⟨u, ⟨a, ha, rfl⟩, v, hv, rfl⟩
    exact ⟨a, v, rfl, ha, hv⟩
  · rintro ⟨a, v, rfl, ha, hv⟩
    exact ⟨[a], ⟨a, ha, rfl⟩, v, hv, rfl⟩

/-- **A star is none, or a symbol and a star.** -/
theorem mem_star_mul : w ∈ (symbol x)∗ * l ↔ w ∈ l ∨ w ∈ symbol x * ((symbol x)∗ * l) := by
  have hstar : (symbol x)∗ * l = l + symbol x * ((symbol x)∗ * l) := by
    rw [← mul_assoc]
    nth_rewrite 1 [← Language.one_add_self_mul_kstar_eq_kstar]
    rw [add_mul, one_mul]
  rw [hstar, Language.mem_add]
  rw [← hstar]

theorem mem_top (w : List α) : w ∈ (⊤ : Language α) := Set.mem_univ w

theorem mem_top_mul : ∀ {w : List α}, w ∈ ⊤ * l ↔ ∃ u v, w = u ++ v ∧ v ∈ l := by
  intro w
  rw [Language.mem_mul]
  constructor
  · rintro ⟨u, _, v, hv, rfl⟩
    exact ⟨u, v, rfl, hv⟩
  · rintro ⟨u, v, rfl, hv⟩
    exact ⟨u, mem_top u, v, hv, rfl⟩

theorem mem_top_mul_cons {a : α} : a :: w ∈ ⊤ * l ↔ a :: w ∈ l ∨ w ∈ ⊤ * l := by
  rw [mem_top_mul, mem_top_mul]
  constructor
  · rintro ⟨u, v, h, hv⟩
    cases u with
    | nil =>
      rw [List.nil_append] at h
      exact Or.inl (h ▸ hv)
    | cons b u =>
      rw [List.cons_append, List.cons.injEq] at h
      exact Or.inr ⟨u, v, h.2, hv⟩
  · rintro (h | ⟨u, v, rfl, hv⟩)
    · exact ⟨[], a :: w, rfl, h⟩
    · exact ⟨a :: u, v, rfl, hv⟩

theorem nil_mem_top_mul : [] ∈ ⊤ * l ↔ [] ∈ l := by
  rw [mem_top_mul]
  constructor
  · rintro ⟨u, v, h, hv⟩
    rwa [(List.nil_eq_append_iff.1 h).2] at hv
  · exact fun h => ⟨[], [], rfl, h⟩

theorem tail_nil_false : tail ([] : List (Item α)) false = ⊤ := by simp [tail]
theorem tail_nil_true : tail ([] : List (Item α)) true = 1 := by simp [tail]

@[simp] theorem tail_one (items : List (Item α)) (b : Bool) : tail (.one x :: items) b = symbol x * tail items b := by
  simp [tail, Item.lang, mul_assoc]

@[simp] theorem tail_star (items : List (Item α)) (b : Bool) :
    tail (.star x :: items) b = (symbol x)∗ * tail items b := by
  simp [tail, Item.lang, mul_assoc]

end Pattern
