import Mathlib
/-!
# A memory of locked cells

A process gets a cell when nobody holds it and is given its value, stores to it while it holds it, and releases it.  A list
of such events is a run of the memory where every one of them may happen and every value that is given is the cell's.
-/

inductive LockedEvent (π κ α : Type) where
  | got (p : π) (k : κ) (v : α)
  | store (p : π) (k : κ) (v : α)
  | release (p : π) (k : κ)
deriving DecidableEq

structure Locked (π κ α : Type) where
  cell : κ → α
  held : κ → Option π

namespace Locked

variable {π κ α : Type} [DecidableEq κ]

inductive Step : Locked π κ α → LockedEvent π κ α → Locked π κ α → Prop where
  | got {s : Locked π κ α} {k : κ} (p : π) (h : s.held k = none) :
    Step s (.got p k (s.cell k)) { s with held := Function.update s.held k (some p) }
  | store {s : Locked π κ α} {k : κ} {p : π} (v : α) (h : s.held k = some p) :
    Step s (.store p k v) { s with cell := Function.update s.cell k v }
  | release {s : Locked π κ α} {k : κ} {p : π} (h : s.held k = some p) :
    Step s (.release p k) { s with held := Function.update s.held k none }

inductive Run : Locked π κ α → List (LockedEvent π κ α) → Locked π κ α → Prop where
  | nil (s : Locked π κ α) : Run s [] s
  | snoc {s t u : Locked π κ α} {es : List (LockedEvent π κ α)} {e : LockedEvent π κ α} (h : Run s es t) (he : Step t e u) :
    Run s (es ++ [e]) u

theorem Run.append {s t u : Locked π κ α} {es es' : List (LockedEvent π κ α)} (h : Run s es t) (h' : Run t es' u) :
    Run s (es ++ es') u := by
  induction h' with
  | nil =>
    rw [List.append_nil]
    exact h
  | snoc _ he ih =>
    rw [← List.append_assoc]
    exact ih.snoc he

/-- **A visit to a cell that nobody holds.** -/
theorem Run.visit (s : Locked π κ α) {k : κ} (p : π) (v : α) (h : s.held k = none) :
    Run s [.got p k (s.cell k), .store p k v, .release p k] { s with cell := Function.update s.cell k v } := by
  have hheld : (Function.update s.held k (some p)) k = some p := Function.update_self ..
  have hend : Function.update (Function.update s.held k (some p)) k none = s.held := by
    rw [Function.update_idem, ← h, Function.update_eq_self]
  have hrelease := Step.release (s := ⟨Function.update s.cell k v, Function.update s.held k (some p)⟩) hheld
  simp only [hend] at hrelease
  exact .snoc (.snoc (.snoc (.nil _) (.got p h)) (.store v hheld)) hrelease

/-- All cells hold what `cell` says, and nobody holds one. -/
def start (cell : κ → α) : Locked π κ α := ⟨cell, fun _ => none⟩

def put (cell : κ → α) : LockedEvent π κ α → κ → α
  | .store _ k v => Function.update cell k v
  | _            => cell

theorem Run.cell {s t : Locked π κ α} {es : List (LockedEvent π κ α)} (h : Run s es t) : t.cell = es.foldl put s.cell := by
  induction h with
  | nil => rfl
  | snoc _ he ih =>
    rw [List.foldl_append, ← ih]
    cases he <;> rfl

theorem Run.prefix {s t : Locked π κ α} {es es' : List (LockedEvent π κ α)} (h : Run s (es ++ es') t) :
    ∃ u, Run s es u := by
  induction es' using List.reverseRecOn generalizing t with
  | nil => exact ⟨t, by rwa [List.append_nil] at h⟩
  | append_singleton es' e ih =>
    rw [← List.append_assoc] at h
    generalize hl : es ++ es' ++ [e] = l at h
    cases h with
    | nil => simp at hl
    | snoc h he =>
      obtain ⟨hes, -⟩ := List.append_inj' hl rfl
      exact ih (hes ▸ h)

/-- **A cell gives the value that was last stored in it.** -/
theorem Run.got {s t : Locked π κ α} {es es' : List (LockedEvent π κ α)} {p : π} {k : κ} {v : α}
    (h : Run s (es ++ .got p k v :: es') t) : v = es.foldl put s.cell k := by
  rw [List.append_cons] at h
  obtain ⟨u, hu⟩ := h.prefix
  generalize hl : es ++ [LockedEvent.got p k v] = l at hu
  cases hu with
  | nil => simp at hl
  | snoc hu he =>
    obtain ⟨rfl, h1⟩ := List.append_inj' hl rfl
    cases List.cons.inj h1 |>.1
    cases he
    rw [hu.cell]

end Locked
