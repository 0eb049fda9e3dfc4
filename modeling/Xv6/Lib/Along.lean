import Xv6.Lib.Prog
/-!
# Relations between the state before and after

`Along ρ c`: every run of `c`, stopped or not, leads from a state to one that `ρ` relates it to.  For a reflexive and
transitive `ρ`, such as "what was there is still there", sequencing keeps it.
-/
namespace Prog

variable {ε σ τ α β : Type}

/-- A relation that says what may have happened between two states. -/
structure Frame (ρ : σ → σ → Prop) : Prop where
  refl  : ∀ s, ρ s s
  trans : ∀ {s t u}, ρ s t → ρ t u → ρ s u

def Along (ρ : σ → σ → Prop) (c : Prog ε σ τ α) : Prop := ∀ s, ρ s (c s).st

namespace Along

variable {ρ : σ → σ → Prop}

protected theorem pure (hρ : Frame ρ) (a : α) : Along ρ (pure a : Prog ε σ τ α) := hρ.refl
protected theorem stop (hρ : Frame ρ) (e : ε) : Along ρ (stop e : Prog ε σ τ α) := hρ.refl
protected theorem emit (hρ : Frame ρ) (t : τ) : Along ρ (emit t : Prog ε σ τ Unit) := hρ.refl

theorem bind_at (hρ : Frame ρ) {c : Prog ε σ τ α} {f : α → Prog ε σ τ β} {s : σ} (hc : ρ s (c s).st)
    (hf : ∀ a, (c s).res = .ok a → ρ (c s).st (f a (c s).st).st) : ρ s ((c >>= f) s).st := by
  rw [bind_run]
  rcases hcs : c s with ⟨r, s', t⟩
  rw [hcs] at hc hf
  cases r with
  | error e => exact hc
  | ok a => exact hρ.trans hc (hf a rfl)

protected theorem bind (hρ : Frame ρ) {c : Prog ε σ τ α} {f : α → Prog ε σ τ β} (hc : Along ρ c)
    (hf : ∀ a, Along ρ (f a)) : Along ρ (c >>= f) := fun s => bind_at hρ (hc s) fun a _ => hf a _

theorem ite {b : Prop} [Decidable b] {c d : Prog ε σ τ α} (hc : b → Along ρ c) (hd : ¬ b → Along ρ d) :
    Along ρ (if b then c else d) := by
  split
  · exact hc ‹_›
  · exact hd ‹_›

theorem quiet {κ : Type} {π : σ → κ} {R : τ → Prop} {c : Prog ε σ τ α} (hc : Quiet π R c)
    (h : ∀ s t, π t = π s → ρ s t) : Along ρ c := fun s => h s _ (hc s).1

end Along
end Prog
