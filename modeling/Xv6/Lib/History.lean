import Xv6.Lib.Prog
/-!
# Assertions on the state and the events so far

`Traced P c Q E` is for properties of a run that speak of what has happened before.  `P`, `Q` and `E` are predicates of
the events so far and the state: a run of `c` from `P` ends with `Q`, or is stopped with `E`.
-/
namespace Prog

variable {ε σ τ α β : Type}

def Traced (P : List τ → σ → Prop) (c : Prog ε σ τ α) (Q : α → List τ → σ → Prop) (E : ε → List τ → σ → Prop) : Prop :=
  ∀ h s, P h s → (∀ a, (c s).res = .ok a → Q a (h ++ (c s).tr) (c s).st) ∧
    ∀ e, (c s).res = .error e → E e (h ++ (c s).tr) (c s).st

namespace Traced

variable {P : List τ → σ → Prop} {E : ε → List τ → σ → Prop}

protected theorem pure {Q : α → List τ → σ → Prop} (a : α) (h : ∀ t s, P t s → Q a t s) :
    Traced P (pure a : Prog ε σ τ α) Q E := by
  intro t s hs
  refine ⟨fun b hb => ?_, fun e he => by cases he⟩
  cases hb
  rw [pure_run, List.append_nil]
  exact h t s hs

/-- **The run lemma**: what every admitted step keeps holds after every run of admitted steps. -/
theorem admits {C : σ → β → Prop} {body : β → Prog ε σ τ Unit} {I : List τ → σ → Prop}
    (hstep : ∀ x, Traced (fun t s => I t s ∧ C s x) (body x) (fun _ => I) E) :
    ∀ l : List β, Traced (fun t s => I t s ∧ Admits C body l s) (Prog.forEach l body) (fun _ => I) E
  | []     => Traced.pure () (fun _ _ h => h.1)
  | x :: l => by
    intro t s ⟨hs, hx, hl⟩
    obtain ⟨h1, h2⟩ := hstep x t s ⟨hs, hx⟩
    rw [forEach_cons, bind_run]
    rcases hb : body x s with ⟨r, s', u⟩
    rw [hb] at h1 h2 hl
    cases r with
    | error e => exact ⟨fun b hb => (by cases hb), h2⟩
    | ok a =>
      have h3 := admits hstep l (t ++ u) s' ⟨h1 a rfl, hl⟩
      rwa [List.append_assoc] at h3

end Traced
end Prog
