import Xv6.Lib.Wp
/-!
# What a program adds to a measure

`Moves π c δ`: when `c` returns `a`, the measure `π` of the state, in a group, has changed by `δ a`.  Programs compose as
their effects add up, so that what a whole program does to the measure is read off its text, without a word on the states
between.  `Still π c` is the case of no effect.
-/
namespace Prog

variable {ε σ τ α β G : Type} [AddCommGroup G]

def Moves (π : σ → G) (c : Prog ε σ τ α) (δ : α → G) : Prop := ∀ s a, (c s).res = .ok a → π (c s).st = π s + δ a

def Still (π : σ → G) (c : Prog ε σ τ α) : Prop := Moves π c (fun _ => 0)

namespace Moves

variable {π : σ → G} {c : Prog ε σ τ α} {δ : α → G}

protected theorem pure {a : α} (h : δ a = 0) : Moves π (pure a : Prog ε σ τ α) δ := by
  intro s b hb
  simp only [pure_run, Except.ok.injEq] at hb
  subst hb
  rw [h, add_zero]
  rfl

protected theorem stop (e : ε) : Moves π (stop e : Prog ε σ τ α) δ := by
  intro s a ha
  cases ha

protected theorem read_bind {g : σ → β} {f : β → Prog ε σ τ α} (h : ∀ b, Moves π (f b) δ) :
    Moves π (read g >>= f) δ := fun s a ha => h (g s) s a ha

protected theorem get_bind {f : σ → Prog ε σ τ α} (h : ∀ s, Moves π (f s) δ) : Moves π (get >>= f) δ :=
  fun s a ha => h s s a ha

protected theorem modify {f : σ → σ} {d : G} (h : ∀ s, π (f s) = π s + d) :
    Moves π (modify f : Prog ε σ τ Unit) (fun _ => d) := fun s _ _ => h s

protected theorem emit (e : τ) : Still π (emit e : Prog ε σ τ Unit) := fun s _ _ => (add_zero (π s)).symm

protected theorem bind {f : α → Prog ε σ τ β} {γ : β → G} (hc : Moves π c δ)
    (hf : ∀ a, Moves π (f a) (fun b => γ b - δ a)) : Moves π (c >>= f) γ := by
  intro s b hb
  obtain ⟨a, ha, hb', hst, -⟩ := bind_ok hb
  rw [hst, hf a _ b hb', hc s a ha, add_assoc, add_sub_cancel]

protected theorem congr {δ' : α → G} (h : Moves π c δ) (he : ∀ a, δ a = δ' a) : Moves π c δ' :=
  fun s a ha => he a ▸ h s a ha

theorem ite {b : Prop} [Decidable b] {d : Prog ε σ τ α} (hc : b → Moves π c δ) (hd : ¬ b → Moves π d δ) :
    Moves π (if b then c else d) δ := by
  split
  · exact hc ‹_›
  · exact hd ‹_›

protected theorem wp (h : Moves π c δ) (s : σ) : wp c (fun a t => π t = π s + δ a) (fun _ => True) s := by
  unfold Prog.wp
  cases hr : (c s).res with
  | ok a => exact h s a hr
  | error e => trivial

theorem of_run (h : Moves π c δ) {s t : σ} {a : α} {l : List τ} (hr : c s = ⟨.ok a, t, l⟩) : π t = π s + δ a := by
  have hs := h s a (by rw [hr])
  rwa [hr] at hs

end Moves

namespace Still

variable {π : σ → G} {c : Prog ε σ τ α}

protected theorem pure (a : α) : Still π (pure a : Prog ε σ τ α) := Moves.pure rfl
protected theorem stop (e : ε) : Still π (stop e : Prog ε σ τ α) := Moves.stop e

protected theorem read_bind {g : σ → β} {f : β → Prog ε σ τ α} (h : ∀ b, Still π (f b)) : Still π (read g >>= f) :=
  Moves.read_bind h

protected theorem get_bind {f : σ → Prog ε σ τ α} (h : ∀ s, Still π (f s)) : Still π (get >>= f) := Moves.get_bind h

protected theorem modify {f : σ → σ} (h : ∀ s, π (f s) = π s) : Still π (modify f : Prog ε σ τ Unit) :=
  Moves.modify fun s => (h s).trans (add_zero (π s)).symm

theorem modify_bind {g : σ → σ} {f : Unit → Prog ε σ τ α} (hg : ∀ s, π (g s) = π s) (hf : Still π (f ())) :
    Still π (modify g >>= f) := fun s a ha => (hf (g s) a ha).trans (by rw [hg])

protected theorem bind {f : α → Prog ε σ τ β} (hc : Still π c) (hf : ∀ a, Still π (f a)) : Still π (c >>= f) :=
  Moves.bind hc fun a => (hf a).congr fun _ => (sub_zero 0).symm

theorem ite {b : Prop} [Decidable b] {d : Prog ε σ τ α} (hc : Still π c) (hd : Still π d) :
    Still π (if b then c else d) := Moves.ite (fun _ => hc) fun _ => hd

theorem when {b : Prop} [Decidable b] {c : Prog ε σ τ Unit} (hc : Still π c) : Still π (Prog.when b c) :=
  ite hc (Still.pure ())

protected theorem forEach {body : β → Prog ε σ τ Unit} : ∀ l : List β, (∀ x ∈ l, Still π (body x)) → Still π (forEach l body)
  | [], _     => Still.pure ()
  | x :: l, h => (h x List.mem_cons_self).bind fun _ => Still.forEach l fun y hy => h y (List.mem_cons_of_mem x hy)

theorem then_moves {f : α → Prog ε σ τ β} {γ : β → G} (hc : Still π c) (hf : ∀ a, Moves π (f a) γ) :
    Moves π (c >>= f) γ := Moves.bind hc fun a => (hf a).congr fun _ => (sub_zero _).symm

end Still
end Prog
