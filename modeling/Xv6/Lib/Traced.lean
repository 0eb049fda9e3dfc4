import Xv6.Lib.Wp
/-!
# Weakest preconditions that speak of the events

`wpt c Q E s` is `wp`, with the events of the run as an argument of the postcondition.  `wpe c Q R s` says of a run that is
stopped what its events are, and not why.
-/
namespace Prog

variable {ε σ τ α β : Type}

def wpt (c : Prog ε σ τ α) (Q : α → σ → List τ → Prop) (E : ε → Prop) (s : σ) : Prop :=
  match (c s).res with
  | .ok a    => Q a (c s).st (c s).tr
  | .error e => E e

variable {c : Prog ε σ τ α} {Q Q' : α → σ → List τ → Prop} {E E' : ε → Prop} {s : σ}

theorem wpt.mono (h : wpt c Q E s) (hQ : ∀ a t l, Q a t l → Q' a t l) (hE : ∀ e, E e → E' e) : wpt c Q' E' s := by
  unfold wpt at h ⊢
  split
  · rename_i a ha
    rw [ha] at h
    exact hQ a _ _ h
  · rename_i e he
    rw [he] at h
    exact hE e h

theorem wpt.imp (h : wpt c Q E s) (hQ : ∀ a t l, Q a t l → Q' a t l) : wpt c Q' E s := h.mono hQ (fun _ he => he)

theorem wpt.wp {Q' : α → σ → Prop} (h : wpt c Q E s) (hQ : ∀ a t l, Q a t l → Q' a t) (hE : ∀ e, E e → E' e) :
    wp c Q' E' s := by
  have hw : wpt c (fun a t _ => Q' a t) E' s := h.mono hQ hE
  exact hw

theorem wpt.and_wp {Q' : α → σ → Prop} (h : wpt c Q E s) (h' : Prog.wp c Q' E' s) :
    wpt c (fun a t l => Q a t l ∧ Q' a t) E s := by
  unfold wpt at h ⊢
  split
  · rename_i a ha
    rw [ha] at h
    exact ⟨h, h'.ok ha⟩
  · rename_i e he
    rwa [he] at h

theorem wpt.returns (h : wpt c Q (fun _ => False) s) : ∃ a, (c s).res = .ok a ∧ Q a (c s).st (c s).tr := by
  unfold wpt at h
  cases hr : (c s).res with
  | ok a =>
    rw [hr] at h
    exact ⟨a, rfl, h⟩
  | error e =>
    rw [hr] at h
    exact h.elim

theorem wpt.run (h : wpt c Q (fun _ => False) s) : ∃ a t l, c s = ⟨.ok a, t, l⟩ ∧ Q a t l := by
  unfold wpt at h
  rcases hc : c s with ⟨r | a, t, l⟩
  · rw [hc] at h
    exact h.elim
  · rw [hc] at h
    exact ⟨a, t, l, rfl, h⟩

@[simp] theorem wpt_pure (a : α) : wpt (pure a : Prog ε σ τ α) Q E s ↔ Q a s [] := Iff.rfl
@[simp] theorem wpt_stop (e : ε) : wpt (stop e : Prog ε σ τ α) Q E s ↔ E e := Iff.rfl
@[simp] theorem wpt_get {Q : σ → σ → List τ → Prop} : wpt (get : Prog ε σ τ σ) Q E s ↔ Q s s [] := Iff.rfl
@[simp] theorem wpt_read (g : σ → α) : wpt (read g : Prog ε σ τ α) Q E s ↔ Q (g s) s [] := Iff.rfl

@[simp] theorem wpt_modify {Q : Unit → σ → List τ → Prop} (f : σ → σ) :
    wpt (modify f : Prog ε σ τ Unit) Q E s ↔ Q () (f s) [] := Iff.rfl

@[simp] theorem wpt_emit {Q : Unit → σ → List τ → Prop} (e : τ) :
    wpt (emit e : Prog ε σ τ Unit) Q E s ↔ Q () s [e] := Iff.rfl

@[simp] theorem wpt_bind {f : α → Prog ε σ τ β} {Q : β → σ → List τ → Prop} :
    wpt (c >>= f) Q E s ↔ wpt c (fun a t l => wpt (f a) (fun b u m => Q b u (l ++ m)) E t) E s := by
  unfold wpt
  rw [bind_run]
  rcases c s with ⟨r | a, t, l⟩ <;> exact Iff.rfl

theorem wpt_ite {b : Prop} [Decidable b] {d : Prog ε σ τ α} (hc : b → wpt c Q E s) (hd : ¬ b → wpt d Q E s) :
    wpt (if b then c else d) Q E s := by
  split
  · exact hc ‹_›
  · exact hd ‹_›

theorem wpt_when {b : Prop} [Decidable b] {c : Prog ε σ τ Unit} {Q : Unit → σ → List τ → Prop}
    (hc : b → wpt c Q E s) (hd : ¬ b → Q () s []) : wpt (Prog.when b c) Q E s := wpt_ite hc hd

theorem wpt_of_run {a : α} {s' : σ} {l : List τ} (h : c s = ⟨.ok a, s', l⟩) (hq : Q a s' l) : wpt c Q E s := by
  unfold wpt
  rw [h]
  exact hq

theorem Quiet.wpt {ρ : Type} {π : σ → ρ} {Q : α → σ → Prop} (hc : Quiet π (fun _ => False) c) (h : Prog.wp c Q E s) :
    wpt c (fun a t l => Q a t ∧ π t = π s ∧ l = []) E s := by
  obtain ⟨hst, htr⟩ := hc s
  unfold Prog.wpt
  split
  · rename_i a ha
    exact ⟨h.ok ha, hst, List.eq_nil_iff_forall_not_mem.2 htr⟩
  · rename_i e he
    exact h.error he

/-! ## The events of every run -/

def wpe (c : Prog ε σ τ α) (Q : α → σ → List τ → Prop) (R : List τ → Prop) (s : σ) : Prop :=
  match (c s).res with
  | .ok a    => Q a (c s).st (c s).tr
  | .error _ => R (c s).tr

variable {R R' : List τ → Prop}

theorem wpe.mono (h : wpe c Q R s) (hQ : ∀ a t l, Q a t l → Q' a t l) (hR : ∀ l, R l → R' l) : wpe c Q' R' s := by
  unfold wpe at h ⊢
  split
  · rename_i a ha
    rw [ha] at h
    exact hQ a _ _ h
  · rename_i e he
    rw [he] at h
    exact hR _ h

theorem wpe.events (h : wpe c (fun _ _ l => R l) R s) : R (c s).tr := by
  unfold wpe at h
  split at h
  · exact h
  · exact h

@[simp] theorem wpe_pure (a : α) : wpe (pure a : Prog ε σ τ α) Q R s ↔ Q a s [] := Iff.rfl
@[simp] theorem wpe_stop (e : ε) : wpe (stop e : Prog ε σ τ α) Q R s ↔ R [] := Iff.rfl
@[simp] theorem wpe_get {Q : σ → σ → List τ → Prop} : wpe (get : Prog ε σ τ σ) Q R s ↔ Q s s [] := Iff.rfl
@[simp] theorem wpe_read (g : σ → α) : wpe (read g : Prog ε σ τ α) Q R s ↔ Q (g s) s [] := Iff.rfl

@[simp] theorem wpe_modify {Q : Unit → σ → List τ → Prop} (f : σ → σ) :
    wpe (modify f : Prog ε σ τ Unit) Q R s ↔ Q () (f s) [] := Iff.rfl

@[simp] theorem wpe_emit {Q : Unit → σ → List τ → Prop} (e : τ) :
    wpe (emit e : Prog ε σ τ Unit) Q R s ↔ Q () s [e] := Iff.rfl

/-- **Sequencing**: the events of the first part come first, wherever the second is stopped. -/
@[simp] theorem wpe_bind {f : α → Prog ε σ τ β} {Q : β → σ → List τ → Prop} : wpe (c >>= f) Q R s ↔
    wpe c (fun a t l => wpe (f a) (fun b u m => Q b u (l ++ m)) (fun m => R (l ++ m)) t) R s := by
  unfold wpe
  rw [bind_run]
  rcases c s with ⟨r | a, t, l⟩ <;> exact Iff.rfl

theorem wpe_ite {b : Prop} [Decidable b] {d : Prog ε σ τ α} (hc : b → wpe c Q R s) (hd : ¬ b → wpe d Q R s) :
    wpe (if b then c else d) Q R s := by
  split
  · exact hc ‹_›
  · exact hd ‹_›

theorem wpe_when {b : Prop} [Decidable b] {c : Prog ε σ τ Unit} {Q : Unit → σ → List τ → Prop}
    (hc : b → wpe c Q R s) (hd : ¬ b → Q () s []) : wpe (Prog.when b c) Q R s := wpe_ite hc hd

theorem wpe_of_run {a : α} {s' : σ} {l : List τ} (h : c s = ⟨.ok a, s', l⟩) (hq : Q a s' l) : wpe c Q R s := by
  unfold wpe
  rw [h]
  exact hq

end Prog
