import Xv6.Lib.Prog
/-!
# Weakest preconditions

`wp c Q E s`: run from `s`, the program ends with a value and a state that meet `Q`, or is stopped for a reason that
meets `E`.  It computes backwards through a program, so the specification of a function is proved by rewriting, and with
`E` false it says that the function is not stopped.
-/
namespace Prog

variable {ε σ τ α β : Type}

def wp (c : Prog ε σ τ α) (Q : α → σ → Prop) (E : ε → Prop) (s : σ) : Prop :=
  match (c s).res with
  | .ok a    => Q a (c s).st
  | .error e => E e

variable {c : Prog ε σ τ α} {Q Q' : α → σ → Prop} {E E' : ε → Prop} {s : σ}

theorem wp_of_run {a : α} {s' : σ} {t : List τ} (h : c s = ⟨.ok a, s', t⟩) (hq : Q a s') : wp c Q E s := by
  unfold wp
  rw [h]
  exact hq

theorem wp_of_stop {e : ε} {s' : σ} {t : List τ} (h : c s = ⟨.error e, s', t⟩) (he : E e) : wp c Q E s := by
  unfold wp
  rw [h]
  exact he

theorem wp.ok {a : α} (h : wp c Q E s) (ha : (c s).res = .ok a) : Q a (c s).st := by
  unfold wp at h
  rwa [ha] at h

theorem wp.error {e : ε} (h : wp c Q E s) (he : (c s).res = .error e) : E e := by
  unfold wp at h
  rwa [he] at h

theorem wp.returns (h : wp c Q (fun _ => False) s) : ∃ a, (c s).res = .ok a ∧ Q a (c s).st := by
  cases hr : (c s).res with
  | ok a => exact ⟨a, rfl, h.ok hr⟩
  | error e => exact (h.error hr).elim

theorem wp.mono (h : wp c Q E s) (hQ : ∀ a t, Q a t → Q' a t) (hE : ∀ e, E e → E' e) : wp c Q' E' s := by
  unfold wp at h ⊢
  split
  · rename_i a ha
    rw [ha] at h
    exact hQ a _ h
  · rename_i e he
    rw [he] at h
    exact hE e h

theorem wp.imp (h : wp c Q E s) (hQ : ∀ a t, Q a t → Q' a t) : wp c Q' E s := h.mono hQ (fun _ he => he)

theorem wp.and (h : wp c Q E s) (h' : wp c Q' E' s) : wp c (fun a t => Q a t ∧ Q' a t) E s := by
  unfold wp at h h' ⊢
  split
  · rename_i a ha
    rw [ha] at h h'
    exact ⟨h, h'⟩
  · rename_i e he
    rwa [he] at h

theorem wp.final {P : σ → Prop} (h : wp c Q E s) (hP : P (c s).st) : wp c (fun a t => Q a t ∧ P t) E s := by
  unfold wp at h ⊢
  split
  · rename_i a ha
    rw [ha] at h
    exact ⟨h, hP⟩
  · rename_i e he
    rwa [he] at h

@[simp] theorem wp_pure (a : α) : wp (pure a : Prog ε σ τ α) Q E s ↔ Q a s := Iff.rfl
@[simp] theorem wp_stop (e : ε) : wp (stop e : Prog ε σ τ α) Q E s ↔ E e := Iff.rfl
@[simp] theorem wp_get {Q : σ → σ → Prop} : wp (get : Prog ε σ τ σ) Q E s ↔ Q s s := Iff.rfl
@[simp] theorem wp_read (g : σ → α) : wp (read g : Prog ε σ τ α) Q E s ↔ Q (g s) s := Iff.rfl

@[simp] theorem wp_modify {Q : Unit → σ → Prop} (f : σ → σ) : wp (modify f : Prog ε σ τ Unit) Q E s ↔ Q () (f s) :=
  Iff.rfl

@[simp] theorem wp_emit {Q : Unit → σ → Prop} (t : τ) : wp (emit t : Prog ε σ τ Unit) Q E s ↔ Q () s := Iff.rfl

@[simp] theorem wp_bind {f : α → Prog ε σ τ β} {Q : β → σ → Prop} :
    wp (c >>= f) Q E s ↔ wp c (fun a t => wp (f a) Q E t) E s := by
  unfold wp
  rw [bind_run]
  rcases c s with ⟨r | a, t, l⟩ <;> exact Iff.rfl

theorem wp_bind_any {f : α → Prog ε σ τ β} {Q : β → σ → Prop} (h : ∀ a t, wp (f a) Q (fun _ => True) t) :
    wp (c >>= f) Q (fun _ => True) s := by
  rw [wp_bind]
  unfold wp
  split
  · exact h _ _
  · trivial

theorem wp_ite {b : Prop} [Decidable b] {d : Prog ε σ τ α} (hc : b → wp c Q E s) (hd : ¬ b → wp d Q E s) :
    wp (if b then c else d) Q E s := by
  split
  · exact hc ‹_›
  · exact hd ‹_›

theorem wp_when {b : Prop} [Decidable b] {c : Prog ε σ τ Unit} {Q : Unit → σ → Prop} (hc : b → wp c Q E s)
    (hd : ¬ b → Q () s) : wp (Prog.when b c) Q E s := wp_ite hc hd

theorem wp_zoom {σ' τ' : Type} {get : σ → σ'} {set : σ → σ' → σ} {tag : τ' → τ} {c : Prog ε σ' τ' α} :
    wp (zoom get set tag c) Q E s ↔ wp c (fun a k => Q a (set s k)) E (get s) := Iff.rfl

/-- **A loop over a list**: an invariant the body keeps at every element. -/
theorem wp_forEach {I : σ → Prop} {body : β → Prog ε σ τ Unit} : ∀ (l : List β) (s : σ), I s →
    (∀ x ∈ l, ∀ s, I s → wp (body x) (fun _ => I) E s) → wp (forEach l body) (fun _ => I) E s
  | [], _, hs, _     => hs
  | x :: l, s, hs, h => by
    rw [forEach_cons, wp_bind]
    exact (h x List.mem_cons_self s hs).imp fun _ t ht => wp_forEach l t ht fun y hy => h y (List.mem_cons_of_mem x hy)

theorem wp_forEach_done {I : List β → σ → Prop} {body : β → Prog ε σ τ Unit} : ∀ (l done : List β) (s : σ), I done s →
    (∀ done x, x ∈ l → ∀ s, I done s → wp (body x) (fun _ => I (done ++ [x])) E s) →
    wp (forEach l body) (fun _ => I (done ++ l)) E s
  | [], done, _, hs, _     => by rwa [List.append_nil]
  | x :: l, done, s, hs, h => by
    rw [forEach_cons, wp_bind]
    refine (h done x List.mem_cons_self s hs).imp fun _ t ht => ?_
    have hl := wp_forEach_done l (done ++ [x]) t ht fun done y hy => h done y (List.mem_cons_of_mem x hy)
    rwa [List.append_assoc] at hl

theorem wp_admits {C : σ → β → Prop} {I : σ → Prop} {body : β → Prog ε σ τ Unit}
    (hstep : ∀ x s, I s → C s x → wp (body x) (fun _ => I) E s) :
    ∀ (l : List β) (s : σ), I s → Admits C body l s → wp (forEach l body) (fun _ => I) E s
  | [], _, hs, _     => hs
  | x :: l, s, hs, h => by
    obtain ⟨hx, hl⟩ := h
    have hb := hstep x s hs hx
    rw [forEach_cons, wp_bind]
    unfold wp at hb ⊢
    split
    · rename_i a ha
      rw [ha] at hb hl
      exact wp_admits hstep l _ hb hl
    · rename_i e he
      rw [he] at hb
      exact hb

theorem Quiet.keeps {ρ : Type} {π : σ → ρ} {R : τ → Prop} (hc : Quiet π R c) (s : σ) :
    wp c (fun _ t => π t = π s) (fun _ => True) s := by
  have h := (hc s).1
  unfold wp
  split
  · exact h
  · trivial

/-! ## The reasons for a stop -/

def reason (o : Outcome ε σ τ α) : Option ε := match o.res with | .ok _ => none | .error e => some e

/-- `c` is stopped only for a reason that meets `E`. -/
def Stops (E : ε → Prop) (c : Prog ε σ τ α) : Prop := ∀ s, wp c (fun _ _ => True) E s

namespace Stops

protected theorem pure (a : α) : Stops E (pure a : Prog ε σ τ α) := fun _ => trivial
protected theorem read (g : σ → α) : Stops E (read g : Prog ε σ τ α) := fun _ => trivial
protected theorem modify (f : σ → σ) : Stops E (modify f : Prog ε σ τ Unit) := fun _ => trivial
protected theorem emit (t : τ) : Stops E (emit t : Prog ε σ τ Unit) := fun _ => trivial
protected theorem stop {e : ε} (h : E e) : Stops E (stop e : Prog ε σ τ α) := fun _ => h

protected theorem bind {f : α → Prog ε σ τ β} (hc : Stops E c) (hf : ∀ a, Stops E (f a)) : Stops E (c >>= f) :=
  fun s => wp_bind.2 ((hc s).imp fun a t _ => hf a t)

theorem ite {b : Prop} [Decidable b] {d : Prog ε σ τ α} (hc : b → Stops E c) (hd : ¬ b → Stops E d) :
    Stops E (if b then c else d) := fun s => wp_ite (fun h => hc h s) (fun h => hd h s)

protected theorem forEach {body : β → Prog ε σ τ Unit} (l : List β) (h : ∀ x ∈ l, Stops E (body x)) :
    Stops E (forEach l body) := fun s => wp_forEach l s trivial fun x hx s _ => h x hx s

protected theorem zoom {σ' τ' : Type} {get : σ → σ'} {set : σ → σ' → σ} {tag : τ' → τ} {c : Prog ε σ' τ' α}
    (h : Stops E c) : Stops E (zoom get set tag c) := fun s => h (get s)

end Stops

end Prog
