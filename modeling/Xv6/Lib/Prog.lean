import Mathlib
/-!
# Programs that stop early and leave a trace, and their triples

A `Prog ε σ τ α` reads and writes a state `σ`, may stop for a reason `ε` (a panic, a wild pointer), and records the
events `τ` it caused, oldest first.  The state a stopped program leaves is kept, since a machine that panics is still a
machine in some state.

`Triple G R P c Q` is the one judgement used of them: from a state with `P`, when every event of the run meets the
rely `G`, every event meets the guarantee `R`, and a run that was not stopped ends with `Q`.  The rely is how a
development speaks of the runs in which a given branch is never taken; the trace is concatenated by `bind`, so a rely
on a whole run is a rely on each part.
-/

/-- What a run leaves: its value or the reason it stopped, the state, and its events. -/
structure Outcome (ε σ τ α : Type) where
  res : Except ε α
  st  : σ
  tr  : List τ

/-- A program over a state `σ`, with stops `ε` and events `τ`. -/
def Prog (ε σ τ α : Type) : Type := σ → Outcome ε σ τ α

namespace Prog

variable {ε σ τ α β γ : Type}

protected def pure (a : α) : Prog ε σ τ α := fun s => ⟨.ok a, s, []⟩

protected def bind (c : Prog ε σ τ α) (f : α → Prog ε σ τ β) : Prog ε σ τ β := fun s =>
  match c s with
  | ⟨.ok a, s', t⟩    => let o := f a s'; ⟨o.res, o.st, t ++ o.tr⟩
  | ⟨.error e, s', t⟩ => ⟨.error e, s', t⟩

instance : Monad (Prog ε σ τ) where
  pure := Prog.pure
  bind := Prog.bind

def get : Prog ε σ τ σ := fun s => ⟨.ok s, s, []⟩

def read (g : σ → β) : Prog ε σ τ β := fun s => ⟨.ok (g s), s, []⟩

def modify (f : σ → σ) : Prog ε σ τ Unit := fun s => ⟨.ok (), f s, []⟩

/-- Stop for the reason `e`. -/
def stop (e : ε) : Prog ε σ τ α := fun s => ⟨.error e, s, []⟩

def emit (t : τ) : Prog ε σ τ Unit := fun s => ⟨.ok (), s, [t]⟩

def when (b : Prop) [Decidable b] (c : Prog ε σ τ Unit) : Prog ε σ τ Unit := if b then c else pure ()

def forEach (l : List β) (body : β → Prog ε σ τ Unit) : Prog ε σ τ Unit :=
  match l with
  | []     => pure ()
  | x :: l => do body x; forEach l body

@[simp] theorem pure_run (a : α) (s : σ) : (pure a : Prog ε σ τ α) s = ⟨.ok a, s, []⟩ := rfl
@[simp] theorem get_run (s : σ) : (get : Prog ε σ τ σ) s = ⟨.ok s, s, []⟩ := rfl
@[simp] theorem read_run (g : σ → β) (s : σ) : (read g : Prog ε σ τ β) s = ⟨.ok (g s), s, []⟩ := rfl
@[simp] theorem modify_run (f : σ → σ) (s : σ) : (modify f : Prog ε σ τ Unit) s = ⟨.ok (), f s, []⟩ := rfl
@[simp] theorem stop_run (e : ε) (s : σ) : (stop e : Prog ε σ τ α) s = ⟨.error e, s, []⟩ := rfl
@[simp] theorem emit_run (t : τ) (s : σ) : (emit t : Prog ε σ τ Unit) s = ⟨.ok (), s, [t]⟩ := rfl

theorem bind_run (c : Prog ε σ τ α) (f : α → Prog ε σ τ β) (s : σ) : (c >>= f) s = match c s with
    | ⟨.ok a, s', t⟩    => ⟨(f a s').res, (f a s').st, t ++ (f a s').tr⟩
    | ⟨.error e, s', t⟩ => ⟨.error e, s', t⟩ := rfl

theorem bind_run_ok {c : Prog ε σ τ α} {f : α → Prog ε σ τ β} {s s' : σ} {a : α} {t : List τ}
    (h : c s = ⟨.ok a, s', t⟩) : (c >>= f) s = ⟨(f a s').res, (f a s').st, t ++ (f a s').tr⟩ := by
  rw [bind_run, h]

theorem bind_run_nil {c : Prog ε σ τ α} {f : α → Prog ε σ τ β} {s s' : σ} {a : α} (h : c s = ⟨.ok a, s', []⟩) :
    (c >>= f) s = f a s' := by
  rw [bind_run_ok h, List.nil_append]

theorem bind_run_error {c : Prog ε σ τ α} {f : α → Prog ε σ τ β} {s s' : σ} {e : ε} {t : List τ}
    (h : c s = ⟨.error e, s', t⟩) : (c >>= f) s = ⟨.error e, s', t⟩ := by
  rw [bind_run, h]

@[simp] theorem get_bind_run (f : σ → Prog ε σ τ β) (s : σ) : ((get : Prog ε σ τ σ) >>= f) s = f s s := rfl

@[simp] theorem read_bind_run (g : σ → α) (f : α → Prog ε σ τ β) (s : σ) :
    ((read g : Prog ε σ τ α) >>= f) s = f (g s) s := rfl

@[simp] theorem modify_bind_run (g : σ → σ) (f : Unit → Prog ε σ τ β) (s : σ) :
    ((modify g : Prog ε σ τ Unit) >>= f) s = f () (g s) := rfl

theorem emit_bind_run (t : τ) (f : Unit → Prog ε σ τ β) (s : σ) :
    ((emit t : Prog ε σ τ Unit) >>= f) s = ⟨(f () s).res, (f () s).st, t :: (f () s).tr⟩ := rfl

@[simp] theorem pure_bind_run (a : α) (f : α → Prog ε σ τ β) (s : σ) :
    ((pure a : Prog ε σ τ α) >>= f) s = f a s := rfl

@[simp] theorem stop_bind_run (e : ε) (f : α → Prog ε σ τ β) (s : σ) :
    ((stop e : Prog ε σ τ α) >>= f) s = ⟨.error e, s, []⟩ := rfl

theorem when_pos {b : Prop} [Decidable b] (hb : b) (c : Prog ε σ τ Unit) : Prog.when b c = c := if_pos hb

theorem when_neg {b : Prop} [Decidable b] (hb : ¬ b) (c : Prog ε σ τ Unit) : Prog.when b c = pure () := if_neg hb

@[simp] theorem forEach_nil (body : β → Prog ε σ τ Unit) : forEach [] body = (pure () : Prog ε σ τ Unit) := rfl

@[simp] theorem forEach_cons (x : β) (l : List β) (body : β → Prog ε σ τ Unit) :
    forEach (x :: l) body = (do body x; forEach l body) := rfl

theorem forEach_map {γ : Type} (f : γ → β) (body : β → Prog ε σ τ Unit) : ∀ l : List γ,
    forEach (l.map f) body = forEach l (fun x => body (f x))
  | []     => rfl
  | x :: l => by rw [List.map_cons, forEach_cons, forEach_cons, forEach_map f body l]

/-- **A run that finished finished its first part**, and the rest ran from there. -/
theorem bind_ok {c : Prog ε σ τ α} {f : α → Prog ε σ τ β} {s : σ} {b : β} (h : ((c >>= f) s).res = .ok b) :
    ∃ a, (c s).res = .ok a ∧ (f a (c s).st).res = .ok b ∧ ((c >>= f) s).st = (f a (c s).st).st ∧
      ((c >>= f) s).tr = (c s).tr ++ (f a (c s).st).tr := by
  rw [bind_run] at h ⊢
  rcases hc : c s with ⟨r, s', t⟩
  rw [hc] at h
  cases r with
  | error e => cases h
  | ok a => exact ⟨a, rfl, h, rfl, rfl⟩

/-- A result that is a value, where results cannot be compared. -/
theorem res_ok {r : Except ε α} {a : α} (h : r.toOption = some a) : r = .ok a := by
  cases r with
  | error e => cases h
  | ok b => exact congrArg _ (Option.some.inj h)

/-! ## Runs of admitted steps -/

/-- Along the loop, every element is admitted by `C` at the state its body starts from. -/
def Admits (C : σ → β → Prop) (body : β → Prog ε σ τ Unit) : List β → σ → Prop
  | [], _     => True
  | x :: l, s => C s x ∧ match (body x s).res with
    | .ok _    => Admits C body l (body x s).st
    | .error _ => True

instance Admits.decidable {C : σ → β → Prop} [∀ s x, Decidable (C s x)] (body : β → Prog ε σ τ Unit) :
    ∀ (l : List β) (s : σ), Decidable (Admits C body l s)
  | [], _     => isTrue trivial
  | x :: l, s =>
    haveI : Decidable (match (body x s).res with
        | .ok _    => Admits C body l (body x s).st
        | .error _ => True) := by
      cases (body x s).res with
      | ok _ => exact Admits.decidable body l _
      | error _ => exact isTrue trivial
    inferInstanceAs (Decidable (_ ∧ _))

/-- **The run lemma**: what every admitted step keeps, every run of admitted steps keeps, stopped or not. -/
theorem forEach_admits {C : σ → β → Prop} {body : β → Prog ε σ τ Unit} {I : σ → Prop} {R : τ → Prop}
    (hstep : ∀ x s, I s → C s x → (∀ e ∈ (body x s).tr, R e) ∧ I (body x s).st) :
    ∀ (l : List β) (s : σ), I s → Admits C body l s →
      (∀ e ∈ (forEach l body s).tr, R e) ∧ I (forEach l body s).st
  | [], s, hs, _     => ⟨fun e he => by simp at he, hs⟩
  | x :: l, s, hs, h => by
    obtain ⟨hx, hl⟩ := h
    obtain ⟨hR, hI⟩ := hstep x s hs hx
    rw [forEach_cons, bind_run]
    rcases hb : body x s with ⟨r, s', t⟩
    rw [hb] at hl hR hI
    cases r with
    | error e => exact ⟨hR, hI⟩
    | ok _ =>
      obtain ⟨hR', hI'⟩ := forEach_admits hstep l s' hI hl
      refine ⟨fun e he => ?_, hI'⟩
      rcases List.mem_append.1 he with he | he
      · exact hR e he
      · exact hR' e he

/-- **The history lemma**: an invariant of the state and of the events so far. -/
theorem forEach_history {H : List τ → σ → Prop} {body : β → Prog ε σ τ Unit}
    (hstep : ∀ x h s, H h s → H (h ++ (body x s).tr) (body x s).st) :
    ∀ (l : List β) (h : List τ) (s : σ), H h s → H (h ++ (forEach l body s).tr) (forEach l body s).st
  | [], h, s, hs     => by simpa using hs
  | x :: l, h, s, hs => by
    have hb := hstep x h s hs
    rw [forEach_cons, bind_run]
    rcases hbx : body x s with ⟨r, s', t⟩
    rw [hbx] at hb
    cases r with
    | error e => exact hb
    | ok _ =>
      have hl := forEach_history hstep l (h ++ t) s' hb
      rw [List.append_assoc] at hl
      exact hl

theorem admits_of_forall {C : σ → β → Prop} {body : β → Prog ε σ τ Unit} (h : ∀ s x, C s x) :
    ∀ (l : List β) (s : σ), Admits C body l s
  | [], _     => trivial
  | x :: l, s => ⟨h s x, by split <;> first | exact admits_of_forall h l _ | trivial⟩

theorem admits_singleton {C : σ → β → Prop} {body : β → Prog ε σ τ Unit} {x : β} {s : σ} (h : C s x) :
    Admits C body [x] s := ⟨h, by split <;> trivial⟩

/-! ## What a program keeps -/

/-- `c` keeps `π` of the state, and its events meet `R`, whether it is stopped or not. -/
def Quiet {ρ : Type} (π : σ → ρ) (R : τ → Prop) (c : Prog ε σ τ α) : Prop :=
  ∀ s, π (c s).st = π s ∧ ∀ e ∈ (c s).tr, R e

/-- A program on a part of the state, with its events renamed. -/
def zoom {σ' τ' : Type} (get : σ → σ') (set : σ → σ' → σ) (tag : τ' → τ) (c : Prog ε σ' τ' α) : Prog ε σ τ α :=
  fun s => ⟨(c (get s)).res, set s (c (get s)).st, (c (get s)).tr.map tag⟩

namespace Quiet

variable {ρ : Type} {π : σ → ρ} {R : τ → Prop}

protected theorem pure (a : α) : Quiet π R (pure a : Prog ε σ τ α) := fun _ => ⟨rfl, fun e he => by simp at he⟩
protected theorem get : Quiet π R (get : Prog ε σ τ σ) := fun _ => ⟨rfl, fun e he => by simp at he⟩
protected theorem read (g : σ → β) : Quiet π R (read g : Prog ε σ τ β) := fun _ => ⟨rfl, fun e he => by simp at he⟩
protected theorem stop (e : ε) : Quiet π R (stop e : Prog ε σ τ α) := fun _ => ⟨rfl, fun e he => by simp at he⟩

theorem map {ρ' : Type} {c : Prog ε σ τ α} (g : ρ → ρ') (hc : Quiet π R c) : Quiet (fun s => g (π s)) R c :=
  fun s => ⟨congrArg g (hc s).1, (hc s).2⟩

protected theorem modify {f : σ → σ} (h : ∀ s, π (f s) = π s) : Quiet π R (modify f : Prog ε σ τ Unit) :=
  fun s => ⟨h s, fun e he => by simp at he⟩

protected theorem emit {t : τ} (h : R t) : Quiet π R (emit t : Prog ε σ τ Unit) :=
  fun _ => ⟨rfl, fun e he => by rw [List.mem_singleton.1 he]; exact h⟩

protected theorem bind {c : Prog ε σ τ α} {f : α → Prog ε σ τ β} (hc : Quiet π R c) (hf : ∀ a, Quiet π R (f a)) :
    Quiet π R (c >>= f) := by
  intro s
  rw [bind_run]
  obtain ⟨h1, h2⟩ := hc s
  rcases hcs : c s with ⟨r, s', t⟩
  rw [hcs] at h1 h2
  cases r with
  | error _ => exact ⟨h1, h2⟩
  | ok a =>
    obtain ⟨h3, h4⟩ := hf a s'
    refine ⟨h3.trans h1, fun e he => ?_⟩
    rcases List.mem_append.1 he with he | he
    · exact h2 e he
    · exact h4 e he

theorem ite {b : Prop} [Decidable b] {c d : Prog ε σ τ α} (hc : b → Quiet π R c) (hd : ¬ b → Quiet π R d) :
    Quiet π R (if b then c else d) := by
  split
  · exact hc ‹_›
  · exact hd ‹_›

theorem when {b : Prop} [Decidable b] {c : Prog ε σ τ Unit} (hc : b → Quiet π R c) : Quiet π R (Prog.when b c) :=
  ite hc (fun _ => Quiet.pure ())

protected theorem forEach {body : β → Prog ε σ τ Unit} :
    ∀ l : List β, (∀ x ∈ l, Quiet π R (body x)) → Quiet π R (forEach l body)
  | [], _     => Quiet.pure ()
  | x :: l, h => (h x List.mem_cons_self).bind (fun _ => Quiet.forEach l fun y hy => h y (List.mem_cons_of_mem x hy))

protected theorem zoom {σ' τ' : Type} {get : σ → σ'} {set : σ → σ' → σ} {tag : τ' → τ} {c : Prog ε σ' τ' α}
    (hc : ∀ k, ∀ e ∈ (c k).tr, R (tag e)) (hπ : ∀ s k, π (set s k) = π s) : Quiet π R (Prog.zoom get set tag c) := by
  intro s
  refine ⟨hπ s _, fun e he => ?_⟩
  obtain ⟨x, hx, rfl⟩ := List.mem_map.1 he
  exact hc _ x hx

end Quiet

/-! ## Triples -/

/-- From `P`, a run whose events all meet `G` has events meeting `R`, and ends with `Q` if it was not stopped. -/
def Triple (G R : τ → Prop) (P : σ → Prop) (c : Prog ε σ τ α) (Q : α → σ → Prop) : Prop :=
  ∀ s, P s → (∀ e ∈ (c s).tr, G e) → (∀ e ∈ (c s).tr, R e) ∧ ∀ a, (c s).res = .ok a → Q a (c s).st

namespace Triple

variable {G R : τ → Prop} {P P' : σ → Prop}

protected theorem pure {Q : α → σ → Prop} (a : α) (h : ∀ s, P s → Q a s) :
    Triple G R P (pure a : Prog ε σ τ α) Q := by
  intro s hs _
  refine ⟨fun e he => by simp at he, fun b hb => ?_⟩
  simp only [pure_run, Except.ok.injEq] at hb
  exact hb ▸ h s hs

protected theorem bind {c : Prog ε σ τ α} {f : α → Prog ε σ τ β} {Q : α → σ → Prop} {Q' : β → σ → Prop}
    (hc : Triple G R P c Q) (hf : ∀ a, Triple G R (Q a) (f a) Q') : Triple G R P (c >>= f) Q' := by
  intro s hs hG
  rw [bind_run] at hG ⊢
  have h1 := hc s hs
  rcases hcs : c s with ⟨r, s', t⟩
  rw [hcs] at h1 hG
  cases r with
  | error e =>
    obtain ⟨hR, -⟩ := h1 hG
    exact ⟨hR, fun b hb => by cases hb⟩
  | ok a =>
    obtain ⟨hR, hQ⟩ := h1 (fun e he => hG e (List.mem_append_left _ he))
    obtain ⟨hR', hQ'⟩ := hf a s' (hQ a rfl) (fun e he => hG e (List.mem_append_right _ he))
    refine ⟨fun e he => ?_, fun b hb => hQ' b hb⟩
    rcases List.mem_append.1 he with he | he
    · exact hR e he
    · exact hR' e he

theorem get_bind {f : σ → Prog ε σ τ β} {Q : β → σ → Prop}
    (h : ∀ s₀, P s₀ → Triple G R (fun s => s = s₀) (f s₀) Q) : Triple G R P (get >>= f) Q := by
  intro s hs hG
  exact h s hs s rfl hG

theorem read_bind {g : σ → α} {f : α → Prog ε σ τ β} {Q : β → σ → Prop}
    (h : ∀ s₀, P s₀ → Triple G R (fun s => s = s₀) (f (g s₀)) Q) : Triple G R P (read g >>= f) Q := by
  intro s hs hG
  exact h s hs s rfl hG

protected theorem modify {g : σ → σ} {Q : Unit → σ → Prop} (h : ∀ s, P s → Q () (g s)) :
    Triple G R P (modify g : Prog ε σ τ Unit) Q := by
  intro s hs _
  exact ⟨fun e he => by simp at he, fun _ _ => h s hs⟩

protected theorem stop {Q : α → σ → Prop} (e : ε) : Triple G R P (stop e : Prog ε σ τ α) Q := by
  intro s _ _
  exact ⟨fun e he => by simp at he, fun a ha => by simp at ha⟩

protected theorem emit {t : τ} {Q : Unit → σ → Prop} (hR : ∀ s, P s → G t → R t) (h : ∀ s, P s → G t → Q () s) :
    Triple G R P (emit t : Prog ε σ τ Unit) Q := by
  intro s hs hG
  have hGt : G t := hG t (by simp)
  refine ⟨fun e he => ?_, fun _ _ => h s hs hGt⟩
  rw [List.mem_singleton.1 he]
  exact hR s hs hGt

theorem conseq {c : Prog ε σ τ α} {Q Q' : α → σ → Prop} (hc : Triple G R P' c Q') (hP : ∀ s, P s → P' s)
    (hQ : ∀ a s, Q' a s → Q a s) : Triple G R P c Q := by
  intro s hs hG
  obtain ⟨hR, hq⟩ := hc s (hP s hs) hG
  exact ⟨hR, fun a ha => hQ a _ (hq a ha)⟩

theorem weaken {c : Prog ε σ τ α} {Q : α → σ → Prop} (hc : Triple G R P' c Q) (hP : ∀ s, P s → P' s) :
    Triple G R P c Q := hc.conseq hP (fun _ _ h => h)

theorem ite {b : Prop} [Decidable b] {c d : Prog ε σ τ α} {Q : α → σ → Prop} (hc : b → Triple G R P c Q)
    (hd : ¬ b → Triple G R P d Q) : Triple G R P (if b then c else d) Q := by
  split
  · exact hc ‹_›
  · exact hd ‹_›

theorem when {b : Prop} [Decidable b] {c : Prog ε σ τ Unit} {Q : Unit → σ → Prop} (hc : b → Triple G R P c Q)
    (hd : ¬ b → ∀ s, P s → Q () s) : Triple G R P (Prog.when b c) Q :=
  ite hc (fun hb => Triple.pure () (hd hb))

/-- **A loop over a list**: an invariant the body keeps at every element. -/
theorem forEach {I : σ → Prop} {body : β → Prog ε σ τ Unit} : ∀ (l : List β),
    (∀ x ∈ l, Triple G R I (body x) (fun _ => I)) → Triple G R I (forEach l body) (fun _ => I)
  | [], _ => Triple.pure () (fun _ h => h)
  | x :: l, h =>
    Triple.bind (h x List.mem_cons_self) (fun _ => forEach l (fun y hy => h y (List.mem_cons_of_mem x hy)))

theorem of_pure {p : Prop} {c : Prog ε σ τ α} {Q : α → σ → Prop} (h : p → Triple G R P c Q) :
    Triple G R (fun s => p ∧ P s) c Q := fun s hs => h hs.1 s hs.2

theorem of_exists {ι : Sort*} {P : ι → σ → Prop} {c : Prog ε σ τ α} {Q : α → σ → Prop}
    (h : ∀ i, Triple G R (P i) c Q) : Triple G R (fun s => ∃ i, P i s) c Q := fun s ⟨i, hi⟩ => h i s hi

/-! ### From one state

A precondition that names the state turns a proof into symbolic execution. -/

theorem freeze {c : Prog ε σ τ α} {Q : α → σ → Prop} (h : ∀ s, P s → Triple G R (fun t => t = s) c Q) :
    Triple G R P c Q := fun s hs => h s hs s rfl

variable {s : σ}

theorem pure_at {Q : α → σ → Prop} {a : α} (h : Q a s) : Triple G R (fun t => t = s) (pure a : Prog ε σ τ α) Q :=
  Triple.pure a (fun _ ht => ht ▸ h)

theorem read_at {g : σ → α} {f : α → Prog ε σ τ β} {Q : β → σ → Prop}
    (h : Triple G R (fun t => t = s) (f (g s)) Q) : Triple G R (fun t => t = s) (read g >>= f) Q :=
  read_bind (fun _ ht => ht ▸ h)

theorem read_as {g : σ → α} {f : α → Prog ε σ τ β} {Q : β → σ → Prop} {a : α} (ha : g s = a)
    (h : Triple G R (fun t => t = s) (f a) Q) : Triple G R (fun t => t = s) (read g >>= f) Q :=
  read_at (ha ▸ h)

theorem modify_at {g : σ → σ} {f : Unit → Prog ε σ τ β} {Q : β → σ → Prop}
    (h : Triple G R (fun t => t = g s) (f ()) Q) : Triple G R (fun t => t = s) (modify g >>= f) Q :=
  Triple.bind (Triple.modify fun _ ht => congrArg g ht) (fun _ => h)

theorem emit_at {t : τ} {f : Unit → Prog ε σ τ β} {Q : β → σ → Prop} (hR : G t → R t)
    (h : G t → Triple G R (fun t => t = s) (f ()) Q) : Triple G R (fun t => t = s) (emit t >>= f) Q :=
  Triple.bind (Q := fun _ u => u = s ∧ G t) (Triple.emit (fun _ _ => hR) (fun _ hu hg => ⟨hu, hg⟩))
    (fun _ u hu => h hu.2 u hu.1)

theorem emit_bind {t : τ} {f : Unit → Prog ε σ τ β} {Q : β → σ → Prop} (hR : G t → R t)
    (h : G t → Triple G R P (f ()) Q) : Triple G R P (emit t >>= f) Q :=
  freeze fun _ hs => emit_at hR fun hg => (h hg).weaken fun _ ht => ht ▸ hs

theorem run_at {c : Prog ε σ τ α} {f : α → Prog ε σ τ β} {Q : β → σ → Prop} {a : α} {s' : σ}
    (hc : c s = ⟨.ok a, s', []⟩) (h : Triple G R (fun t => t = s') (f a) Q) :
    Triple G R (fun t => t = s) (c >>= f) Q := by
  rintro t rfl hG
  rw [bind_run_ok hc, List.nil_append] at hG ⊢
  exact h s' rfl hG

theorem quiet {ρ : Type} {π : σ → ρ} {c : Prog ε σ τ α} (hc : Quiet π R c) (hP : ∀ s t, π t = π s → P s → P t) :
    Triple G R P c (fun _ => P) := fun s hs _ => ⟨(hc s).2, fun _ _ => hP s _ (hc s).1 hs⟩

theorem run_congr {c d : Prog ε σ τ α} {Q : α → σ → Prop} {s' : σ} (h : c s = d s')
    (hd : Triple G R (fun t => t = s') d Q) : Triple G R (fun t => t = s) c Q := by
  rintro t rfl hG
  rw [h] at hG ⊢
  exact hd s' rfl hG

theorem of_run {c : Prog ε σ τ α} {Q : α → σ → Prop} {a : α} {s' : σ} (h : c s = ⟨.ok a, s', []⟩) (hq : Q a s') :
    Triple G R (fun t => t = s) c Q := by
  rintro t rfl _
  rw [h]
  exact ⟨fun e he => (by cases he), fun b hb => by cases hb; exact hq⟩

theorem stopped {c : Prog ε σ τ α} {Q : α → σ → Prop} {e : ε} {s' : σ} (h : c s = ⟨.error e, s', []⟩) :
    Triple G R (fun t => t = s) c Q := by
  rintro t rfl _
  rw [h]
  exact ⟨fun e he => (by cases he), fun a ha => (by cases ha)⟩

theorem admits {C : σ → β → Prop} {I : σ → Prop} {body : β → Prog ε σ τ Unit}
    (hstep : ∀ x s, I s → C s x → Triple G R (fun t => t = s) (body x) (fun _ => I)) :
    ∀ (l : List β) (s : σ), I s → Admits C body l s → Triple G R (fun t => t = s) (Prog.forEach l body) (fun _ => I)
  | [], _, hs, _     => pure_at hs
  | x :: l, s, hs, h => by
    obtain ⟨hx, hl⟩ := h
    rintro t rfl hG
    have hb := hstep x t hs hx t rfl
    rw [forEach_cons, bind_run] at hG ⊢
    rcases hbx : body x t with ⟨r, s', tr⟩
    rw [hbx] at hb hl hG
    cases r with
    | error e => exact ⟨(hb hG).1, fun _ ha => by cases ha⟩
    | ok _ =>
      obtain ⟨hR, hI⟩ := hb fun e he => hG e (List.mem_append_left _ he)
      obtain ⟨hR', hI'⟩ := admits hstep l s' (hI () rfl) hl s' rfl fun e he => hG e (List.mem_append_right _ he)
      refine ⟨fun e he => ?_, hI'⟩
      rcases List.mem_append.1 he with he | he
      · exact hR e he
      · exact hR' e he

end Triple
end Prog
