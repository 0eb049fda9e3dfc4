import Xv6.Sched.Lookup
/-!
# Sched.Family — fork, exit and wait keep every child to a parent

`Life` adds to the table where each process stands in `fork` and `wait`; its steps are those of the table under the
guards of that code.  A section under `ptable.lock` is one step (`exit`, one turn of `wait`'s loop), the stores of
`fork` into the child are steps of their own.  `Kin` is the invariant: a parent is alive, only a child still being
filled may have none, and who sleeps in `wait` has a child and no zombie.  The trace holds the reaps.
-/
namespace Xv6
namespace Sched

/-- Where a process stands: outside the functions below, in `fork` with a child whose parent is stored or not, or in
the `sleep` of `wait`. -/
inductive Pc where
  | user
  | forking (np : Fin nproc) (stored : Bool)
  | waiting
  deriving DecidableEq

structure Life where
  s  : State
  pc : Fin nproc → Pc

/-- `wait` frees the kernel stack and the page table of a slot and returns its pid. -/
structure Reap where
  reaper : Fin nproc
  slot   : Fin nproc
  was    : Proc

abbrev LifeM := Prog Stop Life Reap

inductive LifeAct where
  | userinit
  | fork (p : Fin nproc)
  | forkFail (p : Fin nproc)
  | forkStore (p : Fin nproc) (f : ForkField)
  | forkDone (p : Fin nproc)
  | exit (p : Fin nproc)
  | wait (p : Fin nproc)
  | sleep (p : Fin nproc) (a : Nat)
  | sleepReturn (p : Fin nproc)
  | wakeup (chan : Chan)
  | kill (pid : Int)
  | setnice (pid value : Int)
  | tick (p : Fin nproc)
  | dispatch (p : Fin nproc)

def onTable (a : Act) : LifeM Unit := fun l => ⟨(step a l.s).res, { l with s := (step a l.s).st }, []⟩

def goto (p : Fin nproc) (c : Pc) : LifeM Unit :=
  Prog.modify (fun l => { l with pc := fun q => if q = p then c else l.pc q })

/-- One turn of the loop of `wait`, up to its return or to the switch in `sleep`. -/
def waitTurn (p : Fin nproc) : LifeM Unit := do
  let l ← Prog.get
  match zombieChild l.s p with
  | some z =>
    Prog.emit ⟨p, z, l.s.proc z⟩
    onTable (.wait p)
    goto p .user
  | none =>
    if (∀ c, (l.s.proc c).parent ≠ some p) ∨ (l.s.proc p).killed = true then goto p .user
    else
      onTable (.sleep p (.proc p))
      goto p .waiting

def Life.runs (l : Life) (p : Fin nproc) : Prop := (l.s.proc p).state = .running

instance (l : Life) (p : Fin nproc) : Decidable (l.runs p) := inferInstanceAs (Decidable (_ = _))

def lifeStep (a : LifeAct) : LifeM Unit := do
  let l ← Prog.get
  match a with
  | .userinit => onTable .userinit
  | .fork p =>
    Prog.when (l.runs p ∧ l.pc p = .user) (match firstUnused l.s with
      | none    => pure ()
      | some np => do
        onTable .allocproc
        goto p (.forking np false))
  | .forkFail p =>
    match l.pc p with
    | .forking np false => Prog.when (l.runs p) (do
        onTable (.allocFail np)
        goto p .user)
    | _ => pure ()
  | .forkStore p f =>
    match l.pc p with
    | .forking np stored => Prog.when (l.runs p) (do
        onTable (.forkCopy np p f)
        goto p (.forking np (stored || decide (f = .parent))))
    | _ => pure ()
  | .forkDone p =>
    match l.pc p with
    | .forking np true => Prog.when (l.runs p) (do
        onTable (.ready np)
        goto p .user)
    | _ => pure ()
  | .exit p => Prog.when (l.runs p ∧ l.pc p = .user) (onTable (.exit p))
  | .wait p =>
    Prog.when (l.runs p) (match l.pc p with
      | .user        => waitTurn p
      | .waiting     => do
        onTable (.sleepReturn p)
        waitTurn p
      | .forking _ _ => pure ())
  | .sleep p a => Prog.when (l.pc p ≠ .waiting) (onTable (.sleep p (.obj a)))
  | .sleepReturn p => Prog.when (l.pc p ≠ .waiting) (onTable (.sleepReturn p))
  | .wakeup chan => onTable (.wakeup chan)
  | .kill pid => onTable (.kill pid)
  | .setnice pid v => onTable (.setnice pid v)
  | .tick p => onTable (.tick p)
  | .dispatch p => onTable (.dispatch p)

def lifeRun (acts : List LifeAct) : LifeM Unit := Prog.forEach acts lifeStep

def lifeBoot : Life := { s := boot, pc := fun _ => .user }

def Alive (q : Proc) : Prop := q.state = .sleeping ∨ q.state = .runnable ∨ q.state = .running

structure Kin (l : Life) : Prop where
  boot    : l.s.initproc = none → ∀ p, (l.s.proc p).state = .unused
  init    : ∀ i, l.s.initproc = some i → Alive (l.s.proc i)
  orphan  : ∀ p, (l.s.proc p).state = .unused → (l.s.proc p).parent = none
  root    : ∀ i, l.s.initproc = some i → (l.s.proc i).parent = none
  self    : ∀ p, (l.s.proc p).parent ≠ some p
  family  : ∀ p, Alive (l.s.proc p) ∨ (l.s.proc p).state = .zombie → l.s.initproc ≠ some p →
    (l.s.proc p).parent ≠ none
  alive   : ∀ p q, (l.s.proc p).parent = some q → Alive (l.s.proc q)
  busy    : ∀ p, l.pc p ≠ .user → Alive (l.s.proc p)
  embryo  : ∀ np p, (l.s.proc np).state = .embryo → (l.s.proc np).parent = some p → l.pc p = .forking np true
  forking : ∀ p np b, l.pc p = .forking np b → (l.s.proc np).state = .embryo ∧
    (l.s.proc np).parent = if b then some p else none
  owner   : ∀ p p' np b b', l.pc p = .forking np b → l.pc p' = .forking np b' → p = p'
  wait    : ∀ p, l.pc p = .waiting → (l.s.proc p).state = .sleeping → (l.s.proc p).chan = .proc p ∧
    (∃ c, (l.s.proc c).parent = some p) ∧ ∀ c, (l.s.proc c).parent = some p → (l.s.proc c).state ≠ .zombie

/-! ## Tables that change mildly -/

/-- A slot keeps its parent and stays what it was or alive, and who sleeps in `wait` slept there before. -/
structure Mild (l : Life) (r : Fin nproc) (q : Proc) : Prop where
  parent : q.parent = (l.s.proc r).parent
  state  : q.state = (l.s.proc r).state ∨ Alive (l.s.proc r) ∧ Alive q
  asleep : l.pc r = .waiting → q.state = .sleeping → (l.s.proc r).state = .sleeping ∧ q.chan = (l.s.proc r).chan

theorem Mild.alive {l : Life} {r : Fin nproc} {q : Proc} (h : Mild l r q) : Alive q ↔ Alive (l.s.proc r) := by
  rcases h.state with he | ⟨h0, h1⟩
  · unfold Alive; rw [he]
  · exact ⟨fun _ => h0, fun _ => h1⟩

theorem Mild.state_iff {l : Life} {r : Fin nproc} {q : Proc} (h : Mild l r q) {st : ProcState}
    (hst : st = .unused ∨ st = .embryo ∨ st = .zombie) : q.state = st ↔ (l.s.proc r).state = st := by
  rcases h.state with he | ⟨h0, h1⟩
  · rw [he]
  · unfold Alive at h0 h1
    grind

theorem Kin.mild {l : Life} (h : Kin l) {t : State} (hi : t.initproc = l.s.initproc) (hm : ∀ r, Mild l r (t.proc r)) :
    Kin { l with s := t } where
  boot hn p := ((hm p).state_iff (.inl rfl)).2 (h.boot (hi ▸ hn) p)
  init i hin := (hm i).alive.2 (h.init i (hi ▸ hin))
  orphan p hp := by
    rw [(hm p).parent]
    exact h.orphan p (((hm p).state_iff (.inl rfl)).1 hp)
  root i hin := (hm i).parent.trans (h.root i (hi ▸ hin))
  self p hp := h.self p ((hm p).parent ▸ hp)
  family p hp hn := by
    rw [(hm p).parent]
    exact h.family p (hp.imp (hm p).alive.1 ((hm p).state_iff (.inr (.inr rfl))).1) (hi ▸ hn)
  alive p q hpq := (hm q).alive.2 (h.alive p q ((hm p).parent ▸ hpq))
  busy p hp := (hm p).alive.2 (h.busy p hp)
  embryo np p hnp hp := h.embryo np p (((hm np).state_iff (.inr (.inl rfl))).1 hnp) ((hm np).parent ▸ hp)
  forking p np b hb := by
    obtain ⟨he, hpar⟩ := h.forking p np b hb
    exact ⟨((hm np).state_iff (.inr (.inl rfl))).2 he, (hm np).parent.trans hpar⟩
  owner := h.owner
  wait p hw hs := by
    obtain ⟨hs', hc⟩ := (hm p).asleep hw hs
    obtain ⟨hch, ⟨c, hkid⟩, hz⟩ := h.wait p hw hs'
    refine ⟨hc.trans hch, ⟨c, (hm c).parent.trans hkid⟩, fun c hkid hzc => hz c ((hm c).parent ▸ hkid) ?_⟩
    exact ((hm c).state_iff (.inr (.inr rfl))).1 hzc

def MildAct (l : Life) : Act → Prop
  | .wakeup _ | .kill _ | .setnice _ _ | .tick _ | .dispatch _ | .sleepReturn _ => True
  | .sleep p _ => l.pc p ≠ .waiting
  | .forkCopy _ _ f => f ≠ .parent
  | _ => False

theorem Change.mild {l : Life} {a : Act} {r : Fin nproc} {q : Proc} (h : Change l.s a r q) (ha : MildAct l a) :
    Mild l r q := by
  cases h with
  | same => exact ⟨rfl, .inl rfl, fun _ hs => ⟨hs, rfl⟩⟩
  | userinit => exact ha.elim
  | alloc => exact ha.elim
  | fail => exact ha.elim
  | ready => exact ha.elim
  | exit => exact ha.elim
  | wait => exact ha.elim
  | copy _ c f he _ =>
    have hne : (l.s.proc r).state ≠ .sleeping := by rw [he]; decide
    cases f with
    | parent => exact absurd rfl ha
    | _ => exact ⟨rfl, .inl rfl, fun _ hs => absurd hs hne⟩
  | sleep _ _ he => exact ⟨rfl, .inr ⟨.inr (.inr he), .inl rfl⟩, fun hw => absurd hw ha⟩
  | sleepReturn _ he => exact ⟨rfl, .inl rfl, fun _ hs => absurd (he.symm.trans hs) (by decide)⟩
  | wakeup _ _ he _ =>
    obtain ⟨-, -, -, -, -, hp, hst⟩ := woken_kept (minRunnable l.s) (l.s.proc r)
    exact ⟨hp, .inr ⟨.inl he, .inr (.inl hst)⟩, fun _ hs => absurd (hst.symm.trans hs) (by decide)⟩
  | kill =>
    unfold killedProc
    by_cases hs : (l.s.proc r).state = .sleeping
    · exact ⟨rfl, .inr ⟨.inl hs, .inr (.inl (if_pos hs))⟩, fun _ h => by simp [hs] at h⟩
    · exact ⟨rfl, .inl (if_neg hs), fun _ h => by simp [hs] at h⟩
  | setnice => exact ⟨rfl, .inl rfl, fun _ hs => ⟨hs, rfl⟩⟩
  | tick _ he =>
    have hst : (ticked (l.s.proc r)).state = .runnable ∨ (ticked (l.s.proc r)).state = .running := by
      unfold ticked
      dsimp only
      split
      · exact .inl rfl
      · exact .inr he
    refine ⟨by unfold ticked; dsimp only; split <;> rfl, .inr ⟨.inr (.inr he), .inr hst⟩, fun _ hs => ?_⟩
    rw [hs] at hst
    rcases hst with hst | hst <;> cases hst
  | dispatch p _ hp hm =>
    have hrun := schedScan_runnable l.s p hp
    rw [hm] at hrun
    exact ⟨rfl, .inr ⟨.inr (.inl hrun), .inr (.inr rfl)⟩, fun _ hs => by cases hs⟩

/-! ## The steps of fork -/

section Slots

variable {l : Life} {p np z : Fin nproc}

theorem Kin.userinit (h : Kin l) (hn : l.s.initproc = none) {q : Proc} (hs : q.state = .runnable)
    (hpar : q.parent = (l.s.proc p).parent) (hp : (l.s.proc p).state = .unused) {n : Int} :
    Kin ⟨{ l.s.setProc p q with nextpid := n, initproc := some p }, l.pc⟩ := by
  obtain ⟨h1, h2, h3, h4, h5, h6, h7, h8, h9, h10, h11, h12⟩ := h
  constructor <;> simp only [Alive, setProc_proc] at * <;> grind

/-- `allocproc` in `fork`: the slot was unused, so it has no parent and nobody else fills it. -/
theorem Kin.fork (h : Kin l) (hr : l.runs p) (hp : l.pc p = .user) (hf : (l.s.proc np).state = .unused) {q : Proc}
    (hs : q.state = .embryo) (hpar : q.parent = (l.s.proc np).parent) {n : Int} :
    Kin ⟨{ l.s.setProc np q with nextpid := n }, fun r => if r = p then .forking np false else l.pc r⟩ := by
  obtain ⟨h1, h2, h3, h4, h5, h6, h7, h8, h9, h10, h11, h12⟩ := h
  constructor <;> simp only [Alive, Life.runs, setProc_proc, setProc_initproc] at * <;> grind

/-- No stack or no address space: the parent is not stored yet, and the slot is unused without one. -/
theorem Kin.forkFail (h : Kin l) (hp : l.pc p = .forking np false) :
    Kin ⟨l.s.setProc np { l.s.proc np with state := .unused }, fun r => if r = p then .user else l.pc r⟩ := by
  obtain ⟨h1, h2, h3, h4, h5, h6, h7, h8, h9, h10, h11, h12⟩ := h
  constructor <;> simp only [Alive, setProc_proc, setProc_initproc] at * <;> grind

theorem Kin.forkParent (h : Kin l) {b : Bool} (hr : l.runs p) (hp : l.pc p = .forking np b) :
    Kin ⟨l.s.setProc np { l.s.proc np with parent := some p }, fun r => if r = p then .forking np true else l.pc r⟩ := by
  obtain ⟨h1, h2, h3, h4, h5, h6, h7, h8, h9, h10, h11, h12⟩ := h
  constructor <;> simp only [Alive, Life.runs, setProc_proc, setProc_initproc] at *
  case wait =>
    -- the sleeper is not `p`, so its children are the same
    intro r hw hs
    obtain ⟨hch, ⟨c, hc⟩, hz⟩ := h12 r (by grind) (by grind)
    exact ⟨by grind, ⟨c, by grind⟩, by grind⟩
  all_goals grind

theorem Kin.forkDone (h : Kin l) (hp : l.pc p = .forking np true) :
    Kin ⟨l.s.setProc np { l.s.proc np with state := .runnable }, fun r => if r = p then .user else l.pc r⟩ := by
  obtain ⟨h1, h2, h3, h4, h5, h6, h7, h8, h9, h10, h11, h12⟩ := h
  constructor <;> simp only [Alive, setProc_proc, setProc_initproc] at * <;> grind

/-! ## The turns of wait -/

theorem Kin.reap (h : Kin l) (hp : ∀ np b, l.pc p ≠ .forking np b)
    (hz : (l.s.proc z).state = .zombie) (hzp : (l.s.proc z).parent = some p) :
    Kin ⟨l.s.setProc z { l.s.proc z with pid := 0, parent := none, killed := false, state := .unused },
      fun r => if r = p then .user else l.pc r⟩ := by
  obtain ⟨h1, h2, h3, h4, h5, h6, h7, h8, h9, h10, h11, h12⟩ := h
  constructor <;> simp only [Alive, setProc_proc, setProc_initproc] at *
  case wait =>
    -- a sleeper in wait has no zombie child, so it loses none
    intro r hw hs
    obtain ⟨hch, ⟨c, hc⟩, hkids⟩ := h12 r (by grind) (by grind)
    exact ⟨by grind, ⟨c, by grind⟩, by grind⟩
  all_goals grind

theorem Kin.sleepWait (h : Kin l) (hr : l.runs p) (hp : ∀ np b, l.pc p ≠ .forking np b)
    (hz : zombieChild l.s p = none) {c : Fin nproc} (hk : (l.s.proc c).parent = some p) :
    Kin ⟨l.s.setProc p { l.s.proc p with chan := .proc p, state := .sleeping },
      fun r => if r = p then .waiting else l.pc r⟩ := by
  have hnone := zombieChild_none hz
  obtain ⟨h1, h2, h3, h4, h5, h6, h7, h8, h9, h10, h11, h12⟩ := h
  constructor <;> simp only [Alive, Life.runs, setProc_proc, setProc_initproc] at *
  case wait =>
    intro r hw hs
    by_cases hrp : r = p
    · exact ⟨by grind, ⟨c, by grind⟩, by grind⟩
    · obtain ⟨hch, ⟨d, hd⟩, hkids⟩ := h12 r (by grind) (by grind)
      exact ⟨by grind, ⟨d, by grind⟩, by grind⟩
  all_goals grind

theorem Kin.leave (h : Kin l) (hp : ∀ np b, l.pc p ≠ .forking np b) :
    Kin ⟨l.s, fun r => if r = p then .user else l.pc r⟩ := by
  obtain ⟨h1, h2, h3, h4, h5, h6, h7, h8, h9, h10, h11, h12⟩ := h
  constructor <;> simp only [Alive] at * <;> grind

end Slots

/-! ## Exit -/

theorem Kin.exit {l : Life} (h : Kin l) {p : Fin nproc} (hr : l.runs p) (hp : l.pc p = .user)
    (hi : l.s.initproc ≠ some p) {t : State} (hti : t.initproc = l.s.initproc) (hx : ∀ r, ExitsTo l.s p r (t.proc r)) :
    Kin { l with s := t } := by
  -- only `p` dies; its children are initproc's now
  have hlive : ∀ r, r ≠ p → Alive (l.s.proc r) → Alive (t.proc r) := by
    intro r hrp ha
    by_cases hw : roused l.s p slots (l.s.proc r)
    · exact .inr (.inl ((hx r).woken hrp hw))
    · unfold Alive
      rw [(hx r).other hrp hw]
      exact ha
  have hsame : ∀ r st, st ≠ .runnable → st ≠ .zombie → (t.proc r).state = st →
      (l.s.proc r).state = st ∧ r ≠ p ∧ ¬ roused l.s p slots (l.s.proc r) := by
    intro r st h0 h1 he
    have hrp : r ≠ p := fun hrp => h1 (he.symm.trans ((hx r).self hrp))
    by_cases hw : roused l.s p slots (l.s.proc r)
    · exact absurd (he.symm.trans ((hx r).woken hrp hw)) h0
    · exact ⟨((hx r).other hrp hw).symm.trans he, hrp, hw⟩
  obtain ⟨i, hini⟩ : ∃ i, l.s.initproc = some i := by
    cases hin : l.s.initproc with
    | none => exact absurd ((h.boot hin p).symm.trans hr) (by decide)
    | some i => exact ⟨i, rfl⟩
  have hip : i ≠ p := fun he => hi (he ▸ hini)
  have hpar : ∀ r, (t.proc r).parent = if (l.s.proc r).parent = some p then some i else (l.s.proc r).parent := by
    intro r
    rw [(hx r).parent, hini]
  refine ⟨fun hn => ?_, fun j hj => ?_, fun r hu => ?_, fun j hj => ?_, fun r hq => ?_,
    fun r hl hn => ?_, fun r q hq => ?_, fun r hb => ?_,
    fun np r he hq => ?_, fun r np b hb => ?_, h.owner, fun r hw hs => ?_⟩
  · rw [hti, hini] at hn; cases hn
  · rw [hti, hini] at hj
    cases hj
    exact hlive i hip (h.init i hini)
  · obtain ⟨hu', -, -⟩ := hsame r _ (by decide) (by decide) hu
    have := h.orphan r hu'
    rw [hpar, this]
    rfl
  · rw [hti, hini] at hj
    cases hj
    rw [hpar, h.root i hini]
    rfl
  · rw [hpar] at hq
    split at hq
    · -- initproc has no parent, so it is no child of `p`
      rename_i hc
      cases hq
      rw [h.root i hini] at hc; cases hc
    · exact h.self r hq
  · rw [hti] at hn
    have hfam : (l.s.proc r).parent ≠ none := by
      refine h.family r ?_ hn
      by_cases hrp : r = p
      · exact .inl (.inr (.inr (hrp ▸ hr)))
      · by_cases hw : roused l.s p slots (l.s.proc r)
        · exact .inl (.inl hw.1)
        · unfold Alive at hl ⊢
          rw [(hx r).other hrp hw] at hl
          exact hl
    rw [hpar]
    split
    · exact nofun
    · exact hfam
  · rw [hpar] at hq
    split at hq
    · cases hq; exact hlive i hip (h.init i hini)
    · rename_i hne
      exact hlive q (fun he => hne (he ▸ hq)) (h.alive r q hq)
  · exact hlive r (fun he => hb (he ▸ hp)) (h.busy r hb)
  · -- a child of `p` is no embryo, since `p` is not in `fork`
    obtain ⟨he', -, -⟩ := hsame np _ (by decide) (by decide) he
    rw [hpar] at hq
    split at hq
    · rename_i hc
      have := h.embryo np p he' hc
      rw [hp] at this; cases this
    · exact h.embryo np r he' hq
  · obtain ⟨he, hnp⟩ := h.forking r np b hb
    have hne : np ≠ p := fun hn => absurd (he.symm.trans (hn ▸ hr)) (by decide)
    have hnw : ¬ roused l.s p slots (l.s.proc np) := fun hw => absurd (he.symm.trans hw.1) (by decide)
    refine ⟨((hx np).other hne hnw).trans he, ?_⟩
    rw [hpar, if_neg, hnp]
    intro hc
    have := h.embryo np p he hc
    rw [hp] at this; cases this
  · -- a sleeper that was not roused: it is not the parent of `p`, nor initproc with a new zombie
    obtain ⟨hs', hrp, hnw⟩ := hsame r _ (by decide) (by decide) hs
    obtain ⟨hch, ⟨c, hc⟩, hz⟩ := h.wait r hw hs'
    have hnp : (l.s.proc p).parent ≠ some r := fun he => hnw ⟨hs', .inl (by rw [hch, he]; rfl)⟩
    refine ⟨(hx r).chan.trans hch, ⟨c, ?_⟩, fun d hd hdz => ?_⟩
    · rw [hpar, if_neg]
      · exact hc
      · intro he
        exact hrp (Option.some.inj (hc.symm.trans he))
    · have hdp : d ≠ p := by
        rintro rfl
        rw [hpar] at hd
        split at hd
        · exact h.self d ‹_›
        · exact hnp hd
      have hdw : ¬ roused l.s p slots (l.s.proc d) := fun hw =>
        absurd (((hx d).woken hdp hw).symm.trans hdz) (by decide)
      have hdz' : (l.s.proc d).state = .zombie := ((hx d).other hdp hdw).symm.trans hdz
      rw [hpar] at hd
      split at hd
      · cases hd
        exact hnw ⟨hs', .inr ⟨by rw [hch, hini]; rfl, d, List.mem_finRange d, ‹_›, hdz'⟩⟩
      · exact hz d hd hdz'

/-! ## Every step -/

theorem onTable_goto {a : Act} (ha : ∀ c, a ≠ .exit c) (p : Fin nproc) (c : Pc) (l : Life) :
    ((do onTable a; goto p c) : LifeM Unit) l =
      ⟨.ok (), ⟨(step a l.s).st, fun q => if q = p then c else l.pc q⟩, []⟩ := by
  have h : onTable a l = ⟨.ok (), ⟨(step a l.s).st, l.pc⟩, []⟩ := by
    unfold onTable
    rw [(step_rest a l.s).res ha]
  rw [Prog.bind_run_ok h]
  rfl

theorem waitTurn_run (p : Fin nproc) (l : Life) : waitTurn p l = match zombieChild l.s p with
    | some z => ⟨.ok (), ⟨(step (.wait p) l.s).st, fun q => if q = p then .user else l.pc q⟩, [⟨p, z, l.s.proc z⟩]⟩
    | none   =>
      if (∀ c, (l.s.proc c).parent ≠ some p) ∨ (l.s.proc p).killed = true then
        ⟨.ok (), ⟨l.s, fun q => if q = p then .user else l.pc q⟩, []⟩
      else ⟨.ok (), ⟨(step (.sleep p (.proc p)) l.s).st, fun q => if q = p then .waiting else l.pc q⟩, []⟩ := by
  unfold waitTurn
  rw [Prog.get_bind_run]
  cases zombieChild l.s p with
  | some z =>
    dsimp only
    rw [Prog.bind_run_ok (Prog.emit_run _ l), onTable_goto (by simp)]
    rfl
  | none =>
    dsimp only
    split
    · rfl
    · rw [onTable_goto (by simp)]

theorem Kin.waitTurn {l : Life} (h : Kin l) {p : Fin nproc} (hr : l.runs p) (hp : ∀ np b, l.pc p ≠ .forking np b) :
    Kin (waitTurn p l).st := by
  rw [waitTurn_run]
  cases hz : zombieChild l.s p with
  | some z =>
    obtain ⟨hzp, hzz⟩ := zombieChild_some hz
    dsimp only
    rw [step_wait hr hz]
    exact h.reap hp hzz hzp
  | none =>
    dsimp only
    split
    · exact h.leave hp
    · rename_i hk
      obtain ⟨c, hc⟩ := Classical.not_forall.1 (not_or.1 hk).1
      rw [step_sleep _ hr]
      exact h.sleepWait hr hp hz (Classical.not_not.1 hc)

theorem Kin.onTable {l : Life} (h : Kin l) {a : Act} (ha : MildAct l a) : Kin ⟨(step a l.s).st, l.pc⟩ := by
  refine h.mild ?_ (fun r => (step_change a l.s r).mild ha)
  obtain hi | ⟨rfl, -⟩ := (step_rest a l.s).initproc
  · exact hi
  · exact ha.elim

theorem sleepReturn_runs {l : Life} {p : Fin nproc} (hr : l.runs p) :
    Life.runs ⟨(step (.sleepReturn p) l.s).st, l.pc⟩ p := by
  show ((Sched.step (.sleepReturn p) l.s).st.proc p).state = .running
  rw [step_run, if_pos (show Act.enabled _ (.sleepReturn p) = true from decide_eq_true hr)]
  show (if p = p then _ else _ : Proc).state = .running
  rw [if_pos rfl]
  exact hr

/-- **Every step keeps the families.** -/
theorem Kin.step {l : Life} (h : Kin l) (a : LifeAct) : Kin (lifeStep a l).st := by
  unfold lifeStep
  rw [Prog.get_bind_run]
  unfold Prog.when
  cases a with
  | userinit =>
    show Kin ⟨(Sched.step .userinit l.s).st, l.pc⟩
    cases hi : l.s.initproc with
    | some i =>
      rw [step_run, if_neg (by simp [Act.enabled, hi])]
      exact h
    | none =>
      -- before userinit every slot is unused
      obtain ⟨p, hf⟩ : ∃ p, firstUnused l.s = some p :=
        Option.ne_none_iff_exists'.1 fun hn => firstUnused_none hn 0 (h.boot hi 0)
      rw [step_userinit hi hf]
      exact h.userinit (q := { allocated l.s.nextpid (l.s.proc p) with state := .runnable }) hi rfl rfl
        (firstUnused_state hf)
  | fork p =>
    dsimp only
    split
    case isFalse => exact h
    rename_i hg
    cases hf : firstUnused l.s with
    | none => exact h
    | some np =>
      dsimp only
      rw [onTable_goto (by simp), step_allocproc hf]
      exact h.fork (q := allocated l.s.nextpid (l.s.proc np)) hg.1 hg.2 (firstUnused_state hf) rfl rfl
  | forkFail p =>
    dsimp only
    cases hp : l.pc p with
    | user => exact h
    | waiting => exact h
    | forking np stored =>
      cases stored with
      | true => exact h
      | false =>
        dsimp only
        split
        case isFalse => exact h
        rw [onTable_goto (by simp), step_allocFail (h.forking p np _ hp).1]
        exact h.forkFail hp
  | forkStore p f =>
    dsimp only
    cases hp : l.pc p with
    | user => exact h
    | waiting => exact h
    | forking np stored =>
      dsimp only
      split
      case isFalse => exact h
      rename_i hr
      have he := (h.forking p np _ hp).1
      rw [onTable_goto (by simp)]
      by_cases hf : f = .parent
      · rw [hf, step_forkCopy _ he hr, decide_eq_true rfl, Bool.or_true]
        exact h.forkParent hr hp
      · rw [decide_eq_false hf, Bool.or_false]
        have hpc : (fun r => if r = p then Pc.forking np stored else l.pc r) = l.pc := by
          funext r
          split
          · rename_i hrp; rw [hrp, hp]
          · rfl
        rw [hpc]
        exact h.onTable (a := .forkCopy np p f) hf
  | forkDone p =>
    dsimp only
    cases hp : l.pc p with
    | user => exact h
    | waiting => exact h
    | forking np stored =>
      cases stored with
      | false => exact h
      | true =>
        dsimp only
        split
        case isFalse => exact h
        rw [onTable_goto (by simp), step_ready (h.forking p np _ hp).1]
        exact h.forkDone hp
  | exit p =>
    dsimp only
    split
    case isFalse => exact h
    rename_i hg
    show Kin ⟨(Sched.step (.exit p) l.s).st, l.pc⟩
    rw [step_run, if_pos (show Act.enabled _ (.exit p) = true from decide_eq_true hg.1)]
    show Kin ⟨(Sched.exit p l.s).st, l.pc⟩
    by_cases hi : l.s.initproc = some p
    · rw [exit_stops hi]; exact h
    · obtain ⟨t, tr, hrun, -, hti, hx, -⟩ := exit_run hi
      rw [hrun]
      exact h.exit hg.1 hg.2 hi hti hx
  | wait p =>
    dsimp only
    split
    case isFalse => exact h
    rename_i hr
    cases hp : l.pc p with
    | forking np b => exact h
    | user => exact h.waitTurn hr (by simp [hp])
    | waiting =>
      -- awake again: the channel is cleared, and the table is scanned in the same section
      have h' : Kin ⟨(Sched.step (.sleepReturn p) l.s).st, l.pc⟩ := h.onTable (a := .sleepReturn p) trivial
      have hrun : Sched.onTable (.sleepReturn p) l = ⟨.ok (), ⟨(Sched.step (.sleepReturn p) l.s).st, l.pc⟩, []⟩ := by
        unfold Sched.onTable
        rw [(step_rest _ l.s).res (by simp)]
      dsimp only
      rw [Prog.bind_run_ok hrun]
      exact h'.waitTurn (sleepReturn_runs hr) (by simp [hp])
  | sleep p a =>
    dsimp only
    split
    case isFalse => exact h
    exact h.onTable (a := .sleep p (.obj a)) ‹_›
  | sleepReturn p =>
    dsimp only
    split
    case isFalse => exact h
    exact h.onTable (a := .sleepReturn p) trivial
  | wakeup chan => exact h.onTable (a := .wakeup chan) trivial
  | kill pid => exact h.onTable (a := .kill pid) trivial
  | setnice pid v => exact h.onTable (a := .setnice pid v) trivial
  | tick p => exact h.onTable (a := .tick p) trivial
  | dispatch p => exact h.onTable (a := .dispatch p) trivial

/-! ## The reaps of a run -/

/-- What the steps of a machine do to the table, with the reaps among them. -/
inductive Moves (s : State) : List Reap → State → Prop
  | refl : Moves s [] s
  | step {h t} (a) : Moves s h t → Moves s h (Sched.step a t).st
  | reap {h t} (p z) : Moves s h t → (t.proc p).state = .running → zombieChild t p = some z →
      Moves s (h ++ [⟨p, z, t.proc z⟩]) (Sched.step (.wait p) t).st

def Moved (s : State) (o : Outcome Stop Life Reap Unit) : Prop := Moves s o.tr o.st.s

theorem waitTurn_moves {p : Fin nproc} {s : State} {l : Life} (hr : l.runs p) (hs : Moves s [] l.s) :
    Moved s (waitTurn p l) := by
  rw [waitTurn_run]
  cases hz : zombieChild l.s p with
  | some z => exact hs.reap p z hr hz
  | none =>
    dsimp only
    split
    · exact hs
    · exact hs.step _

theorem lifeStep_moves (a : LifeAct) (l : Life) : Moved l.s (lifeStep a l) := by
  have hone : ∀ b : Act, Moved l.s (onTable b l) := fun b => Moves.refl.step b
  have hnone : Moved l.s ((pure () : LifeM Unit) l) := .refl
  have hto : ∀ (b : Act) (p : Fin nproc) (c : Pc), (∀ c, b ≠ .exit c) →
      Moved l.s (((do onTable b; goto p c) : LifeM Unit) l) := by
    intro b p c hb
    rw [onTable_goto hb]
    exact Moves.refl.step b
  unfold lifeStep
  rw [Prog.get_bind_run]
  unfold Prog.when
  cases a with
  | fork p =>
    dsimp only
    split
    · cases firstUnused l.s with
      | none => exact hnone
      | some np => exact hto _ _ _ (by simp)
    · exact hnone
  | wait p =>
    dsimp only
    split
    · rename_i hr
      cases l.pc p with
      | user => exact waitTurn_moves hr .refl
      | waiting =>
        have hrun : onTable (.sleepReturn p) l = ⟨.ok (), ⟨(Sched.step (.sleepReturn p) l.s).st, l.pc⟩, []⟩ := by
          unfold onTable
          rw [(step_rest _ l.s).res (by simp)]
        dsimp only
        rw [Prog.bind_run_ok hrun]
        exact waitTurn_moves (sleepReturn_runs hr) (Moves.refl.step (.sleepReturn p))
      | forking np stored => exact hnone
    · exact hnone
  | forkFail p =>
    dsimp only
    rcases l.pc p with _ | ⟨np, _ | _⟩ | _
    case forking.false =>
      dsimp only
      split
      · exact hto _ _ _ (by simp)
      · exact hnone
    all_goals exact hnone
  | forkStore p f =>
    dsimp only
    rcases l.pc p with _ | ⟨np, stored⟩ | _
    case forking =>
      dsimp only
      split
      · exact hto _ _ _ (by simp)
      · exact hnone
    all_goals exact hnone
  | forkDone p =>
    dsimp only
    rcases l.pc p with _ | ⟨np, _ | _⟩ | _
    case forking.true =>
      dsimp only
      split
      · exact hto _ _ _ (by simp)
      · exact hnone
    all_goals exact hnone
  | exit p =>
    dsimp only
    split
    · exact hone _
    · exact hnone
  | sleep p a =>
    dsimp only
    split
    · exact hone _
    · exact hnone
  | sleepReturn p =>
    dsimp only
    split
    · exact hone _
    · exact hnone
  | _ => exact hone _

/-- A pid that was handed out and that no slot has any more. -/
def Gone (s : State) (pid : Int) : Prop := pid ≠ 0 ∧ pid < s.nextpid ∧ ∀ r, (s.proc r).pid ≠ pid

theorem Gone.step {s : State} {pid : Int} (h : Gone s pid) (a : Act) : Gone (Sched.step a s).st pid := by
  obtain ⟨h0, hlt, hne⟩ := h
  have hle : s.nextpid ≤ (Sched.step a s).st.nextpid := by rcases (step_rest a s).nextpid with h | h <;> omega
  refine ⟨h0, by omega, fun r => ?_⟩
  rcases (step_change a s r).pid with ⟨hp, -⟩ | ⟨hp, -⟩ | ⟨hp, -⟩
  · rw [hp]; exact hne r
  · omega
  · omega

/-- The reaps so far: of zombies, each by its parent, and of pids that are all different and gone. -/
structure Reaped (h : List Reap) (s : State) : Prop where
  pids   : Pids s
  nodup  : (h.map (fun e => e.was.pid)).Nodup
  gone   : ∀ e ∈ h, Gone s e.was.pid
  zombie : ∀ e ∈ h, e.was.state = .zombie
  parent : ∀ e ∈ h, e.was.parent = some e.reaper

theorem Reaped.step {h : List Reap} {s : State} (hr : Reaped h s) (a : Act) : Reaped h (Sched.step a s).st :=
  ⟨hr.pids.step a, hr.nodup, fun e he => (hr.gone e he).step a, hr.zombie, hr.parent⟩

/-- **A reap is of a pid that was not reaped before**, since the slot still has it, and it is gone afterwards. -/
theorem Reaped.reap {h : List Reap} {s : State} (hr : Reaped h s) {p z : Fin nproc} (hp : (s.proc p).state = .running)
    (hz : zombieChild s p = some z) : Reaped (h ++ [⟨p, z, s.proc z⟩]) (Sched.step (.wait p) s).st := by
  obtain ⟨hzp, hzz⟩ := zombieChild_some hz
  have hpid : (s.proc z).pid ≠ 0 := hr.pids.live z (used_of hzz (by decide))
  have hlt := (hr.pids.bounds z).2
  have hgone : Gone (Sched.step (.wait p) s).st (s.proc z).pid := by
    rw [step_wait hp hz]
    refine ⟨hpid, hlt, fun r => ?_⟩
    rw [setProc_proc]
    split
    · exact fun he => hpid he.symm
    · rename_i hrz
      exact fun he => hrz (hr.pids.distinct r z he (he ▸ hpid))
  have hnew : ∀ e ∈ h, e.was.pid ≠ (s.proc z).pid := fun e he heq => (hr.gone e he).2.2 z heq.symm
  refine ⟨hr.pids.step _, ?_, fun e he => ?_, fun e he => ?_, fun e he => ?_⟩
  · rw [List.map_append, List.nodup_append]
    refine ⟨hr.nodup, List.nodup_singleton _, fun x hx y hy => ?_⟩
    obtain ⟨e, he, rfl⟩ := List.mem_map.1 hx
    rw [List.mem_singleton.1 hy]
    exact hnew e he
  · rcases List.mem_append.1 he with he | he
    · exact (hr.gone e he).step _
    · rw [List.mem_singleton.1 he]; exact hgone
  · rcases List.mem_append.1 he with he | he
    · exact hr.zombie e he
    · rw [List.mem_singleton.1 he]; exact hzz
  · rcases List.mem_append.1 he with he | he
    · exact hr.parent e he
    · rw [List.mem_singleton.1 he]; exact hzp

theorem Reaped.moves {h : List Reap} {s : State} (hr : Reaped h s) {h' : List Reap} {t : State} (hm : Moves s h' t) :
    Reaped (h ++ h') t := by
  induction hm with
  | refl => rwa [List.append_nil]
  | step a _ ih => exact ih.step a
  | reap p z _ hp hz ih =>
    rw [← List.append_assoc]
    exact ih.reap hp hz

/-! ## Whole runs -/

theorem lifeBoot_kin : Kin lifeBoot := by
  constructor <;> simp [lifeBoot, boot, unusedProc, Alive]

theorem lifeRun_kin (acts : List LifeAct) : Kin (lifeRun acts lifeBoot).st :=
  (Prog.forEach_admits (C := fun _ _ => True) (I := Kin) (R := fun _ => True)
    (fun a _ h _ => ⟨fun _ _ => trivial, h.step a⟩) acts lifeBoot lifeBoot_kin
    (Prog.admits_of_forall (fun _ _ => trivial) acts lifeBoot)).2

theorem lifeRun_reaped (acts : List LifeAct) : Reaped (lifeRun acts lifeBoot).tr (lifeRun acts lifeBoot).st.s := by
  have hstep : ∀ a h (l : Life), Reaped h l.s → Reaped (h ++ (lifeStep a l).tr) (lifeStep a l).st.s :=
    fun a h l hr => hr.moves (lifeStep_moves a l)
  have h := Prog.forEach_history (H := fun h (l : Life) => Reaped h l.s) hstep acts [] lifeBoot
    ⟨boot_pids, List.nodup_nil, fun _ he => (by cases he), fun _ he => (by cases he), fun _ he => (by cases he)⟩
  rw [List.nil_append] at h
  exact h

/-- **No child is lost and none is reaped twice.**  In every state a run reaches, every process that is asleep,
RUNNABLE, running or a zombie, other than initproc, has a parent that is neither unused nor a zombie; who sleeps in
`wait` has a child and no zombie child; and the reaps so far are of zombies with different pids, each by its parent. -/
theorem run_family (acts : List LifeAct) :
    (∀ p, Alive ((lifeRun acts lifeBoot).st.s.proc p) ∨ ((lifeRun acts lifeBoot).st.s.proc p).state = .zombie →
      (lifeRun acts lifeBoot).st.s.initproc ≠ some p →
      ∃ q, ((lifeRun acts lifeBoot).st.s.proc p).parent = some q ∧
        ((lifeRun acts lifeBoot).st.s.proc q).state ≠ .unused ∧ ((lifeRun acts lifeBoot).st.s.proc q).state ≠ .zombie) ∧
    (∀ p, (lifeRun acts lifeBoot).st.pc p = .waiting → ((lifeRun acts lifeBoot).st.s.proc p).state = .sleeping →
      (∃ c, ((lifeRun acts lifeBoot).st.s.proc c).parent = some p ∧
        ((lifeRun acts lifeBoot).st.s.proc c).state ≠ .unused) ∧
      ∀ c, ((lifeRun acts lifeBoot).st.s.proc c).parent = some p → ((lifeRun acts lifeBoot).st.s.proc c).state ≠ .zombie) ∧
    ((lifeRun acts lifeBoot).tr.map (fun e => e.was.pid)).Nodup ∧
    ∀ e ∈ (lifeRun acts lifeBoot).tr, e.was.state = .zombie ∧ e.was.parent = some e.reaper := by
  have h := lifeRun_kin acts
  have hr := lifeRun_reaped acts
  refine ⟨fun p hp hi => ?_, fun p hw hs => ?_, hr.nodup, fun e he => ⟨hr.zombie e he, hr.parent e he⟩⟩
  · obtain ⟨q, hq⟩ := Option.ne_none_iff_exists'.1 (h.family p hp hi)
    have ha := h.alive p q hq
    refine ⟨q, hq, fun hu => ?_, fun hz => ?_⟩
    · rcases ha with ha | ha | ha <;> rw [ha] at hu <;> cases hu
    · rcases ha with ha | ha | ha <;> rw [ha] at hz <;> cases hz
  · obtain ⟨-, ⟨c, hc⟩, hz⟩ := h.wait p hw hs
    refine ⟨⟨c, hc, fun hu => ?_⟩, hz⟩
    rw [h.orphan c hu] at hc
    cases hc

/-- init forks, waits, and reaps its child. -/
example : ((lifeRun [.userinit, .dispatch 0, .fork 0, .forkStore 0 .parent, .forkDone 0, .wait 0, .dispatch 1, .exit 1,
    .dispatch 0, .wait 0] lifeBoot).tr.map (fun e => (e.reaper, e.slot, e.was.pid))) = [(0, 1, 2)] := by
  decide +kernel

end Sched
end Xv6
