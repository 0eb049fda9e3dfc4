import Xv6.Sched.Change
import Xv6.Sched.Scheduler
/-!
# Sched.Cpus — the CPUs, the stack each runs on and the page table each has loaded

Any number of CPUs, the process table, and `ptable.lock` with the CPU that holds it (`lk->cpu`).  A CPU runs on its
scheduler's stack or on the kernel stack of a process, and has `kpgdir` or a page table of a process loaded; stacks and
page tables are frames that `kalloc` hands out and `wait` frees.  The lock passes from the scheduler to the process it
switches to and back, `p->state` changes before the switch, and `switchkvm` and `c->proc = 0` come after it: each of
these is a step.  `Placed` is the invariant; a free made by `wait` is an event that carries the machine it happens in.
-/
namespace Xv6
namespace Sched

/-- Where a CPU stands: in its scheduler, or in the process `c->proc`. -/
inductive CorePc where
  | idle        -- in the scheduler, without the lock
  | scan        -- in the scheduler's loop, with it
  | readied     -- the next process is RUNNING and its page table loaded, before `swtch`
  | user        -- in the process, without the lock
  | locked      -- in the process, with it
  | leaving     -- in `sched`, the state changed, before `swtch`
  | switched    -- back on the scheduler's stack, before `switchkvm`
  | unloaded    -- before `c->proc = 0`
  deriving DecidableEq

def CorePc.holds : CorePc → Bool
  | .idle | .user => false
  | _ => true

def CorePc.hasProc : CorePc → Bool
  | .idle | .scan => false
  | _ => true

def CorePc.runs : CorePc → Bool
  | .readied | .user | .locked => true
  | _ => false

def CorePc.onStack : CorePc → Bool
  | .user | .locked | .leaving => true
  | _ => false

def CorePc.loaded : CorePc → Bool
  | .readied | .user | .locked | .leaving | .switched => true
  | _ => false

/-- `stack` is the kernel stack in use, none for the scheduler's; `cr3` the page table, none for `kpgdir`. -/
structure Core where
  pc    : CorePc
  proc  : Option (Fin nproc)
  stack : Option Nat
  cr3   : Option Nat

structure Machine (κ : Type) where
  s      : State
  lock   : Option κ
  cpu    : κ → Core
  kstack : Fin nproc → Option Nat
  pgdir  : Fin nproc → Option Nat

/-- `wait` frees the kernel stack and the page table of `slot`. -/
structure Freed (κ : Type) where
  slot : Fin nproc
  m    : Machine κ

/-- The slot is a zombie, and no CPU runs on its stack or has its page table loaded. -/
def Freed.Idle {κ : Type} (e : Freed κ) : Prop := (e.m.s.proc e.slot).state = .zombie ∧
  ∀ c, (e.m.cpu c).stack ≠ e.m.kstack e.slot ∧ (e.m.cpu c).cr3 ≠ e.m.pgdir e.slot

abbrev CoreM (κ : Type) := Prog Stop (Machine κ) (Freed κ)

inductive CoreAct (κ : Type) where
  | userinit (c : κ) (k g : Nat)
  | take (c : κ)
  | drop (c : κ)
  | dispatch (c : κ) (p : Fin nproc)
  | swtch (c : κ)
  | acquire (c : κ)
  | release (c : κ)
  | body (c : κ) (a : Act)
  | forkStack (c : κ) (np : Fin nproc) (k : Nat)
  | forkSpace (c : κ) (np : Fin nproc) (g : Nat)
  | forkStore (c : κ) (np : Fin nproc) (f : ForkField)
  | forkFail (c : κ) (np : Fin nproc)
  | swtchBack (c : κ)
  | switchkvm (c : κ)
  | clear (c : κ)

variable {κ : Type} [DecidableEq κ]

/-- What a process may do in one section under the lock; a child it makes RUNNABLE has its stack and page table. -/
def Machine.section (m : Machine κ) (p : Fin nproc) : Act → Bool
  | .allocproc | .wakeup _ | .kill _ | .setnice _ _ => true
  | .ready np => decide (m.kstack np ≠ none) && decide (m.pgdir np ≠ none)
  | .sleep q _ | .sleepReturn q | .exit q | .wait q | .tick q => decide (q = p)
  | _ => false

/-- A frame that `kalloc` may hand out: none that is in use. -/
def Machine.fresh (m : Machine κ) (k : Nat) : Prop := ∀ p, m.kstack p ≠ some k ∧ m.pgdir p ≠ some k

instance (m : Machine κ) (k : Nat) : Decidable (m.fresh k) := inferInstanceAs (Decidable (∀ _, _))

def Machine.setCpu (m : Machine κ) (c : κ) (k : Core) : Machine κ :=
  { m with cpu := fun d => if d = c then k else m.cpu d }

def Machine.goto (m : Machine κ) (c : κ) (pc : CorePc) : Machine κ := m.setCpu c { m.cpu c with pc := pc }

/-- The frames of the slots in `l` are given back. -/
def Machine.free (m : Machine κ) (l : List (Fin nproc)) : Machine κ :=
  { m with kstack := fun q => if q ∈ l then none else m.kstack q
           pgdir := fun q => if q ∈ l then none else m.pgdir q }

/-- The slot a section frees: the zombie that `wait` reaps. -/
def frees (s : State) : Act → List (Fin nproc)
  | .wait p => (zombieChild s p).toList
  | _ => []

def coreBody (c : κ) (p : Fin nproc) (a : Act) : CoreM κ Unit := fun m =>
  let o := step a m.s
  let m' := { m with s := o.st }.free (frees m.s a)
  ⟨o.res, m'.goto c (if (o.st.proc p).state = .running then .locked else .leaving), (frees m.s a).map (fun z => ⟨z, m⟩)⟩

def coreStep (a : CoreAct κ) : CoreM κ Unit := do
  let m ← Prog.get
  match a with
  | .userinit c k g =>
    Prog.when ((m.cpu c).pc = .idle ∧ m.lock = none ∧ m.s.initproc = none ∧ m.fresh k ∧ m.fresh g ∧ k ≠ g)
      (match firstUnused m.s with
        | none   => pure ()
        | some p => Prog.modify fun m => { m with
            s := (step .userinit m.s).st
            kstack := fun q => if q = p then some k else m.kstack q
            pgdir := fun q => if q = p then some g else m.pgdir q })
  | .take c => Prog.when ((m.cpu c).pc = .idle ∧ m.lock = none) (Prog.modify fun m => { m.goto c .scan with lock := some c })
  | .drop c => Prog.when ((m.cpu c).pc = .scan) (Prog.modify fun m => { m.goto c .idle with lock := none })
  | .dispatch c p =>
    Prog.when ((m.cpu c).pc = .scan ∧ (m.s.proc p).state = .runnable) (
      let q := (schedScan m.s p).1
      if m.kstack q = none then Prog.stop (.panic "switchuvm: no kstack")
      else if m.pgdir q = none then Prog.stop (.panic "switchuvm: no pgdir")
      else Prog.modify fun m => { m with s := (step (.dispatch p) m.s).st }.setCpu c
        { pc := .readied, proc := some q, stack := none, cr3 := m.pgdir q })
  | .swtch c =>
    Prog.when ((m.cpu c).pc = .readied) (Prog.modify fun m =>
      m.setCpu c { m.cpu c with pc := .locked, stack := (m.cpu c).proc.bind m.kstack })
  | .acquire c =>
    Prog.when ((m.cpu c).pc = .user ∧ m.lock = none) (Prog.modify fun m => { m.goto c .locked with lock := some c })
  | .release c => Prog.when ((m.cpu c).pc = .locked) (Prog.modify fun m => { m.goto c .user with lock := none })
  | .body c a =>
    match (m.cpu c).proc with
    | none   => pure ()
    | some p => Prog.when ((m.cpu c).pc = .locked ∧ m.section p a = true) (coreBody c p a)
  | .forkStack c np k =>
    Prog.when ((m.cpu c).pc = .user ∧ (m.s.proc np).state = .embryo ∧ m.kstack np = none ∧ m.fresh k)
      (Prog.modify fun m => { m with kstack := fun q => if q = np then some k else m.kstack q })
  | .forkSpace c np g =>
    Prog.when ((m.cpu c).pc = .user ∧ (m.s.proc np).state = .embryo ∧ m.pgdir np = none ∧ m.fresh g)
      (Prog.modify fun m => { m with pgdir := fun q => if q = np then some g else m.pgdir q })
  | .forkStore c np f =>
    match (m.cpu c).proc with
    | none   => pure ()
    | some p => Prog.when ((m.cpu c).pc = .user) (Prog.modify fun m => { m with s := (step (.forkCopy np p f) m.s).st })
  | .forkFail c np =>
    Prog.when ((m.cpu c).pc = .user ∧ (m.s.proc np).state = .embryo) (Prog.modify fun m =>
      { m with s := (step (.allocFail np) m.s).st }.free [np])
  | .swtchBack c => Prog.when ((m.cpu c).pc = .leaving) (Prog.modify fun m =>
      m.setCpu c { m.cpu c with pc := .switched, stack := none })
  | .switchkvm c => Prog.when ((m.cpu c).pc = .switched) (Prog.modify fun m =>
      m.setCpu c { m.cpu c with pc := .unloaded, cr3 := none })
  | .clear c => Prog.when ((m.cpu c).pc = .unloaded) (Prog.modify fun m =>
      m.setCpu c { m.cpu c with pc := .scan, proc := none })

def coreRun (acts : List (CoreAct κ)) : CoreM κ Unit := Prog.forEach acts coreStep

/-- Every CPU in its scheduler, before the first process. -/
def coreBoot : Machine κ :=
  { s := boot, lock := none, cpu := fun _ => ⟨.idle, none, none, none⟩, kstack := fun _ => none, pgdir := fun _ => none }

/-- A process that has run or may run: it has a stack and a page table. -/
def Settled (q : Proc) : Prop := q.state ≠ .unused ∧ q.state ≠ .embryo

/-- What CPU `c` shows of the process it is on. -/
structure Sits (m : Machine κ) (c : κ) : Prop where
  lock  : (m.cpu c).pc.holds = true ↔ m.lock = some c
  proc  : (m.cpu c).pc.hasProc = true ↔ (m.cpu c).proc ≠ none
  runs  : ∀ p, (m.cpu c).proc = some p → ((m.cpu c).pc.runs = true ↔ (m.s.proc p).state = .running)
  live  : ∀ p, (m.cpu c).proc = some p → Settled (m.s.proc p)
  stack : (m.cpu c).stack = if (m.cpu c).pc.onStack then (m.cpu c).proc.bind m.kstack else none
  cr3   : (m.cpu c).cr3 = if (m.cpu c).pc.loaded then (m.cpu c).proc.bind m.pgdir else none

def Distinct (f : Fin nproc → Option Nat) : Prop := ∀ p q, f p = f q → f p ≠ none → p = q

structure Placed (m : Machine κ) : Prop where
  sits    : ∀ c, Sits m c
  one     : ∀ c d p, (m.cpu c).proc = some p → (m.cpu d).proc = some p → c = d
  owner   : ∀ p, (m.s.proc p).state = .running → ∃ c, (m.cpu c).proc = some p
  frames  : ∀ p, Settled (m.s.proc p) → m.kstack p ≠ none ∧ m.pgdir p ≠ none
  kstacks : Distinct m.kstack
  pgdirs  : Distinct m.pgdir

/-! ## Steps of one CPU -/

variable {m : Machine κ} {c d : κ} {p q : Fin nproc} {a : Act}

theorem Distinct.free {f : Fin nproc → Option Nat} (h : Distinct f) (l : List (Fin nproc)) :
    Distinct (fun q => if q ∈ l then none else f q) := by
  intro p q he hn
  dsimp only at he hn
  by_cases hp : p ∈ l
  · rw [if_pos hp] at hn; exact absurd rfl hn
  · rw [if_neg hp] at he hn
    by_cases hq : q ∈ l
    · rw [if_pos hq] at he; exact absurd he hn
    · rw [if_neg hq] at he; exact h p q he hn

theorem Distinct.put {f : Fin nproc → Option Nat} (h : Distinct f) {k : Nat} (hk : ∀ p, f p ≠ some k) (r : Fin nproc) :
    Distinct (fun q => if q = r then some k else f q) := by
  intro p q he hn
  dsimp only at he hn
  by_cases hp : p = r
  · by_cases hq : q = r
    · rw [hp, hq]
    · rw [if_pos hp, if_neg hq] at he; exact absurd he.symm (hk q)
  · rw [if_neg hp] at he hn
    by_cases hq : q = r
    · rw [if_pos hq] at he; exact absurd he (hk p)
    · rw [if_neg hq] at he; exact h p q he hn

/-- **A step of CPU `c`**: what it has to keep of the processes the others are on, and the invariant of its own. -/
theorem Placed.step (h : Placed m) {k : Core} {l : Option κ} {t : State} {ks pd : Fin nproc → Option Nat}
    (hl : ∀ d, d ≠ c → (l = some d ↔ m.lock = some d))
    (hd : ∀ d q, d ≠ c → (m.cpu d).proc = some q → k.proc ≠ some q ∧
      ((t.proc q).state = .running ↔ (m.s.proc q).state = .running) ∧ Settled (t.proc q) ∧ ks q = m.kstack q ∧
      pd q = m.pgdir q)
    (hs : Sits ⟨t, l, (m.setCpu c k).cpu, ks, pd⟩ c)
    (ho : ∀ q, (t.proc q).state = .running → k.proc = some q ∨ ∃ d, d ≠ c ∧ (m.cpu d).proc = some q)
    (hf : ∀ q, Settled (t.proc q) → ks q ≠ none ∧ pd q ≠ none) (hks : Distinct ks) (hpd : Distinct pd) :
    Placed ⟨t, l, (m.setCpu c k).cpu, ks, pd⟩ := by
  have hcpu : ∀ d, d ≠ c → (m.setCpu c k).cpu d = m.cpu d := fun d hd => if_neg hd
  have hself : (m.setCpu c k).cpu c = k := if_pos rfl
  refine ⟨fun d => ?_, fun d e p hdp hep => ?_, fun q hq => ?_, hf, hks, hpd⟩
  · by_cases hdc : d = c
    · rw [hdc]; exact hs
    · obtain ⟨h1, h2, h3, h4, h5, h6⟩ := h.sits d
      have hbind : (m.cpu d).proc.bind ks = (m.cpu d).proc.bind m.kstack ∧
          (m.cpu d).proc.bind pd = (m.cpu d).proc.bind m.pgdir := by
        cases hp : (m.cpu d).proc with
        | none => exact ⟨rfl, rfl⟩
        | some q =>
          obtain ⟨-, -, -, hk, hg⟩ := hd d q hdc hp
          exact ⟨hk, hg⟩
      constructor <;> simp only [hcpu d hdc]
      · exact h1.trans (hl d hdc).symm
      · exact h2
      · exact fun q hq => (h3 q hq).trans (hd d q hdc hq).2.1.symm
      · exact fun q hq => (hd d q hdc hq).2.2.1
      · rw [hbind.1]; exact h5
      · rw [hbind.2]; exact h6
  · dsimp only at hdp hep
    by_cases hdc : d = c <;> by_cases hec : e = c
    · rw [hdc, hec]
    · rw [hdc, hself] at hdp
      rw [hcpu e hec] at hep
      exact absurd hdp (hd e p hec hep).1
    · rw [hec, hself] at hep
      rw [hcpu d hdc] at hdp
      exact absurd hep (hd d p hdc hdp).1
    · rw [hcpu d hdc] at hdp
      rw [hcpu e hec] at hep
      exact h.one d e p hdp hep
  · rcases ho q hq with hk | ⟨d, hdc, hdq⟩
    · exact ⟨c, by rw [hself]; exact hk⟩
    · exact ⟨d, by rw [hcpu d hdc]; exact hdq⟩

theorem Placed.move (h : Placed m) {k : Core} {l : Option κ}
    (hl : ∀ d, d ≠ c → (l = some d ↔ m.lock = some d)) (hs : Sits { m.setCpu c k with lock := l } c)
    (hp : k.proc = (m.cpu c).proc ∨
      k.proc = none ∧ ∀ p, (m.cpu c).proc = some p → (m.s.proc p).state ≠ .running) :
    Placed { m.setCpu c k with lock := l } := by
  refine h.step hl (fun d q hdc hq => ⟨fun hk => ?_, .rfl, (h.sits d).live q hq, rfl, rfl⟩) hs (fun q hq => ?_) h.frames
    h.kstacks h.pgdirs
  · rcases hp with hp | ⟨hp, -⟩
    · exact hdc (h.one d c q hq (hp ▸ hk))
    · rw [hp] at hk; cases hk
  · obtain ⟨d, hdq⟩ := h.owner q hq
    by_cases hdc : d = c
    · subst hdc
      rcases hp with hp | ⟨-, hp⟩
      · exact .inl (hp.trans hdq)
      · exact absurd hq (hp q hdq)
    · exact .inr ⟨d, hdc, hdq⟩

theorem Placed.stay (h : Placed m) {k : Core} (hs : Sits (m.setCpu c k) c)
    (hp : k.proc = (m.cpu c).proc ∨
      k.proc = none ∧ ∀ p, (m.cpu c).proc = some p → (m.s.proc p).state ≠ .running) : Placed (m.setCpu c k) :=
  h.move (l := m.lock) (fun _ _ => .rfl) hs hp

section Any

omit [DecidableEq κ]

theorem Placed.lock_ne (h : Placed m) (hc : (m.cpu c).pc.holds = true) (hd : d ≠ c) : m.lock ≠ some d := by
  rw [(h.sits c).lock.1 hc]
  simpa using hd.symm

theorem Placed.others (h : Placed m) (hc : (m.cpu c).pc.holds = true) (hd : d ≠ c) (hq : (m.cpu d).proc = some q) :
    (m.cpu d).pc = .user ∧ (m.s.proc q).state = .running := by
  have hlk : (m.cpu d).pc.holds ≠ true := fun hh => h.lock_ne hc hd ((h.sits d).lock.1 hh)
  have hpr : (m.cpu d).pc.hasProc = true := (h.sits d).proc.2 (by rw [hq]; simp)
  have hpc : (m.cpu d).pc = .user := by
    generalize (m.cpu d).pc = pc at hlk hpr
    cases pc <;> simp_all [CorePc.holds, CorePc.hasProc]
  exact ⟨hpc, ((h.sits d).runs q hq).1 (by rw [hpc]; rfl)⟩

theorem Change.section {s : State} {r : Fin nproc} {n : Proc} (h : Change s a r n) (hp : (s.proc p).state = .running)
    (ha : m.section p a = true) :
    (r ≠ p → (n.state = .running ↔ (s.proc r).state = .running)) ∧ (r = p → Settled n) ∧
      (Settled (s.proc r) → Settled n ∨ r ∈ frees s a) ∧ (Settled n → Settled (s.proc r) ∨ a = .ready r) := by
  cases h with
  | same => exact ⟨fun _ => .rfl, fun hr => by rw [hr]; simp [Settled, hp], .inl, .inl⟩
  | userinit | fail | copy | dispatch => cases ha
  | alloc _ hf =>
    have hu := firstUnused_state hf
    refine ⟨fun _ => by simp [allocated, hu], fun hr => ?_, fun hs => absurd hu hs.1, fun hs => absurd rfl hs.2⟩
    rw [hr, hp] at hu; cases hu
  | ready _ he =>
    exact ⟨fun _ => by simp [he], fun _ => by simp [Settled], fun hs => absurd he hs.2, fun _ => .inr rfl⟩
  | sleep _ chan hr =>
    have hrp : r = p := of_decide_eq_true ha
    exact ⟨fun hn => absurd hrp hn, fun _ => by simp [Settled], fun _ => .inl (by simp [Settled]),
      fun _ => .inl (by simp [Settled, hr])⟩
  | sleepReturn _ hr =>
    exact ⟨fun _ => .rfl, fun _ => by simp [Settled, hr], .inl, .inl⟩
  | wakeup chan _ hs hch =>
    have hw := (woken_kept (minRunnable s) (s.proc r)).2.2.2.2.2.2
    exact ⟨fun _ => by simp [hw, hs], fun _ => by simp [Settled, hw], fun _ => .inl (by simp [Settled, hw]),
      fun _ => .inl (by simp [Settled, hs])⟩
  | kill pid _ hf =>
    by_cases hs : (s.proc r).state = .sleeping
    · exact ⟨fun _ => by simp [killedProc, hs], fun _ => by simp [Settled, killedProc, hs],
        fun _ => .inl (by simp [Settled, killedProc, hs]), fun _ => .inl (by simp [Settled, hs])⟩
    · have hk : (killedProc (s.proc r)).state = (s.proc r).state := if_neg hs
      unfold Settled
      rw [hk]
      exact ⟨fun _ => .rfl, fun hr => by rw [hr, hp]; decide, .inl, .inl⟩
  | setnice => exact ⟨fun _ => .rfl, fun hr => by simp [Settled, hr, hp], .inl, .inl⟩
  | exit c _ _ hr hi he =>
    have hcp : c = p := of_decide_eq_true ha
    subst hcp
    by_cases hrc : r = c
    · have hz := he.self hrc
      exact ⟨fun hn => absurd hrc hn, fun _ => by simp [Settled, hz], fun _ => .inl (by simp [Settled, hz]),
        fun _ => .inl (by simp [Settled, hrc, hr])⟩
    · by_cases hw : roused s c slots (s.proc r)
      · have hst := he.woken hrc hw
        exact ⟨fun _ => by simp [hst, hw.1], fun h => absurd h hrc, fun _ => .inl (by simp [Settled, hst]),
          fun _ => .inl (by simp [Settled, hw.1])⟩
      · have hst := he.other hrc hw
        unfold Settled
        rw [hst]
        exact ⟨fun _ => .rfl, fun h => absurd h hrc, .inl, .inl⟩
  | wait c _ hr hz =>
    have hzs := (zombieChild_some hz).2
    refine ⟨fun _ => by simp [hzs], fun hr => ?_, fun _ => .inr (by simp [frees, hz]), fun hs => absurd rfl hs.1⟩
    rw [hr, hp] at hzs; cases hzs
  | tick _ hr =>
    have hrp : r = p := of_decide_eq_true ha
    have hs : Settled (ticked (s.proc r)) := by
      rcases (ticked_runs hr).1 with ht | ht <;> simp [Settled, ht]
    exact ⟨fun hn => absurd hrp hn, fun _ => hs, fun _ => .inl hs, fun _ => .inl (by simp [Settled, hr])⟩

end Any

theorem Placed.take (h : Placed m) (hc : (m.cpu c).pc = .idle) (hl : m.lock = none) :
    Placed { m.goto c .scan with lock := some c } := by
  obtain ⟨h1, h2, h3, h4, h5, h6⟩ := h.sits c
  refine h.move (fun d hd => ?_) ?_ (.inl rfl)
  · simp [hl, Ne.symm hd]
  · constructor <;> simp_all [Machine.setCpu, CorePc.holds, CorePc.hasProc, CorePc.onStack, CorePc.loaded]

theorem Placed.drop (h : Placed m) (hc : (m.cpu c).pc = .scan) : Placed { m.goto c .idle with lock := none } := by
  obtain ⟨h1, h2, h3, h4, h5, h6⟩ := h.sits c
  refine h.move (fun d hd => ?_) ?_ (.inl rfl)
  · simp [h.lock_ne (c := c) (by rw [hc]; rfl) hd]
  · constructor <;> simp_all [Machine.setCpu, CorePc.holds, CorePc.hasProc, CorePc.onStack, CorePc.loaded]

theorem Placed.swtch (h : Placed m) (hc : (m.cpu c).pc = .readied) :
    Placed (m.setCpu c { m.cpu c with pc := .locked, stack := (m.cpu c).proc.bind m.kstack }) := by
  obtain ⟨h1, h2, h3, h4, h5, h6⟩ := h.sits c
  refine h.stay ?_ (.inl rfl)
  constructor <;> simp_all [Machine.setCpu, CorePc.holds, CorePc.hasProc, CorePc.runs, CorePc.onStack, CorePc.loaded]

theorem Placed.acquire (h : Placed m) (hc : (m.cpu c).pc = .user) (hl : m.lock = none) :
    Placed { m.goto c .locked with lock := some c } := by
  obtain ⟨h1, h2, h3, h4, h5, h6⟩ := h.sits c
  refine h.move (fun d hd => ?_) ?_ (.inl rfl)
  · simp [hl, Ne.symm hd]
  · constructor <;> simp_all [Machine.setCpu, CorePc.holds, CorePc.hasProc, CorePc.runs, CorePc.onStack, CorePc.loaded]

theorem Placed.release (h : Placed m) (hc : (m.cpu c).pc = .locked) : Placed { m.goto c .user with lock := none } := by
  obtain ⟨h1, h2, h3, h4, h5, h6⟩ := h.sits c
  refine h.move (fun d hd => ?_) ?_ (.inl rfl)
  · simp [h.lock_ne (c := c) (by rw [hc]; rfl) hd]
  · constructor <;> simp_all [Machine.setCpu, CorePc.holds, CorePc.hasProc, CorePc.runs, CorePc.onStack, CorePc.loaded]

theorem Placed.swtchBack (h : Placed m) (hc : (m.cpu c).pc = .leaving) :
    Placed (m.setCpu c { m.cpu c with pc := .switched, stack := none }) := by
  obtain ⟨h1, h2, h3, h4, h5, h6⟩ := h.sits c
  refine h.stay ?_ (.inl rfl)
  constructor <;> simp_all [Machine.setCpu, CorePc.holds, CorePc.hasProc, CorePc.runs, CorePc.onStack, CorePc.loaded]

theorem Placed.switchkvm (h : Placed m) (hc : (m.cpu c).pc = .switched) :
    Placed (m.setCpu c { m.cpu c with pc := .unloaded, cr3 := none }) := by
  obtain ⟨h1, h2, h3, h4, h5, h6⟩ := h.sits c
  refine h.stay ?_ (.inl rfl)
  constructor <;> simp_all [Machine.setCpu, CorePc.holds, CorePc.hasProc, CorePc.runs, CorePc.onStack, CorePc.loaded]

theorem Placed.clear (h : Placed m) (hc : (m.cpu c).pc = .unloaded) :
    Placed (m.setCpu c { m.cpu c with pc := .scan, proc := none }) := by
  obtain ⟨h1, h2, h3, h4, h5, h6⟩ := h.sits c
  refine h.stay ?_ (.inr ⟨rfl, fun p hp hr => ?_⟩)
  · constructor <;> simp_all [Machine.setCpu, CorePc.holds, CorePc.hasProc, CorePc.onStack, CorePc.loaded]
  · have := (h3 p hp).2 hr
    rw [hc] at this; cases this

/-! ## Steps of the table -/

section Any

omit [DecidableEq κ]

theorem Placed.fork (h : Placed m) {t : State} {ks pd : Fin nproc → Option Nat} {r : Fin nproc}
    (hr : ¬ Settled (m.s.proc r)) (hn : ¬ Settled (t.proc r)) (ht : ∀ q, q ≠ r → t.proc q = m.s.proc q)
    (hk : ∀ q, q ≠ r → ks q = m.kstack q ∧ pd q = m.pgdir q) (hks : Distinct ks) (hpd : Distinct pd) :
    Placed { m with s := t, kstack := ks, pgdir := pd } := by
  have hne : ∀ d q, (m.cpu d).proc = some q → q ≠ r := fun d q hq he => hr (he ▸ (h.sits d).live q hq)
  refine ⟨fun d => ?_, h.one, fun q hq => ?_, fun q hq => ?_, hks, hpd⟩
  · obtain ⟨h1, h2, h3, h4, h5, h6⟩ := h.sits d
    cases hp : (m.cpu d).proc with
    | none => constructor <;> simp_all
    | some q =>
      have hq := hne d q hp
      constructor <;> simp_all
  · by_cases hqr : q = r
    · rw [hqr] at hq
      exact absurd (by rw [Settled, hq]; decide) hn
    · exact h.owner q (ht q hqr ▸ hq)
  · by_cases hqr : q = r
    · exact absurd (hqr ▸ hq) hn
    · show ks q ≠ none ∧ pd q ≠ none
      rw [(hk q hqr).1, (hk q hqr).2]
      exact h.frames q (ht q hqr ▸ hq)

theorem embryo_unsettled {x : Proc} (hx : x.state = .embryo) : ¬ Settled x := fun h => h.2 hx

theorem Placed.forkStack (h : Placed m) (hr : (m.s.proc p).state = .embryo) {k : Nat} (hk : m.fresh k) :
    Placed { m with kstack := fun q => if q = p then some k else m.kstack q } :=
  h.fork (embryo_unsettled hr) (embryo_unsettled hr) (fun _ _ => rfl) (fun _ hq => ⟨if_neg hq, rfl⟩)
    (h.kstacks.put (fun q => (hk q).1) p) h.pgdirs

theorem Placed.forkSpace (h : Placed m) (hr : (m.s.proc p).state = .embryo) {g : Nat} (hg : m.fresh g) :
    Placed { m with pgdir := fun q => if q = p then some g else m.pgdir q } :=
  h.fork (embryo_unsettled hr) (embryo_unsettled hr) (fun _ _ => rfl) (fun _ hq => ⟨rfl, if_neg hq⟩)
    h.kstacks (h.pgdirs.put (fun q => (hg q).2) p)

theorem Placed.forkStore (h : Placed m) (f : ForkField) :
    Placed { m with s := (Sched.step (.forkCopy p q f) m.s).st } := by
  by_cases he : (m.s.proc p).state = .embryo ∧ (m.s.proc q).state = .running
  · rw [step_forkCopy f he.1 he.2]
    refine h.fork (r := p) (embryo_unsettled he.1) ?_ (fun r hr => if_neg hr) (fun _ _ => ⟨rfl, rfl⟩) h.kstacks h.pgdirs
    rw [setProc_proc, if_pos rfl]
    cases f <;> exact embryo_unsettled he.1
  · rw [step_run, if_neg (by simpa [Act.enabled] using he)]
    exact h

theorem Placed.forkFail (h : Placed m) (hr : (m.s.proc p).state = .embryo) :
    Placed ({ m with s := (Sched.step (.allocFail p) m.s).st }.free [p]) := by
  rw [step_allocFail hr]
  refine h.fork (r := p) (embryo_unsettled hr) ?_ (fun r hr => if_neg hr)
    (fun q hq => ⟨if_neg (by simpa using hq), if_neg (by simpa using hq)⟩) (h.kstacks.free _) (h.pgdirs.free _)
  rw [setProc_proc, if_pos rfl]
  exact fun hs => hs.1 rfl

theorem Placed.userinit (h : Placed m) (hi : m.s.initproc = none) (hf : firstUnused m.s = some p) {k g : Nat}
    (hk : m.fresh k) (hg : m.fresh g) : Placed { m with
      s := (Sched.step .userinit m.s).st
      kstack := fun q => if q = p then some k else m.kstack q
      pgdir := fun q => if q = p then some g else m.pgdir q } := by
  have hu := firstUnused_state hf
  have hst : ∀ q, ((Sched.step .userinit m.s).st.proc q).state = if q = p then .runnable else (m.s.proc q).state := by
    intro q
    rw [step_userinit hi hf]
    show (if q = p then _ else _ : Proc).state = _
    split <;> rfl
  have hne : ∀ d q, (m.cpu d).proc = some q → q ≠ p := fun d q hq he => (he ▸ (h.sits d).live q hq).1 hu
  refine ⟨fun d => ?_, h.one, fun q hq => h.owner q ?_, fun q hq => ?_, h.kstacks.put (fun q => (hk q).1) p,
    h.pgdirs.put (fun q => (hg q).2) p⟩
  · obtain ⟨h1, h2, h3, h4, h5, h6⟩ := h.sits d
    cases hp : (m.cpu d).proc with
    | none => constructor <;> simp_all
    | some q =>
      have hq := hne d q hp
      constructor <;> simp_all [Settled]
  · rw [hst q] at hq
    split at hq
    · cases hq
    · exact hq
  · by_cases hqp : q = p
    · simp [hqp]
    · have := h.frames q (by rwa [Settled, hst q, if_neg hqp] at hq)
      simpa [hqp] using this

end Any

theorem Placed.dispatch (h : Placed m) (hc : (m.cpu c).pc = .scan) (hp : (m.s.proc p).state = .runnable) :
    Placed ({ m with s := (Sched.step (.dispatch p) m.s).st }.setCpu c
      { pc := .readied, proc := some (schedScan m.s p).1, stack := none, cr3 := m.pgdir (schedScan m.s p).1 }) := by
  have hrun := schedScan_runnable m.s p hp
  have hst : ∀ q, ((Sched.step (.dispatch p) m.s).st.proc q).state =
      if q = (schedScan m.s p).1 then .running else (m.s.proc q).state := by
    intro q
    rw [step_dispatch hp]
    show (if q = _ then _ else _ : Proc).state = _
    split <;> rfl
  generalize (schedScan m.s p).1 = r at *
  have hholds : (m.cpu c).pc.holds = true := by rw [hc]; rfl
  have hnone : (m.cpu c).proc = none := by
    by_contra hn
    have := (h.sits c).proc.2 hn
    rw [hc] at this; cases this
  refine h.step (l := m.lock) (fun _ _ => .rfl) (fun d q hdc hq => ?_) ?_ (fun q hq => ?_) (fun q hq => h.frames q ?_)
    h.kstacks h.pgdirs
  · have hqr := (h.others hholds hdc hq).2
    have hne : q ≠ r := fun he => by rw [he, hrun] at hqr; cases hqr
    refine ⟨fun he => hne (Option.some.inj he).symm, by rw [hst q, if_neg hne], ?_, rfl, rfl⟩
    rw [Settled, hst q, if_neg hne]
    exact (h.sits d).live q hq
  · have hl := (h.sits c).lock.1 hholds
    constructor <;>
      simp_all [Machine.setCpu, CorePc.holds, CorePc.hasProc, CorePc.runs, CorePc.onStack, CorePc.loaded, Settled]
  · rw [hst q] at hq
    split at hq
    · exact .inl (by simp_all)
    · obtain ⟨d, hd⟩ := h.owner q hq
      refine .inr ⟨d, fun hdc => ?_, hd⟩
      rw [hdc, hnone] at hd; cases hd
  · rw [Settled, hst q] at hq
    split at hq
    · rename_i hqr
      rw [hqr, Settled, hrun]; decide
    · exact hq

theorem Placed.body (h : Placed m) (hc : (m.cpu c).pc = .locked) (hp : (m.cpu c).proc = some p)
    (ha : m.section p a = true) : Placed (coreBody c p a m).st := by
  have hholds : (m.cpu c).pc.holds = true := by rw [hc]; rfl
  have hpr : (m.s.proc p).state = .running := ((h.sits c).runs p hp).1 (by rw [hc]; rfl)
  have hch := fun r => (step_change a m.s r).section hpr ha
  have hfree : ∀ r ∈ frees m.s a, (m.s.proc r).state = .zombie ∧ ((Sched.step a m.s).st.proc r).state = .unused := by
    intro r hr
    cases a with
    | wait b =>
      have hb : b = p := of_decide_eq_true ha
      subst hb
      have hz : zombieChild m.s b = some r := by simpa [frees] using hr
      refine ⟨(zombieChild_some hz).2, ?_⟩
      rw [step_wait hpr hz, setProc_proc, if_pos rfl]
    | _ => cases hr
  refine h.step (l := m.lock) (fun _ _ => .rfl) (fun d q hdc hq => ?_) ?_ (fun q hq => ?_) (fun q hq => ?_)
    (h.kstacks.free _) (h.pgdirs.free _)
  · have hqr := (h.others hholds hdc hq).2
    have hqp : q ≠ p := fun he => hdc (h.one d c q hq (he ▸ hp))
    have hnf : q ∉ frees m.s a := fun hf => by rw [(hfree q hf).1] at hqr; cases hqr
    obtain ⟨h1, -, h3, -⟩ := hch q
    refine ⟨fun he => hqp (Option.some.inj (he.symm.trans hp)), h1 hqp, (h3 ((h.sits d).live q hq)).resolve_right hnf,
      if_neg hnf, if_neg hnf⟩
  · have hnf : p ∉ frees m.s a := fun hf => by rw [(hfree p hf).1] at hpr; cases hpr
    have hset := (hch p).2.1 rfl
    obtain ⟨h1, h2, h3, h4, h5, h6⟩ := h.sits c
    by_cases hrun : ((Sched.step a m.s).st.proc p).state = .running <;> constructor <;>
      simp_all [Machine.setCpu, Machine.free, CorePc.holds, CorePc.hasProc, CorePc.runs, CorePc.onStack, CorePc.loaded]
  · by_cases hqp : q = p
    · rw [hqp]; exact .inl hp
    · obtain ⟨d, hd⟩ := h.owner q (((hch q).1 hqp).1 hq)
      refine .inr ⟨d, fun hdc => ?_, hd⟩
      rw [hdc, hp] at hd
      exact hqp (Option.some.inj hd).symm
  · have hnf : q ∉ frees m.s a := fun hf => hq.1 (hfree q hf).2
    show (if q ∈ _ then _ else _ : Option Nat) ≠ none ∧ (if q ∈ _ then _ else _ : Option Nat) ≠ none
    rw [if_neg hnf, if_neg hnf]
    rcases (hch q).2.2.2 hq with hs | hready
    · exact h.frames q hs
    · subst hready
      have : m.kstack q ≠ none ∧ m.pgdir q ≠ none := by simpa [Machine.section] using ha
      exact this

theorem bind_eq {f : Fin nproc → Option Nat} (h : Distinct f) {o : Option (Fin nproc)} {b : Bool} {r : Fin nproc}
    (he : (if b then o.bind f else none) = f r) (hn : f r ≠ none) : b = true ∧ o = some r := by
  cases b with
  | false => exact absurd he.symm hn
  | true =>
    cases o with
    | none => exact absurd he.symm hn
    | some q => exact ⟨rfl, congrArg some (h q r he (fun hq => hn (he.symm.trans hq)))⟩

/-- **The frames that `wait` frees are in use on no CPU.** -/
theorem Placed.freed (h : Placed m) (hc : (m.cpu c).pc = .locked) (hp : (m.cpu c).proc = some p)
    (ha : m.section p a = true) : ∀ e ∈ (coreBody c p a m).tr, e.Idle := by
  intro e he
  obtain ⟨r, hr, rfl⟩ := List.mem_map.1 he
  have hpr : (m.s.proc p).state = .running := ((h.sits c).runs p hp).1 (by rw [hc]; rfl)
  have hz : (m.s.proc r).state = .zombie := by
    cases a with
    | wait b => exact (zombieChild_some (by simpa [frees] using hr)).2
    | _ => cases hr
  -- a zombie is on no CPU while another process holds the lock
  have hoff : ∀ d, (m.cpu d).proc ≠ some r := by
    intro d hd
    by_cases hdc : d = c
    · rw [hdc, hp] at hd
      rw [← Option.some.inj hd, hpr] at hz; cases hz
    · have := (h.others (by rw [hc]; rfl) hdc hd).2
      rw [hz] at this; cases this
  obtain ⟨hk, hg⟩ := h.frames r (by rw [Settled, hz]; decide)
  refine ⟨hz, fun d => ⟨fun hs => hoff d ?_, fun hs => hoff d ?_⟩⟩
  · exact (bind_eq h.kstacks ((h.sits d).stack.symm.trans hs) hk).2
  · exact (bind_eq h.pgdirs ((h.sits d).cr3.symm.trans hs) hg).2

/-! ## Runs -/

def Keeps (o : Outcome Stop (Machine κ) (Freed κ) Unit) : Prop := (∀ e ∈ o.tr, e.Idle) ∧ Placed o.st

section Any

omit [DecidableEq κ]

theorem Placed.when (h : Placed m) {b : Prop} [Decidable b] {x : CoreM κ Unit} (hx : b → Keeps (x m)) :
    Keeps (Prog.when b x m) := by
  by_cases hb : b
  · rw [Prog.when_pos hb]; exact hx hb
  · rw [Prog.when_neg hb]; exact ⟨fun e he => (by cases he), h⟩

theorem Placed.keeps (h : Placed m) : Keeps ⟨.ok (), m, []⟩ := ⟨fun e he => (by cases he), h⟩

end Any

theorem Placed.coreStep (h : Placed m) (x : CoreAct κ) : Keeps (Sched.coreStep x m) := by
  unfold Sched.coreStep
  rw [Prog.get_bind_run]
  cases x with
  | userinit c k g =>
    refine h.when fun hg => ?_
    cases hf : firstUnused m.s with
    | none => exact h.keeps
    | some p => exact (h.userinit hg.2.2.1 hf hg.2.2.2.1 hg.2.2.2.2.1).keeps
  | take c => exact h.when fun hg => (h.take hg.1 hg.2).keeps
  | drop c => exact h.when fun hg => (h.drop hg).keeps
  | dispatch c p =>
    refine h.when fun hg => ?_
    by_cases hk : m.kstack (schedScan m.s p).1 = none
    · rw [if_pos hk]; exact ⟨fun e he => (by cases he), h⟩
    · by_cases hd : m.pgdir (schedScan m.s p).1 = none
      · rw [if_neg hk, if_pos hd]; exact ⟨fun e he => (by cases he), h⟩
      · rw [if_neg hk, if_neg hd]; exact (h.dispatch hg.1 hg.2).keeps
  | swtch c => exact h.when fun hg => (h.swtch hg).keeps
  | acquire c => exact h.when fun hg => (h.acquire hg.1 hg.2).keeps
  | release c => exact h.when fun hg => (h.release hg).keeps
  | body c a =>
    dsimp only
    cases hp : (m.cpu c).proc with
    | none => exact h.keeps
    | some p => exact h.when fun hg => ⟨h.freed hg.1 hp hg.2, h.body hg.1 hp hg.2⟩
  | forkStack c np k => exact h.when fun hg => (h.forkStack hg.2.1 hg.2.2.2).keeps
  | forkSpace c np g => exact h.when fun hg => (h.forkSpace hg.2.1 hg.2.2.2).keeps
  | forkStore c np f =>
    dsimp only
    cases (m.cpu c).proc with
    | none => exact h.keeps
    | some p => exact h.when fun _ => (h.forkStore f).keeps
  | forkFail c np => exact h.when fun hg => (h.forkFail hg.2).keeps
  | swtchBack c => exact h.when fun hg => (h.swtchBack hg).keeps
  | switchkvm c => exact h.when fun hg => (h.switchkvm hg).keeps
  | clear c => exact h.when fun hg => (h.clear hg).keeps

omit [DecidableEq κ] in
theorem coreBoot_placed : Placed (coreBoot : Machine κ) where
  sits c := by constructor <;> simp [coreBoot, CorePc.holds, CorePc.hasProc, CorePc.onStack, CorePc.loaded]
  one _ _ _ h := by cases h
  owner _ h := by cases h
  frames _ h := absurd rfl h.1
  kstacks _ _ _ h := absurd rfl h
  pgdirs _ _ _ h := absurd rfl h

theorem coreRun_placed (acts : List (CoreAct κ)) : Keeps (coreRun acts coreBoot) :=
  Prog.forEach_admits (C := fun _ _ => True) (fun x _ h _ => h.coreStep x) acts coreBoot coreBoot_placed
    (Prog.admits_of_forall (fun _ _ => trivial) acts coreBoot)

/-- **A process runs on one CPU, and its stack outlives its last use.**  In every run of any number of CPUs: while
`ptable.lock` is free a process is RUNNING exactly when it is `c->proc` of one CPU, and who is not RUNNING executes on
no CPU; and `wait` frees the stack and the page table of a zombie that no CPU runs on or has loaded. -/
theorem run_cpus (acts : List (CoreAct κ)) :
    ((coreRun acts coreBoot).st.lock = none →
      (∀ p, ((coreRun acts coreBoot).st.s.proc p).state = .running ↔
        ∃! c, ((coreRun acts coreBoot).st.cpu c).proc = some p) ∧
      ∀ c p, (coreRun acts coreBoot).st.kstack p ≠ none →
        ((coreRun acts coreBoot).st.cpu c).stack = (coreRun acts coreBoot).st.kstack p →
        ((coreRun acts coreBoot).st.s.proc p).state = .running) ∧
    ∀ e ∈ (coreRun acts coreBoot).tr, e.Idle := by
  obtain ⟨hR, h⟩ := coreRun_placed acts
  refine ⟨fun hl => ?_, hR⟩
  generalize (coreRun acts coreBoot).st = m at h hl ⊢
  -- with the lock free a CPU that has a process is in it
  have hruns : ∀ c p, (m.cpu c).proc = some p → (m.s.proc p).state = .running := by
    intro c p hp
    have hlk : (m.cpu c).pc.holds ≠ true := fun hh => by
      have := (h.sits c).lock.1 hh
      rw [hl] at this; cases this
    have hpr : (m.cpu c).pc.hasProc = true := (h.sits c).proc.2 (by rw [hp]; simp)
    refine ((h.sits c).runs p hp).1 ?_
    generalize (m.cpu c).pc = pc at hlk hpr
    cases pc <;> simp_all [CorePc.holds, CorePc.hasProc, CorePc.runs]
  refine ⟨fun p => ⟨fun hp => ?_, fun ⟨c, hc, _⟩ => hruns c p hc⟩, fun c p hk hs => hruns c p ?_⟩
  · obtain ⟨c, hc⟩ := h.owner p hp
    exact ⟨c, hc, fun d hd => h.one d c p hd hc⟩
  · exact (bind_eq h.kstacks ((h.sits c).stack.symm.trans hs) hk).2

end Sched
end Xv6
