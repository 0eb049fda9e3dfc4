import Xv6.Lib.Traced
/-!
# Sched.Interrupts — interrupts across spinlocks and context switches (page-replacement)

spinlock.c, with `sched`, `scheduler` and `forkret` of proc.c, on any number of CPUs, with any locks and any processes.
`ncli` and `intena` belong to a CPU, and `sched` keeps `intena` in the frame of the thread that it leaves.  A thread's
steps on its CPU follow each other; between them the other CPUs take theirs, so that an `acquire` spins while another CPU
has the lock, and `release` has cleared `lk->cpu` before it lets go of the lock.
-/
namespace Xv6
namespace Interrupts

open Prog (wpt)

inductive ProcState where
  | unused | embryo | sleeping | runnable | running | zombie
  deriving DecidableEq

structure Spinlock (κ : Type) where
  locked : Bool
  cpu    : Option κ

/-- Where a CPU is in `acquire` and `release`. -/
inductive Pc (L : Type) where
  | out
  | spin (lk : L)       -- before an `xchg`
  | taken (lk : L)      -- before `lk->cpu = mycpu()`
  | cleared (lk : L)    -- before `lk->locked = 0`
  | unlocked            -- before `popcli`
  deriving DecidableEq

def Pc.busy {L : Type} (lk : L) : Pc L → Prop
  | .taken lk' | .cleared lk' => lk' = lk
  | _ => False

/-- `intr` is `FL_IF` of the CPU's flags; `proc` is none on the scheduler's stack. -/
structure Cpu (L P : Type) where
  intr   : Bool
  ncli   : Int
  intena : Bool
  proc   : Option P
  pc     : Pc L

structure Proc where
  state : ProcState
  /-- `intena` in the frame of `sched`, where the thread resumes; none where it starts in `forkret`. -/
  frame : Option Bool
  /-- Whether interrupts were on when the thread took the first of the locks that it has now; none where it has none, or was
  given its first one by the scheduler. -/
  first : Option Bool

structure Machine (κ L P : Type) where
  lock : L → Spinlock κ
  cpu  : κ → Cpu L P
  proc : P → Proc

structure LastRelease (P : Type) where
  proc   : P
  first  : Option Bool
  after  : Bool
  deriving DecidableEq

/-- Interrupts are as they were when the thread took its first lock. -/
def LastRelease.Restored {P : Type} (e : LastRelease P) : Prop := ∀ b, e.first = some b → e.after = b

abbrev Kern (κ L P : Type) := Prog String (Machine κ L P) (LastRelease P)

variable {κ L P : Type}

section Program

variable [DecidableEq κ] [DecidableEq L] [DecidableEq P]

def Machine.setCpu (m : Machine κ L P) (c : κ) (k : Cpu L P) : Machine κ L P := { m with cpu := Function.update m.cpu c k }

def Machine.setLock (m : Machine κ L P) (lk : L) (x : Spinlock κ) : Machine κ L P :=
  { m with lock := Function.update m.lock lk x }

def Machine.setProc (m : Machine κ L P) (p : P) (q : Proc) : Machine κ L P := { m with proc := Function.update m.proc p q }

/-! ## spinlock.c -/

def modifyCpu (c : κ) (f : Cpu L P → Cpu L P) : Kern κ L P Unit := Prog.modify fun m => m.setCpu c (f (m.cpu c))

def readeflags (c : κ) : Kern κ L P Bool := Prog.read fun m => (m.cpu c).intr

def cli (c : κ) : Kern κ L P Unit := modifyCpu c fun k => { k with intr := false }

def sti (c : κ) : Kern κ L P Unit := modifyCpu c fun k => { k with intr := true }

def mycpu (c : κ) : Kern κ L P κ := do
  if ← readeflags c then Prog.stop "mycpu called with interrupts enabled\n" else pure c

def pushcli (c : κ) : Kern κ L P Unit := do
  let eflags ← readeflags c
  cli c
  let i ← mycpu c
  Prog.when ((← Prog.read (·.cpu i)).ncli = 0) (do
    let i ← mycpu c
    modifyCpu i fun k => { k with intena := eflags })
  let i ← mycpu c
  modifyCpu i fun k => { k with ncli := k.ncli + 1 }

def popcli (c : κ) : Kern κ L P Unit := do
  if ← readeflags c then Prog.stop "popcli - interruptible"
  else
    let i ← mycpu c
    modifyCpu i fun k => { k with ncli := k.ncli - 1 }
    if (← Prog.read (·.cpu i)).ncli < 0 then Prog.stop "popcli"
    else
      let i ← mycpu c
      let k ← Prog.read (·.cpu i)
      Prog.when (k.ncli = 0 ∧ k.intena = true) (sti c)

/-- `lock->locked && lock->cpu == mycpu()`. -/
def isMine (c : κ) (lk : L) : Kern κ L P Bool := do
  if (← Prog.read (·.lock lk)).locked then
    let i ← mycpu c
    Prog.read fun m => decide ((m.lock lk).cpu = some i)
  else pure false

def holding (c : κ) (lk : L) : Kern κ L P Bool := do
  pushcli c
  let r ← isMine c lk
  popcli c
  pure r

def goto (c : κ) (pc : Pc L) : Kern κ L P Unit := modifyCpu c fun k => { k with pc := pc }

/-- `acquire` up to its loop. -/
def acquire (c : κ) (lk : L) : Kern κ L P Unit := do
  pushcli c
  if ← holding c lk then Prog.stop "acquire" else goto c (.spin lk)

def xchg (c : κ) (lk : L) : Kern κ L P Unit := do
  let locked ← Prog.read fun m => (m.lock lk).locked
  Prog.modify fun m => m.setLock lk { m.lock lk with locked := true }
  if locked then pure () else goto c (.taken lk)

/-- `lk->cpu = mycpu()`. -/
def record (c : κ) (lk : L) : Kern κ L P Unit := do
  let i ← mycpu c
  Prog.modify fun m => m.setLock lk { m.lock lk with cpu := some i }
  goto c .out

/-- `release` up to `lk->cpu = 0`. -/
def release (c : κ) (lk : L) : Kern κ L P Unit := do
  if ← holding c lk then
    Prog.modify fun m => m.setLock lk { m.lock lk with cpu := none }
    goto c (.cleared lk)
  else Prog.stop "release"

/-- `lk->locked = 0`. -/
def unlock (c : κ) (lk : L) : Kern κ L P Unit := do
  Prog.modify fun m => m.setLock lk { m.lock lk with locked := false }
  goto c .unlocked

/-- The rest of `release`. -/
def unlocked (c : κ) : Kern κ L P Unit := do
  popcli c
  goto c .out

def myproc (c : κ) : Kern κ L P (Option P) := do
  pushcli c
  let i ← mycpu c
  let p ← Prog.read fun m => (m.cpu i).proc
  popcli c
  pure p

/-! ## proc.c -/

/-- `sched` up to `swtch`, after which `scheduler` clears `c->proc`; `ptable` is `ptable.lock`. -/
def sched (ptable : L) (c : κ) : Kern κ L P Unit := do
  let p ← myproc c
  if !(← holding c ptable) then Prog.stop "sched ptable.lock"
  else
    let i ← mycpu c
    if (← Prog.read (·.cpu i)).ncli ≠ 1 then Prog.stop "sched locks"
    else
      match p with
      | none   => Prog.stop "null"
      | some p =>
        if (← Prog.read (·.proc p)).state = .running then Prog.stop "sched running"
        else if ← readeflags c then Prog.stop "sched interruptible"
        else
          let i ← mycpu c
          let intena ← Prog.read fun m => (m.cpu i).intena
          Prog.modify fun m => m.setProc p { m.proc p with frame := some intena }
          modifyCpu c fun k => { k with proc := none }

/-- The rest of `sched`, or the start of `forkret`. -/
def resume (c : κ) (p : P) : Kern κ L P Unit := do
  match (← Prog.read (·.proc p)).frame with
  | some intena =>
    let i ← mycpu c
    modifyCpu i fun k => { k with intena := intena }
  | none => pure ()

/-- `scheduler` at a process that is RUNNABLE; `switchuvm` is a `pushcli` and a `popcli`. -/
def dispatch (c : κ) (p : P) : Kern κ L P Unit := do
  modifyCpu c fun k => { k with proc := some p }
  pushcli c
  popcli c
  Prog.modify fun m => m.setProc p { m.proc p with state := .running }
  resume c p

/-! ## Steps -/

inductive Act (κ L P : Type) where
  | acquire (c : κ) (lk : L)
  | xchg (c : κ) (lk : L)
  | record (c : κ) (lk : L)
  | release (c : κ) (lk : L)
  | unlock (c : κ) (lk : L)
  | unlocked (c : κ)
  | myproc (c : κ)
  /-- `sti`, `cli`, the entry of a trap or the return from one, at a CPU without locks. -/
  | flags (c : κ) (intr : Bool)
  /-- `yield`, `sleep` and `exit` under `ptable.lock`. -/
  | sched (c : κ) (p : P) (state : ProcState)
  | dispatch (c : κ) (p : P)
  /-- `allocproc` and `fork`: the context leads to `forkret`. -/
  | allocproc (c : κ) (p : P)
  /-- `wakeup`, `kill`, `wait` and `fork` under `ptable.lock`. -/
  | change (c : κ) (p : P) (state : ProcState)

variable [Fintype L]

def held (l : L → Spinlock κ) (c : κ) : Finset L := Finset.univ.filter fun lk => (l lk).cpu = some c

/-- The CPU is neither in `acquire` nor in `release`, and its locks are `s`. -/
def Machine.idle (m : Machine κ L P) (c : κ) (s : Finset L) : Prop := (m.cpu c).pc = .out ∧ held m.lock c = s

instance (m : Machine κ L P) (c : κ) (s : Finset L) : Decidable (m.idle c s) := inferInstanceAs (Decidable (_ ∧ _))

/-- `acquire` of the thread's first lock. -/
def noteFirst (c : κ) : Kern κ L P Unit := Prog.modify fun m =>
  match (m.cpu c).proc with
  | none   => m
  | some p => if held m.lock c = ∅ then m.setProc p { m.proc p with first := some (m.cpu c).intr } else m

/-- `release` of its last one. -/
def noteLast (c : κ) : Kern κ L P Unit := do
  let m ← Prog.get
  match (m.cpu c).proc with
  | none   => pure ()
  | some p => Prog.when (held m.lock c = ∅) (do
    Prog.emit ⟨p, (m.proc p).first, (m.cpu c).intr⟩
    Prog.modify fun m => m.setProc p { m.proc p with first := none })

def step (ptable : L) (a : Act κ L P) : Kern κ L P Unit := do
  let m ← Prog.get
  match a with
  | .acquire c lk => Prog.when ((m.cpu c).pc = .out ∧ lk ∉ held m.lock c) (do noteFirst c; acquire c lk)
  | .xchg c lk => Prog.when ((m.cpu c).pc = .spin lk) (xchg c lk)
  | .record c lk => Prog.when ((m.cpu c).pc = .taken lk) (record c lk)
  | .release c lk => Prog.when ((m.cpu c).pc = .out ∧ lk ∈ held m.lock c) (release c lk)
  | .unlock c lk => Prog.when ((m.cpu c).pc = .cleared lk) (unlock c lk)
  | .unlocked c => Prog.when ((m.cpu c).pc = .unlocked) (do unlocked c; noteLast c)
  | .myproc c => Prog.when ((m.cpu c).pc = .out) (do let _ ← myproc c)
  | .flags c intr => Prog.when (m.idle c ∅) (modifyCpu c fun k => { k with intr := intr })
  | .sched c p state =>
    Prog.when (m.idle c {ptable} ∧ (m.cpu c).proc = some p ∧ state ≠ .running) (do
      Prog.modify fun m => m.setProc p { m.proc p with state := state }
      sched ptable c)
  | .dispatch c p =>
    Prog.when (m.idle c {ptable} ∧ (m.cpu c).proc = none ∧ (m.proc p).state = .runnable) (dispatch c p)
  | .allocproc c p =>
    Prog.when ((m.cpu c).pc = .out ∧ ptable ∈ held m.lock c ∧ (m.proc p).state = .unused)
      (Prog.modify fun m => m.setProc p ⟨.embryo, none, none⟩)
  | .change c p state =>
    Prog.when ((m.cpu c).pc = .out ∧ ptable ∈ held m.lock c ∧ (m.proc p).state ≠ .running ∧ state ≠ .running)
      (Prog.modify fun m => m.setProc p { m.proc p with state := state })

def run (ptable : L) (acts : List (Act κ L P)) : Kern κ L P Unit := Prog.forEach acts (step ptable)

/-- Every CPU on the scheduler's stack, no lock taken, interrupts off. -/
def boot : Machine κ L P :=
  ⟨fun _ => ⟨false, none⟩, fun _ => ⟨false, 0, false, none, .out⟩, fun _ => ⟨.unused, none, none⟩⟩

end Program

variable {m : Machine κ L P} {c d : κ} {lk : L} {p q : P} {k : Cpu L P} {ptable : L}

/-! ## The runs of the functions -/

section Runs

variable [DecidableEq κ]

@[simp] theorem setCpu_lock : (m.setCpu c k).lock = m.lock := rfl
@[simp] theorem setCpu_proc : (m.setCpu c k).proc = m.proc := rfl
@[simp] theorem setCpu_self : (m.setCpu c k).cpu c = k := Function.update_self ..
@[simp] theorem setCpu_cpu : (m.setCpu c k).cpu = Function.update m.cpu c k := rfl

@[simp] theorem setCpu_setCpu (k k' : Cpu L P) : (m.setCpu c k).setCpu c k' = m.setCpu c k' := by simp [Machine.setCpu]

@[simp] theorem setCpu_eta : m.setCpu c (m.cpu c) = m := by simp [Machine.setCpu]

/-- A CPU after `pushcli`. -/
def pushed (k : Cpu L P) : Cpu L P :=
  { k with intr := false, intena := if k.ncli = 0 then k.intr else k.intena, ncli := k.ncli + 1 }

/-- A CPU after `popcli`. -/
def popped (k : Cpu L P) : Cpu L P := { k with intr := decide (k.ncli = 1) && k.intena, ncli := k.ncli - 1 }

/-- A CPU after `pushcli` and `popcli`. -/
def touched (k : Cpu L P) : Cpu L P := { k with intena := if k.ncli = 0 then k.intr else k.intena }

/-- Interrupts are off wherever `ncli` is positive. -/
def Cpu.Off (k : Cpu L P) : Prop := 0 ≤ k.ncli ∧ (0 < k.ncli → k.intr = false)

theorem popped_pushed (h : k.Off) : popped (pushed k) = touched k := by
  obtain ⟨h0, hoff⟩ := h
  unfold popped pushed touched
  by_cases hn : k.ncli = 0
  · simp [hn]
  · simp [hn, hoff (by omega)]

theorem touched_eq (hn : 0 < k.ncli) : touched k = k := by
  unfold touched
  rw [if_neg (by omega)]

omit [DecidableEq κ] in
theorem mycpu_run (h : (m.cpu c).intr = false) : mycpu c m = ⟨.ok c, m, []⟩ := by
  simp [mycpu, readeflags, h]

theorem pushcli_run (c : κ) (m : Machine κ L P) : pushcli c m = ⟨.ok (), m.setCpu c (pushed (m.cpu c)), []⟩ := by
  unfold pushcli readeflags cli modifyCpu
  rw [Prog.read_bind_run, Prog.modify_bind_run, Prog.bind_run_nil (mycpu_run (by simp)), Prog.read_bind_run]
  by_cases hn : (m.cpu c).ncli = 0
  · simp [Prog.when, hn, Prog.bind_run, mycpu, readeflags, pushed]
  · simp [Prog.when, hn, Prog.bind_run, mycpu, readeflags, pushed]

theorem popcli_run (hi : (m.cpu c).intr = false) (hn : 0 < (m.cpu c).ncli) :
    popcli c m = ⟨.ok (), m.setCpu c (popped (m.cpu c)), []⟩ := by
  have h0 : ¬ (m.cpu c).ncli - 1 < 0 := by omega
  unfold popcli readeflags modifyCpu sti modifyCpu
  rw [Prog.read_bind_run, hi]
  simp only [Bool.false_eq_true, if_false]
  rw [Prog.bind_run_nil (mycpu_run hi), Prog.modify_bind_run, Prog.read_bind_run]
  simp only [setCpu_self, h0, if_false]
  rw [Prog.bind_run_nil (mycpu_run (by simp [hi])), Prog.read_bind_run]
  have h1 : (m.cpu c).ncli - 1 = 0 ↔ (m.cpu c).ncli = 1 := by omega
  by_cases hone : (m.cpu c).ncli = 1 <;> cases hint : (m.cpu c).intena <;> simp [Prog.when, h1, hone, hint, popped, hi]

theorem isMine_run (hi : (m.cpu c).intr = false) : isMine c lk m =
    ⟨.ok ((m.lock lk).locked && decide ((m.lock lk).cpu = some c)), m, []⟩ := by
  unfold isMine
  rw [Prog.read_bind_run]
  cases (m.lock lk).locked with
  | false => simp
  | true => simp [Prog.bind_run_nil (mycpu_run hi)]

theorem holding_run (hi : (m.cpu c).intr = false) (hn : 0 < (m.cpu c).ncli) : holding c lk m =
    ⟨.ok ((m.lock lk).locked && decide ((m.lock lk).cpu = some c)), m, []⟩ := by
  have hpop := popcli_run (m := m.setCpu c (pushed (m.cpu c))) (c := c) (by simp [pushed]) (by simp [pushed]; omega)
  rw [setCpu_self, popped_pushed ⟨by omega, fun _ => hi⟩, touched_eq hn, setCpu_setCpu, setCpu_eta] at hpop
  unfold holding
  rw [Prog.bind_run_nil (pushcli_run c m), Prog.bind_run_nil (isMine_run (by simp [pushed])), Prog.bind_run_nil hpop,
    Prog.pure_run, setCpu_lock]

theorem myproc_run (hoff : (m.cpu c).Off) : myproc c m = ⟨.ok (m.cpu c).proc, m.setCpu c (touched (m.cpu c)), []⟩ := by
  have hpop := popcli_run (m := m.setCpu c (pushed (m.cpu c))) (c := c) (by simp [pushed])
    (by have := hoff.1; simp [pushed]; omega)
  rw [setCpu_self, popped_pushed hoff, setCpu_setCpu] at hpop
  have hcpu : mycpu c (m.setCpu c (pushed (m.cpu c))) = ⟨.ok c, _, []⟩ := mycpu_run (by simp [pushed])
  unfold myproc
  rw [Prog.bind_run_nil (pushcli_run c m), Prog.bind_run_nil hcpu, Prog.read_bind_run, Prog.bind_run_nil hpop]
  simp [pushed]

theorem acquire_run (h0 : 0 ≤ (m.cpu c).ncli) (hl : (m.lock lk).cpu ≠ some c) :
    acquire c lk m = ⟨.ok (), m.setCpu c { pushed (m.cpu c) with pc := .spin lk }, []⟩ := by
  have hhold : holding c lk (m.setCpu c (pushed (m.cpu c))) = _ := holding_run (by simp [pushed]) (by simp [pushed]; omega)
  unfold acquire goto modifyCpu
  rw [Prog.bind_run_nil (pushcli_run c m), Prog.bind_run_nil hhold]
  simp [hl]

theorem unlocked_run (hi : (m.cpu c).intr = false) (hn : 0 < (m.cpu c).ncli) :
    unlocked c m = ⟨.ok (), m.setCpu c { popped (m.cpu c) with pc := .out }, []⟩ := by
  unfold unlocked goto modifyCpu
  rw [Prog.bind_run_nil (popcli_run hi hn)]
  simp

theorem resume_run (hi : (m.cpu c).intr = false) : resume c p m =
    ⟨.ok (), m.setCpu c { m.cpu c with intena := (m.proc p).frame.getD (m.cpu c).intena }, []⟩ := by
  unfold resume modifyCpu
  rw [Prog.read_bind_run]
  cases (m.proc p).frame with
  | none => exact congrArg (Outcome.mk (.ok ()) · []) setCpu_eta.symm
  | some b => simp [Prog.bind_run_nil (mycpu_run hi)]

section Locks

variable [DecidableEq L]

theorem xchg_run (c : κ) (lk : L) (m : Machine κ L P) : xchg c lk m =
    ⟨.ok (), if (m.lock lk).locked then m else
      (m.setLock lk { m.lock lk with locked := true }).setCpu c { m.cpu c with pc := .taken lk }, []⟩ := by
  have heta : (m.lock lk).locked = true → m.setLock lk { m.lock lk with locked := true } = m := by
    intro hl
    have hlk : { m.lock lk with locked := true } = m.lock lk := by rw [← hl]
    rw [Machine.setLock, hlk, Function.update_eq_self]
  unfold xchg goto modifyCpu
  rw [Prog.read_bind_run, Prog.modify_bind_run]
  by_cases hl : (m.lock lk).locked = true
  · simp [hl, heta]
  · simp [hl, Machine.setLock]

theorem record_run (hi : (m.cpu c).intr = false) : record c lk m =
    ⟨.ok (), (m.setLock lk { m.lock lk with cpu := some c }).setCpu c { m.cpu c with pc := .out }, []⟩ := by
  unfold record goto modifyCpu
  rw [Prog.bind_run_nil (mycpu_run hi)]
  simp [Machine.setLock]

theorem release_run (hi : (m.cpu c).intr = false) (hn : 0 < (m.cpu c).ncli) (hl : (m.lock lk).locked = true)
    (hc : (m.lock lk).cpu = some c) : release c lk m =
    ⟨.ok (), (m.setLock lk { m.lock lk with cpu := none }).setCpu c { m.cpu c with pc := .cleared lk }, []⟩ := by
  unfold release goto modifyCpu
  rw [Prog.bind_run_nil (holding_run hi hn)]
  simp [hl, hc, Machine.setLock]

theorem unlock_run (c : κ) (lk : L) (m : Machine κ L P) : unlock c lk m =
    ⟨.ok (), (m.setLock lk { m.lock lk with locked := false }).setCpu c { m.cpu c with pc := .unlocked }, []⟩ := by
  simp [unlock, goto, modifyCpu, Machine.setLock]

end Locks

section Procs

variable [DecidableEq P]

/-- **None of the panics of `sched`** with `ptable.lock` as the only lock. -/
theorem sched_run (hi : (m.cpu c).intr = false) (hn : (m.cpu c).ncli = 1) (hl : (m.lock ptable).locked = true)
    (hc : (m.lock ptable).cpu = some c) (hp : (m.cpu c).proc = some p) (hs : (m.proc p).state ≠ .running) :
    sched ptable c m = ⟨.ok (), (m.setProc p { m.proc p with frame := some (m.cpu c).intena }).setCpu c
      { m.cpu c with proc := none }, []⟩ := by
  have hmy := myproc_run (m := m) (c := c) ⟨by omega, fun _ => hi⟩
  rw [touched_eq (by omega), setCpu_eta] at hmy
  unfold sched readeflags modifyCpu
  rw [Prog.bind_run_nil hmy, Prog.bind_run_nil (holding_run hi (by omega)), hl, hc]
  simp [Prog.bind_run_nil (mycpu_run hi), hn, hp, hs, hi, Machine.setProc]

theorem dispatch_run (hi : (m.cpu c).intr = false) (hn : 0 < (m.cpu c).ncli) : dispatch c p m =
    ⟨.ok (), (m.setProc p { m.proc p with state := .running }).setCpu c
      { m.cpu c with proc := some p, intena := (m.proc p).frame.getD (m.cpu c).intena }, []⟩ := by
  have hpop := popcli_run (c := c) (m := m.setCpu c (pushed { m.cpu c with proc := some p })) (by simp [pushed])
    (by simp [pushed]; omega)
  rw [setCpu_self, popped_pushed (k := { m.cpu c with proc := some p }) ⟨hn.le, fun _ => hi⟩,
    touched_eq (k := { m.cpu c with proc := some p }) hn, setCpu_setCpu] at hpop
  have hpush := pushcli_run c (m.setCpu c { m.cpu c with proc := some p })
  rw [setCpu_self, setCpu_setCpu] at hpush
  unfold dispatch modifyCpu
  rw [Prog.modify_bind_run, Prog.bind_run_nil hpush, Prog.bind_run_nil hpop, Prog.modify_bind_run,
    resume_run (by simp [Machine.setProc, hi])]
  simp [Machine.setProc, Machine.setCpu]

end Procs
end Runs

/-! ## The invariant -/

section Invariant

variable [DecidableEq κ] [DecidableEq L] [Fintype L] {l : L → Spinlock κ} {u : κ → Cpu L P} {pr : P → Proc}

/-- `ncli` counts the locks with the CPU's name on them, and the one that it is about to take or to let go of. -/
structure Locks (l : L → Spinlock κ) (u : κ → Cpu L P) : Prop where
  count : ∀ c, (u c).ncli = (held l c).card + if (u c).pc = .out then 0 else 1
  off   : ∀ c, 0 < (u c).ncli → (u c).intr = false
  owned : ∀ c lk, (l lk).cpu = some c → (l lk).locked = true
  busy  : ∀ c lk, (u c).pc.busy lk → (l lk).locked = true ∧ (l lk).cpu = none
  lone  : ∀ c d lk, (u c).pc.busy lk → (u d).pc.busy lk → c = d

/-- A thread with locks has the state of interrupts at its first one in `intena` of its CPU, or in the frame of `sched`. -/
structure Threads (u : κ → Cpu L P) (pr : P → Proc) : Prop where
  runs : ∀ c p, (u c).proc = some p → (pr p).state = .running
  one  : ∀ c d p, (u c).proc = some p → (u d).proc = some p → c = d
  on   : ∀ c p b, (u c).proc = some p → (pr p).first = some b → (u c).intena = b ∧ 0 < (u c).ncli
  away : ∀ p b, (pr p).state ≠ .running → (pr p).first = some b → (pr p).frame = some b

structure Inv (m : Machine κ L P) : Prop where
  locks   : Locks m.lock m.cpu
  threads : Threads m.cpu m.proc

omit [DecidableEq L] in
@[simp] theorem mem_held : lk ∈ held l c ↔ (l lk).cpu = some c := by simp [held]

theorem held_update (x : Spinlock κ) : held (Function.update l lk x) d =
    if x.cpu = some d then insert lk (held l d) else (held l d).erase lk := by
  ext lk'
  by_cases h : lk' = lk
  · subst h
    by_cases hx : x.cpu = some d <;> simp [hx]
  · by_cases hx : x.cpu = some d <;> simp [hx, h]

theorem Locks.nonneg (h : Locks l u) (c : κ) : (u c).Off := ⟨by rw [h.count]; split <;> omega, h.off c⟩

theorem Locks.pos (h : Locks l u) (hc : lk ∈ held l c ∨ (u c).pc ≠ .out) : 0 < (u c).ncli := by
  rw [h.count]
  rcases hc with hc | hc
  · have := Finset.card_pos.2 ⟨lk, hc⟩
    split <;> omega
  · rw [if_neg hc]
    omega

theorem Locks.intr (h : Locks l u) (hc : lk ∈ held l c ∨ (u c).pc ≠ .out) : (u c).intr = false := h.off c (h.pos hc)

theorem Locks.cpu (h : Locks l u) (hn : k.ncli = (held l c).card + if k.pc = .out then 0 else 1)
    (hoff : 0 < k.ncli → k.intr = false) (hb : ∀ lk, k.pc.busy lk → (u c).pc.busy lk) : Locks l (Function.update u c k) := by
  have hbusy : ∀ d lk, (Function.update u c k d).pc.busy lk → (u d).pc.busy lk := by
    intro d lk
    by_cases hd : d = c
    · subst hd
      simpa using hb lk
    · simp [hd]
  refine ⟨fun d => ?_, fun d => ?_, h.owned, fun d lk hd => h.busy d lk (hbusy d lk hd),
    fun d e lk hd he => h.lone d e lk (hbusy d lk hd) (hbusy e lk he)⟩
  · by_cases hd : d = c
    · subst hd
      simpa using hn
    · simpa [hd] using h.count d
  · by_cases hd : d = c
    · subst hd
      simpa using hoff
    · simpa [hd] using h.off d

theorem Locks.lock (h : Locks l u) {x : Spinlock κ} (hold : ∀ d, d ≠ c → (l lk).cpu ≠ some d)
    (hnew : ∀ d, x.cpu = some d → d = c ∧ x.locked = true) (hfree : ∀ d, d ≠ c → ¬ (u d).pc.busy lk)
    (hpc : ∀ lk', k.pc.busy lk' → lk' = lk ∧ x.locked = true ∧ x.cpu = none)
    (hn : k.ncli = (held (Function.update l lk x) c).card + if k.pc = .out then 0 else 1)
    (hoff : 0 < k.ncli → k.intr = false) : Locks (Function.update l lk x) (Function.update u c k) := by
  have hother : ∀ d, d ≠ c → held (Function.update l lk x) d = held l d := by
    intro d hd
    have hx : x.cpu ≠ some d := fun he => hd (hnew d he).1
    rw [held_update, if_neg hx, Finset.erase_eq_of_notMem (by simpa using hold d hd)]
  refine ⟨fun d => ?_, fun d => ?_, fun d lk' hd => ?_, fun d lk' hd => ?_, fun d e lk' hd he => ?_⟩
  · by_cases hd : d = c
    · subst hd
      simpa using hn
    · simpa [hd, hother d hd] using h.count d
  · by_cases hd : d = c
    · subst hd
      simpa using hoff
    · simpa [hd] using h.off d
  · by_cases hl : lk' = lk
    · subst hl
      simp only [Function.update_self] at hd ⊢
      exact (hnew d hd).2
    · simp only [Function.update_of_ne hl] at hd ⊢
      exact h.owned d lk' hd
  · by_cases hdc : d = c
    · subst hdc
      rw [Function.update_self] at hd
      obtain ⟨rfl, hx⟩ := hpc lk' hd
      simpa using hx
    · rw [Function.update_of_ne hdc] at hd
      have hl : lk' ≠ lk := by
        rintro rfl
        exact hfree d hdc hd
      rw [Function.update_of_ne hl]
      exact h.busy d lk' hd
  · by_cases hdc : d = c <;> by_cases hec : e = c
    · rw [hdc, hec]
    · rw [hdc, Function.update_self] at hd
      rw [Function.update_of_ne hec] at he
      obtain ⟨rfl, -⟩ := hpc lk' hd
      exact absurd he (hfree e hec)
    · rw [hec, Function.update_self] at he
      rw [Function.update_of_ne hdc] at hd
      obtain ⟨rfl, -⟩ := hpc lk' he
      exact absurd hd (hfree d hdc)
    · rw [Function.update_of_ne hdc] at hd
      rw [Function.update_of_ne hec] at he
      exact h.lone d e lk' hd he

omit [DecidableEq L] [Fintype L] in
theorem Threads.cpu (h : Threads u pr) (hp : k.proc = (u c).proc)
    (hon : ∀ p b, (u c).proc = some p → (pr p).first = some b → k.intena = b ∧ 0 < k.ncli) :
    Threads (Function.update u c k) pr := by
  have hproc : ∀ d, (Function.update u c k d).proc = (u d).proc := by
    intro d
    by_cases hd : d = c
    · subst hd
      simpa using hp
    · simp [hd]
  refine ⟨fun d p => ?_, fun d e p => ?_, fun d p b => ?_, h.away⟩
  · rw [hproc]
    exact h.runs d p
  · rw [hproc, hproc]
    exact h.one d e p
  · rw [hproc]
    by_cases hd : d = c
    · subst hd
      simpa using hon p b
    · simpa [hd] using h.on d p b

section Procs

variable [DecidableEq P]

omit [DecidableEq κ] [DecidableEq L] [Fintype L] in
theorem Threads.first (h : Threads u pr) (hp : (u c).proc = some p) {f : Option Bool}
    (hon : ∀ b, f = some b → (u c).intena = b ∧ 0 < (u c).ncli) :
    Threads u (Function.update pr p { pr p with first := f }) := by
  have hrun := h.runs c p hp
  refine ⟨fun d q hq => ?_, h.one, fun d q b hq => ?_, fun q b hq => ?_⟩
  · by_cases hqp : q = p
    · simpa [hqp] using hrun
    · simpa [hqp] using h.runs d q hq
  · by_cases hqp : q = p
    · subst hqp
      rw [Function.update_self, h.one d c q hq hp]
      exact hon b
    · rw [Function.update_of_ne hqp]
      exact h.on d q b hq
  · by_cases hqp : q = p
    · subst hqp
      simp [hrun] at hq
    · rw [Function.update_of_ne hqp] at hq ⊢
      exact h.away q b hq

omit [DecidableEq κ] [DecidableEq L] [Fintype L] in
theorem Threads.proc (h : Threads u pr) (hp : (pr p).state ≠ .running) {x : Proc}
    (haway : ∀ b, x.first = some b → x.frame = some b) : Threads u (Function.update pr p x) := by
  have hne : ∀ d q, (u d).proc = some q → q ≠ p := by
    rintro d q hq rfl
    exact hp (h.runs d q hq)
  refine ⟨fun d q hq => ?_, h.one, fun d q b hq => ?_, fun q b => ?_⟩
  · rw [Function.update_of_ne (hne d q hq)]
    exact h.runs d q hq
  · rw [Function.update_of_ne (hne d q hq)]
    exact h.on d q b hq
  · by_cases hqp : q = p
    · subst hqp
      simpa using fun _ => haway b
    · rw [Function.update_of_ne hqp]
      exact h.away q b

omit [DecidableEq L] [Fintype L] in
theorem Threads.leave (h : Threads u pr) (hp : (u c).proc = some p) (st : ProcState) :
    Threads (Function.update u c { u c with proc := none })
      (Function.update pr p { pr p with state := st, frame := some (u c).intena }) := by
  have hne : ∀ d q, d ≠ c → (u d).proc = some q → q ≠ p := by
    rintro d q hd hq rfl
    exact hd (h.one d c q hq hp)
  have hproc : ∀ d q, (Function.update u c { u c with proc := none } d).proc = some q → d ≠ c ∧ (u d).proc = some q := by
    intro d q hq
    by_cases hd : d = c
    · simp [hd] at hq
    · simpa [hd] using hq
  refine ⟨fun d q hq => ?_, fun d e q hd he => ?_, fun d q b hq => ?_, fun q b hs hf => ?_⟩
  · obtain ⟨hd, hq⟩ := hproc d q hq
    rw [Function.update_of_ne (hne d q hd hq)]
    exact h.runs d q hq
  · exact h.one d e q (hproc d q hd).2 (hproc e q he).2
  · obtain ⟨hd, hq⟩ := hproc d q hq
    rw [Function.update_of_ne (hne d q hd hq), Function.update_of_ne hd]
    exact h.on d q b hq
  · by_cases hqp : q = p
    · subst hqp
      simp only [Function.update_self] at hf ⊢
      rw [(h.on c q b hp hf).1]
    · rw [Function.update_of_ne hqp] at hs hf ⊢
      exact h.away q b hs hf

omit [DecidableEq L] [Fintype L] in
theorem Threads.enter (h : Threads u pr) (hc : (u c).proc = none) (hp : (pr p).state = .runnable) (hn : 0 < (u c).ncli) :
    Threads (Function.update u c { u c with proc := some p, intena := (pr p).frame.getD (u c).intena })
      (Function.update pr p { pr p with state := .running }) := by
  have hne : ∀ d q, (u d).proc = some q → q ≠ p := by
    rintro d q hq rfl
    have := h.runs d q hq
    rw [hp] at this
    cases this
  have hproc : ∀ d q, (Function.update u c { u c with proc := some p, intena := (pr p).frame.getD (u c).intena } d).proc =
      some q → d = c ∧ q = p ∨ d ≠ c ∧ (u d).proc = some q := by
    intro d q hq
    by_cases hd : d = c
    · simp only [hd, Function.update_self, Option.some.injEq] at hq
      exact .inl ⟨hd, hq.symm⟩
    · exact .inr ⟨hd, by simpa [hd] using hq⟩
  refine ⟨fun d q hq => ?_, fun d e q hd he => ?_, fun d q b hq hf => ?_, fun q b hs hf => ?_⟩
  · rcases hproc d q hq with ⟨-, rfl⟩ | ⟨-, hq⟩
    · simp
    · rw [Function.update_of_ne (hne d q hq)]
      exact h.runs d q hq
  · rcases hproc d q hd with ⟨rfl, rfl⟩ | ⟨-, hd'⟩
    · rcases hproc e q he with ⟨rfl, -⟩ | ⟨-, he'⟩
      · rfl
      · exact absurd rfl (hne e q he')
    · rcases hproc e q he with ⟨-, rfl⟩ | ⟨-, he'⟩
      · exact absurd rfl (hne d q hd')
      · exact h.one d e q hd' he'
  · rcases hproc d q hq with ⟨rfl, rfl⟩ | ⟨hd, hq⟩
    · simp only [Function.update_self] at hf ⊢
      have hframe := h.away q b (by rw [hp]; decide) hf
      exact ⟨by simp [hframe], hn⟩
    · rw [Function.update_of_ne (hne d q hq)] at hf
      rw [Function.update_of_ne hd]
      exact h.on d q b hq hf
  · by_cases hqp : q = p
    · subst hqp
      simp at hs
    · rw [Function.update_of_ne hqp] at hs hf ⊢
      exact h.away q b hs hf

/-! ## The steps -/

/-- What a step does: it keeps the invariant, and the last releases that it makes restore interrupts. -/
def Kept (_ : Unit) (m : Machine κ L P) (t : List (LastRelease P)) : Prop := Inv m ∧ ∀ e ∈ t, e.Restored

omit [DecidableEq P] in
theorem Kept.quiet (h : Inv m) : Kept () m [] := ⟨h, by simp⟩

theorem noteFirst_first (hp : (m.cpu c).proc = some p) (hh : held m.lock c = ∅) : noteFirst c m =
    ⟨.ok (), m.setProc p { m.proc p with first := some (m.cpu c).intr }, []⟩ := by
  simp [noteFirst, hp, hh]

theorem noteFirst_more (h : ∀ p, (m.cpu c).proc = some p → held m.lock c ≠ ∅) : noteFirst c m = ⟨.ok (), m, []⟩ := by
  unfold noteFirst
  rw [Prog.modify_run]
  cases hp : (m.cpu c).proc with
  | none => rfl
  | some p => simp [h p hp]

theorem noteLast_last (hp : (m.cpu c).proc = some p) (hh : held m.lock c = ∅) : noteLast c m =
    ⟨.ok (), m.setProc p { m.proc p with first := none }, [⟨p, (m.proc p).first, (m.cpu c).intr⟩]⟩ := by
  simp [noteLast, hp, hh, Prog.when, Prog.emit_bind_run]

theorem noteLast_more (h : ∀ p, (m.cpu c).proc = some p → held m.lock c ≠ ∅) : noteLast c m = ⟨.ok (), m, []⟩ := by
  unfold noteLast
  rw [Prog.get_bind_run]
  cases hp : (m.cpu c).proc with
  | none => rfl
  | some p => simp [h p hp, Prog.when]

theorem acquire_inv (h : Inv m) (hpc : (m.cpu c).pc = .out) (hl : lk ∉ held m.lock c) :
    wpt (do noteFirst c; acquire c lk) Kept (fun _ => False) m := by
  have hcount := h.locks.count c
  have hoff := h.locks.nonneg c
  rw [if_pos hpc] at hcount
  have hown : (m.lock lk).cpu ≠ some c := by simpa using hl
  have hlocks : Locks m.lock (Function.update m.cpu c { pushed (m.cpu c) with pc := .spin lk }) := by
    refine h.locks.cpu ?_ (by simp [pushed]) (by simp [Pc.busy])
    simp [pushed, hcount]
  have hthreads : Threads (Function.update m.cpu c { pushed (m.cpu c) with pc := .spin lk }) m.proc := by
    refine h.threads.cpu rfl fun p b hp hf => ?_
    obtain ⟨hint, hn⟩ := h.threads.on c p b hp hf
    refine ⟨?_, by simp [pushed]; omega⟩
    simpa [pushed, hn.ne'] using hint
  rw [Prog.wpt_bind]
  by_cases hfirst : ∃ p, (m.cpu c).proc = some p ∧ held m.lock c = ∅
  · -- the thread's first lock: what is noted is what `pushcli` saves
    obtain ⟨p, hp, hheld⟩ := hfirst
    have hn : (m.cpu c).ncli = 0 := by simpa [hheld] using hcount
    refine Prog.wpt_of_run (noteFirst_first hp hheld) (Prog.wpt_of_run (acquire_run (m := m.setProc p _) hoff.1 hown) ?_)
    refine Kept.quiet ⟨hlocks, hthreads.first (c := c) (p := p) ?_ fun b hb => ?_⟩
    · simpa [pushed] using hp
    · simpa [pushed, hn] using hb
  · refine Prog.wpt_of_run (noteFirst_more fun p hp hh => hfirst ⟨p, hp, hh⟩) ?_
    exact Prog.wpt_of_run (acquire_run hoff.1 hown) (Kept.quiet ⟨hlocks, hthreads⟩)

omit [DecidableEq P] in
theorem xchg_inv (h : Inv m) (hpc : (m.cpu c).pc = .spin lk) : wpt (xchg c lk) Kept (fun _ => False) m := by
  refine Prog.wpt_of_run (xchg_run c lk m) (Kept.quiet ?_)
  by_cases hl : (m.lock lk).locked = true
  · rwa [if_pos hl]
  · rw [if_neg hl]
    have hnone : ∀ d, (m.lock lk).cpu ≠ some d := fun d hd => hl (h.locks.owned d lk hd)
    have hcpu : (m.lock lk).cpu = none := Option.eq_none_iff_forall_ne_some.2 hnone
    have hcount := h.locks.count c
    have hout : lk ∈ held m.lock c ∨ (m.cpu c).pc ≠ .out := .inr (by simp [hpc])
    refine ⟨h.locks.lock (fun d _ => hnone d) (fun d hd => absurd hd (hnone d)) (fun d _ hd => hl (h.locks.busy d lk hd).1)
      (fun lk' hb => ⟨hb.symm, rfl, hcpu⟩) ?_ (fun _ => h.locks.intr hout),
      h.threads.cpu rfl fun p b => h.threads.on c p b⟩
    simp [held_update, hcpu, hcount, hpc]

omit [DecidableEq P] in
theorem record_inv (h : Inv m) (hpc : (m.cpu c).pc = .taken lk) : wpt (record c lk) Kept (fun _ => False) m := by
  have hout : lk ∈ held m.lock c ∨ (m.cpu c).pc ≠ .out := .inr (by simp [hpc])
  have hi := h.locks.intr hout
  have hbusy : (m.cpu c).pc.busy lk := by simp [hpc, Pc.busy]
  obtain ⟨hl, hcpu⟩ := h.locks.busy c lk hbusy
  have hcount := h.locks.count c
  refine Prog.wpt_of_run (record_run hi) (Kept.quiet ⟨h.locks.lock (by simp [hcpu]) (fun d hd => ⟨?_, hl⟩)
    (fun d hd hb => hd (h.locks.lone d c lk hb hbusy)) (by simp [Pc.busy]) ?_ (fun _ => hi),
    h.threads.cpu rfl fun p b => h.threads.on c p b⟩)
  · exact (Option.some.inj hd).symm
  · simp [held_update, hcpu, hcount, hpc]

omit [DecidableEq P] in
theorem release_inv (h : Inv m) (hpc : (m.cpu c).pc = .out) (hheld : lk ∈ held m.lock c) :
    wpt (release c lk) Kept (fun _ => False) m := by
  have hi : (m.cpu c).intr = false := h.locks.intr (.inl hheld)
  have hcpu : (m.lock lk).cpu = some c := mem_held.1 hheld
  have hcount := h.locks.count c
  have hcard := Finset.card_pos.2 ⟨lk, hheld⟩
  refine Prog.wpt_of_run (release_run hi (h.locks.pos (.inl hheld)) (h.locks.owned c lk hcpu) hcpu) (Kept.quiet
    ⟨h.locks.lock (fun d hd => ?_) (by simp) (fun d _ hb => ?_) (fun lk' hb => ⟨hb.symm, h.locks.owned c lk hcpu, rfl⟩) ?_
      (fun _ => hi), h.threads.cpu rfl fun p b => h.threads.on c p b⟩)
  · rw [hcpu]
    simpa using hd.symm
  · have := (h.locks.busy d lk hb).2
    simp [hcpu] at this
  · simp [held_update, hcount, hpc, Finset.card_erase_of_mem hheld]
    omega

omit [DecidableEq P] in
theorem unlock_inv (h : Inv m) (hpc : (m.cpu c).pc = .cleared lk) : wpt (unlock c lk) Kept (fun _ => False) m := by
  have hout : lk ∈ held m.lock c ∨ (m.cpu c).pc ≠ .out := .inr (by simp [hpc])
  have hi := h.locks.intr hout
  have hbusy : (m.cpu c).pc.busy lk := by simp [hpc, Pc.busy]
  obtain ⟨hl, hcpu⟩ := h.locks.busy c lk hbusy
  have hcount := h.locks.count c
  refine Prog.wpt_of_run (unlock_run c lk m) (Kept.quiet ⟨h.locks.lock (by simp [hcpu]) (by simp [hcpu])
    (fun d hd hb => hd (h.locks.lone d c lk hb hbusy)) (by simp [Pc.busy]) ?_ (fun _ => hi),
    h.threads.cpu rfl fun p b => h.threads.on c p b⟩)
  simp [held_update, hcpu, hcount, hpc]

theorem unlocked_inv (h : Inv m) (hpc : (m.cpu c).pc = .unlocked) :
    wpt (do unlocked c; noteLast c) Kept (fun _ => False) m := by
  have hcount := h.locks.count c
  have hne : (m.cpu c).pc ≠ .out := by simp [hpc]
  rw [if_neg hne] at hcount
  have hn : 0 < (m.cpu c).ncli := by omega
  have hlocks : Locks m.lock (Function.update m.cpu c { popped (m.cpu c) with pc := .out }) := by
    refine h.locks.cpu ?_ (fun hpos => ?_) (by simp [Pc.busy])
    · simp [popped, hcount]
    · have hne1 : (m.cpu c).ncli ≠ 1 := by
        simp only [popped] at hpos
        omega
      simp [popped, hne1]
  rw [Prog.wpt_bind]
  refine Prog.wpt_of_run (unlocked_run (h.locks.off c hn) hn) ?_
  by_cases hlast : ∃ p, (m.cpu c).proc = some p ∧ held m.lock c = ∅
  · -- the thread's last lock: `popcli` has restored what `intena` says
    obtain ⟨p, hp, hheld⟩ := hlast
    have h1 : (m.cpu c).ncli = 1 := by simpa [hheld] using hcount
    refine Prog.wpt_of_run (noteLast_last (by simpa [popped] using hp) hheld) ⟨⟨hlocks, ?_⟩, ?_⟩
    · refine (h.threads.first hp (f := none) (by simp)).cpu rfl fun q b hq hf => ?_
      obtain rfl : p = q := Option.some.inj (hp.symm.trans hq)
      simp at hf
    · intro e he b hb
      obtain rfl := List.mem_singleton.1 he
      simpa [popped, h1] using (h.threads.on c p b hp hb).1
  · refine Prog.wpt_of_run (noteLast_more fun p hp hh => hlast ⟨p, by simpa [popped] using hp, hh⟩) ?_
    refine Kept.quiet ⟨hlocks, h.threads.cpu rfl fun q b hq hf => ?_⟩
    have hheld : held m.lock c ≠ ∅ := fun hh => hlast ⟨q, hq, hh⟩
    have hcard := Finset.card_pos.2 (Finset.nonempty_iff_ne_empty.2 hheld)
    exact ⟨(h.threads.on c q b hq hf).1, by simp only [popped]; omega⟩

omit [DecidableEq P] in
theorem myproc_inv (h : Inv m) : wpt (do let _ ← myproc c) Kept (fun _ => False) m := by
  have hoff := h.locks.nonneg c
  rw [Prog.wpt_bind]
  refine Prog.wpt_of_run (myproc_run hoff) (Kept.quiet ⟨h.locks.cpu (h.locks.count c) hoff.2 fun _ hb => hb,
    h.threads.cpu rfl fun p b hp hf => ?_⟩)
  obtain ⟨hint, hn⟩ := h.threads.on c p b hp hf
  rw [touched_eq hn]
  exact ⟨hint, hn⟩

omit [DecidableEq P] in
theorem flags_inv (h : Inv m) (hc : m.idle c ∅) (b : Bool) :
    wpt (modifyCpu c fun k => { k with intr := b }) Kept (fun _ => False) m := by
  obtain ⟨hpc, hheld⟩ := hc
  have hcount := h.locks.count c
  refine Kept.quiet ⟨h.locks.cpu hcount (fun hn => ?_) fun _ hb => hb, h.threads.cpu rfl fun p b => h.threads.on c p b⟩
  simp [hcount, hpc, hheld] at hn

omit [DecidableEq P] in
theorem Inv.only (h : Inv m) (hc : m.idle c {ptable}) : (m.cpu c).intr = false ∧ (m.cpu c).ncli = 1 ∧
    (m.lock ptable).locked = true ∧ (m.lock ptable).cpu = some c := by
  obtain ⟨hpc, hheld⟩ := hc
  have hmem : ptable ∈ held m.lock c := by simp [hheld]
  have hcount := h.locks.count c
  refine ⟨h.locks.intr (.inl hmem), ?_, h.locks.owned c _ (mem_held.1 hmem), mem_held.1 hmem⟩
  simpa [hpc, hheld] using hcount

theorem sched_inv (h : Inv m) (hc : m.idle c {ptable}) (hp : (m.cpu c).proc = some p) {st : ProcState}
    (hst : st ≠ .running) : wpt (do
      Prog.modify fun m => m.setProc p { m.proc p with state := st }
      sched ptable c) Kept (fun _ => False) m := by
  obtain ⟨hi, hn, hl, hcpu⟩ := h.only hc
  rw [Prog.wpt_bind, Prog.wpt_modify]
  refine Prog.wpt_of_run (sched_run (m := m.setProc p _) hi hn hl hcpu hp (by simpa [Machine.setProc] using hst))
    (Kept.quiet ⟨h.locks.cpu (h.locks.count c) (h.locks.off c) fun _ hb => hb, ?_⟩)
  simpa [Machine.setProc, Machine.setCpu] using h.threads.leave hp st

theorem dispatch_inv (h : Inv m) (hc : m.idle c {ptable}) (hp : (m.cpu c).proc = none) (hr : (m.proc p).state = .runnable) :
    wpt (dispatch c p) Kept (fun _ => False) m := by
  obtain ⟨hi, hn, -, -⟩ := h.only hc
  exact Prog.wpt_of_run (dispatch_run hi (by omega)) (Kept.quiet
    ⟨h.locks.cpu (h.locks.count c) (h.locks.off c) fun _ hb => hb, h.threads.enter hp hr (by omega)⟩)

theorem step_inv (ptable : L) (a : Act κ L P) (h : Inv m) : wpt (step ptable a) Kept (fun _ => False) m := by
  have hstay : Kept () m [] := Kept.quiet h
  unfold step
  rw [Prog.wpt_bind, Prog.wpt_get]
  cases a with
  | acquire c lk => exact Prog.wpt_when (fun hc => acquire_inv h hc.1 hc.2) fun _ => hstay
  | xchg c lk => exact Prog.wpt_when (xchg_inv h) fun _ => hstay
  | record c lk => exact Prog.wpt_when (record_inv h) fun _ => hstay
  | release c lk => exact Prog.wpt_when (fun hc => release_inv h hc.1 hc.2) fun _ => hstay
  | unlock c lk => exact Prog.wpt_when (unlock_inv h) fun _ => hstay
  | unlocked c => exact Prog.wpt_when (unlocked_inv h) fun _ => hstay
  | myproc c => exact Prog.wpt_when (fun _ => myproc_inv h) fun _ => hstay
  | flags c b => exact Prog.wpt_when (fun hc => flags_inv h hc b) fun _ => hstay
  | sched c p st => exact Prog.wpt_when (fun hc => sched_inv h hc.1 hc.2.1 hc.2.2) fun _ => hstay
  | dispatch c p => exact Prog.wpt_when (fun hc => dispatch_inv h hc.1 hc.2.1 hc.2.2) fun _ => hstay
  | allocproc c p =>
    refine Prog.wpt_when (fun hc => Kept.quiet ⟨h.locks, h.threads.proc ?_ (by simp)⟩) fun _ => hstay
    rw [hc.2.2]
    decide
  | change c p st =>
    refine Prog.wpt_when (fun hc => Kept.quiet ⟨h.locks, h.threads.proc hc.2.2.1 ?_⟩) fun _ => hstay
    exact fun b => h.threads.away p b hc.2.2.1

omit [DecidableEq P] in
theorem boot_inv : Inv (boot : Machine κ L P) := by
  refine ⟨⟨fun c => ?_, ?_, ?_, ?_, ?_⟩, ?_, ?_, ?_, ?_⟩ <;> simp [boot, held, Pc.busy]

theorem run_inv (ptable : L) : ∀ (acts : List (Act κ L P)) (m : Machine κ L P), Inv m →
    wpt (run ptable acts) Kept (fun _ => False) m
  | [], m, h        => Kept.quiet h
  | a :: acts, m, h => by
    unfold run
    rw [Prog.forEach_cons, Prog.wpt_bind]
    refine (step_inv ptable a h).imp fun _ t l ⟨ht, hl⟩ => (run_inv ptable acts t ht).imp fun _ v l' ⟨hv, hl'⟩ => ⟨hv, ?_⟩
    intro e he
    rcases List.mem_append.1 he with he | he
    · exact hl e he
    · exact hl' e he

/-- **Interrupts across locks and switches**: no step of a run panics, interrupts are off wherever `ncli` is positive, and
every last release by a process restores them. -/
theorem interrupts_restored (ptable : L) (acts : List (Act κ L P)) :
    (run ptable acts boot).res = .ok () ∧
    (∀ c, 0 < ((run ptable acts boot).st.cpu c).ncli → ((run ptable acts boot).st.cpu c).intr = false) ∧
    ∀ e ∈ (run ptable acts boot).tr, ∀ b, e.first = some b → e.after = b := by
  obtain ⟨⟨⟩, hres, hinv, htr⟩ := (run_inv ptable acts boot boot_inv).returns
  exact ⟨hres, hinv.locks.off, htr⟩

/-- A process takes `ptable.lock` on CPU 0 with interrupts on, and releases it on CPU 1, where they were off. -/
example : (run (κ := Fin 2) (P := Fin 1) (0 : Fin 1) [.acquire 0 0, .xchg 0 0, .record 0 0, .allocproc 0 0,
    .change 0 0 .runnable, .dispatch 0 0, .release 0 0, .unlock 0 0, .unlocked 0, .flags 0 true,
    .acquire 0 0, .xchg 0 0, .record 0 0, .sched 0 0 .runnable, .acquire 1 0, .release 0 0, .unlock 0 0, .unlocked 0,
    .xchg 1 0, .record 1 0, .dispatch 1 0, .release 1 0, .unlock 1 0, .unlocked 1] boot).tr =
    [⟨0, none, false⟩, ⟨0, some true, true⟩] := by decide +kernel

end Procs
end Invariant

end Interrupts
end Xv6
