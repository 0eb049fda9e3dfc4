import Xv6.Sched.Proc
/-!
# Sched.Ptable — the operations on the process table

The functions of proc.c and the timer branch of `trap` (trap.c), each one step of an interleaving: a section under
`ptable.lock` is one step, and the stores made without the lock (`fork`'s copies into the child, the failed
`allocproc`) are steps of their own.  `Act` lists the steps, `step` runs one and does nothing where the kernel could
not take it, `run` is a whole interleaving.  A call of `wakeup1` is an event that carries the table it starts from.
-/
namespace Xv6
namespace Sched

structure State where
  proc     : Fin nproc → Proc
  nextpid  : Int
  initproc : Option (Fin nproc)

/-- A call `wakeup1(chan)`, with the table it starts from. -/
structure WakeCall where
  s    : State
  chan : Chan

inductive Stop where
  | panic (msg : String)
  deriving DecidableEq

abbrev SchedM := Prog Stop State WakeCall

/-- `for(p = ptable.proc; p < &ptable.proc[NPROC]; p++)`. -/
def slots : List (Fin nproc) := List.finRange nproc

def State.setProc (s : State) (p : Fin nproc) (q : Proc) : State :=
  { s with proc := fun r => if r = p then q else s.proc r }

def update (p : Fin nproc) (f : Proc → Proc) : SchedM Unit :=
  Prog.modify (fun s => s.setProc p (f (s.proc p)))

/-! ## The life of a process -/

/-- The section of `allocproc` under the lock: the first unused slot, initialised. -/
def allocproc : SchedM (Option (Fin nproc)) := do
  let s ← Prog.get
  match slots.find? (fun p => decide ((s.proc p).state = .unused)) with
  | none   => pure none
  | some p =>
    update p (fun q => { q with
      state := .embryo, pid := s.nextpid, nice := 20, weight := weightAt 20, vruntimeHigh := 0, vruntimeLow := 0,
      aruntime := 0, aruntimePrev := 0, timeslice := 0 })
    Prog.modify (fun s => { s with nextpid := s.nextpid + 1 })
    pure (some p)

/-- No kernel stack (`allocproc`) or no address space (`fork`): the slot is given back. -/
def allocFail (p : Fin nproc) : SchedM Unit := update p (fun q => { q with state := .unused })

/-- The assignments by which `fork` fills the child, made one by one and without the lock. -/
inductive ForkField where
  | parent | vruntimeHigh | vruntimeLow | aruntime | aruntimePrev | nice | weight
  deriving DecidableEq

def forkCopy (np curproc : Fin nproc) (f : ForkField) : SchedM Unit := do
  let s ← Prog.get
  let c := s.proc curproc
  update np (fun q => match f with
    | .parent       => { q with parent := some curproc }
    | .vruntimeHigh => { q with vruntimeHigh := c.vruntimeHigh }
    | .vruntimeLow  => { q with vruntimeLow := c.vruntimeLow }
    | .aruntime     => { q with aruntime := 0 }
    | .aruntimePrev => { q with aruntimePrev := 0 }
    | .nice         => { q with nice := c.nice }
    | .weight       => { q with weight := c.weight })

/-- The store that lets other cores run the process (`fork`, `userinit`). -/
def setRunnable (p : Fin nproc) : SchedM Unit := update p (fun q => { q with state := .runnable })

def userinit : SchedM Unit := do
  match ← allocproc with
  | none   => pure ()
  | some p =>
    Prog.modify (fun s => { s with initproc := some p })
    setRunnable p

/-! ## Sleep and wakeup -/

def sleep (p : Fin nproc) (chan : Chan) : SchedM Unit := update p (fun q => { q with chan := chan, state := .sleeping })

/-- What `sleep` does once `sched` returns. -/
def sleepReturn (p : Fin nproc) : SchedM Unit := update p (fun q => { q with chan := .null })

/-- One turn of `wakeup1`'s first loop; `none` is `flag == 0`. -/
def minStep (s : State) (acc : Option (uint × uint)) (p : Fin nproc) : Option (uint × uint) :=
  if (s.proc p).state ≠ .runnable then acc
  else
    let m := acc.getD ((s.proc p).vruntimeHigh, (s.proc p).vruntimeLow)
    if (s.proc p).vruntimeHigh < m.1 then some ((s.proc p).vruntimeHigh, (s.proc p).vruntimeLow)
    else if m.1 = (s.proc p).vruntimeHigh ∧ (s.proc p).vruntimeLow < m.2 then some (m.1, (s.proc p).vruntimeLow)
    else some m

/-- `(min_vruntime_high, min_vruntime_low)` over the RUNNABLE processes. -/
def minRunnable (s : State) : Option (uint × uint) := slots.foldl (minStep s) none

/-- What `wakeup1` makes of one sleeper.  The words are unsigned, and so is the test `p->vruntime_low < 0`. -/
def woken (m : Option (uint × uint)) (p : Proc) : Proc :=
  let high : uint := match m with | some (h, _) => h | none => 0
  let low  : uint := match m with | some (_, l) => l - tickVruntime p | none => 0
  if low < 0 then
    if 0 < high then { p with state := .runnable, vruntimeHigh := high - 1, vruntimeLow := low + 1000000000 }
    else { p with state := .runnable, vruntimeHigh := high, vruntimeLow := 0 }
  else { p with state := .runnable, vruntimeHigh := high, vruntimeLow := low }

def sleepsOn (chan : Chan) (p : Proc) : Bool := decide (p.state = .sleeping) && decide (p.chan = chan)

/-- The second loop writes every slot from itself and the minimum found, so it is one map over the table. -/
def wakeup1 (chan : Chan) : SchedM Unit := do
  let s ← Prog.get
  Prog.emit ⟨s, chan⟩
  Prog.modify (fun s => { s with
    proc := fun p => if sleepsOn chan (s.proc p) then woken (minRunnable s) (s.proc p) else s.proc p })

/-- The first slot whose pid is `pid`; the scans of proc.c do not look at its state. -/
def findPid (s : State) (pid : Int) : Option (Fin nproc) := slots.find? (fun p => decide ((s.proc p).pid = pid))

def kill (pid : Int) : SchedM Int := do
  let s ← Prog.get
  match findPid s pid with
  | none   => pure (-1)
  | some p =>
    update p (fun q => { q with killed := true, state := if q.state = .sleeping then .runnable else q.state })
    pure 0

def setnice (pid value : Int) : SchedM Int := do
  if value < 0 ∨ 39 < value ∨ pid ≤ 0 then pure (-1)
  else
    let s ← Prog.get
    match findPid s pid with
    | none   => pure (-1)
    | some p =>
      update p (fun q => { q with nice := value, weight := weightAt value })
      pure 0

/-! ## Exit and wait -/

def chanOf : Option (Fin nproc) → Chan
  | none   => .null
  | some p => .proc p

/-- The section of `exit` under the lock. -/
def exit (curproc : Fin nproc) : SchedM Unit := do
  let s ← Prog.get
  if s.initproc = some curproc then Prog.stop (.panic "init exiting")
  else
    wakeup1 (chanOf (s.proc curproc).parent)
    Prog.forEach slots (fun p => do
      let s ← Prog.get
      if (s.proc p).parent = some curproc then
        update p (fun q => { q with parent := s.initproc })
        if (s.proc p).state = .zombie then wakeup1 (chanOf s.initproc)
      else pure ())
    update curproc (fun q => { q with state := .zombie })

/-- One scan of `wait` that finds a zombie child; the table is as before where it finds none. -/
def waitReap (curproc : Fin nproc) : SchedM Int := do
  let s ← Prog.get
  match slots.find? (fun p => decide ((s.proc p).parent = some curproc) && decide ((s.proc p).state = .zombie)) with
  | none   => pure (-1)
  | some p =>
    update p (fun q => { q with pid := 0, parent := none, killed := false, state := .unused })
    pure (s.proc p).pid

/-! ## The timer and the scheduler -/

/-- The accounting of one timer tick (`trap`), with the `yield` it may end in. -/
def ticked (q : Proc) : Proc :=
  let aruntime := q.aruntime + 1000
  let temp := aruntime - q.aruntimePrev
  let low := q.vruntimeLow + tickVruntime q
  let carry : Bool := decide (low / 1000000000 ≠ 0)
  let q := { q with
    aruntime     := aruntime
    vruntimeLow  := if carry then low % 1000000000 else low
    vruntimeHigh := if carry then q.vruntimeHigh + 1 else q.vruntimeHigh }
  if q.timeslice ≤ temp then { q with aruntimePrev := aruntime, state := .runnable } else q

def trapTick (p : Fin nproc) : SchedM Unit := update p ticked

/-- One turn of the scheduler's inner loop: `min_p` and `total_weight`. -/
def scanStep (s : State) (acc : Fin nproc × uint) (t : Fin nproc) : Fin nproc × uint :=
  if (s.proc t).state = .runnable then
    (if compareVruntime (s.proc acc.1) (s.proc t) then t else acc.1, acc.2 + BitVec.ofInt 32 (s.proc t).weight)
  else acc

def schedScan (s : State) (p : Fin nproc) : Fin nproc × uint := slots.foldl (scanStep s) (p, 0)

/-- What the scheduler makes of the process it chose.  The sum `10000 * (p->weight / total_weight) + 0.5` truncates to
its integer part. -/
def dispatched (total : uint) (q : Proc) : Proc :=
  let weight := weightAt q.nice
  { q with
    weight    := weight
    state     := .running
    timeslice := 10000 * (BitVec.ofInt 32 weight / total) }

/-- The body of the scheduler's loop at a RUNNABLE `p`, up to the switch: the process chosen. -/
def dispatch (p : Fin nproc) : SchedM (Fin nproc) := do
  let s ← Prog.get
  update (schedScan s p).1 (dispatched (schedScan s p).2)
  pure (schedScan s p).1

/-! ## Interleavings -/

inductive Act where
  | userinit
  | allocproc
  | allocFail (p : Fin nproc)
  | forkCopy (np curproc : Fin nproc) (f : ForkField)
  | ready (p : Fin nproc)
  | sleep (p : Fin nproc) (chan : Chan)
  | sleepReturn (p : Fin nproc)
  | wakeup (chan : Chan)
  | kill (pid : Int)
  | setnice (pid value : Int)
  | exit (p : Fin nproc)
  | wait (p : Fin nproc)
  | tick (p : Fin nproc)
  | dispatch (p : Fin nproc)

/-- When the kernel can take a step: the process it acts for is in the state the code runs it in. -/
def Act.enabled (s : State) : Act → Bool
  | .userinit        => decide (s.initproc = none)
  | .allocFail p     => decide ((s.proc p).state = .embryo)
  | .forkCopy np c _ => decide ((s.proc np).state = .embryo) && decide ((s.proc c).state = .running)
  | .ready p         => decide ((s.proc p).state = .embryo)
  | .sleep p _       => decide ((s.proc p).state = .running)
  | .sleepReturn p   => decide ((s.proc p).state = .running)
  | .exit p          => decide ((s.proc p).state = .running)
  | .wait p          => decide ((s.proc p).state = .running)
  | .tick p          => decide ((s.proc p).state = .running)
  | .dispatch p      => decide ((s.proc p).state = .runnable)
  | _                => true

def Act.exec : Act → SchedM Unit
  | .userinit        => Sched.userinit
  | .allocproc       => do let _ ← Sched.allocproc
  | .allocFail p     => Sched.allocFail p
  | .forkCopy np c f => Sched.forkCopy np c f
  | .ready p         => setRunnable p
  | .sleep p chan    => Sched.sleep p chan
  | .sleepReturn p   => Sched.sleepReturn p
  | .wakeup chan     => wakeup1 chan
  | .kill pid        => do let _ ← Sched.kill pid
  | .setnice pid v   => do let _ ← Sched.setnice pid v
  | .exit p          => Sched.exit p
  | .wait p          => do let _ ← waitReap p
  | .tick p          => trapTick p
  | .dispatch p      => do let _ ← Sched.dispatch p

def step (a : Act) : SchedM Unit := do
  let s ← Prog.get
  if a.enabled s then a.exec else pure ()

def run (acts : List Act) : SchedM Unit := Prog.forEach acts step

def unusedProc : Proc :=
  { state := .unused, pid := 0, parent := none, chan := .null, killed := false, nice := 0, weight := 0,
    vruntimeHigh := 0, vruntimeLow := 0, aruntime := 0, aruntimePrev := 0, timeslice := 0 }

def boot : State := { proc := fun _ => unusedProc, nextpid := 1, initproc := none }

@[simp] theorem setProc_proc (s : State) (p r : Fin nproc) (q : Proc) :
    (s.setProc p q).proc r = if r = p then q else s.proc r := rfl

@[simp] theorem setProc_initproc (s : State) (p : Fin nproc) (q : Proc) : (s.setProc p q).initproc = s.initproc := rfl

@[simp] theorem update_run (p : Fin nproc) (f : Proc → Proc) (s : State) :
    update p f s = ⟨.ok (), s.setProc p (f (s.proc p)), []⟩ := rfl

end Sched
end Xv6
