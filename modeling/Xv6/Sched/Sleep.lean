import Xv6.Sched.Change
import Xv6.Sched.Scheduler
/-!
# Sched.Sleep — no wakeup is lost

Processes that share a condition under a lock `lk`: some test it and call `sleep(chan, lk)` while it is false, others
make it true and call `wakeup(chan)`.  Taking a lock, releasing one and a body under one are steps of their own, and
`ptable.lock` goes from a process to the scheduler and from there to the next process as `sched` and `swtch` pass it.
`lk` is another lock, or `ptable.lock` itself (`own`), which `sleep` then neither takes nor releases.  `Rests` is the
invariant: where the condition is true, who has found it false is awake, or someone has still to call `wakeup`.
-/
namespace Xv6
namespace Sched

/-- Where a process stands between its tests, in `sleep` and in `wakeup`. -/
inductive Wait where
  | out                       -- no lock held, on its way to `lk` or elsewhere
  | inside                    -- holds `lk`
  | blocked                   -- in `sleep`, before `acquire(&ptable.lock)`
  | both                      -- in `sleep`, before `release(lk)`
  | falling                   -- in `sleep`, holds `ptable.lock` and not `lk`, unless they are one
  | asleep                    -- in `sleep`, at `sched()`
  | relock                    -- in `sleep`, before `acquire(lk)`
  | returned                  -- `sleep` has returned
  | made                      -- has made the condition true, still holds `lk`
  | mustWake                  -- has released `lk`, before `wakeup(chan)`
  | waking (lkHeld : Bool)    -- holds `ptable.lock`, before `wakeup1(chan)`
  | woke (lkHeld : Bool)      -- holds `ptable.lock`, after it
  deriving DecidableEq

/-- Who holds `ptable.lock`: the scheduler of some CPU, or a process. -/
inductive Holder where
  | sched
  | proc (p : Fin nproc)
  deriving DecidableEq

/-- Whether a process is switched out elsewhere: in `yield`, or in a `sleep` on another channel. -/
inductive Away where
  | no | yielded | slept
  deriving DecidableEq

inductive Cause where
  | wakeup (chan : Chan)
  | kill
  deriving DecidableEq

structure Room where
  s     : State
  pt    : Option Holder
  lk    : Option (Fin nproc)
  cond  : Bool
  pc    : Fin nproc → Wait
  away  : Fin nproc → Away
  cause : Fin nproc → Option Cause

inductive RoomAct where
  | enter (p : Fin nproc)
  | test (p : Fin nproc)
  | blockPt (p : Fin nproc)
  | dropLk (p : Fin nproc)
  | fall (p : Fin nproc)
  | tidy (p : Fin nproc)
  | relock (p : Fin nproc)
  | again (p : Fin nproc)
  | consume (p : Fin nproc)
  | make (p : Fin nproc)
  | leave (p : Fin nproc)
  | release (p : Fin nproc)
  | wakeStart (p : Fin nproc)
  | wake (p : Fin nproc)
  | wakeEnd (p : Fin nproc)
  | kill (pid : Int)
  | otherWake (chan : Chan)
  | otherSleep (p : Fin nproc) (chan : Chan)
  | tick (p : Fin nproc)
  | back (p : Fin nproc)
  | schedTake
  | schedDrop
  | dispatch (p : Fin nproc)

def Room.ready (r : Room) (p : Fin nproc) : Prop := (r.s.proc p).state = .running ∧ r.away p = .no

instance (r : Room) (p : Fin nproc) : Decidable (r.ready p) := inferInstanceAs (Decidable (_ ∧ _))

def Room.goto (r : Room) (p : Fin nproc) (w : Wait) : Room := { r with pc := fun q => if q = p then w else r.pc q }

def Room.table (r : Room) (a : Act) : Room := { r with s := (step a r.s).st }

/-- The sleepers of `P` are awake by the cause `c`. -/
def Room.rouse (r : Room) (P : Fin nproc → Bool) (c : Cause) : Room :=
  { r with cause := fun q => if P q = true ∧ (r.s.proc q).state = .sleeping then some c else r.cause q }

/-- `lk` is free, for `own` the one lock. -/
def Room.lkFree (own : Bool) (r : Room) : Prop := if own then r.pt = none else r.lk = none

instance (own : Bool) (r : Room) : Decidable (r.lkFree own) := by unfold Room.lkFree; infer_instance

def Room.takeLk (own : Bool) (r : Room) (p : Fin nproc) : Room :=
  if own then { r with pt := some (.proc p) } else { r with lk := some p }

def Room.dropLk (own : Bool) (r : Room) : Room := if own then { r with pt := none } else { r with lk := none }

def Room.enabled (own : Bool) (chan : Chan) (r : Room) : RoomAct → Prop
  | .enter p        => r.ready p ∧ r.pc p = .out ∧ r.lkFree own
  | .test p         => r.ready p ∧ r.pc p = .inside
  | .blockPt p      => r.ready p ∧ r.pc p = .blocked ∧ r.pt = none
  | .dropLk p       => r.ready p ∧ r.pc p = .both
  | .fall p         => r.ready p ∧ r.pc p = .falling
  | .tidy p         => r.ready p ∧ r.pc p = .asleep
  | .relock p       => r.ready p ∧ r.pc p = .relock ∧ r.lk = none
  | .again p        => r.ready p ∧ r.pc p = .returned
  | .consume p      => r.ready p ∧ r.pc p = .inside
  | .make p         => r.ready p ∧ r.pc p = .inside
  | .leave p        => r.ready p ∧ r.pc p = .inside
  | .release p      => r.ready p ∧ r.pc p = .made
  | .wakeStart p    => r.ready p ∧ (r.pc p = .mustWake ∧ r.pt = none ∨ r.pc p = .made ∧ (own = true ∨ r.pt = none))
  | .wake p         => r.ready p ∧ ∃ b, r.pc p = .waking b
  | .wakeEnd p      => r.ready p ∧ ∃ b, r.pc p = .woke b
  | .kill _         => r.pt = none
  | .otherWake _    => r.pt = none
  | .otherSleep p c => r.ready p ∧ r.pc p = .out ∧ r.pt = none ∧ c ≠ chan
  | .tick p         => r.ready p ∧ (r.pc p = .out ∨ r.pc p = .relock ∨ r.pc p = .mustWake) ∧ r.pt = none
  | .back p         => (r.s.proc p).state = .running ∧ r.away p ≠ .no
  | .schedTake      => r.pt = none
  | .schedDrop      => r.pt = some .sched
  | .dispatch p     => r.pt = some .sched ∧ (r.s.proc p).state = .runnable

def Room.next (own : Bool) (chan : Chan) (r : Room) : RoomAct → Room
  | .enter p        => (r.takeLk own p).goto p .inside
  | .test p         => if r.cond then r else r.goto p (if own then .falling else .blocked)
  | .blockPt p      => { r with pt := some (.proc p) }.goto p .both
  | .dropLk p       => { r with lk := none }.goto p .falling
  | .fall p         =>
    { (r.table (.sleep p chan)).goto p .asleep with
      cause := fun q => if q = p then none else r.cause q, pt := some .sched }
  | .tidy p         =>
    if own then (r.table (.sleepReturn p)).goto p .returned
    else { (r.table (.sleepReturn p)).goto p .relock with pt := none }
  | .relock p       => { r with lk := some p }.goto p .returned
  | .again p        => r.goto p .inside
  | .consume _      => { r with cond := false }
  | .make p         => { r with cond := true }.goto p .made
  | .leave p        => (r.dropLk own).goto p .out
  | .release p      => (r.dropLk own).goto p .mustWake
  | .wakeStart p    => { r with pt := some (.proc p) }.goto p (.waking (decide (r.pc p = Wait.made)))
  | .wake p         =>
    ((r.rouse (fun q => decide ((r.s.proc q).chan = chan)) (.wakeup chan)).table (.wakeup chan)).goto p
      (.woke (decide (r.pc p = Wait.waking true)))
  | .wakeEnd p      =>
    if r.pc p = .woke true then
      if own then r.goto p .inside else { r with pt := none }.goto p .inside
    else { r with pt := none }.goto p .out
  | .kill pid       => (r.rouse (fun q => decide (findPid r.s pid = some q)) .kill).table (.kill pid)
  | .otherWake c    => (r.rouse (fun q => decide ((r.s.proc q).chan = c)) (.wakeup c)).table (.wakeup c)
  | .otherSleep p c =>
    { r.table (.sleep p c) with away := fun q => if q = p then .slept else r.away q, pt := some .sched }
  | .tick p         =>
    if ((r.table (.tick p)).s.proc p).state = .runnable then
      { r.table (.tick p) with away := fun q => if q = p then .yielded else r.away q, pt := some .sched }
    else r.table (.tick p)
  | .back p         =>
    { (if r.away p = .slept then r.table (.sleepReturn p) else r) with
      away := fun q => if q = p then .no else r.away q, pt := none }
  | .schedTake      => { r with pt := some .sched }
  | .schedDrop      => { r with pt := none }
  | .dispatch p     => { r.table (.dispatch p) with pt := some (.proc (schedScan r.s p).1) }

instance (own : Bool) (chan : Chan) (r : Room) (a : RoomAct) : Decidable (r.enabled own chan a) := by
  cases a <;> unfold Room.enabled <;> infer_instance

def roomStep (own : Bool) (chan : Chan) (r : Room) (a : RoomAct) : Room :=
  if r.enabled own chan a then r.next own chan a else r

def roomRun (own : Bool) (chan : Chan) (r : Room) (acts : List RoomAct) : Room := acts.foldl (roomStep own chan) r

/-- Nobody has begun: no lock is held, nobody sleeps on the channel, and who does not run was switched out elsewhere. -/
structure Room.Start (chan : Chan) (r : Room) : Prop where
  pt    : r.pt = none
  lk    : r.lk = none
  pc    : ∀ p, r.pc p = .out
  cause : ∀ p, r.cause p = none
  away  : ∀ p, r.away p = .no ↔ (r.s.proc p).state = .running
  chan  : ∀ p, (r.s.proc p).state = .sleeping → (r.s.proc p).chan ≠ chan

/-- A call of `wakeup(chan)` is still to come for the condition made true. -/
def Wait.pending : Wait → Bool
  | .made | .mustWake | .waking _ => true
  | _ => false

/-- The places where a process holds `lk`. -/
def Wait.holdsLk : Wait → Bool
  | .inside | .blocked | .both | .returned | .made | .waking true | .woke true => true
  | _ => false

/-- The places where a process holds `ptable.lock`. -/
def Wait.holdsPt (own : Bool) : Wait → Bool
  | .both | .falling | .waking _ | .woke _ => true
  | .inside | .returned | .made => own
  | _ => false

/-- Has found the condition false and is past `release(lk)`, not yet awake. -/
def Room.down (r : Room) (p : Fin nproc) : Prop :=
  r.pc p = .falling ∨ r.pc p = .asleep ∧ (r.s.proc p).state = .sleeping

def goodCause (chan : Chan) (c : Option Cause) : Prop := c = some (.wakeup chan) ∨ c = some .kill

/-- What holds of one process: the locks it holds, why it is awake, and what it knows of the condition. -/
structure At (own : Bool) (chan : Chan) (r : Room) (p : Fin nproc) : Prop where
  pt       : (r.pc p).holdsPt own = true → r.pt = some (.proc p)
  lk       : own = false → (r.pc p).holdsLk = true → r.lk = some p
  one      : own = true → r.pc p ≠ .blocked ∧ r.pc p ≠ .both ∧ r.pc p ≠ .relock
  asleep   : r.pc p = .asleep → r.away p = .no ∧
    ((r.s.proc p).state = .sleeping ∧ (r.s.proc p).chan = chan ∨
      ((r.s.proc p).state = .runnable ∨ (r.s.proc p).state = .running ∧ r.pt = some (.proc p)) ∧
        goodCause chan (r.cause p))
  sleepers : (r.s.proc p).state = .sleeping → r.pc p = .asleep ∨ r.pc p = .out ∧ (r.s.proc p).chan ≠ chan
  away     : r.away p ≠ .no → r.pc p = .out ∨ r.pc p = .relock ∨ r.pc p = .mustWake
  awayRun  : r.away p ≠ .no → (r.s.proc p).state = .running → r.pt = some (.proc p)
  runs     : r.away p = .no → r.pc p ≠ .asleep → (r.s.proc p).state = .running
  woken    : r.pc p = .relock ∨ r.pc p = .returned → goodCause chan (r.cause p)
  tested   : r.pc p = .blocked ∨ r.pc p = .both → r.cond = false

structure Rests (own : Bool) (chan : Chan) (r : Room) : Prop where
  each  : ∀ p, At own chan r p
  wakes : r.cond = true → ∀ p, r.down p → ∃ q, (r.pc q).pending = true

/-! ## The table's steps, by state and channel -/

section Views

variable {s : State} {p : Fin nproc}

theorem sleep_view (c : Chan) (hr : (s.proc p).state = .running) (q : Fin nproc) :
    ((step (.sleep p c) s).st.proc q).state = (if q = p then .sleeping else (s.proc q).state) ∧
      ((step (.sleep p c) s).st.proc q).chan = if q = p then c else (s.proc q).chan := by
  rw [step_sleep c hr, setProc_proc]
  split <;> exact ⟨rfl, rfl⟩

theorem sleepReturn_view (hr : (s.proc p).state = .running) (q : Fin nproc) :
    ((step (.sleepReturn p) s).st.proc q).state = (s.proc q).state ∧
      ((step (.sleepReturn p) s).st.proc q).chan = if q = p then .null else (s.proc q).chan := by
  rw [step_sleepReturn hr, setProc_proc]
  by_cases hq : q = p
  · rw [if_pos hq, if_pos hq, hq]; exact ⟨rfl, rfl⟩
  · rw [if_neg hq, if_neg hq]; exact ⟨rfl, rfl⟩

theorem wakeup_view (c : Chan) (q : Fin nproc) :
    ((step (.wakeup c) s).st.proc q).state =
        (if (s.proc q).state = .sleeping ∧ (s.proc q).chan = c then .runnable else (s.proc q).state) ∧
      ((step (.wakeup c) s).st.proc q).chan = (s.proc q).chan := by
  rw [step_run, if_pos (show Act.enabled s (.wakeup c) = true from rfl)]
  show ((wakeup1 c s).st.proc q).state = _ ∧ ((wakeup1 c s).st.proc q).chan = _
  obtain ⟨hs, he⟩ | ⟨hs, he⟩ := wakeup1_slot c s q
  · rw [he, if_pos (sleepsOn_iff.1 hs)]
    exact ⟨(woken_kept _ _).2.2.2.2.2.2, (woken_kept _ _).2.2.2.2.1⟩
  · rw [he, if_neg (mt sleepsOn_iff.2 hs)]
    exact ⟨rfl, rfl⟩

theorem kill_view (pid : Int) (q : Fin nproc) :
    ((step (.kill pid) s).st.proc q).state =
        (if findPid s pid = some q ∧ (s.proc q).state = .sleeping then .runnable else (s.proc q).state) ∧
      ((step (.kill pid) s).st.proc q).chan = (s.proc q).chan := by
  rw [step_run, if_pos (show Act.enabled s (.kill pid) = true from rfl)]
  show ((((do let _ ← kill pid) : SchedM Unit) s).st.proc q).state = _ ∧
    ((((do let _ ← kill pid) : SchedM Unit) s).st.proc q).chan = _
  rw [drop_run, kill_run]
  cases hf : findPid s pid with
  | none => simp
  | some r =>
    by_cases hq : q = r
    · subst hq
      simp only [setProc_proc, if_pos, true_and]
      exact ⟨rfl, rfl⟩
    · have hne : r ≠ q := fun h => hq h.symm
      simp [setProc_proc, hq, hne]

theorem tick_view (hr : (s.proc p).state = .running) (q : Fin nproc) :
    (q = p → ((step (.tick p) s).st.proc q).state = .runnable ∨ ((step (.tick p) s).st.proc q).state = .running) ∧
      (q ≠ p → ((step (.tick p) s).st.proc q).state = (s.proc q).state) ∧
      ((step (.tick p) s).st.proc q).chan = (s.proc q).chan := by
  obtain ⟨hst, hch⟩ := ticked_runs hr
  rw [step_tick hr]
  show (q = p → (if q = p then _ else _ : Proc).state = _ ∨ (if q = p then _ else _ : Proc).state = _) ∧
    (q ≠ p → (if q = p then _ else _ : Proc).state = _) ∧ (if q = p then _ else _ : Proc).chan = _
  by_cases hq : q = p
  · rw [if_pos hq, hq]; exact ⟨fun _ => hst, fun h => absurd rfl h, hch⟩
  · rw [if_neg hq]; exact ⟨fun h => absurd h hq, fun _ => rfl, rfl⟩

theorem dispatch_view (hr : (s.proc p).state = .runnable) (q : Fin nproc) :
    ((step (.dispatch p) s).st.proc q).state = (if q = (schedScan s p).1 then .running else (s.proc q).state) ∧
      ((step (.dispatch p) s).st.proc q).chan = (s.proc q).chan := by
  rw [step_dispatch hr]
  show (if q = _ then _ else _ : Proc).state = _ ∧ (if q = _ then _ else _ : Proc).chan = _
  by_cases hq : q = (schedScan s p).1
  · rw [if_pos hq, if_pos hq, hq]; exact ⟨rfl, rfl⟩
  · rw [if_neg hq, if_neg hq]; exact ⟨rfl, rfl⟩

end Views

/-! ## One process at a time -/

variable {own : Bool} {chan : Chan} {r r' : Room} {p q : Fin nproc}

structure Untouched (r r' : Room) (q : Fin nproc) : Prop where
  pc    : r'.pc q = r.pc q
  away  : r'.away q = r.away q
  cause : r'.cause q = r.cause q
  proc  : (r'.s.proc q).state = (r.s.proc q).state ∧ (r'.s.proc q).chan = (r.s.proc q).chan
  pt    : r.pt = some (.proc q) → r'.pt = some (.proc q)
  lk    : r.lk = some q → r'.lk = some q
  cond  : r.pc q = .blocked ∨ r.pc q = .both → r.cond = false → r'.cond = false

theorem At.untouched (h : At own chan r q) (hu : Untouched r r' q) : At own chan r' q := by
  obtain ⟨u1, u2, u3, ⟨u4, u5⟩, u6, u7, u8⟩ := hu
  obtain ⟨h1, h2, h3, h4, h5, h6, h7, h8, h9, h10⟩ := h
  constructor <;> simp only [u1, u2, u3, u4, u5] <;> grind

/-- **A step of one process**: what it leaves of its own, and that it brings nobody down while the condition is true
and takes back no pending call. -/
theorem Rests.move (h : Rests own chan r) (p : Fin nproc) (hu : ∀ q, q ≠ p → Untouched r r' q)
    (hp : At own chan r' p) (hc : r'.cond = true → r.cond = true ∧
      (r'.down p → r.down p) ∧ ((r.pc p).pending = true → (r'.pc p).pending = true) ∨ (r'.pc p).pending = true) :
    Rests own chan r' := by
  refine ⟨fun q => ?_, fun hco q hq => ?_⟩
  · by_cases hqp : q = p
    · rw [hqp]; exact hp
    · exact (h.each q).untouched (hu q hqp)
  · rcases hc hco with ⟨hco', hd, hpend⟩ | hpend
    · obtain ⟨w, hw⟩ := h.wakes hco' q (by
        by_cases hqp : q = p
        · rw [hqp] at hq ⊢; exact hd hq
        · unfold Room.down at hq ⊢
          rwa [(hu q hqp).pc, (hu q hqp).proc.1] at hq)
      by_cases hwp : w = p
      · exact ⟨p, hpend (hwp ▸ hw)⟩
      · exact ⟨w, by rw [(hu w hwp).pc]; exact hw⟩
    · exact ⟨p, hpend⟩

section Steps

theorem Rests.enter (h : Rests own chan r) (hr : r.ready p) (hp : r.pc p = .out)
    (hl : r.lkFree own) : Rests own chan ((r.takeLk own p).goto p .inside) := by
  have hat := h.each p
  unfold Room.lkFree Room.ready at *
  refine h.move p (fun q hq => ?_) ?_ ?_
  · cases own <;> constructor <;> simp_all [Room.goto, Room.takeLk]
  · cases own <;> constructor <;> simp_all [Room.goto, Room.takeLk, Wait.holdsPt, Wait.holdsLk]
  · cases own <;> simp_all [Room.goto, Room.takeLk, Room.down, Wait.pending]

theorem Rests.test (h : Rests own chan r) (hr : r.ready p) (hp : r.pc p = .inside) :
    Rests own chan (if r.cond then r else r.goto p (if own then .falling else .blocked)) := by
  have hat := h.each p
  have hlk := hat.lk
  have hpt := hat.pt
  unfold Room.ready at *
  split
  · exact h
  · refine h.move p (fun q hq => ?_) ?_ ?_
    · constructor <;> simp_all [Room.goto]
    · cases own <;> constructor <;> simp_all [Room.goto, Wait.holdsPt, Wait.holdsLk]
    · cases own <;> simp_all [Room.goto, Room.down, Wait.pending]

theorem Rests.blockPt (h : Rests own chan r) (hr : r.ready p) (hp : r.pc p = .blocked) (hf : r.pt = none) :
    Rests own chan ({ r with pt := some (.proc p) }.goto p .both) := by
  have hat := h.each p
  have hlk := hat.lk
  have hc := hat.tested (.inl hp)
  have hone := hat.one
  unfold Room.ready at *
  refine h.move p (fun q hq => ?_) ?_ ?_
  · constructor <;> simp_all [Room.goto]
  · cases own <;> constructor <;> simp_all [Room.goto, Wait.holdsPt, Wait.holdsLk]
  · simp_all [Room.goto]

theorem Rests.dropLk (h : Rests own chan r) (hr : r.ready p) (hp : r.pc p = .both) :
    Rests own chan ({ r with lk := none }.goto p .falling) := by
  have hat := h.each p
  have hlk := hat.lk
  have hpt := hat.pt (by rw [hp]; rfl)
  have hc := hat.tested (.inr hp)
  have hone := hat.one
  unfold Room.ready at *
  refine h.move p (fun q hq => ?_) ?_ ?_
  · have hq' := Ne.symm hq
    cases own <;> constructor <;> simp_all [Room.goto, Wait.holdsLk]
  · cases own <;> constructor <;> simp_all [Room.goto, Wait.holdsPt, Wait.holdsLk]
  · simp_all [Room.goto]

theorem Rests.fall (h : Rests own chan r) (hr : r.ready p) (hp : r.pc p = .falling) :
    Rests own chan { (r.table (.sleep p chan)).goto p .asleep with
      cause := fun q => if q = p then none else r.cause q, pt := some .sched } := by
  have hv := sleep_view chan hr.1
  have hat := h.each p
  have hpt := hat.pt (by rw [hp]; rfl)
  unfold Room.ready at *
  refine h.move p (fun q hq => ?_) ?_ ?_
  · have hq' := Ne.symm hq
    constructor <;> simp_all [Room.goto, Room.table]
  · constructor <;> simp_all [Room.goto, Room.table, Wait.holdsPt, Wait.holdsLk]
  · simp_all [Room.goto, Room.table, Room.down, Wait.pending]

theorem Rests.tidy (h : Rests own chan r) (hr : r.ready p) (hp : r.pc p = .asleep) : Rests own chan
    (if own then (r.table (.sleepReturn p)).goto p .returned
      else { (r.table (.sleepReturn p)).goto p .relock with pt := none }) := by
  have hv := sleepReturn_view hr.1
  have hat := h.each p
  obtain ⟨haw, hasl⟩ := hat.asleep hp
  have hgood : r.pt = some (.proc p) ∧ goodCause chan (r.cause p) := by
    rcases hasl with ⟨hs, -⟩ | ⟨hs | ⟨-, hpt⟩, hg⟩
    · rw [hr.1] at hs; cases hs
    · rw [hr.1] at hs; cases hs
    · exact ⟨hpt, hg⟩
  unfold Room.ready at *
  refine h.move p (fun q hq => ?_) ?_ ?_
  · have hq' := Ne.symm hq
    cases own <;> constructor <;> simp_all [Room.goto, Room.table]
  · cases own <;> constructor <;> simp_all [Room.goto, Room.table, Wait.holdsPt, Wait.holdsLk]
  · cases own <;> simp_all [Room.goto, Room.table, Room.down, Wait.pending]

theorem Rests.relock (h : Rests own chan r) (hr : r.ready p) (hp : r.pc p = .relock) (hf : r.lk = none) :
    Rests own chan ({ r with lk := some p }.goto p .returned) := by
  have hat := h.each p
  have hg := hat.woken (.inl hp)
  have hone := hat.one
  unfold Room.ready at *
  refine h.move p (fun q hq => ?_) ?_ ?_
  · constructor <;> simp_all [Room.goto]
  · cases own <;> constructor <;> simp_all [Room.goto, Wait.holdsPt, Wait.holdsLk]
  · simp_all [Room.goto, Room.down, Wait.pending]

theorem Rests.again (h : Rests own chan r) (hr : r.ready p) (hp : r.pc p = .returned) :
    Rests own chan (r.goto p .inside) := by
  have hat := h.each p
  have hlk := hat.lk
  have hpt := hat.pt
  unfold Room.ready at *
  refine h.move p (fun q hq => ?_) ?_ ?_
  · constructor <;> simp_all [Room.goto]
  · cases own <;> constructor <;> simp_all [Room.goto, Wait.holdsPt, Wait.holdsLk]
  · simp_all [Room.goto, Room.down, Wait.pending]

theorem Rests.consume (h : Rests own chan r) (hr : r.ready p) (hp : r.pc p = .inside) :
    Rests own chan { r with cond := false } := by
  have hat := h.each p
  have hlk := hat.lk
  have hpt := hat.pt
  unfold Room.ready at *
  refine h.move p (fun q hq => ?_) ?_ ?_
  · constructor <;> simp_all
  · cases own <;> constructor <;> simp_all [Wait.holdsPt, Wait.holdsLk]
  · simp_all

theorem Rests.make (h : Rests own chan r) (hr : r.ready p) (hp : r.pc p = .inside) :
    Rests own chan ({ r with cond := true }.goto p .made) := by
  have hat := h.each p
  have hlk := hat.lk
  have hpt := hat.pt
  unfold Room.ready at *
  refine h.move p (fun q hq => ?_) ?_ ?_
  · -- who is about to sleep holds `lk`, and `p` holds it
    have hq' := Ne.symm hq
    have hone := (h.each q).one
    have hlk' := (h.each q).lk
    have hb : ¬ (r.pc q = .blocked ∨ r.pc q = .both) := by
      rintro (hb | hb) <;> cases own <;> simp_all [Wait.holdsLk]
    constructor <;> simp_all [Room.goto]
  · cases own <;> constructor <;> simp_all [Room.goto, Wait.holdsPt, Wait.holdsLk]
  · simp_all [Room.goto, Wait.pending]

theorem Rests.leave (h : Rests own chan r) (hr : r.ready p) (hp : r.pc p = .inside) :
    Rests own chan ((r.dropLk own).goto p .out) := by
  have hat := h.each p
  have hlk := hat.lk
  have hpt := hat.pt
  unfold Room.ready at *
  refine h.move p (fun q hq => ?_) ?_ ?_
  · have hq' := Ne.symm hq
    cases own <;> constructor <;> simp_all [Room.goto, Room.dropLk, Wait.holdsPt, Wait.holdsLk]
  · cases own <;> constructor <;> simp_all [Room.goto, Room.dropLk, Wait.holdsPt, Wait.holdsLk]
  · cases own <;> simp_all [Room.goto, Room.dropLk, Room.down, Wait.pending]

theorem Rests.release (h : Rests own chan r) (hr : r.ready p) (hp : r.pc p = .made) :
    Rests own chan ((r.dropLk own).goto p .mustWake) := by
  have hat := h.each p
  have hlk := hat.lk
  have hpt := hat.pt
  unfold Room.ready at *
  refine h.move p (fun q hq => ?_) ?_ ?_
  · have hq' := Ne.symm hq
    cases own <;> constructor <;> simp_all [Room.goto, Room.dropLk, Wait.holdsPt, Wait.holdsLk]
  · cases own <;> constructor <;> simp_all [Room.goto, Room.dropLk, Wait.holdsPt, Wait.holdsLk]
  · cases own <;> simp_all [Room.goto, Room.dropLk, Room.down, Wait.pending]

theorem Rests.wakeStart (h : Rests own chan r) (hr : r.ready p)
    (hp : r.pc p = .mustWake ∧ r.pt = none ∨ r.pc p = .made ∧ (own = true ∨ r.pt = none)) :
    Rests own chan ({ r with pt := some (.proc p) }.goto p (.waking (decide (r.pc p = Wait.made)))) := by
  have hat := h.each p
  have hlk := hat.lk
  have hpt := hat.pt
  have hone := hat.one
  unfold Room.ready at *
  refine h.move p (fun q hq => ?_) ?_ ?_
  · have hq' := Ne.symm hq
    have hpt' := (h.each q).pt
    rcases hp with ⟨hp, hf⟩ | ⟨hp, hf | hf⟩ <;> constructor <;> simp_all [Room.goto, Wait.holdsPt, Wait.holdsLk]
  · rcases hp with ⟨hp, hf⟩ | ⟨hp, hf | hf⟩ <;> cases own <;> constructor <;>
      simp_all [Room.goto, Wait.holdsPt, Wait.holdsLk]
  · simp_all [Room.goto, Wait.pending]

theorem Rests.wakeEnd (h : Rests own chan r) (hr : r.ready p) {b : Bool} (hp : r.pc p = .woke b) :
    Rests own chan (if r.pc p = .woke true then
      if own then r.goto p .inside else { r with pt := none }.goto p .inside
    else { r with pt := none }.goto p .out) := by
  have hat := h.each p
  have hlk := hat.lk
  have hpt := hat.pt (by rw [hp]; rfl)
  unfold Room.ready at *
  refine h.move p (fun q hq => ?_) ?_ ?_
  · have hq' := Ne.symm hq
    cases own <;> cases b <;> constructor <;> simp_all [Room.goto]
  · cases own <;> cases b <;> constructor <;> simp_all [Room.goto, Wait.holdsPt, Wait.holdsLk]
  · cases own <;> cases b <;> simp_all [Room.goto, Room.down, Wait.pending]

theorem Rests.otherSleep (h : Rests own chan r) (hr : r.ready p) {c : Chan} (hp : r.pc p = .out) (hf : r.pt = none)
    (hc : c ≠ chan) : Rests own chan { r.table (.sleep p c) with
      away := fun q => if q = p then .slept else r.away q, pt := some .sched } := by
  have hv := sleep_view c hr.1
  have hat := h.each p
  unfold Room.ready at *
  refine h.move p (fun q hq => ?_) ?_ ?_
  · constructor <;> simp_all [Room.table]
  · constructor <;> simp_all [Room.table, Wait.holdsPt, Wait.holdsLk]
  · simp_all [Room.table, Room.down, Wait.pending]

theorem Rests.tick (h : Rests own chan r) (hr : r.ready p)
    (hp : r.pc p = .out ∨ r.pc p = .relock ∨ r.pc p = .mustWake) (hf : r.pt = none) :
    Rests own chan (if ((r.table (.tick p)).s.proc p).state = .runnable then
      { r.table (.tick p) with away := fun q => if q = p then .yielded else r.away q, pt := some .sched }
    else r.table (.tick p)) := by
  have hv := tick_view hr.1
  have hvp := (hv p).1 rfl
  have hat := h.each p
  have hone := hat.one
  have hw := hat.woken
  have hlk := hat.lk
  have hpt := hat.pt
  unfold Room.ready at *
  split
  · refine h.move p (fun q hq => ?_) ?_ ?_
    · constructor <;> simp_all [Room.table]
    · rcases hp with hp | hp | hp <;> constructor <;> simp_all [Room.table, Wait.holdsPt, Wait.holdsLk]
    · rcases hp with hp | hp | hp <;> simp_all [Room.table, Room.down, Wait.pending]
  · refine h.move p (fun q hq => ?_) ?_ ?_
    · constructor <;> simp_all [Room.table]
    · rcases hp with hp | hp | hp <;> constructor <;> simp_all [Room.table, Wait.holdsPt, Wait.holdsLk]
    · rcases hp with hp | hp | hp <;> simp_all [Room.table, Room.down, Wait.pending]

theorem Rests.back (h : Rests own chan r) (hr : (r.s.proc p).state = .running) (ha : r.away p ≠ .no) :
    Rests own chan { (if r.away p = .slept then r.table (.sleepReturn p) else r) with
      away := fun q => if q = p then .no else r.away q, pt := none } := by
  have hv := sleepReturn_view hr
  have hat := h.each p
  have hpc := hat.away ha
  have hpt := hat.awayRun ha hr
  have hone := hat.one
  have hw := hat.woken
  by_cases hs : r.away p = .slept
  · rw [if_pos hs]
    refine h.move p (fun q hq => ?_) ?_ ?_
    · have hq' := Ne.symm hq
      constructor <;> simp_all [Room.table]
    · rcases hpc with hp | hp | hp <;> constructor <;> simp_all [Room.table, Wait.holdsPt, Wait.holdsLk]
    · rcases hpc with hp | hp | hp <;> simp_all [Room.table, Room.down, Wait.pending]
  · rw [if_neg hs]
    refine h.move p (fun q hq => ?_) ?_ ?_
    · have hq' := Ne.symm hq
      constructor <;> simp_all
    · rcases hpc with hp | hp | hp <;> constructor <;> simp_all [Wait.holdsPt, Wait.holdsLk]
    · rcases hpc with hp | hp | hp <;> simp_all [Room.down, Wait.pending]

theorem Rests.dispatch (h : Rests own chan r) (hf : r.pt = some .sched) (hp : (r.s.proc p).state = .runnable) :
    Rests own chan { r.table (.dispatch p) with pt := some (.proc (schedScan r.s p).1) } := by
  have hv := dispatch_view hp
  have hrun := schedScan_runnable r.s p hp
  generalize (schedScan r.s p).1 = m at *
  have hat := h.each m
  have hasl := hat.asleep
  have hruns := hat.runs
  have haw := hat.away
  have hone := hat.one
  have hw := hat.woken
  refine h.move m (fun q hq => ?_) ?_ ?_
  · constructor <;> simp_all [Room.table]
  · -- switched out in the sleep of the protocol, or elsewhere
    by_cases hpc : r.pc m = .asleep
    · constructor <;> simp_all [Room.table, Wait.holdsPt, Wait.holdsLk]
    · have ha : r.away m ≠ .no := fun ha => by rw [hruns ha hpc] at hrun; cases hrun
      rcases haw ha with hp | hp | hp <;> constructor <;> simp_all [Room.table, Wait.holdsPt, Wait.holdsLk]
  · simp_all [Room.table, Room.down, Wait.pending]

theorem Rests.sched (h : Rests own chan r) (hf : r.pt = none ∨ r.pt = some .sched) (c : Option Holder) :
    Rests own chan { r with pt := c } := by
  refine ⟨fun q => (h.each q).untouched ?_, h.wakes⟩
  rcases hf with hf | hf <;> constructor <;> simp_all

theorem Rests.rouse (h : Rests own chan r) {P : Fin nproc → Bool} {c : Cause} {a : Act}
    (hv : ∀ q, ((step a r.s).st.proc q).state =
      (if P q = true ∧ (r.s.proc q).state = .sleeping then .runnable else (r.s.proc q).state) ∧
      ((step a r.s).st.proc q).chan = (r.s.proc q).chan)
    (hc : ∀ q, P q = true → (r.s.proc q).chan = chan → goodCause chan (some c)) :
    Rests own chan ((r.rouse P c).table a) := by
  refine ⟨fun q => ?_, fun hco q hq => ?_⟩
  · obtain ⟨hst, hch⟩ := hv q
    have hat := h.each q
    by_cases hq : P q = true ∧ (r.s.proc q).state = .sleeping
    · obtain ⟨h1, h2, h3, h4, h5, h6, h7, h8, h9, h10⟩ := hat
      rw [if_pos hq] at hst
      have hrouse : ((r.rouse P c).table a).cause q = some c := if_pos hq
      rcases h5 hq.2 with hp | hp
      · have hg : goodCause chan (some c) := by
          refine hc q hq.1 ?_
          rcases (h4 hp).2 with ⟨-, hch⟩ | ⟨hs | ⟨hs, -⟩, -⟩
          · exact hch
          · rw [hq.2] at hs; cases hs
          · rw [hq.2] at hs; cases hs
        have haw := (h4 hp).1
        constructor <;> simp_all [Room.rouse, Room.table, Wait.holdsPt, Wait.holdsLk]
      · have ha : r.away q ≠ .no := fun ha => by
          by_cases hp' : r.pc q = .asleep
          · rcases (h4 hp').2 with ⟨-, hch⟩ | ⟨hs | ⟨hs, -⟩, -⟩
            · exact hp.2 hch
            · rw [hq.2] at hs; cases hs
            · rw [hq.2] at hs; cases hs
          · have := h8 ha hp'
            rw [hq.2] at this; cases this
        constructor <;> simp_all [Room.rouse, Room.table, Wait.holdsPt, Wait.holdsLk]
    · refine hat.untouched ⟨rfl, rfl, if_neg hq, ⟨hst.trans (if_neg hq), hch⟩, id, id, fun _ => id⟩
  · refine h.wakes hco q (hq.imp id fun ⟨hp, hs⟩ => ⟨hp, ?_⟩)
    have hst := (hv q).1
    by_cases hq : P q = true ∧ (r.s.proc q).state = .sleeping
    · exact hq.2
    · rw [if_neg hq] at hst
      exact hst.symm.trans hs

theorem Rests.wakeup (h : Rests own chan r) (c : Chan) :
    Rests own chan ((r.rouse (fun q => decide ((r.s.proc q).chan = c)) (.wakeup c)).table (.wakeup c)) := by
  refine h.rouse (fun q => ?_) (fun q hq hch => ?_)
  · obtain ⟨hst, hch⟩ := wakeup_view (s := r.s) c q
    refine ⟨hst.trans ?_, hch⟩
    simp only [decide_eq_true_eq, and_comm]
  · rw [← of_decide_eq_true hq, hch]; exact .inl rfl

/-- **Behind `wakeup1(chan)` nobody is down**: who slept is awake, and who would fall asleep needs `ptable.lock`. -/
theorem Rests.wake (h : Rests own chan r) {b : Bool} (hp : r.pc p = .waking b) :
    Rests own chan (((r.rouse (fun q => decide ((r.s.proc q).chan = chan)) (.wakeup chan)).table (.wakeup chan)).goto p
      (.woke (decide (r.pc p = Wait.waking true)))) := by
  have hw := h.wakeup chan
  have hpt := (h.each p).pt (by rw [hp]; rfl)
  have hatp := hw.each p
  refine ⟨fun q => ?_, fun hco q hq => ?_⟩
  · by_cases hqp : q = p
    · subst hqp
      obtain ⟨h1, h2, h3, h4, h5, h6, h7, h8, h9, h10⟩ := hatp
      cases b <;> constructor <;> simp_all [Room.goto, Room.rouse, Room.table, Wait.holdsPt, Wait.holdsLk]
    · refine (hw.each q).untouched ⟨if_neg hqp, rfl, rfl, ⟨rfl, rfl⟩, id, id, fun _ => id⟩
  · exfalso
    have hqp : q ≠ p := by
      rintro rfl
      unfold Room.down Room.goto at hq
      simp at hq
    have hpcq : ∀ w, (((r.rouse (fun q => decide ((r.s.proc q).chan = chan)) (.wakeup chan)).table (.wakeup chan)).goto p
        (.woke (decide (r.pc p = Wait.waking true)))).pc q = w → r.pc q = w := fun w hw => (if_neg hqp).symm.trans hw
    rcases hq with hq | ⟨hq, hs⟩
    · have := (h.each q).pt (by rw [hpcq _ hq]; rfl)
      rw [hpt] at this
      exact hqp (by simpa using this.symm)
    · -- a sleeper of the protocol is on the channel, so it was woken
      have hst := (wakeup_view (s := r.s) chan q).1
      have hs' : ((step (.wakeup chan) r.s).st.proc q).state = .sleeping := hs
      rcases ((h.each q).asleep (hpcq _ hq)).2 with ⟨h1, h2⟩ | ⟨h1 | ⟨h1, -⟩, -⟩
      · rw [if_pos ⟨h1, h2⟩] at hst
        rw [hst] at hs'; cases hs'
      · rw [hst] at hs'; simp [h1] at hs'
      · rw [hst] at hs'; simp [h1] at hs'

theorem Rests.kill (h : Rests own chan r) (pid : Int) :
    Rests own chan ((r.rouse (fun q => decide (findPid r.s pid = some q)) .kill).table (.kill pid)) := by
  refine h.rouse (fun q => ?_) (fun q _ _ => .inr rfl)
  obtain ⟨hst, hch⟩ := kill_view (s := r.s) pid q
  refine ⟨hst.trans ?_, hch⟩
  simp only [decide_eq_true_eq]

end Steps

/-- **Every step keeps the invariant.** -/
theorem Rests.step (h : Rests own chan r) (a : RoomAct) : Rests own chan (roomStep own chan r a) := by
  unfold roomStep
  split
  case isFalse => exact h
  rename_i hen
  cases a with
  | enter p => exact h.enter hen.1 hen.2.1 hen.2.2
  | test p => exact h.test hen.1 hen.2
  | blockPt p => exact h.blockPt hen.1 hen.2.1 hen.2.2
  | dropLk p => exact h.dropLk hen.1 hen.2
  | fall p => exact h.fall hen.1 hen.2
  | tidy p => exact h.tidy hen.1 hen.2
  | relock p => exact h.relock hen.1 hen.2.1 hen.2.2
  | again p => exact h.again hen.1 hen.2
  | consume p => exact h.consume hen.1 hen.2
  | make p => exact h.make hen.1 hen.2
  | leave p => exact h.leave hen.1 hen.2
  | release p => exact h.release hen.1 hen.2
  | wakeStart p => exact h.wakeStart hen.1 hen.2
  | wake p =>
    obtain ⟨-, b, hp⟩ := hen
    exact h.wake hp
  | wakeEnd p =>
    obtain ⟨hr, b, hp⟩ := hen
    exact h.wakeEnd hr hp
  | kill pid => exact h.kill pid
  | otherWake c => exact h.wakeup c
  | otherSleep p c => exact h.otherSleep hen.1 hen.2.1 hen.2.2.1 hen.2.2.2
  | tick p => exact h.tick hen.1 hen.2.1 hen.2.2
  | back p => exact h.back hen.1 hen.2
  | schedTake => exact h.sched (.inl hen) _
  | schedDrop => exact h.sched (.inr hen) _
  | dispatch p => exact h.dispatch hen.1 hen.2

theorem Room.Start.rests (h : r.Start chan) : Rests own chan r where
  each p := by
    obtain ⟨h1, h2, h3, h4, h5, h6⟩ := h
    have hp := h3 p
    have ha := (h5 p).1
    constructor <;> simp_all [Wait.holdsPt, Wait.holdsLk]
  wakes _ p hp := by
    unfold Room.down at hp
    simp [h.pc p] at hp

theorem roomRun_rests (h : r.Start chan) (acts : List RoomAct) : Rests own chan (roomRun own chan r acts) :=
  List.foldlRecOn acts (roomStep own chan) h.rests (fun _ hs a _ => hs.step a)

/-- **No wakeup is lost**, with `lk` another lock or `ptable.lock` itself: in no state of a run is the condition true
and no call of `wakeup(chan)` to come while a process that found it false sleeps on the channel; and who returns from
`sleep` holds `lk` and was made RUNNABLE by a wakeup on the channel or by `kill`. -/
theorem no_lost_wakeup (own : Bool) (chan : Chan) (r : Room) (h : r.Start chan) (acts : List RoomAct) :
    ¬ ((roomRun own chan r acts).cond = true ∧ (∀ q, ((roomRun own chan r acts).pc q).pending = false) ∧
      ∃ p, (roomRun own chan r acts).pc p = .asleep ∧ ((roomRun own chan r acts).s.proc p).state = .sleeping ∧
        ((roomRun own chan r acts).s.proc p).chan = chan) ∧
    ∀ p, (roomRun own chan r acts).pc p = .returned →
      (if own then (roomRun own chan r acts).pt = some (.proc p) else (roomRun own chan r acts).lk = some p) ∧
      ((roomRun own chan r acts).cause p = some (.wakeup chan) ∨ (roomRun own chan r acts).cause p = some .kill) := by
  have hr : Rests own chan (roomRun own chan r acts) := roomRun_rests h acts
  generalize roomRun own chan r acts = t at hr ⊢
  refine ⟨fun ⟨hc, hn, p, hp, hs, _⟩ => ?_, fun p hp => ⟨?_, (hr.each p).woken (.inr hp)⟩⟩
  · obtain ⟨q, hq⟩ := hr.wakes hc p (.inr ⟨hp, hs⟩)
    rw [hn q] at hq; cases hq
  · cases own with
    | true => exact (hr.each p).pt (by rw [hp]; rfl)
    | false => exact (hr.each p).lk rfl (by rw [hp]; rfl)

/-- Slots 0 and 1 run, on two CPUs; the others are unused. -/
def twoRunning : Room :=
  { s := { boot with proc := fun p => { unusedProc with state := if p.val < 2 then .running else .unused, weight := 1024 } }
    pt := none, lk := none, cond := false, pc := fun _ => .out
    away := fun p => if p.val < 2 then .no else .yielded, cause := fun _ => none }

/-- Slot 0 sleeps until slot 1 makes the condition true, and returns. -/
def sleepThenWake : List RoomAct :=
  [.enter 0, .test 0, .blockPt 0, .dropLk 0, .enter 1, .make 1, .fall 0, .release 1, .schedDrop, .wakeStart 1, .wake 1,
   .wakeEnd 1, .schedTake, .dispatch 0, .tidy 0, .relock 0]

theorem twoRunning_start : twoRunning.Start (.obj 1) := by
  constructor <;> first | rfl | decide

theorem sleepThenWake_returns : (roomRun false (.obj 1) twoRunning sleepThenWake).pc 0 = .returned ∧
    (roomRun false (.obj 1) twoRunning sleepThenWake).lk = some 0 := by
  have hp : (roomRun false (.obj 1) twoRunning sleepThenWake).pc 0 = .returned := by decide +kernel
  exact ⟨hp, ((no_lost_wakeup false (.obj 1) twoRunning twoRunning_start sleepThenWake).2 0 hp).1⟩

end Sched
end Xv6
