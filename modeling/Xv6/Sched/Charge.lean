import Xv6.Sched.Share
/-!
# Sched.Charge — what a slice is charged with

A timer tick compares `aruntime - aruntime_prev` with the slice.  `Metered` counts beside the table the ticks of each
process since it was last dispatched.  The difference is 1000 for each of them and what the process carried when it was
dispatched: only the tick that preempts a process sets `aruntime_prev`, so a sleep leaves the ticks before it.
-/
namespace Xv6
namespace Sched

open Prog (Quiet)

structure Metered where
  s       : State
  /-- The ticks since the last dispatch. -/
  since   : Fin nproc → Nat
  /-- `aruntime - aruntime_prev` at the last dispatch. -/
  carried : Fin nproc → uint

def Metered.ticks (m : Metered) (p : Fin nproc) : Metered :=
  { m with since := fun r => if r = p then m.since p + 1 else m.since r }

def Metered.starts (m : Metered) (p : Fin nproc) : Metered :=
  { m with since   := fun r => if r = p then 0 else m.since r
           carried := fun r => if r = p then (m.s.proc p).aruntime - (m.s.proc p).aruntimePrev else m.carried r }

/-- The count of one step, which the table before it decides. -/
def Metered.count (m : Metered) (a : Act) : Metered :=
  match a with
  | .tick p     => if (m.s.proc p).state = .running then m.ticks p else m
  | .dispatch p => if (m.s.proc p).state = .runnable then m.starts (schedScan m.s p).1 else m
  | _           => m

def Metered.next (m : Metered) (a : Act) : Metered := { m.count a with s := (step a m.s).st }

def meterStep (a : Act) : Prog Stop Metered WakeCall Unit := fun m => ⟨(step a m.s).res, m.next a, (step a m.s).tr⟩

def meterRun (acts : List Act) : Prog Stop Metered WakeCall Unit := Prog.forEach acts meterStep

def meterBoot : Metered := ⟨boot, fun _ => 0, fun _ => 0⟩

/-- The tick that `p` is about to get: `temp` is 1000 for each tick since the dispatch, and `p` is preempted if and
only if they have used up its slice. -/
structure TickRight (m : Metered) (p : Fin nproc) : Prop where
  temp   : ((m.s.proc p).aruntime + 1000 - (m.s.proc p).aruntimePrev).toNat = 1000 * (m.since p + 1)
  yields : ((step (.tick p) m.s).st.proc p).state = .runnable ↔ (m.s.proc p).timeslice.toNat ≤ 1000 * (m.since p + 1)

/-- No process is dispatched that still carries ticks of an earlier slice. -/
def StartsFresh (m : Metered) : Act → Prop
  | .dispatch p => (m.s.proc p).state = .runnable →
      (m.s.proc (schedScan m.s p).1).aruntime = (m.s.proc (schedScan m.s p).1).aruntimePrev
  | _ => True

instance (m : Metered) : (a : Act) → Decidable (StartsFresh m a)
  | .dispatch _ => inferInstanceAs (Decidable (_ → _))
  | .userinit | .allocproc | .allocFail _ | .forkCopy .. | .ready _ | .sleep .. | .sleepReturn _ | .wakeup _ | .kill _
  | .setnice .. | .exit _ | .wait _ | .tick _ => isTrue trivial

/-! ## What a step leaves of the charge -/

def charge (s : State) : Fin nproc → uint × uint × uint :=
  fun r => ((s.proc r).aruntime, (s.proc r).aruntimePrev, (s.proc r).timeslice)

theorem update_charge (p : Fin nproc) {f : Proc → Proc} (h : ∀ q, (f q).aruntime = q.aruntime ∧
    (f q).aruntimePrev = q.aruntimePrev ∧ (f q).timeslice = q.timeslice) : Quiet charge (fun _ => True) (update p f) := by
  refine Quiet.modify fun s => ?_
  funext r
  unfold charge
  rw [setProc_proc]
  split
  · rename_i hr
    rw [hr, (h _).1, (h _).2.1, (h _).2.2]
  · rfl

theorem wakeup1_charge (chan : Chan) : Quiet charge (fun _ => True) (wakeup1 chan) := by
  refine Quiet.get.bind fun s => (Quiet.emit trivial).bind fun _ => Quiet.modify fun t => ?_
  funext r
  unfold charge
  dsimp only
  split
  · rw [woken_eq]
  · rfl

theorem exit_charge (c : Fin nproc) : Quiet charge (fun _ => True) (exit c) := by
  refine Quiet.get.bind fun s => Quiet.ite (fun _ => Quiet.stop _) fun _ => (wakeup1_charge _).bind fun _ => ?_
  refine Quiet.bind (Quiet.forEach slots fun p _ => ?_) fun _ => update_charge c fun _ => ⟨rfl, rfl, rfl⟩
  refine Quiet.get.bind fun t => Quiet.ite (fun _ => ?_) fun _ => Quiet.pure ()
  refine Quiet.bind (update_charge p fun _ => ⟨rfl, rfl, rfl⟩) fun _ => ?_
  exact Quiet.ite (fun _ => wakeup1_charge _) fun _ => Quiet.pure ()

/-- **A process runs on with its charge** over every step but its own tick and the dispatch that chooses it. -/
theorem step_charge {a : Act} {s : State} {r : Fin nproc} (hr : ((step a s).st.proc r).state = .running)
    (ht : a ≠ .tick r) (hd : ∀ p, a = .dispatch p → (s.proc p).state = .runnable → (schedScan s p).1 ≠ r) :
    (s.proc r).state = .running ∧ charge (step a s).st r = charge s r := by
  have hexit : ∀ c, a = .exit c → charge (step a s).st r = charge s r := by
    intro c ha
    subst ha
    rw [step_run]
    split
    · exact congrFun (exit_charge c s).1 r
    · rfl
  have h := step_change a s r
  generalize hq : (step a s).st.proc r = q at h hr
  have hcharge : q.aruntime = (s.proc r).aruntime → q.aruntimePrev = (s.proc r).aruntimePrev →
      q.timeslice = (s.proc r).timeslice → charge (step a s).st r = charge s r := by
    intro h1 h2 h3
    unfold charge
    rw [hq, h1, h2, h3]
  cases h with
  | same => exact ⟨hr, hcharge rfl rfl rfl⟩
  | userinit => cases hr
  | alloc => cases hr
  | fail => cases hr
  | copy _ c f he =>
    have : (copied c (s.proc c) (s.proc r) f).state = (s.proc r).state := by cases f <;> rfl
    rw [this, he] at hr
    cases hr
  | ready => cases hr
  | sleep => cases hr
  | sleepReturn _ he => exact ⟨he, hcharge rfl rfl rfl⟩
  | wakeup =>
    rw [woken_eq] at hr
    cases hr
  | kill =>
    unfold killedProc at hr
    dsimp only at hr
    split at hr
    · cases hr
    · exact ⟨hr, hcharge rfl rfl rfl⟩
  | setnice => exact ⟨hr, hcharge rfl rfl rfl⟩
  | exit c _ _ _ _ hx =>
    by_cases hrc : r = c
    · rw [hx.self hrc] at hr
      cases hr
    · refine ⟨?_, hexit c rfl⟩
      by_cases hrouse : roused s c slots (s.proc r)
      · rw [hx.woken hrc hrouse] at hr
        cases hr
      · rw [← hx.other hrc hrouse]
        exact hr
  | wait => cases hr
  | tick => exact absurd rfl ht
  | dispatch p _ hp hm => exact absurd hm (hd p rfl hp)

/-! ## One tick, one dispatch -/

theorem ticked_charge (q : Proc) : (ticked q).aruntime = q.aruntime + 1000 ∧ (ticked q).timeslice = q.timeslice ∧
    (q.timeslice ≤ q.aruntime + 1000 - q.aruntimePrev → (ticked q).state = .runnable) ∧
    (¬ q.timeslice ≤ q.aruntime + 1000 - q.aruntimePrev → (ticked q).state = q.state ∧
      (ticked q).aruntimePrev = q.aruntimePrev) := by
  unfold ticked
  dsimp only
  split
  · rename_i h
    exact ⟨rfl, rfl, fun _ => rfl, fun hn => absurd h hn⟩
  · rename_i h
    exact ⟨rfl, rfl, fun hy => absurd hy h, fun _ => ⟨rfl, rfl⟩⟩

theorem weightAt_le (nice : Int) : 0 ≤ weightAt nice ∧ weightAt nice ≤ 88761 := by
  by_cases h : 0 ≤ nice ∧ nice ≤ 39
  · have := weights_bounds _ (weightAt_mem h.1 h.2)
    omega
  · have hlen : weights.length = 40 := by decide
    have hz : weightAt nice = 0 := by
      unfold weightAt
      split
      · rw [List.getD_eq_default]
        omega
      · rfl
    rw [hz]
    decide

theorem timeslice_le (total : uint) (q : Proc) : (dispatched total q).timeslice.toNat ≤ 887610000 := by
  obtain ⟨h0, h1⟩ := weightAt_le q.nice
  have hq : (BitVec.ofInt 32 (weightAt q.nice)).toNat / total.toNat ≤ (BitVec.ofInt 32 (weightAt q.nice)).toNat :=
    Nat.div_le_self _ _
  have hw : (BitVec.ofInt 32 (weightAt q.nice)).toNat ≤ 88761 := by
    rw [BitVec.toNat_ofInt]
    omega
  have h10 : (10000 : uint).toNat = 10000 := by decide
  show (10000 * (BitVec.ofInt 32 (weightAt q.nice) / total)).toNat ≤ 887610000
  rw [BitVec.toNat_mul, BitVec.toNat_udiv, h10]
  refine (Nat.mod_le _ _).trans ?_
  omega

/-! ## Runs -/

/-- The count and the accounting of a process agree, up to what it carried. -/
structure CountedAt (m : Metered) (p : Fin nproc) : Prop where
  charged : (m.s.proc p).aruntime - (m.s.proc p).aruntimePrev = m.carried p + BitVec.ofNat 32 (1000 * m.since p)
  within  : m.carried p = 0 → m.since p = 0 ∨ 1000 * m.since p < (m.s.proc p).timeslice.toNat
  slice   : (m.s.proc p).timeslice.toNat ≤ 887610000

def Counted (m : Metered) : Prop := ∀ p, (m.s.proc p).state = .running → CountedAt m p

variable {m : Metered} {p : Fin nproc}

theorem Counted.temp (h : Counted m) (hp : (m.s.proc p).state = .running) :
    (m.s.proc p).aruntime + 1000 - (m.s.proc p).aruntimePrev = m.carried p + BitVec.ofNat 32 (1000 * (m.since p + 1)) := by
  have hsum : (m.s.proc p).aruntime + 1000 - (m.s.proc p).aruntimePrev =
      (m.s.proc p).aruntime - (m.s.proc p).aruntimePrev + 1000 := by
    rw [BitVec.sub_eq_add_neg, BitVec.sub_eq_add_neg, BitVec.add_assoc, BitVec.add_assoc, BitVec.add_comm 1000]
  have hofNat : BitVec.ofNat 32 (1000 * (m.since p + 1)) = BitVec.ofNat 32 (1000 * m.since p) + 1000 := by
    rw [Nat.mul_add, BitVec.ofNat_add]
    rfl
  rw [hsum, hofNat, (h p hp).charged, BitVec.add_assoc]

theorem Counted.small (h : Counted m) (hp : (m.s.proc p).state = .running) (hc : m.carried p = 0) :
    1000 * (m.since p + 1) < 4294967296 := by
  have hs := (h p hp).slice
  rcases (h p hp).within hc with h0 | hlt
  · rw [h0]
    decide
  · omega

theorem Counted.tickRight_iff (h : Counted m) (hp : (m.s.proc p).state = .running) :
    TickRight m p ↔ m.carried p = 0 := by
  have htemp := h.temp hp
  constructor
  · intro ht
    have hof : BitVec.ofNat 32 (1000 * (m.since p + 1)) =
        (m.s.proc p).aruntime + 1000 - (m.s.proc p).aruntimePrev := by
      rw [← ht.temp, BitVec.ofNat_toNat, BitVec.setWidth_eq]
    rw [hof] at htemp
    exact BitVec.self_eq_add_left.1 htemp
  · intro hc
    have hsmall := h.small hp hc
    have hnat : ((m.s.proc p).aruntime + 1000 - (m.s.proc p).aruntimePrev).toNat = 1000 * (m.since p + 1) := by
      rw [htemp, hc]
      show (0#32 + BitVec.ofNat 32 (1000 * (m.since p + 1))).toNat = _
      rw [BitVec.zero_add, BitVec.toNat_ofNat]
      exact Nat.mod_eq_of_lt hsmall
    refine ⟨hnat, ?_⟩
    obtain ⟨-, -, hyield, hstay⟩ := ticked_charge (m.s.proc p)
    rw [step_tick hp]
    dsimp only
    rw [setProc_proc, if_pos rfl, ← hnat, ← BitVec.le_def]
    constructor
    · intro hrun
      by_contra hnot
      rw [(hstay hnot).1, hp] at hrun
      cases hrun
    · exact hyield

theorem next_kept {a : Act} {r : Fin nproc} (ht : a ≠ .tick r)
    (hd : ∀ p, a = .dispatch p → (m.s.proc p).state = .runnable → (schedScan m.s p).1 ≠ r) :
    (m.next a).since r = m.since r ∧ (m.next a).carried r = m.carried r := by
  cases a with
  | tick p =>
    have hpr : r ≠ p := fun h => ht (h ▸ rfl)
    unfold Metered.next Metered.count
    dsimp only
    split
    · exact ⟨if_neg hpr, rfl⟩
    · exact ⟨rfl, rfl⟩
  | dispatch p =>
    unfold Metered.next Metered.count
    dsimp only
    split
    · rename_i hp
      have hcr : r ≠ (schedScan m.s p).1 := fun h => hd p rfl hp h.symm
      exact ⟨if_neg hcr, if_neg hcr⟩
    · exact ⟨rfl, rfl⟩
  | _ => exact ⟨rfl, rfl⟩

theorem Counted.tick (h : Counted m) (hp : (m.s.proc p).state = .running)
    (hr : (((m.next (.tick p)).s).proc p).state = .running) : CountedAt (m.next (.tick p)) p := by
  obtain ⟨hrun, hslice, hyield, hstay⟩ := ticked_charge (m.s.proc p)
  have hproc : (m.next (.tick p)).s.proc p = ticked (m.s.proc p) := by
    show (step (.tick p) m.s).st.proc p = _
    rw [step_tick hp]
    dsimp only
    rw [setProc_proc, if_pos rfl]
  have hcount : m.count (.tick p) = m.ticks p := if_pos hp
  have hsince : (m.next (.tick p)).since p = m.since p + 1 := by
    show (m.count (.tick p)).since p = _
    rw [hcount]
    exact if_pos rfl
  have hcarried : (m.next (.tick p)).carried p = m.carried p := by
    show (m.count (.tick p)).carried p = _
    rw [hcount]
    rfl
  rw [hproc] at hr
  have hnot : ¬ (m.s.proc p).timeslice ≤ (m.s.proc p).aruntime + 1000 - (m.s.proc p).aruntimePrev := by
    intro hle
    rw [hyield hle] at hr
    cases hr
  refine ⟨?_, fun hc => .inr ?_, ?_⟩
  · rw [hproc, hsince, hcarried, hrun, (hstay hnot).2, h.temp hp]
  · rw [hcarried] at hc
    have htemp := ((h.tickRight_iff hp).2 hc).temp
    rw [BitVec.le_def, htemp] at hnot
    rw [hsince, hproc, hslice]
    exact Nat.lt_of_not_le hnot
  · rw [hproc, hslice]
    exact (h p hp).slice

theorem starts_at (hp : (m.s.proc p).state = .runnable) :
    CountedAt (m.next (.dispatch p)) (schedScan m.s p).1 := by
  have hproc : (m.next (.dispatch p)).s.proc (schedScan m.s p).1 =
      dispatched (schedScan m.s p).2 (m.s.proc (schedScan m.s p).1) := by
    show (step (.dispatch p) m.s).st.proc _ = _
    rw [step_dispatch hp]
    dsimp only
    rw [setProc_proc, if_pos rfl]
  have hcount : m.count (.dispatch p) = m.starts (schedScan m.s p).1 := if_pos hp
  have hsince : (m.next (.dispatch p)).since (schedScan m.s p).1 = 0 := by
    show (m.count (.dispatch p)).since _ = 0
    rw [hcount]
    exact if_pos rfl
  have hcarried : (m.next (.dispatch p)).carried (schedScan m.s p).1 =
      (m.s.proc (schedScan m.s p).1).aruntime - (m.s.proc (schedScan m.s p).1).aruntimePrev := by
    show (m.count (.dispatch p)).carried _ = _
    rw [hcount]
    exact if_pos rfl
  refine ⟨?_, fun _ => .inl hsince, ?_⟩
  · rw [hproc, hsince, hcarried]
    show (m.s.proc _).aruntime - (m.s.proc _).aruntimePrev = _ + 0#32
    rw [BitVec.add_zero]
  · rw [hproc]
    exact timeslice_le _ _

theorem Counted.next (h : Counted m) (a : Act) : Counted (m.next a) := by
  intro r hr
  by_cases ht : a = .tick r
  · subst ht
    by_cases hp : (m.s.proc r).state = .running
    · exact h.tick hp hr
    · have hidle : (m.next (.tick r)).s.proc r = m.s.proc r := by
        show (step (.tick r) m.s).st.proc r = _
        rw [step_tick_idle hp]
      rw [hidle] at hr
      exact absurd hr hp
  · by_cases hd : ∀ p, a = .dispatch p → (m.s.proc p).state = .runnable → (schedScan m.s p).1 ≠ r
    · obtain ⟨hrun, hcharge⟩ := step_charge hr ht hd
      obtain ⟨hsince, hcarried⟩ := next_kept ht hd
      have hat := h r hrun
      have ha : (m.next a).s.proc r = (step a m.s).st.proc r := rfl
      unfold charge at hcharge
      rw [Prod.mk.injEq, Prod.mk.injEq] at hcharge
      obtain ⟨h1, h2, h3⟩ := hcharge
      refine ⟨?_, ?_, ?_⟩
      · rw [ha, h1, h2, hsince, hcarried]
        exact hat.charged
      · rw [ha, h3, hsince, hcarried]
        exact hat.within
      · rw [ha, h3]
        exact hat.slice
    · push Not at hd
      obtain ⟨p, rfl, hp, rfl⟩ := hd
      exact starts_at hp

theorem meterBoot_counted : Counted meterBoot := fun p hp => by cases hp

/-- A process running has carried nothing over from an earlier slice. -/
def Clean (m : Metered) : Prop := ∀ p, (m.s.proc p).state = .running → m.carried p = 0

theorem Clean.next (h : Clean m) {a : Act} (ha : StartsFresh m a) : Clean (m.next a) := by
  intro r hr
  by_cases hd : ∀ p, a = .dispatch p → (m.s.proc p).state = .runnable → (schedScan m.s p).1 ≠ r
  · by_cases ht : a = .tick r
    · subst ht
      by_cases hp : (m.s.proc r).state = .running
      · have hcount : m.count (.tick r) = m.ticks r := if_pos hp
        show (m.count (.tick r)).carried r = 0
        rw [hcount]
        exact h r hp
      · have hidle : (m.next (.tick r)).s.proc r = m.s.proc r := by
          show (step (.tick r) m.s).st.proc r = _
          rw [step_tick_idle hp]
        rw [hidle] at hr
        exact absurd hr hp
    · rw [(next_kept ht hd).2]
      exact h r (step_charge hr ht hd).1
  · push Not at hd
    obtain ⟨p, rfl, hp, rfl⟩ := hd
    have hcount : m.count (.dispatch p) = m.starts (schedScan m.s p).1 := if_pos hp
    show (m.count (.dispatch p)).carried _ = 0
    rw [hcount]
    refine (if_pos rfl).trans ?_
    rw [ha hp]
    exact BitVec.sub_self _

theorem meterRun_st (acts : List Act) : ∀ m : Metered,
    (meterRun acts m).res = (run acts m.s).res ∧ (meterRun acts m).st.s = (run acts m.s).st := by
  induction acts with
  | nil => exact fun m => ⟨rfl, rfl⟩
  | cons a acts ih =>
    intro m
    show ((meterStep a >>= fun _ => meterRun acts) m).res = ((step a >>= fun _ => run acts) m.s).res ∧
      ((meterStep a >>= fun _ => meterRun acts) m).st.s = ((step a >>= fun _ => run acts) m.s).st
    rw [Prog.bind_run, Prog.bind_run]
    unfold meterStep Metered.next
    cases hs : step a m.s with
    | mk r t tr =>
      cases r with
      | error e => exact ⟨rfl, rfl⟩
      | ok _ => exact ih _

theorem meterRun_counted (acts : List Act) : Counted (meterRun acts meterBoot).st :=
  (Prog.forEach_admits (C := fun _ _ => True) (I := Counted) (R := fun _ => True)
    (fun a _ h _ => ⟨fun _ _ => trivial, h.next a⟩) acts meterBoot meterBoot_counted
    (Prog.admits_of_forall (fun _ _ => trivial) acts meterBoot)).2

/-- **A slice is charged with its own ticks** in every run that dispatches no process with ticks of an earlier slice;
and in any run the next tick of a process is right if and only if it carried none. -/
theorem run_charge (acts : List Act) :
    (∀ p, ((meterRun acts meterBoot).st.s.proc p).state = .running →
      (TickRight (meterRun acts meterBoot).st p ↔ (meterRun acts meterBoot).st.carried p = 0)) ∧
    (Prog.Admits StartsFresh meterStep acts meterBoot → ∀ p, ((meterRun acts meterBoot).st.s.proc p).state = .running →
      TickRight (meterRun acts meterBoot).st p) := by
  have hcount := meterRun_counted acts
  refine ⟨fun p hp => hcount.tickRight_iff hp, fun h p hp => (hcount.tickRight_iff hp).2 ?_⟩
  have hclean : Clean meterBoot := fun p hp => by cases hp
  exact (Prog.forEach_admits (I := Clean) (R := fun _ => True)
    (fun _ _ hm ha => ⟨fun _ _ => trivial, hm.next ha⟩) acts meterBoot hclean h).2 p hp

def threeTicks : List Act := [.userinit, .dispatch 0, .tick 0, .tick 0, .tick 0]

theorem threeTicks_charge : TickRight (meterRun threeTicks meterBoot).st 0 :=
  (run_charge threeTicks).2 (by decide +kernel) 0 (by decide +kernel)

/-- init gets a tick, sleeps, is woken and dispatched again: its next tick finds two, not one. -/
def tickAndSleep : List Act := [.userinit, .dispatch 0, .tick 0, .sleep 0 (.obj 1), .wakeup (.obj 1), .dispatch 0]

theorem tickAndSleep_charge : ((meterRun tickAndSleep meterBoot).st.s.proc 0).state = .running ∧
    (meterRun tickAndSleep meterBoot).st.since 0 = 0 ∧ ¬ TickRight (meterRun tickAndSleep meterBoot).st 0 := by
  refine ⟨by decide +kernel, by decide +kernel, fun h => ?_⟩
  have htemp := h.temp
  exact absurd htemp (by decide +kernel)

end Sched
end Xv6
