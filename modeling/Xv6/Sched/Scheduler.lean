import Xv6.Sched.Vruntime
/-!
# Sched.Scheduler — `scheduler()` on one CPU

`Cpu` is the scheduler's own control: the index of its outer loop while it scans, or the process it has switched to.
`cpuStep` is one turn of the loop, or one timer tick of the process running, and so a step of the interleaving
(`cpuStep_run`) while no process sleeps, forks, exits or changes its nice value.  The inner loop chooses a least virtual
runtime (`schedScan_least`), and with a second process RUNNABLE the slice it computes is zero (`dispatched_timeslice`):
`p->weight / total_weight` is an integer division.
-/
namespace Xv6
namespace Sched

inductive SchedPc where
  | scan (i : Nat)
  | switched (p : Fin nproc)
  deriving DecidableEq

structure Cpu where
  pc : SchedPc
  s  : State

/-- One turn of the scheduler's loops, or one tick of the process it switched to; the process comes back to the
scheduler when the tick ends in `yield`, and the outer loop goes on behind its slot. -/
def cpuStep (c : Cpu) : Cpu :=
  match c.pc with
  | .scan i =>
    if h : i < nproc then
      if (c.s.proc ⟨i, h⟩).state = .runnable then
        ⟨.switched (schedScan c.s ⟨i, h⟩).1, (step (.dispatch ⟨i, h⟩) c.s).st⟩
      else ⟨.scan (i + 1), c.s⟩
    else ⟨.scan 0, c.s⟩
  | .switched p =>
    let s := (step (.tick p) c.s).st
    ⟨if (s.proc p).state = .runnable then .scan (p + 1) else .switched p, s⟩

theorem step_dispatch {s : State} {p : Fin nproc} (hp : (s.proc p).state = .runnable) :
    step (.dispatch p) s = ⟨.ok (), s.setProc (schedScan s p).1
      (dispatched (schedScan s p).2 (s.proc (schedScan s p).1)), []⟩ := by
  have hen : Act.enabled s (.dispatch p) = true := decide_eq_true hp
  unfold step
  rw [Prog.get_bind_run, if_pos hen]
  rfl

theorem step_tick {s : State} {p : Fin nproc} (hp : (s.proc p).state = .running) :
    step (.tick p) s = ⟨.ok (), s.setProc p (ticked (s.proc p)), []⟩ := by
  have hen : Act.enabled s (.tick p) = true := decide_eq_true hp
  unfold step
  rw [Prog.get_bind_run, if_pos hen]
  rfl

theorem step_tick_idle {s : State} {p : Fin nproc} (hp : (s.proc p).state ≠ .running) :
    step (.tick p) s = ⟨.ok (), s, []⟩ := by
  have hen : ¬ Act.enabled s (.tick p) = true := fun h => hp (of_decide_eq_true h)
  unfold step
  rw [Prog.get_bind_run, if_neg hen]
  rfl

/-- **A turn of one CPU is a run of the interleaving**: of no step, one dispatch or one tick. -/
theorem cpuStep_run (c : Cpu) : ∃ acts, (cpuStep c).s = (run acts c.s).st ∧ (run acts c.s).res = .ok () ∧
    (run acts c.s).tr = [] := by
  have hone : ∀ a s', step a c.s = ⟨.ok (), s', []⟩ → run [a] c.s = ⟨.ok (), s', []⟩ := by
    intro a s' h
    show (step a >>= fun _ => pure ()) c.s = _
    rw [Prog.bind_run_ok h]
    rfl
  rcases c with ⟨pc, s⟩
  cases pc with
  | scan i =>
    unfold cpuStep
    dsimp only
    split
    · rename_i h
      split
      · rename_i hp
        exact ⟨[.dispatch ⟨i, h⟩], by rw [hone _ _ (step_dispatch hp), step_dispatch hp],
          by rw [hone _ _ (step_dispatch hp)], by rw [hone _ _ (step_dispatch hp)]⟩
      · exact ⟨[], rfl, rfl, rfl⟩
    · exact ⟨[], rfl, rfl, rfl⟩
  | switched p =>
    by_cases hp : (s.proc p).state = .running
    · refine ⟨[.tick p], ?_, by rw [hone _ _ (step_tick hp)], by rw [hone _ _ (step_tick hp)]⟩
      rw [hone _ _ (step_tick hp)]
      show (step (.tick p) s).st = _
      rw [step_tick hp]
    · refine ⟨[], ?_, rfl, rfl⟩
      show (step (.tick p) s).st = s
      rw [step_tick_idle hp]

theorem TableOk.cpuStep {c : Cpu} (h : TableOk c.s) : TableOk (cpuStep c).s := by
  obtain ⟨acts, hst, hres, htr⟩ := cpuStep_run c
  rw [hst]
  exact (run_ok acts c.s h (fun e he => by rw [htr] at he; cases he)).2 () hres

/-! ## The choice -/

def Proc.key (q : Proc) : Nat := q.vruntimeHigh.toNat * 4294967296 + q.vruntimeLow.toNat

theorem compareVruntime_key (p1 p2 : Proc) : compareVruntime p1 p2 = true ↔ p2.key < p1.key := by
  have h1 := p1.vruntimeLow.isLt
  have h2 := p2.vruntimeLow.isLt
  unfold compareVruntime Proc.key
  simp only [BitVec.lt_def]
  split
  · simp only [true_iff]; omega
  · split
    · simp only [Bool.false_eq_true, false_iff]; omega
    · split
      · simp only [true_iff]; omega
      · simp only [Bool.false_eq_true, false_iff]; omega

theorem vruntime_le_of_key {p1 p2 : Proc} (h1 : p1.vruntimeLow.toNat < 1000000000)
    (h2 : p2.vruntimeLow.toNat < 1000000000) (h : p1.key ≤ p2.key) : p1.vruntime ≤ p2.vruntime := by
  rw [← Nat.not_lt, ← compareVruntime_iff h1 h2, compareVruntime_key, Nat.not_lt]
  exact h

theorem scanStep_key (s : State) (acc : Fin nproc × uint) (t : Fin nproc) :
    (s.proc (scanStep s acc t).1).key ≤ (s.proc acc.1).key ∧
      ((s.proc t).state = .runnable → (s.proc (scanStep s acc t).1).key ≤ (s.proc t).key) := by
  unfold scanStep
  split
  · rename_i ht
    simp only
    split
    · rename_i hc
      rw [compareVruntime_key] at hc
      exact ⟨Nat.le_of_lt hc, fun _ => Nat.le_refl _⟩
    · rename_i hc
      rw [compareVruntime_key, Nat.not_lt] at hc
      exact ⟨Nat.le_refl _, fun _ => hc⟩
  · rename_i ht
    exact ⟨Nat.le_refl _, fun h => absurd h ht⟩

/-- **The process chosen has the least virtual runtime words among the RUNNABLE ones.** -/
theorem schedScan_least (s : State) (p t : Fin nproc) (ht : (s.proc t).state = .runnable) :
    (s.proc (schedScan s p).1).key ≤ (s.proc t).key := by
  have hfold : ∀ (l : List (Fin nproc)) (acc : Fin nproc × uint),
      (s.proc (l.foldl (scanStep s) acc).1).key ≤ (s.proc acc.1).key ∧
        (t ∈ l → (s.proc (l.foldl (scanStep s) acc).1).key ≤ (s.proc t).key) := by
    intro l
    induction l with
    | nil => exact fun acc => ⟨Nat.le_refl _, fun h => by cases h⟩
    | cons x l ih =>
      intro acc
      obtain ⟨h1, h2⟩ := scanStep_key s acc x
      obtain ⟨ih1, ih2⟩ := ih (scanStep s acc x)
      refine ⟨Nat.le_trans ih1 h1, fun hm => ?_⟩
      rcases List.mem_cons.1 hm with rfl | hm
      · exact Nat.le_trans ih1 (h2 ht)
      · exact ih2 hm
  exact (hfold slots (p, 0)).2 (List.mem_finRange t)

/-! ## The slice -/

def share (s : State) (t : Fin nproc) : Nat := if (s.proc t).state = .runnable then (s.proc t).weight.toNat else 0

def Weighed (s : State) : Prop := ∀ p, (s.proc p).state ≠ .unused → (s.proc p).weight ∈ weights

theorem TableOk.weighed {s : State} (h : TableOk s) : Weighed s := fun p hp => (h p hp).weight

theorem Weighed.weight_bounds {s : State} (h : Weighed s) {p : Fin nproc} (hp : (s.proc p).state = .runnable) :
    15 ≤ (s.proc p).weight ∧ (s.proc p).weight ≤ 88761 :=
  weights_bounds _ (h p (by rw [hp]; decide))

theorem Weighed.share_le {s : State} (h : Weighed s) (t : Fin nproc) : share s t ≤ 88761 := by
  unfold share
  split
  · rename_i ht
    have := h.weight_bounds ht
    omega
  · omega

/-- The total the inner loop adds up, before it is reduced modulo `2 ^ 32`. -/
theorem schedScan_total {s : State} (h : Weighed s) (p : Fin nproc) :
    (schedScan s p).2.toNat = ∑ t, share s t := by
  have hfold : ∀ (l : List (Fin nproc)) (acc : Fin nproc × uint),
      (l.foldl (scanStep s) acc).2.toNat = (acc.2.toNat + (l.map (share s)).sum) % 4294967296 := by
    intro l
    induction l with
    | nil => intro acc; simp only [List.foldl_nil, List.map_nil, List.sum_nil]; omega
    | cons t l ih =>
      intro acc
      have hstep : (scanStep s acc t).2.toNat = (acc.2.toNat + share s t) % 4294967296 := by
        unfold scanStep share
        split
        · rename_i ht
          have hb := h.weight_bounds ht
          simp only [BitVec.toNat_add, BitVec.toNat_ofInt]
          omega
        · omega
      rw [List.foldl_cons, ih, hstep, List.map_cons, List.sum_cons]
      omega
  have hle : ∑ t, share s t ≤ ∑ _t : Fin nproc, 88761 := Finset.sum_le_sum (fun t _ => h.share_le t)
  rw [Finset.sum_const, Finset.card_univ, Fintype.card_fin, smul_eq_mul] at hle
  have h64 : nproc * 88761 = 5680704 := by decide
  have h0 : (0 : uint).toNat = 0 := by decide
  have hsum := hfold slots (p, 0)
  unfold schedScan
  rw [hsum, h0, Nat.zero_add, slots, ← Fin.sum_univ_def, Nat.mod_eq_of_lt (by omega)]

/-- **The divisor of the slice is never zero**: the process the scan starts from adds its weight. -/
theorem Weighed.total_ne_zero {s : State} (h : Weighed s) {p : Fin nproc} (hp : (s.proc p).state = .runnable) :
    (schedScan s p).2 ≠ 0 := by
  have hb := h.weight_bounds hp
  have hle : share s p ≤ (schedScan s p).2.toNat := by
    rw [schedScan_total h]
    exact Finset.single_le_sum (f := share s) (fun t _ => Nat.zero_le _) (Finset.mem_univ p)
  unfold share at hle
  rw [if_pos hp] at hle
  intro h0
  rw [h0] at hle
  have h00 : (0 : uint).toNat = 0 := by decide
  omega

/-- **With two processes RUNNABLE every slice is zero**: the weight of the chosen one is below the total. -/
theorem dispatched_timeslice {s : State} (h : TableOk s) {p m t : Fin nproc}
    (hmr : (s.proc m).state = .runnable) (hw : (s.proc m).weight = weightAt (s.proc m).nice)
    (ht : (s.proc t).state = .runnable) (hne : t ≠ m) :
    (dispatched (schedScan s p).2 (s.proc m)).timeslice = 0 := by
  have hbm := h.weighed.weight_bounds hmr
  have hbt := h.weighed.weight_bounds ht
  have hpair : share s t + share s m ≤ (schedScan s p).2.toNat := by
    rw [schedScan_total h.weighed, ← Finset.sum_pair hne]
    exact Finset.sum_le_sum_of_subset (Finset.subset_univ _)
  have hst : share s t = (s.proc t).weight.toNat := by unfold share; rw [if_pos ht]
  have hsm : share s m = (s.proc m).weight.toNat := by unfold share; rw [if_pos hmr]
  have hdiv : BitVec.ofInt 32 (weightAt (s.proc m).nice) / (schedScan s p).2 = 0 := by
    apply BitVec.eq_of_toNat_eq
    rw [BitVec.toNat_udiv, BitVec.toNat_ofInt, ← hw]
    show _ = 0
    exact Nat.div_eq_of_lt (by omega)
  show 10000 * (BitVec.ofInt 32 (weightAt (s.proc m).nice) / (schedScan s p).2) = 0
  rw [hdiv]
  rfl

end Sched
end Xv6
