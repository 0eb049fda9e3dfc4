import Xv6.Sched.Change
import Xv6.Sched.Scheduler
/-!
# Sched.Weights — nice values, weights and the divisions that rest on them

Whatever the interleaving, a used slot has a nice value of the range and a weight of the table (`run_ranged`), so no
division by a weight or by their sum is one by zero.  That the weight is the one of the slot's own nice value is another
matter: `setnice` writes the two together under the lock, `fork` copies them by two stores without it.  Between the
stores the child has its parent's nice value and its own weight, and a `setnice` of either process in that window is
left in the child for good.  `step_agree_iff` says that those two stores are the only steps that can break the
agreement, and exactly when they do.
-/
namespace Xv6
namespace Sched

/-- A nice value of the range, and a weight of the table. -/
structure Proc.Ranged (q : Proc) : Prop where
  nonneg : 0 ≤ q.nice
  le39   : q.nice ≤ 39
  weight : q.weight ∈ weights

/-- The weight is positive and the one of the nice value. -/
structure Proc.Agrees (q : Proc) : Prop where
  nonneg : 0 ≤ q.nice
  le39   : q.nice ≤ 39
  weight : q.weight = weightAt q.nice
  pos    : 0 < q.weight

def Ranged (s : State) : Prop := ∀ p, (s.proc p).state ≠ .unused → (s.proc p).Ranged

def WeightsAgree (s : State) : Prop := ∀ p, (s.proc p).state ≠ .unused → (s.proc p).Agrees

/-- The stores of `fork` that copy `nice` and `weight` find the two processes with one nice value. -/
def Synced (s : State) : Act → Prop
  | .forkCopy np c f => f = .nice ∨ f = .weight → (s.proc np).state = .embryo → (s.proc c).state = .running →
      (s.proc np).nice = (s.proc c).nice
  | _ => True

instance (s : State) : ∀ a : Act, Decidable (Synced s a)
  | .forkCopy np c f => inferInstanceAs (Decidable (f = .nice ∨ f = .weight → (s.proc np).state = .embryo →
      (s.proc c).state = .running → (s.proc np).nice = (s.proc c).nice))
  | .userinit | .allocproc | .allocFail _ | .ready _ | .sleep .. | .sleepReturn _ | .wakeup _ | .kill _ | .setnice ..
  | .exit _ | .wait _ | .tick _ | .dispatch _ => isTrue trivial

/-! ## ps -/

structure PsLine where
  pid          : Int
  state        : ProcState
  nice         : Int
  perWeight    : uint
  aruntime     : uint
  vruntimeHigh : uint
  vruntimeLow  : uint

/-- One line of `ps`; the quotient `p->aruntime / p->weight` is unsigned. -/
def psLine (q : Proc) : PsLine :=
  { pid := q.pid, state := q.state, nice := q.nice, perWeight := q.aruntime / BitVec.ofInt 32 q.weight,
    aruntime := q.aruntime, vruntimeHigh := q.vruntimeHigh, vruntimeLow := q.vruntimeLow }

/-- The slots `ps` prints: of one pid the first that is in use, of pid 0 every one in use. -/
def psSlots (s : State) (pid : Int) : List (Fin nproc) :=
  if pid < 0 then []
  else if pid ≠ 0 then
    (slots.find? (fun p => decide ((s.proc p).pid = pid) && decide ((s.proc p).state ≠ .unused))).toList
  else slots.filter (fun p => decide ((s.proc p).state ≠ .unused))

def ps (s : State) (pid : Int) : List PsLine := (psSlots s pid).map (fun p => psLine (s.proc p))

/-! ## What the divisions and the lookups rest on -/

/-- A step taken at `s` divides by no zero and reads `weights` inside its bounds: `trap` divides by the weight of the
running process, `wakeup1` by those of the sleepers it wakes, the scheduler by the total, and `ps` by the weights of
the slots it prints. -/
structure Defined (s : State) (a : Act) : Prop where
  wakeup   : ∀ e ∈ (step a s).tr, ∀ p, sleepsOn e.chan (e.s.proc p) = true → (e.s.proc p).weight ≠ 0
  trap     : ∀ p, a = .tick p → (s.proc p).state = .running → (s.proc p).weight ≠ 0
  total    : ∀ p, a = .dispatch p → (s.proc p).state = .runnable → (schedScan s p).2 ≠ 0
  inBounds : ∀ p, a = .dispatch p → (s.proc p).state = .runnable →
    0 ≤ (s.proc (schedScan s p).1).nice ∧ (s.proc (schedScan s p).1).nice < weights.length
  ps       : ∀ pid, ∀ p ∈ psSlots s pid, BitVec.ofInt 32 (s.proc p).weight ≠ 0

/-! ## One step -/

/-- How a step may leave the nice value and the weight of a slot in use. -/
inductive Renice (s : State) (a : Act) (r : Fin nproc) (q : Proc) : Prop
  | kept : (s.proc r).state ≠ .unused → q.nice = (s.proc r).nice → q.weight = (s.proc r).weight → Renice s a r q
  | set (v : Int) : 0 ≤ v ∧ v ≤ 39 ∨ (s.proc r).state ≠ .unused ∧ v = (s.proc r).nice → q.nice = v →
      q.weight = weightAt v → Renice s a r q
  | nice (c : Fin nproc) : a = .forkCopy r c .nice → (s.proc r).state = .embryo → (s.proc c).state = .running →
      q.nice = (s.proc c).nice → q.weight = (s.proc r).weight → Renice s a r q
  | weight (c : Fin nproc) : a = .forkCopy r c .weight → (s.proc r).state = .embryo → (s.proc c).state = .running →
      q.nice = (s.proc r).nice → q.weight = (s.proc c).weight → Renice s a r q

theorem Change.renice {s : State} {a : Act} {r : Fin nproc} {q : Proc} (h : Change s a r q) (hu : q.state ≠ .unused) :
    Renice s a r q := by
  cases h with
  | same => exact .kept hu rfl rfl
  | userinit => exact .set 20 (.inl (by decide)) rfl rfl
  | alloc => exact .set 20 (.inl (by decide)) rfl rfl
  | fail => exact absurd rfl hu
  | copy _ c f he hc =>
    have hr := used_of he (by decide)
    cases f with
    | nice => exact .nice c rfl he hc rfl rfl
    | weight => exact .weight c rfl he hc rfl rfl
    | _ => exact .kept hr rfl rfl
  | ready _ he => exact .kept (used_of he (by decide)) rfl rfl
  | sleep _ _ he => exact .kept (used_of he (by decide)) rfl rfl
  | sleepReturn _ he => exact .kept (used_of he (by decide)) rfl rfl
  | wakeup _ _ he _ =>
    obtain ⟨-, hn, hw, -⟩ := woken_kept (minRunnable s) (s.proc r)
    exact .kept (used_of he (by decide)) hn hw
  | kill =>
    refine .kept (fun he => hu ?_) rfl rfl
    unfold killedProc
    dsimp only
    rw [he]
    rfl
  | setnice _ v _ h0 h1 _ _ => exact .set v (.inl ⟨h0, h1⟩) rfl rfl
  | exit c _ _ hc _ hx => exact .kept (hx.used hc hu) hx.nice hx.weight
  | wait => exact absurd rfl hu
  | tick _ he => exact .kept (used_of he (by decide)) (ticked_nice _) (ticked_weight _)
  | dispatch p _ hp hm =>
    have hrun := schedScan_runnable s p hp
    rw [hm] at hrun
    exact .set _ (.inr ⟨used_of hrun (by decide), rfl⟩) rfl rfl

theorem Ranged.step {s : State} (h : Ranged s) (a : Act) : Ranged (step a s).st := by
  intro r hu
  rcases (step_change a s r).renice hu with ⟨hr, hn, hw⟩ | ⟨v, hv, hn, hw⟩ | ⟨c, -, he, hc, hn, hw⟩ | ⟨c, -, he, hc, hn, hw⟩
  · exact ⟨hn ▸ (h r hr).nonneg, hn ▸ (h r hr).le39, hw ▸ (h r hr).weight⟩
  · have hb : 0 ≤ v ∧ v ≤ 39 := hv.elim id (fun hr => hr.2 ▸ ⟨(h r hr.1).nonneg, (h r hr.1).le39⟩)
    exact ⟨hn ▸ hb.1, hn ▸ hb.2, hw ▸ weightAt_mem hb.1 hb.2⟩
  · have hr' := h r (used_of he (by decide))
    have hc' := h c (used_of hc (by decide))
    exact ⟨hn ▸ hc'.nonneg, hn ▸ hc'.le39, hw ▸ hr'.weight⟩
  · have hr' := h r (used_of he (by decide))
    have hc' := h c (used_of hc (by decide))
    exact ⟨hn ▸ hr'.nonneg, hn ▸ hr'.le39, hw ▸ hc'.weight⟩

theorem weights_nodup : weights.Nodup := by decide

theorem weightAt_eq {v : Int} (h0 : 0 ≤ v) (h1 : v ≤ 39) :
    ∃ h : v.toNat < weights.length, weightAt v = weights[v.toNat] := by
  have hlen : weights.length = 40 := by decide
  have hlt : v.toNat < weights.length := by omega
  refine ⟨hlt, ?_⟩
  unfold weightAt
  rw [if_pos h0, List.getD_eq_getElem?_getD, List.getElem?_eq_getElem hlt, Option.getD_some]

theorem weightAt_inj {v w : Int} (hv : 0 ≤ v ∧ v ≤ 39) (hw : 0 ≤ w ∧ w ≤ 39) (h : weightAt v = weightAt w) : v = w := by
  obtain ⟨hlv, hev⟩ := weightAt_eq hv.1 hv.2
  obtain ⟨hlw, hew⟩ := weightAt_eq hw.1 hw.2
  rw [hev, hew, weights_nodup.getElem_inj_iff] at h
  omega

theorem Proc.Agrees.of_weight {q : Proc} (h0 : 0 ≤ q.nice) (h1 : q.nice ≤ 39) (hw : q.weight = weightAt q.nice) : q.Agrees :=
  ⟨h0, h1, hw, by rw [hw]; have := weights_bounds _ (weightAt_mem h0 h1); omega⟩

theorem WeightsAgree.ranged {s : State} (h : WeightsAgree s) : Ranged s := fun p hp =>
  ⟨(h p hp).nonneg, (h p hp).le39, (h p hp).weight ▸ weightAt_mem (h p hp).nonneg (h p hp).le39⟩

theorem WeightsAgree.step {s : State} (h : WeightsAgree s) {a : Act} (ha : Synced s a) : WeightsAgree (step a s).st := by
  intro r hu
  have hrange := h.ranged.step a r hu
  refine .of_weight hrange.nonneg hrange.le39 ?_
  rcases (step_change a s r).renice hu with ⟨hr, hn, hw⟩ | ⟨v, hv, hn, hw⟩ | ⟨c, rfl, he, hc, hn, hw⟩ |
    ⟨c, rfl, he, hc, hn, hw⟩
  · rw [hn, hw]; exact (h r hr).weight
  · rw [hn, hw]
  · rw [hn, hw, ← ha (.inl rfl) he hc]
    exact (h r (used_of he (by decide))).weight
  · rw [hn, hw, ha (.inr rfl) he hc]
    exact (h c (used_of hc (by decide))).weight

/-- **From weights that agree, the stores of `fork` are the only steps that can break the agreement**, and they do
exactly when parent and child have different nice values. -/
theorem step_agree_iff {s : State} (h : WeightsAgree s) (a : Act) : WeightsAgree (step a s).st ↔ Synced s a := by
  refine ⟨fun hs => ?_, h.step⟩
  cases a with
  | forkCopy np c f =>
    intro hf he hc
    have hst : (step (.forkCopy np c f) s).st.proc np = copied c (s.proc c) (s.proc np) f := by
      rw [step_run, if_pos (by simp [Act.enabled, he, hc])]
      show (if np = np then _ else _) = _
      rw [if_pos rfl]
      cases f <;> rfl
    have hnp := h np (used_of he (by decide))
    have hcc := h c (used_of hc (by decide))
    have hused : ((step (.forkCopy np c f) s).st.proc np).state ≠ .unused := by
      rw [hst]
      cases f <;> exact used_of he (by decide)
    have hw := (hs np hused).weight
    rw [hst] at hw
    rcases hf with rfl | rfl
    · exact weightAt_inj ⟨hnp.nonneg, hnp.le39⟩ ⟨hcc.nonneg, hcc.le39⟩ (hnp.weight.symm.trans hw)
    · exact weightAt_inj ⟨hnp.nonneg, hnp.le39⟩ ⟨hcc.nonneg, hcc.le39⟩ (hw.symm.trans hcc.weight)
  | _ => trivial

/-! ## Divisions -/

theorem weights_ofInt : ∀ w ∈ weights, BitVec.ofInt 32 w ≠ 0 := by decide

theorem psSlots_used {s : State} {pid : Int} {p : Fin nproc} (h : p ∈ psSlots s pid) : (s.proc p).state ≠ .unused := by
  unfold psSlots at h
  split at h
  · cases h
  · split at h
    · have hf := find_slots (Option.mem_toList.1 h)
      simp only [Bool.and_eq_true, decide_eq_true_eq] at hf
      exact hf.2
    · exact of_decide_eq_true (List.mem_filter.1 h).2

/-- **With weights of the table and nice values of the range, every division and every lookup is defined.** -/
theorem Ranged.defined {s : State} (h : Ranged s) (a : Act) : Defined s a where
  wakeup e he p hp := by
    obtain ⟨hw, hst⟩ := step_wakeCall a s he p
    have hr := h p (used_of (hst (sleepsOn_iff.1 hp).1) (by decide))
    have hb := weights_bounds _ hr.weight
    rw [hw]
    omega
  trap p _ hp := by
    have hb := weights_bounds _ (h p (used_of hp (by decide))).weight
    omega
  total p _ hp := Weighed.total_ne_zero (fun r hr => (h r hr).weight) hp
  inBounds p _ hp := by
    have hr := h _ (used_of (schedScan_runnable s p hp) (by decide))
    have hlen : weights.length = 40 := by decide
    have h0 := hr.nonneg
    have h1 := hr.le39
    omega
  ps pid p hp := weights_ofInt _ (h p (psSlots_used hp)).weight

theorem setnice_refused {s : State} {pid v : Int} (h : (setnice pid v s).res = .ok (-1)) : (setnice pid v s).st = s := by
  rw [setnice_run] at h ⊢
  split
  · rfl
  · rename_i hg
    rw [if_neg hg] at h
    cases hf : findPid s pid with
    | none => rfl
    | some p => rw [hf] at h; cases h

/-! ## Whole runs -/

theorem run_ranged (acts : List Act) : Ranged (run acts boot).st :=
  (Prog.forEach_admits (C := fun _ _ => True) (I := Ranged) (R := fun _ => True)
    (fun a _ h _ => ⟨fun _ _ => trivial, h.step a⟩) acts boot (fun _ hp => absurd rfl hp)
    (Prog.admits_of_forall (fun _ _ => trivial) acts boot)).2

/-- **In every state a run from boot reaches** every nice value is of the range and every weight of the table, a
`setnice` that returns -1 has changed nothing, and no division or lookup of the next step is undefined; and where the
copies of `fork` are synced all along, every weight is the one of its slot's nice value. -/
theorem run_weights (acts : List Act) :
    Ranged (run acts boot).st ∧ (∀ a, Defined (run acts boot).st a) ∧
      (∀ pid v, (setnice pid v (run acts boot).st).res = .ok (-1) →
        (setnice pid v (run acts boot).st).st = (run acts boot).st) ∧
      (Prog.Admits Synced step acts boot → WeightsAgree (run acts boot).st) :=
  ⟨run_ranged acts, (run_ranged acts).defined, fun _ _ => setnice_refused, fun h =>
    (Prog.forEach_admits (I := WeightsAgree) (R := fun _ => True)
      (fun _ _ hs ha => ⟨fun _ _ => trivial, hs.step ha⟩) acts boot (fun _ hp => absurd rfl hp) h).2⟩

/-- The stores of `fork` into the child, in the source's order. -/
def forkStores (np curproc : Fin nproc) : List Act :=
  [.parent, .vruntimeHigh, .vruntimeLow, .aruntime, .aruntimePrev, .nice, .weight].map (.forkCopy np curproc)

/-- init forks, and its child calls `setnice(2, 5)` on itself and forks nobody. -/
def forkThenSetnice : List Act :=
  [.userinit, .dispatch 0, .allocproc] ++ forkStores 1 0 ++ [.ready 1, .dispatch 1, .setnice 2 5]

theorem forkThenSetnice_agrees :
    Prog.Admits Synced step forkThenSetnice boot ∧ WeightsAgree (run forkThenSetnice boot).st :=
  have h : Prog.Admits Synced step forkThenSetnice boot := by decide +kernel
  ⟨h, (run_weights forkThenSetnice).2.2.2 h⟩

/-- init forks a second child while its first calls `setnice(3, 5)` on another CPU, between the two stores. -/
def setniceInFork : List Act :=
  [.userinit, .dispatch 0, .allocproc] ++ forkStores 1 0 ++ [.ready 1, .dispatch 1, .allocproc] ++
  [.forkCopy 2 0 .parent, .forkCopy 2 0 .nice, .setnice 3 5, .forkCopy 2 0 .weight, .ready 2]

/-- **The second child becomes RUNNABLE with nice value 5 and the weight of 20.** -/
theorem setniceInFork_disagrees :
    (run setniceInFork boot).res = .ok () ∧ ((run setniceInFork boot).st.proc 2).state = .runnable ∧
      ((run setniceInFork boot).st.proc 2).nice = 5 ∧ ((run setniceInFork boot).st.proc 2).weight = 1024 ∧
      weightAt 5 = 29154 ∧ ¬ WeightsAgree (run setniceInFork boot).st := by
  have hst : ((run setniceInFork boot).st.proc 2).state = .runnable := by decide +kernel
  have hn : ((run setniceInFork boot).st.proc 2).nice = 5 := by decide +kernel
  have hw : ((run setniceInFork boot).st.proc 2).weight = 1024 := by decide +kernel
  have h5 : weightAt 5 = 29154 := by decide
  refine ⟨by decide +kernel, hst, hn, hw, h5, fun h => ?_⟩
  have := (h 2 (used_of hst (by decide))).weight
  rw [hn, hw, h5] at this
  exact absurd this (by decide)

end Sched
end Xv6
