import Xv6.Sched.Weights
/-!
# Sched.Fairness — how far the virtual runtimes drift apart on one CPU

Within a set of two or more RUNNABLE processes every slice is zero, so each of them runs for one tick at a time, and
only while its virtual runtime is the least of the set.  One tick then lifts it above the others by at most a tick:
the spread of the set never leaves the larger of its first value and a tick's length.  The weights are those that `fork`
and `setnice` leave: `scheduler` stores the weight of the nice value, so a set with another weight is not bound by it.
-/
namespace Xv6
namespace Sched

/-- The difference between the largest and the smallest virtual runtime of a set. -/
def spread (s : State) (S : Finset (Fin nproc)) : Nat :=
  S.sup (fun p => S.sup (fun q => (s.proc p).vruntime - (s.proc q).vruntime))

/-- `max` over the set of `floor(1024000 / weight)`. -/
def longestTick (s : State) (S : Finset (Fin nproc)) : Nat := S.sup (fun p => (1024000 / (s.proc p).weight).toNat)

theorem spread_le_iff {s : State} {S : Finset (Fin nproc)} {B : Nat} :
    spread s S ≤ B ↔ ∀ p ∈ S, ∀ q ∈ S, (s.proc p).vruntime ≤ (s.proc q).vruntime + B := by
  unfold spread
  simp only [Finset.sup_le_iff]
  exact forall₂_congr fun p _ => forall₂_congr fun q _ => by omega

theorem tickVruntime_le_longestTick {s : State} (h : TableOk s) {S : Finset (Fin nproc)} {p : Fin nproc} (hp : p ∈ S)
    (hu : (s.proc p).state ≠ .unused) : (tickVruntime (s.proc p)).toNat ≤ longestTick s S := by
  have hw := weights_bounds _ (h p hu).weight
  rw [tickVruntime_toNat (h p hu).weight, Int.tdiv_eq_ediv_of_nonneg (by decide)]
  exact Finset.le_sup (f := fun p => (1024000 / (s.proc p).weight).toNat) hp

/-! ## The invariant -/

/-- The state of one CPU among the processes of `S`: they wait or run here, with the weights of their nice values and
ticks of at most `B`; one that runs has no slice and the least virtual runtime; none is `B` ahead of another. -/
structure Fair (S : Finset (Fin nproc)) (B : Nat) (c : Cpu) : Prop where
  ok     : TableOk c.s
  ready  : ∀ p ∈ S, (c.s.proc p).state = if c.pc = .switched p then .running else .runnable
  weight : ∀ p ∈ S, (c.s.proc p).weight = weightAt (c.s.proc p).nice
  tick   : ∀ p ∈ S, (tickVruntime (c.s.proc p)).toNat ≤ B
  slice  : ∀ p ∈ S, c.pc = .switched p →
    (c.s.proc p).timeslice = 0 ∧ ∀ q ∈ S, (c.s.proc p).vruntime ≤ (c.s.proc q).vruntime
  close  : ∀ p ∈ S, ∀ q ∈ S, (c.s.proc p).vruntime ≤ (c.s.proc q).vruntime + B

variable {S : Finset (Fin nproc)} {B : Nat} {c : Cpu}

theorem Fair.used (h : Fair S B c) {p : Fin nproc} (hp : p ∈ S) : (c.s.proc p).state ≠ .unused := by
  rw [h.ready p hp]
  split <;> decide

theorem Fair.spread_le (h : Fair S B c) : spread c.s S ≤ B := spread_le_iff.2 h.close

theorem Fair.runnable (h : Fair S B c) {p : Fin nproc} (hp : p ∈ S) (hpc : c.pc ≠ .switched p) :
    (c.s.proc p).state = .runnable := by
  rw [h.ready p hp, if_neg hpc]

theorem Fair.scan {i : Nat} {s : State} (h : Fair S B ⟨.scan i, s⟩) (j : Nat) : Fair S B ⟨.scan j, s⟩ where
  ok     := h.ok
  ready  := h.ready
  weight := h.weight
  tick   := h.tick
  slice  := fun _ _ he => by cases he
  close  := h.close

/-- **A dispatch keeps the invariant**: another process of the set waits, so a chosen one of the set gets no slice. -/
theorem Fair.dispatch {i : Nat} {s : State} (h : Fair S B ⟨.scan i, s⟩) (hS : 2 ≤ S.card) {p : Fin nproc}
    (hok : TableOk (s.setProc (schedScan s p).1
      (dispatched (schedScan s p).2 (s.proc (schedScan s p).1)))) :
    Fair S B ⟨.switched (schedScan s p).1, s.setProc (schedScan s p).1
      (dispatched (schedScan s p).2 (s.proc (schedScan s p).1))⟩ := by
  have hleast := schedScan_least s p
  have hslice := fun m t hmr hw ht hne => dispatched_timeslice (m := m) (t := t) (p := p) h.ok hmr hw ht hne
  generalize (schedScan s p).1 = m at *
  generalize (schedScan s p).2 = total at *
  have hrun : ∀ t ∈ S, (s.proc t).state = .runnable := fun t ht => h.runnable ht (by simp)
  have hvr : ∀ t, ((s.setProc m (dispatched total (s.proc m))).proc t).vruntime = (s.proc t).vruntime := by
    intro t
    rw [setProc_proc]
    split
    · rename_i ht; rw [ht]; rfl
    · rfl
  refine ⟨hok, fun t ht => ?_, fun t ht => ?_, fun t ht => ?_, fun t ht hpc => ?_, fun t ht r hr => ?_⟩
  · rw [setProc_proc]
    split
    · rename_i htm; rw [if_pos (by rw [htm])]; rfl
    · rename_i htm
      rw [if_neg (fun he => htm (by injection he with he; exact he.symm))]
      exact hrun t ht
  · rw [setProc_proc]
    split
    · rfl
    · exact h.weight t ht
  · rw [setProc_proc]
    split
    · rename_i htm
      have hw : (dispatched total (s.proc m)).weight = (s.proc m).weight := (h.weight m (htm ▸ ht)).symm
      unfold tickVruntime
      rw [hw]
      exact h.tick m (htm ▸ ht)
    · exact h.tick t ht
  · have htm : m = t := by injection hpc
    subst htm
    obtain ⟨r, hr, hne⟩ := Finset.exists_mem_ne hS m
    refine ⟨?_, fun q hq => ?_⟩
    · rw [setProc_proc, if_pos rfl]
      exact hslice m r (hrun m ht) (h.weight m ht) (hrun r hr) hne
    · rw [hvr, hvr]
      exact vruntime_le_of_key (h.ok m (h.used ht)).low (h.ok q (h.used hq)).low (hleast q (hrun q hq))
  · rw [hvr, hvr]
    exact h.close t ht r hr

theorem ticked_state {q : Proc} (h : q.timeslice = 0) : (ticked q).state = .runnable := by
  unfold ticked
  simp only [h]
  rw [if_pos (BitVec.le_def.2 (Nat.zero_le _))]

theorem ticked_tickVruntime (q : Proc) : tickVruntime (ticked q) = tickVruntime q := by
  unfold tickVruntime
  rw [ticked_weight]

/-- **A tick of a process of the set keeps the invariant**: it had the least virtual runtime, and yields. -/
theorem Fair.tick_mem {p : Fin nproc} {s : State} (h : Fair S B ⟨.switched p, s⟩) (hp : p ∈ S)
    (hh : (s.proc p).vruntimeHigh ≠ 4294967295) (hok : TableOk (s.setProc p (ticked (s.proc p)))) :
    Fair S B ⟨.scan (p + 1), s.setProc p (ticked (s.proc p))⟩ := by
  obtain ⟨hslice, hleast⟩ := h.slice p hp rfl
  have hvr := ticked_vruntime (h.ok p (h.used hp)) hh
  have htick := h.tick p hp
  dsimp only at hslice hleast hvr htick
  refine ⟨hok, fun t ht => ?_, fun t ht => ?_, fun t ht => ?_, fun t ht hpc => (by cases hpc), fun t ht r hr => ?_⟩
  · rw [setProc_proc]
    split
    · exact ticked_state hslice
    · rename_i hne
      exact h.runnable ht (fun he => hne (by injection he with he; exact he.symm))
  · rw [setProc_proc]
    split
    · rw [ticked_weight, ticked_nice]; exact h.weight p hp
    · exact h.weight t ht
  · rw [setProc_proc]
    split
    · rw [ticked_tickVruntime]; exact htick
    · exact h.tick t ht
  · have hclose := h.close t ht r hr
    have hpr := hleast r hr
    have htp := h.close t ht p hp
    dsimp only at hclose htp
    rw [setProc_proc, setProc_proc]
    by_cases htp' : t = p
    · rw [if_pos htp', hvr]
      by_cases hrp : r = p
      · rw [if_pos hrp, hvr]; omega
      · rw [if_neg hrp]; omega
    · rw [if_neg htp']
      by_cases hrp : r = p
      · rw [if_pos hrp, hvr]; omega
      · rw [if_neg hrp]; exact hclose

theorem Fair.tick_other {p : Fin nproc} {s s' : State} (h : Fair S B ⟨.switched p, s⟩) (hp : p ∉ S)
    (hs : ∀ t ∈ S, s'.proc t = s.proc t) (hok : TableOk s') (pc : SchedPc) (hpc : ∀ t ∈ S, pc ≠ .switched t) :
    Fair S B ⟨pc, s'⟩ := by
  refine ⟨hok, fun t ht => ?_, fun t ht => ?_, fun t ht => ?_, fun t ht he => absurd he (hpc t ht),
    fun t ht r hr => ?_⟩
  · rw [hs t ht, if_neg (hpc t ht)]
    exact h.runnable ht (fun he => hp (by injection he with he; exact he ▸ ht))
  · rw [hs t ht]; exact h.weight t ht
  · rw [hs t ht]; exact h.tick t ht
  · rw [hs t ht, hs r hr]; exact h.close t ht r hr

/-- **One turn of the CPU keeps the invariant**, while no `vruntime_high` of the set is at its last value. -/
theorem Fair.step (h : Fair S B c) (hS : 2 ≤ S.card) (hh : ∀ p ∈ S, (c.s.proc p).vruntimeHigh ≠ 4294967295) :
    Fair S B (cpuStep c) := by
  have hok := h.ok.cpuStep
  rcases c with ⟨pc, s⟩
  cases pc with
  | scan i =>
    unfold cpuStep at hok ⊢
    dsimp only at hok ⊢
    split
    · rename_i hi
      split
      · rename_i hp
        rw [dif_pos hi, if_pos hp, step_dispatch hp] at hok
        rw [step_dispatch hp]
        exact h.dispatch hS hok
      · exact h.scan (i + 1)
    · exact h.scan 0
  | switched p =>
    unfold cpuStep at hok ⊢
    dsimp only at hok ⊢
    by_cases hp : p ∈ S
    · have hrun : (s.proc p).state = .running := by rw [h.ready p hp]; exact if_pos rfl
      have hst : ((s.setProc p (ticked (s.proc p))).proc p).state = .runnable := by
        rw [setProc_proc, if_pos rfl]
        exact ticked_state (h.slice p hp rfl).1
      rw [step_tick hrun] at hok ⊢
      dsimp only at hok ⊢
      rw [if_pos hst]
      exact h.tick_mem hp (hh p hp) hok
    · refine h.tick_other hp (fun t ht => ?_) hok _ (fun t ht he => ?_)
      · by_cases hr : (s.proc p).state = .running
        · rw [step_tick hr, setProc_proc, if_neg (fun he => hp (by rw [← he]; exact ht))]
        · rw [step_tick_idle hr]
      · split at he
        · cases he
        · injection he with he
          exact hp (he ▸ ht)

/-- **The spread of a set of two or more processes never leaves the larger of its first value and ten ticks.** -/
theorem spread_bounded (i : Nat) (s : State) (S : Finset (Fin nproc)) (hS : 2 ≤ S.card) (hok : TableOk s)
    (hrun : ∀ p ∈ S, (s.proc p).state = .runnable) (hw : ∀ p ∈ S, (s.proc p).weight = weightAt (s.proc p).nice)
    (n : Nat) (hh : ∀ k < n, ∀ p ∈ S, ((cpuStep^[k] ⟨.scan i, s⟩).s.proc p).vruntimeHigh ≠ 4294967295) :
    spread (cpuStep^[n] ⟨.scan i, s⟩).s S ≤ max (spread s S) (10 * longestTick s S) := by
  have hfair : ∀ k ≤ n, Fair S (max (spread s S) (10 * longestTick s S)) (cpuStep^[k] ⟨.scan i, s⟩) := by
    intro k
    induction k with
    | zero =>
      refine fun _ => ⟨hok, hrun, hw, fun p hp => ?_, fun p _ he => (by cases he), ?_⟩
      · have := tickVruntime_le_longestTick hok hp (by rw [hrun p hp]; decide)
        dsimp only [Function.iterate_zero, id]
        omega
      · exact spread_le_iff.1 (Nat.le_max_left _ _)
    | succ k ih =>
      intro hk
      rw [Function.iterate_succ_apply']
      exact (ih (by omega)).step hS (hh k (by omega))
  exact (hfair n (Nat.le_refl n)).spread_le

/-- The first process forks and runs until its slice ends. -/
def forkAndYield : List Act :=
  [.userinit, .dispatch 0, .allocproc, .forkCopy 1 0 .parent, .forkCopy 1 0 .nice, .forkCopy 1 0 .weight, .ready 1] ++
    List.replicate 10 (.tick 0)

theorem forkAndYield_spread : spread (cpuStep^[6] ⟨.scan 1, (run forkAndYield boot).st⟩).s {0, 1} ≤ 10000 := by
  have hok : TableOk (run forkAndYield boot).st :=
    (run_ok forkAndYield boot boot_ok (fun e he => by cases he)).2 () rfl
  have hmax : max (spread (run forkAndYield boot).st {0, 1}) (10 * longestTick (run forkAndYield boot).st {0, 1})
      = 10000 := by decide +kernel
  rw [← hmax]
  exact spread_bounded 1 (run forkAndYield boot).st {0, 1} (by decide) hok (by decide +kernel) (by decide +kernel) 6
    (by decide +kernel)

/-- On one CPU init is preempted in the middle of its second `fork`, between the stores of `nice` and of `weight`; its
first child gives the second the nice value 39. -/
def renicedInFork : List Act :=
  let forks : List Act := [.userinit, .dispatch 0, .allocproc]
  let stores : List Act := .ready 1 :: .allocproc :: (forkStores 2 0).take 6
  let child : List Act := .setnice 3 39 :: (List.replicate 9 [.tick 1, .dispatch 1]).flatten
  let weight : List Act := [.tick 1, .dispatch 0, .forkCopy 2 0 .weight, .ready 2, .tick 0]
  (forks ++ forkStores 1 0) ++ (stores ++ List.replicate 10 (.tick 0)) ++ ((.dispatch 1 :: child) ++ weight)

def reniced : State := (run renicedInFork boot).st

theorem reniced_ok : TableOk reniced := by
  have hquiet : (run renicedInFork boot).tr.isEmpty = true := by decide +kernel
  have hres : (run renicedInFork boot).res = .ok () := Prog.res_ok (by decide +kernel)
  refine (run_ok renicedInFork boot boot_ok fun e he => ?_).2 () hres
  rw [List.isEmpty_iff.1 hquiet] at he
  cases he

/-- The child waits with the weight 1024; one tick of it has the length of the weight 15. -/
theorem reniced_spreads : TableOk reniced ∧
    (∀ p ∈ ({0, 1, 2} : Finset (Fin nproc)), (reniced.proc p).state = .runnable) ∧
    (∀ k < 64, ∀ p ∈ ({0, 1, 2} : Finset (Fin nproc)),
      ((cpuStep^[k] ⟨.scan 0, reniced⟩).s.proc p).vruntimeHigh ≠ 4294967295) ∧
    (cpuStep^[64] ⟨.scan 0, reniced⟩).pc = .scan 0 ∧
    max (spread reniced {0, 1, 2}) (10 * longestTick reniced {0, 1, 2}) = 11000 ∧
    spread (cpuStep^[64] ⟨.scan 0, reniced⟩).s {0, 1, 2} = 58266 := by
  refine ⟨reniced_ok, ?_, ?_, ?_, ?_, ?_⟩
  · decide +kernel
  · decide +kernel
  · decide +kernel
  · decide +kernel
  · decide +kernel

end Sched
end Xv6
