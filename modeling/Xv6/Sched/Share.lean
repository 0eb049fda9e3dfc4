import Xv6.Sched.Weights
/-!
# Sched.Share — the time slice as a share

A slice is to be `10000 * w / W`, rounded, for a weight `w` of a total `W`.  What `scheduler` stores is the integer
quotient `w / W` times 10000: the whole for a process that is RUNNABLE alone, nothing where there is a second one.
-/
namespace Xv6
namespace Sched

/-- `W`, the weights of the RUNNABLE processes. -/
def totalWeight (s : State) : Nat := ∑ t, share s t

/-- `10000 * w / W` to the nearest integer, ties up. -/
def roundShare (w W : Nat) : Nat := (20000 * w + W) / (2 * W)

theorem roundShare_floor (w : Nat) {W : Nat} (h : 0 < W) :
    (roundShare w W : Int) = ⌊(10000 * w / W + 1 / 2 : ℚ)⌋ := by
  have hW : (W : ℚ) ≠ 0 := by exact_mod_cast h.ne'
  have hsum : (10000 * w / W + 1 / 2 : ℚ) = ((20000 * w + W : Nat) : ℚ) / ((2 * W : Nat) : ℚ) := by
    push_cast
    field_simp
    ring
  unfold roundShare
  rw [hsum, Rat.floor_natCast_div_natCast, Int.natCast_div]

/-- The slice `scheduler` stores for a process it chooses from the table. -/
def slice (s : State) (t : Fin nproc) : Nat := (dispatched (schedScan s t).2 (s.proc t)).timeslice.toNat

/-- The process that `scheduler`, at index `p`, switches to has its share. -/
def SliceRight (s : State) (p : Fin nproc) : Prop :=
  ((step (.dispatch p) s).st.proc (schedScan s p).1).timeslice.toNat =
    roundShare (weightAt (s.proc (schedScan s p).1).nice).toNat (totalWeight s)

def runnables (s : State) : Finset (Fin nproc) := Finset.univ.filter (fun t => (s.proc t).state = .runnable)

/-- The slices of the RUNNABLE processes come to 10000, but for half a unit each. -/
def SlicesRight (s : State) : Prop := 2 * |(∑ t ∈ runnables s, slice s t : Int) - 10000| ≤ (runnables s).card

theorem Ranged.weighed {s : State} (h : Ranged s) : Weighed s := fun p hp => (h p hp).weight

/-- **The slice is the integer quotient**, times 10000. -/
theorem timeslice_eq {s : State} (h : Ranged s) (p : Fin nproc) {q : Proc} (h0 : 0 ≤ q.nice) (h1 : q.nice ≤ 39) :
    (dispatched (schedScan s p).2 q).timeslice.toNat = 10000 * ((weightAt q.nice).toNat / totalWeight s) := by
  obtain ⟨hpos, hle⟩ := weights_bounds _ (weightAt_mem h0 h1)
  have hw : (BitVec.ofInt 32 (weightAt q.nice)).toNat = (weightAt q.nice).toNat := by
    rw [BitVec.toNat_ofInt]
    omega
  have hq : (weightAt q.nice).toNat / totalWeight s ≤ (weightAt q.nice).toNat := Nat.div_le_self _ _
  show (10000 * (BitVec.ofInt 32 (weightAt q.nice) / (schedScan s p).2)).toNat = _
  rw [BitVec.toNat_mul, BitVec.toNat_udiv, hw, schedScan_total h.weighed]
  exact Nat.mod_eq_of_lt (by show 10000 * _ < 4294967296; unfold totalWeight at hq; omega)

theorem quotient_roundShare (w : Nat) {W : Nat} (hW : 0 < W) :
    10000 * (w / W) = roundShare w W ↔ 20000 * (w % W) < W := by
  have hsplit : 20000 * w + W = 2 * W * (10000 * (w / W)) + (20000 * (w % W) + W) := by
    calc 20000 * w + W = 20000 * (W * (w / W) + w % W) + W := by rw [Nat.div_add_mod]
      _ = 2 * W * (10000 * (w / W)) + (20000 * (w % W) + W) := by ring
  unfold roundShare
  rw [hsplit, Nat.mul_add_div (by omega), Nat.left_eq_add, Nat.div_eq_zero_iff]
  omega

theorem dispatch_timeslice {s : State} {p : Fin nproc} (hp : (s.proc p).state = .runnable) :
    ((step (.dispatch p) s).st.proc (schedScan s p).1).timeslice =
      (dispatched (schedScan s p).2 (s.proc (schedScan s p).1)).timeslice := by
  rw [step_dispatch hp]
  dsimp only
  rw [setProc_proc, if_pos rfl]

theorem Ranged.total_pos {s : State} (h : Ranged s) {p : Fin nproc} (hp : (s.proc p).state = .runnable) :
    0 < totalWeight s := by
  have hne := h.weighed.total_ne_zero hp
  have htotal : (schedScan s p).2.toNat = totalWeight s := schedScan_total h.weighed p
  rw [Nat.pos_iff_ne_zero, ← htotal]
  exact fun h0 => hne (BitVec.eq_of_toNat_eq h0)

theorem sliceRight_iff {s : State} (h : Ranged s) {p : Fin nproc} (hp : (s.proc p).state = .runnable) :
    SliceRight s p ↔
      20000 * ((weightAt (s.proc (schedScan s p).1).nice).toNat % totalWeight s) < totalWeight s := by
  have hm := h _ (used_of (schedScan_runnable s p hp) (by decide))
  unfold SliceRight
  rw [dispatch_timeslice hp, timeslice_eq h p hm.nonneg hm.le39, quotient_roundShare _ (h.total_pos hp)]

theorem mem_runnables {s : State} {t : Fin nproc} : t ∈ runnables s ↔ (s.proc t).state = .runnable := by
  unfold runnables
  rw [Finset.mem_filter]
  exact ⟨fun h => h.2, fun h => ⟨Finset.mem_univ t, h⟩⟩

theorem slice_shared {s : State} (h : Ranged s) {t r : Fin nproc} (hw : (s.proc t).weight = weightAt (s.proc t).nice)
    (ht : (s.proc t).state = .runnable) (hr : (s.proc r).state = .runnable) (hne : r ≠ t) : slice s t = 0 := by
  have hrt := h t (used_of ht (by decide))
  have hbt := h.weighed.weight_bounds ht
  have hbr := h.weighed.weight_bounds hr
  have hpair : share s r + share s t ≤ totalWeight s := by
    rw [← Finset.sum_pair hne]
    exact Finset.sum_le_sum_of_subset (Finset.subset_univ _)
  unfold share at hpair
  rw [if_pos hr, if_pos ht] at hpair
  unfold slice
  rw [timeslice_eq h t hrt.nonneg hrt.le39, ← hw, Nat.div_eq_of_lt (by omega)]

theorem slice_alone {s : State} (h : Ranged s) {t : Fin nproc} (hw : (s.proc t).weight = weightAt (s.proc t).nice)
    (ht : (s.proc t).state = .runnable) (halone : ∀ r, (s.proc r).state = .runnable → r = t) : slice s t = 10000 := by
  have hrt := h t (used_of ht (by decide))
  have hbt := h.weighed.weight_bounds ht
  have htotal : totalWeight s = (s.proc t).weight.toNat := by
    unfold totalWeight
    rw [Finset.sum_eq_single t]
    · unfold share
      rw [if_pos ht]
    · intro r _ hne
      unfold share
      exact if_neg fun hr => hne (halone r hr)
    · exact fun hnot => absurd (Finset.mem_univ t) hnot
  unfold slice
  rw [timeslice_eq h t hrt.nonneg hrt.le39, htotal, ← hw, Nat.div_self (by omega)]

theorem slicesRight_iff {s : State} (h : Ranged s)
    (hw : ∀ t, (s.proc t).state = .runnable → (s.proc t).weight = weightAt (s.proc t).nice) :
    SlicesRight s ↔ ∃! t, (s.proc t).state = .runnable := by
  unfold SlicesRight
  constructor
  · intro hsum
    by_contra hnot
    have hzero : ∀ t ∈ runnables s, (slice s t : Int) = 0 := by
      intro t ht
      rw [mem_runnables] at ht
      have hother : ∃ r, (s.proc r).state = .runnable ∧ r ≠ t := by
        by_contra hno
        push Not at hno
        exact hnot ⟨t, ht, fun r hr => hno r hr⟩
      obtain ⟨r, hr, hne⟩ := hother
      rw [slice_shared h (hw t ht) ht hr hne]
      rfl
    have hcard : (runnables s).card ≤ 64 := (Finset.card_le_univ _).trans (by decide)
    rw [Finset.sum_eq_zero hzero] at hsum
    norm_num at hsum
    omega
  · rintro ⟨t, ht, halone⟩
    have hone : runnables s = {t} := by
      ext r
      rw [mem_runnables, Finset.mem_singleton]
      exact ⟨fun hr => halone r hr, fun he => he ▸ ht⟩
    rw [hone, Finset.sum_singleton, slice_alone h (hw t ht) ht halone]
    norm_num

/-- **The slice is the share, and the slices come to 10000, if and only if** the weight divides into the total all but
evenly, and one process alone is RUNNABLE. -/
theorem slice_share (s : State) (p : Fin nproc) (h : Ranged s) (hp : (s.proc p).state = .runnable) :
    (SliceRight s p ↔
      20000 * ((weightAt (s.proc (schedScan s p).1).nice).toNat % totalWeight s) < totalWeight s) ∧
    (WeightsAgree s → (SlicesRight s ↔ ∃! t, (s.proc t).state = .runnable)) :=
  ⟨sliceRight_iff h hp, fun hw => slicesRight_iff h fun t ht => (hw t (used_of ht (by decide))).weight⟩

/-- `n` processes of weight 1024 are RUNNABLE. -/
def equals (n : Nat) : State :=
  { boot with proc := fun p => if p.val < n then { unusedProc with state := .runnable, nice := 20, weight := 1024 }
                               else unusedProc }

theorem equals_ranged (n : Nat) : Ranged (equals n) := by
  intro p hp
  unfold equals at hp ⊢
  dsimp only at hp ⊢
  split at hp
  · rename_i hlt
    rw [if_pos hlt]
    exact ⟨by decide, by decide, by decide⟩
  · exact absurd rfl hp

theorem equals_one : SliceRight (equals 1) 0 :=
  (slice_share (equals 1) 0 (equals_ranged 1) rfl).1.2 (by decide +kernel)

/-- Two equal processes get slices of 0, not of 5000. -/
theorem equals_two : ((step (.dispatch 0) (equals 2)).st.proc 0).timeslice = 0 ∧
    roundShare 1024 (totalWeight (equals 2)) = 5000 ∧ ¬ SliceRight (equals 2) 0 ∧ ¬ SlicesRight (equals 2) := by
  refine ⟨by decide +kernel, by decide +kernel, fun h => ?_, fun h => ?_⟩
  · rw [sliceRight_iff (equals_ranged 2) rfl] at h
    exact absurd h (by decide +kernel)
  · have hagree : ∀ t, ((equals 2).proc t).state = .runnable →
        ((equals 2).proc t).weight = weightAt ((equals 2).proc t).nice := by decide +kernel
    obtain ⟨t, -, ht⟩ := (slicesRight_iff (equals_ranged 2) hagree).1 h
    exact absurd ((ht 0 rfl).trans (ht 1 rfl).symm) (by decide)

end Sched
end Xv6
