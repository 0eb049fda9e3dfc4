import Xv6.Sched.Scheduler
/-!
# Sched.Wakeup — the virtual runtime of a woken process

What `wakeup1` is for: a sleeper comes back one tick of its own before the least RUNNABLE virtual runtime, and not
below zero.  `wakeup1_right` says for which tables it does that.
-/
namespace Xv6
namespace Sched

/-- The table that `wakeup1` takes: low words below `10 ^ 9`, positive weights. -/
structure Weighted (s : State) : Prop where
  low    : Normalised s
  weight : ∀ p, (s.proc p).state ≠ .unused → 0 < (s.proc p).weight

def runnableVruntimes (s : State) : Set Nat := {v | ∃ r, (s.proc r).state = .runnable ∧ (s.proc r).vruntime = v}

/-- `floor(1024000 / weight)`. -/
def Proc.tick (q : Proc) : Nat := 1024000 / q.weight.toNat

/-- `t` is `s` after the wake-up rule on `chan`. -/
structure WakesRight (s : State) (chan : Chan) (t : State) : Prop where
  others : ∀ p, sleepsOn chan (s.proc p) = false → t.proc p = s.proc p
  woken  : ∀ p, sleepsOn chan (s.proc p) = true → t.proc p =
    { s.proc p with state := .runnable, vruntimeHigh := (t.proc p).vruntimeHigh, vruntimeLow := (t.proc p).vruntimeLow }
  low    : ∀ p, sleepsOn chan (s.proc p) = true → (t.proc p).vruntimeLow.toNat < 1000000000
  least  : ∀ p, sleepsOn chan (s.proc p) = true → ∀ m, IsLeast (runnableVruntimes s) m →
    (t.proc p).vruntime = m - (s.proc p).tick
  alone  : ∀ p, sleepsOn chan (s.proc p) = true → runnableVruntimes s = ∅ → (t.proc p).vruntime = 0
  rest   : t.nextpid = s.nextpid ∧ t.initproc = s.initproc

/-! ## The minimum -/

def pairKey (m : uint × uint) : Nat := m.1.toNat * 4294967296 + m.2.toNat

theorem minStep_key (s : State) (acc : Option (uint × uint)) (p : Fin nproc) :
    (∀ m' ∈ minStep s acc p, (∀ m ∈ acc, pairKey m' ≤ pairKey m) ∧
      ((s.proc p).state = .runnable → pairKey m' ≤ (s.proc p).key)) ∧
    (acc.isSome = true ∨ (s.proc p).state = .runnable → (minStep s acc p).isSome = true) := by
  unfold minStep
  by_cases hp : (s.proc p).state = .runnable
  · have hget : ∀ m ∈ acc, acc.getD ((s.proc p).vruntimeHigh, (s.proc p).vruntimeLow) = m := by
      intro m hm
      cases hm
      rfl
    rw [if_neg (not_not_intro hp)]
    dsimp only
    generalize hg : acc.getD ((s.proc p).vruntimeHigh, (s.proc p).vruntimeLow) = g at hget
    have hlow := g.2.isLt
    have hplow := (s.proc p).vruntimeLow.isLt
    unfold pairKey Proc.key
    split
    · rename_i hlt
      rw [BitVec.lt_def] at hlt
      refine ⟨fun m' hm' => ?_, fun _ => rfl⟩
      cases hm'
      refine ⟨fun m hm => ?_, fun _ => Nat.le_refl _⟩
      rw [← hget m hm]
      dsimp only
      omega
    · rename_i hge
      rw [BitVec.lt_def] at hge
      split
      · rename_i heq
        obtain ⟨h1, h2⟩ := heq
        rw [BitVec.lt_def] at h2
        refine ⟨fun m' hm' => ?_, fun _ => rfl⟩
        cases hm'
        dsimp only
        refine ⟨fun m hm => ?_, fun _ => ?_⟩
        · rw [← hget m hm]
          omega
        · rw [h1]
      · rename_i hne
        refine ⟨fun m' hm' => ?_, fun _ => rfl⟩
        cases hm'
        refine ⟨fun m hm => ?_, fun _ => ?_⟩
        · rw [← hget m hm]
        · rw [BitVec.lt_def, ← BitVec.toNat_inj] at hne
          omega
  · rw [if_pos hp]
    exact ⟨fun m' hm' => ⟨fun m hm => Nat.le_of_eq (congrArg pairKey (Option.some.inj (hm'.symm.trans hm))),
      fun h => absurd h hp⟩, fun h => h.resolve_right hp⟩

theorem minRunnable_key (s : State) :
    (∀ m ∈ minRunnable s, ∀ t, (s.proc t).state = .runnable → pairKey m ≤ (s.proc t).key) ∧
    ∀ t, (s.proc t).state = .runnable → (minRunnable s).isSome = true := by
  have hfold : ∀ (l : List (Fin nproc)) (acc : Option (uint × uint)),
      (∀ m' ∈ l.foldl (minStep s) acc, (∀ m ∈ acc, pairKey m' ≤ pairKey m) ∧
        ∀ t ∈ l, (s.proc t).state = .runnable → pairKey m' ≤ (s.proc t).key) ∧
      (acc.isSome = true ∨ (∃ t ∈ l, (s.proc t).state = .runnable) → (l.foldl (minStep s) acc).isSome = true) := by
    intro l
    induction l with
    | nil =>
      refine fun acc => ⟨fun m' hm' => ⟨fun m hm => ?_, fun t ht => by cases ht⟩, fun h => ?_⟩
      · exact Nat.le_of_eq (congrArg pairKey (Option.some.inj (hm'.symm.trans hm)))
      · rcases h with h | ⟨t, ht, -⟩
        · exact h
        · cases ht
    | cons p l ih =>
      intro acc
      obtain ⟨hkey, hsome⟩ := minStep_key s acc p
      obtain ⟨ihkey, ihsome⟩ := ih (minStep s acc p)
      rw [List.foldl_cons]
      refine ⟨fun m' hm' => ?_, fun h => ihsome ?_⟩
      · obtain ⟨h1, h2⟩ := ihkey m' hm'
        have hstep : ∀ t, (acc.isSome = true ∨ (s.proc p).state = .runnable) →
            (∀ m ∈ minStep s acc p, pairKey m ≤ t) → pairKey m' ≤ t := by
          intro t h hle
          obtain ⟨m, hm⟩ := Option.isSome_iff_exists.1 (hsome h)
          exact Nat.le_trans (h1 m hm) (hle m hm)
        refine ⟨fun m hm => hstep _ (.inl (Option.isSome_iff_exists.2 ⟨m, hm⟩)) fun m'' hm'' => (hkey m'' hm'').1 m hm,
          fun t ht hrun => ?_⟩
        rcases List.mem_cons.1 ht with rfl | ht
        · exact hstep _ (.inr hrun) fun m hm => (hkey m hm).2 hrun
        · exact h2 t ht hrun
      · rcases h with h | ⟨t, ht, hrun⟩
        · exact .inl (hsome (.inl h))
        · rcases List.mem_cons.1 ht with rfl | ht
          · exact .inl (hsome (.inr hrun))
          · exact .inr ⟨t, ht, hrun⟩
  refine ⟨fun m hm t ht => ((hfold slots none).1 m hm).2 t (List.mem_finRange t) ht, fun t ht => ?_⟩
  exact (hfold slots none).2 (.inr ⟨t, List.mem_finRange t, ht⟩)

/-- **The first loop finds the least virtual runtime**, where the low words are below `10 ^ 9`. -/
theorem minRunnable_isLeast {s : State} (h : Normalised s) {m : uint × uint} (hm : m ∈ minRunnable s) :
    IsLeast (runnableVruntimes s) (m.1.toNat * 1000000000 + m.2.toNat) ∧ m.2.toNat < 1000000000 := by
  obtain ⟨r, hr, rfl⟩ := minRunnable_mem s m hm
  have hlow : ∀ t, (s.proc t).state = .runnable → (s.proc t).vruntimeLow.toNat < 1000000000 :=
    fun t ht => h t (by rw [ht]; decide)
  refine ⟨⟨⟨r, hr, rfl⟩, ?_⟩, hlow r hr⟩
  rintro _ ⟨t, ht, rfl⟩
  exact vruntime_le_of_key (hlow r hr) (hlow t ht) ((minRunnable_key s).1 _ hm t ht)

theorem minRunnable_none {s : State} : minRunnable s = none ↔ runnableVruntimes s = ∅ := by
  constructor
  · intro hm
    rw [Set.eq_empty_iff_forall_notMem]
    rintro _ ⟨t, ht, -⟩
    have := (minRunnable_key s).2 t ht
    rw [hm] at this
    cases this
  · intro hempty
    cases hm : minRunnable s with
    | none => rfl
    | some m =>
      obtain ⟨r, hr, -⟩ := minRunnable_mem s m hm
      have : (s.proc r).vruntime ∈ runnableVruntimes s := ⟨r, hr, rfl⟩
      rw [hempty] at this
      cases this

/-! ## The rule -/

theorem tickVruntime_tick {q : Proc} (h : 0 < q.weight) : (tickVruntime q).toNat = q.tick := by
  obtain ⟨n, hn⟩ := Int.eq_ofNat_of_zero_le (Int.le_of_lt h)
  have hle : 1024000 / n ≤ 1024000 := Nat.div_le_self _ _
  have hdiv : Int.tdiv 1024000 (n : Int) = ((1024000 / n : Nat) : Int) := (Int.ofNat_tdiv 1024000 n).symm
  unfold tickVruntime Proc.tick
  rw [hn, hdiv, BitVec.ofInt_natCast, BitVec.toNat_ofNat, Int.toNat_natCast, Nat.mod_eq_of_lt (by omega)]

theorem sleepsOn_used {chan : Chan} {q : Proc} (h : sleepsOn chan q = true) : q.state ≠ .unused := by
  unfold sleepsOn at h
  simp only [Bool.and_eq_true, decide_eq_true_eq] at h
  rw [h.1]
  decide

theorem wakeup1_proc (chan : Chan) (s : State) (p : Fin nproc) : ((wakeup1 chan s).st).proc p =
    if sleepsOn chan (s.proc p) then woken (minRunnable s) (s.proc p) else s.proc p := rfl

/-- The last nine digits of the least RUNNABLE virtual runtime cover the tick of every process woken. -/
def Covered (s : State) (chan : Chan) : Prop :=
  ∀ p, sleepsOn chan (s.proc p) = true → ∀ m, IsLeast (runnableVruntimes s) m → (s.proc p).tick ≤ m % 1000000000

theorem covered_borrowFree {s : State} {chan : Chan} (h : Weighted s) : Covered s chan ↔ BorrowFree ⟨s, chan⟩ := by
  have hmod : ∀ m ∈ minRunnable s, (m.1.toNat * 1000000000 + m.2.toNat) % 1000000000 = m.2.toNat := by
    intro m hm
    have := (minRunnable_isLeast h.low hm).2
    omega
  constructor
  · intro hc p hp m hm
    have hle := hc p hp _ (minRunnable_isLeast h.low hm).1
    rw [hmod m hm] at hle
    rw [BitVec.le_def, tickVruntime_tick (h.weight p (sleepsOn_used hp))]
    exact hle
  · intro hb p hp m hleast
    cases hm : minRunnable s with
    | none =>
      have := hleast.1
      rw [minRunnable_none.1 hm] at this
      cases this
    | some m' =>
      rw [← (minRunnable_isLeast h.low hm).1.unique hleast, hmod m' hm,
        ← tickVruntime_tick (h.weight p (sleepsOn_used hp)), ← BitVec.le_def]
      exact hb p hp m' hm

/-- **`wakeup1` follows the wake-up rule if and only if it needs no borrow.** -/
theorem wakeup1_right (s : State) (chan : Chan) (h : Weighted s) :
    WakesRight s chan (wakeup1 chan s).st ↔ Covered s chan := by
  rw [covered_borrowFree h]
  constructor
  · intro hw p hp m hm
    have hlow := hw.low p hp
    have hl := (minRunnable_isLeast h.low hm).2
    have htick := tickVruntime_tick (h.weight p (sleepsOn_used hp))
    have hle : (s.proc p).tick ≤ 1024000 := Nat.div_le_self _ _
    rw [wakeup1_proc, if_pos hp, woken_eq, Option.mem_def.1 hm] at hlow
    show tickVruntime (s.proc p) ≤ m.2
    rw [BitVec.le_def]
    simp only [BitVec.toNat_sub] at hlow
    omega
  · intro hb
    refine ⟨fun p hp => ?_, fun p hp => ?_, fun p hp => ?_, fun p hp m hleast => ?_, fun p hp hnone => ?_, rfl, rfl⟩
    · rw [wakeup1_proc, hp]
      rfl
    · rw [wakeup1_proc, if_pos hp, woken_eq]
    · rw [wakeup1_proc, if_pos hp, woken_eq]
      cases hm : minRunnable s with
      | none => exact (by decide : (0 : uint).toNat < 1000000000)
      | some m =>
        have hle := hb p hp m hm
        have hl := (minRunnable_isLeast h.low hm).2
        dsimp only
        rw [BitVec.toNat_sub_of_le hle]
        omega
    · cases hm : minRunnable s with
      | none =>
        have := hleast.1
        rw [minRunnable_none.1 hm] at this
        cases this
      | some m' =>
        have hle : tickVruntime (s.proc p) ≤ m'.2 := hb p hp m' hm
        rw [wakeup1_proc, if_pos hp, woken_eq, hm, ← (minRunnable_isLeast h.low hm).1.unique hleast,
          ← tickVruntime_tick (h.weight p (sleepsOn_used hp))]
        unfold Proc.vruntime
        dsimp only
        rw [BitVec.toNat_sub_of_le hle]
        rw [BitVec.le_def] at hle
        omega
    · rw [wakeup1_proc, if_pos hp, woken_eq, minRunnable_none.2 hnone]
      simp [Proc.vruntime]

/-- Slot 0 sleeps on 1 with weight 1024; slot 1 is RUNNABLE with the given virtual runtime. -/
def sleeper (high low : uint) : State :=
  { boot with proc := fun p =>
      if p = 0 then { unusedProc with state := .sleeping, chan := .obj 1, weight := 1024 }
      else if p = 1 then { unusedProc with state := .runnable, weight := 1024, vruntimeHigh := high, vruntimeLow := low }
      else unusedProc }

theorem sleeper_weighted (high : uint) {low : uint} (hl : low.toNat < 1000000000) : Weighted (sleeper high low) := by
  have hproc : ∀ p, ((sleeper high low).proc p).state ≠ .unused →
      ((sleeper high low).proc p).vruntimeLow.toNat < 1000000000 ∧ 0 < ((sleeper high low).proc p).weight := by
    intro p hp
    unfold sleeper at hp ⊢
    dsimp only at hp ⊢
    split at hp
    · rename_i h0
      rw [if_pos h0]
      exact ⟨by decide, by decide⟩
    · rename_i h0
      rw [if_neg h0]
      split at hp
      · rename_i h1
        rw [if_pos h1]
        exact ⟨hl, (by decide : (0 : Int) < 1024)⟩
      · exact absurd rfl hp
  exact ⟨fun p hp => (hproc p hp).1, fun p hp => (hproc p hp).2⟩

/-- The low word 5000 covers the tick of 1000. -/
theorem sleeper_right : WakesRight (sleeper 1 5000) (.obj 1) (wakeup1 (.obj 1) (sleeper 1 5000)).st :=
  (wakeup1_right (sleeper 1 5000) (.obj 1) (sleeper_weighted 1 (by decide))).2
    ((covered_borrowFree (sleeper_weighted 1 (by decide))).2 (by decide +kernel))

/-- At `10 ^ 9` the low word is 0, and what is written is `2 ^ 32 - 1000`. -/
theorem sleeper_wraps : Weighted (sleeper 1 0) ∧
    ¬ WakesRight (sleeper 1 0) (.obj 1) (wakeup1 (.obj 1) (sleeper 1 0)).st := by
  refine ⟨sleeper_weighted 1 (by decide), fun h => ?_⟩
  have hlow : ((wakeup1 (.obj 1) (sleeper 1 0)).st.proc 0).vruntimeLow = 4294966296 := by rfl
  have hle := h.low 0 (by decide)
  rw [hlow] at hle
  exact absurd hle (by decide)

end Sched
end Xv6
