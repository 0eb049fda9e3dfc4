import Xv6.Sched.Ptable
/-!
# Sched.Vruntime — when the virtual runtimes stay normalised

Every step but one keeps `vruntime_low` below `10 ^ 9`: the tick carries, `fork` copies, `allocproc` resets.
`wakeup1` subtracts the sleeper's tick from the least RUNNABLE `vruntime_low` and tests the unsigned result for being
negative, so it never borrows; `woken_normalised_iff` says for which minima that goes well, and `run_normalised`
carries it over every interleaving.
-/
namespace Xv6
namespace Sched

open Prog (Triple)

/-- What is kept of a used slot: a nice value of the range, a weight of the table, a normalised low word. -/
structure Proc.Ok (q : Proc) : Prop where
  nonneg : 0 ≤ q.nice
  le39   : q.nice ≤ 39
  weight : q.weight ∈ weights
  low    : q.vruntimeLow.toNat < 1000000000

/-- Every used slot is `Ok`. -/
def TableOk (s : State) : Prop := ∀ p, (s.proc p).state ≠ .unused → (s.proc p).Ok

/-- Every process that is not UNUSED has a low word below `10 ^ 9`. -/
def Normalised (s : State) : Prop := ∀ p, (s.proc p).state ≠ .unused → (s.proc p).vruntimeLow.toNat < 1000000000

/-- The lexicographic comparison is the comparison of the numbers `high * 10 ^ 9 + low`. -/
def OrderAgrees (s : State) : Prop := ∀ p r, (s.proc p).state ≠ .unused → (s.proc r).state ≠ .unused →
  (compareVruntime (s.proc p) (s.proc r) = true ↔ (s.proc r).vruntime < (s.proc p).vruntime)

/-- No sleeper on the channel needs a borrow: the least RUNNABLE low word covers its tick, or nothing is RUNNABLE. -/
def BorrowFree (e : WakeCall) : Prop :=
  ∀ p, sleepsOn e.chan (e.s.proc p) = true → ∀ m ∈ minRunnable e.s, tickVruntime (e.s.proc p) ≤ m.2

instance : DecidablePred BorrowFree := fun e =>
  haveI (p : Fin nproc) : Decidable (∀ m ∈ minRunnable e.s, tickVruntime (e.s.proc p) ≤ m.2) :=
    Option.decidableForallMem _
  inferInstanceAs (Decidable (∀ p, sleepsOn e.chan (e.s.proc p) = true → ∀ m ∈ minRunnable e.s,
    tickVruntime (e.s.proc p) ≤ m.2))

theorem TableOk.normalised {s : State} (h : TableOk s) : Normalised s := fun p hp => (h p hp).low

theorem Normalised.orderAgrees {s : State} (h : Normalised s) : OrderAgrees s :=
  fun p r hp hr => compareVruntime_iff (h p hp) (h r hr)

/-! ## The minimum -/

theorem minStep_mem (s : State) (acc : Option (uint × uint)) (p : Fin nproc)
    (hacc : ∀ m ∈ acc, ∃ r, (s.proc r).state = .runnable ∧ m = ((s.proc r).vruntimeHigh, (s.proc r).vruntimeLow)) :
    ∀ m ∈ minStep s acc p, ∃ r, (s.proc r).state = .runnable ∧
      m = ((s.proc r).vruntimeHigh, (s.proc r).vruntimeLow) := by
  intro m hm
  unfold minStep at hm
  split at hm
  · exact hacc m hm
  · rename_i hrun
    have hp : (s.proc p).state = .runnable := by simpa using hrun
    have hget : ∃ r, (s.proc r).state = .runnable ∧ acc.getD ((s.proc p).vruntimeHigh, (s.proc p).vruntimeLow)
        = ((s.proc r).vruntimeHigh, (s.proc r).vruntimeLow) := by
      cases acc with
      | none => exact ⟨p, hp, rfl⟩
      | some m' => exact hacc m' rfl
    simp only at hm
    split at hm
    · exact ⟨p, hp, by simpa using hm.symm⟩
    · split at hm
      · rename_i heq
        refine ⟨p, hp, ?_⟩
        rw [heq.1] at hm
        simpa using hm.symm
      · obtain ⟨r, hr, he⟩ := hget
        exact ⟨r, hr, by rw [← he]; simpa using hm.symm⟩

theorem minRunnable_mem (s : State) : ∀ m ∈ minRunnable s, ∃ r, (s.proc r).state = .runnable ∧
    m = ((s.proc r).vruntimeHigh, (s.proc r).vruntimeLow) := by
  have hfold : ∀ (l : List (Fin nproc)) (acc : Option (uint × uint)),
      (∀ m ∈ acc, ∃ r, (s.proc r).state = .runnable ∧ m = ((s.proc r).vruntimeHigh, (s.proc r).vruntimeLow)) →
      ∀ m ∈ l.foldl (minStep s) acc, ∃ r, (s.proc r).state = .runnable ∧
        m = ((s.proc r).vruntimeHigh, (s.proc r).vruntimeLow) := by
    intro l
    induction l with
    | nil => exact fun acc h => h
    | cons p l ih => exact fun acc h => ih _ (minStep_mem s acc p h)
  exact hfold slots none (fun m hm => by cases hm)

theorem minRunnable_low {s : State} (h : TableOk s) {m : uint × uint} (hm : m ∈ minRunnable s) :
    m.2.toNat < 1000000000 := by
  obtain ⟨r, hr, rfl⟩ := minRunnable_mem s m hm
  exact (h r (by rw [hr]; decide)).low

/-! ## One sleeper -/

/-- **The test for a negative low word never succeeds**: the low word written is the difference, modulo `2 ^ 32`. -/
theorem woken_eq (m : Option (uint × uint)) (q : Proc) : woken m q = { q with
    state := .runnable
    vruntimeHigh := match m with | some (h, _) => h | none => 0
    vruntimeLow := match m with | some (_, l) => l - tickVruntime q | none => 0 } := by
  have hneg : ∀ x : uint, ¬ x < 0 := fun x hx => by simp [BitVec.lt_def] at hx
  unfold woken
  exact if_neg (hneg _)

/-- **A sleeper is woken normalised exactly when the minimum's low word covers its tick.** -/
theorem woken_normalised_iff {h l : uint} {q : Proc} (hl : l.toNat < 1000000000) (hw : q.weight ∈ weights) :
    (woken (some (h, l)) q).vruntimeLow.toNat < 1000000000 ↔ tickVruntime q ≤ l := by
  obtain ⟨-, htick⟩ := tickVruntime_bounds hw
  rw [woken_eq, BitVec.le_def]
  simp only [BitVec.toNat_sub]
  omega

theorem woken_ok {s : State} (hs : TableOk s) {q : Proc} (hq : q.Ok)
    (hb : ∀ m ∈ minRunnable s, tickVruntime q ≤ m.2) : (woken (minRunnable s) q).Ok := by
  have hlow : (woken (minRunnable s) q).vruntimeLow.toNat < 1000000000 := by
    cases hm : minRunnable s with
    | none => rw [woken_eq]; show (0 : uint).toNat < _; decide
    | some m => exact (woken_normalised_iff (minRunnable_low hs hm) hq.weight).2 (hb m hm)
  rw [woken_eq] at hlow ⊢
  exact ⟨hq.nonneg, hq.le39, hq.weight, hlow⟩

/-! ## One tick -/

theorem ticked_nice (q : Proc) : (ticked q).nice = q.nice := by unfold ticked; dsimp only; split <;> rfl

theorem ticked_weight (q : Proc) : (ticked q).weight = q.weight := by unfold ticked; dsimp only; split <;> rfl

theorem ticked_runs {q : Proc} (hr : q.state = .running) :
    ((ticked q).state = .runnable ∨ (ticked q).state = .running) ∧ (ticked q).chan = q.chan := by
  unfold ticked
  dsimp only
  split
  · exact ⟨.inl rfl, rfl⟩
  · exact ⟨.inr hr, rfl⟩

theorem ticked_low (q : Proc) : (ticked q).vruntimeLow = if (q.vruntimeLow + tickVruntime q) / 1000000000 ≠ 0
    then (q.vruntimeLow + tickVruntime q) % 1000000000 else q.vruntimeLow + tickVruntime q := by
  unfold ticked
  simp only [decide_eq_true_eq]
  split <;> rfl

theorem ticked_high (q : Proc) : (ticked q).vruntimeHigh = if (q.vruntimeLow + tickVruntime q) / 1000000000 ≠ 0
    then q.vruntimeHigh + 1 else q.vruntimeHigh := by
  unfold ticked
  simp only [decide_eq_true_eq]
  split <;> rfl

theorem carry_iff (x : uint) : x / 1000000000 ≠ 0 ↔ 1000000000 ≤ x.toNat := by
  have h9 : (1000000000 : uint).toNat = 1000000000 := by decide
  have h : x / 1000000000 = 0 ↔ x.toNat / 1000000000 = 0 := by
    rw [← BitVec.toNat_inj, BitVec.toNat_udiv, h9]
    rfl
  rw [ne_eq, h]
  omega

/-- **A tick carries**: it adds one tick of virtual time to the number, and leaves the low word reduced. -/
theorem Proc.Ok.ticked {q : Proc} (hq : q.Ok) : (ticked q).Ok := by
  obtain ⟨-, htick⟩ := tickVruntime_bounds hq.weight
  refine ⟨by rw [ticked_nice]; exact hq.nonneg, by rw [ticked_nice]; exact hq.le39,
    by rw [ticked_weight]; exact hq.weight, ?_⟩
  rw [ticked_low]
  split
  · rw [BitVec.toNat_umod]
    exact Nat.mod_lt _ (by decide)
  · rename_i hc
    rw [carry_iff] at hc
    omega

theorem ticked_vruntime {q : Proc} (hq : q.Ok) (hh : q.vruntimeHigh ≠ 4294967295) :
    (ticked q).vruntime = q.vruntime + (tickVruntime q).toNat := by
  obtain ⟨-, htick⟩ := tickVruntime_bounds hq.weight
  have hlow := hq.low
  have hsum : (q.vruntimeLow + tickVruntime q).toNat = q.vruntimeLow.toNat + (tickVruntime q).toNat := by
    rw [BitVec.toNat_add]
    omega
  unfold Proc.vruntime
  rw [ticked_low, ticked_high]
  by_cases hc : (q.vruntimeLow + tickVruntime q) / 1000000000 ≠ 0
  · have h9 : (1000000000 : uint).toNat = 1000000000 := by decide
    have hh' : q.vruntimeHigh.toNat ≠ 4294967295 := fun he => hh (BitVec.eq_of_toNat_eq he)
    have hlt := q.vruntimeHigh.isLt
    rw [if_pos hc, if_pos hc, BitVec.toNat_umod, h9, BitVec.toNat_add, hsum]
    rw [carry_iff, hsum] at hc
    have h1 : (1 : uint).toNat = 1 := by decide
    rw [h1]
    omega
  · rw [if_neg hc, if_neg hc, hsum]
    omega

/-! ## Every step keeps the table -/

section Steps

variable {R : WakeCall → Prop}

/-- **The rule for one slot**: the table is kept if the new value of the slot is `Ok` or unused. -/
theorem update_ok {P : State → Prop} (p : Fin nproc) (f : Proc → Proc)
    (h : ∀ s, TableOk s → P s → (f (s.proc p)).state ≠ .unused → (f (s.proc p)).Ok) :
    Triple BorrowFree R (fun s => TableOk s ∧ P s) (update p f) (fun _ => TableOk) := by
  refine Triple.modify (fun s hs r hr => ?_)
  rw [setProc_proc] at hr ⊢
  split at hr
  · rename_i hrp
    rw [if_pos hrp]
    exact h s hs.1 hs.2 hr
  · rename_i hrp
    rw [if_neg hrp]
    exact hs.1 r hr

theorem update_same {P : State → Prop} (p : Fin nproc) (f : Proc → Proc)
    (hu : ∀ s, P s → (s.proc p).state ≠ .unused)
    (h : ∀ q, (f q).nice = q.nice ∧ (f q).weight = q.weight ∧ (f q).vruntimeLow = q.vruntimeLow) :
    Triple BorrowFree R (fun s => TableOk s ∧ P s) (update p f) (fun _ => TableOk) :=
  update_ok p f (fun s hs hP _ => by
    have hq := hs p (hu s hP)
    obtain ⟨h1, h2, h3⟩ := h (s.proc p)
    exact ⟨h1 ▸ hq.nonneg, h1 ▸ hq.le39, h2 ▸ hq.weight, h3 ▸ hq.low⟩)

theorem weight_default : weightAt 20 ∈ weights := weightAt_mem (by decide) (by decide)

theorem allocproc_ok : Triple BorrowFree R TableOk allocproc (fun r s => TableOk s ∧
    ∀ p ∈ r, (s.proc p).state = .embryo) := by
  refine Triple.get_bind (fun s₀ hs₀ => ?_)
  cases hf : slots.find? (fun p => decide ((s₀.proc p).state = .unused)) with
  | none => exact Triple.pure none (fun s hs => ⟨hs ▸ hs₀, fun p hp => by cases hp⟩)
  | some p =>
    refine Triple.bind (Q := fun _ s => TableOk s ∧ (s.proc p).state = .embryo)
      (Triple.modify (fun s hs => ?_)) (fun _ => ?_)
    · subst hs
      refine ⟨fun r hr => ?_, by rw [setProc_proc, if_pos rfl]⟩
      rw [setProc_proc] at hr ⊢
      split
      · exact ⟨(by decide : (0 : Int) ≤ 20), (by decide : (20 : Int) ≤ 39), weight_default,
          (by decide : (0 : uint).toNat < 1000000000)⟩
      · rename_i hrp
        rw [if_neg hrp] at hr
        exact hs₀ r hr
    · refine Triple.bind (Q := fun _ s => TableOk s ∧ (s.proc p).state = .embryo) (Triple.modify fun s hs => hs)
        (fun _ => Triple.pure _ (fun s hs => ⟨hs.1, fun r hr => ?_⟩))
      cases hr
      exact hs.2

theorem forkCopy_ok (np c : Fin nproc) (f : ForkField) :
    Triple BorrowFree R (fun s => TableOk s ∧ (s.proc np).state ≠ .unused ∧ (s.proc c).state ≠ .unused)
      (forkCopy np c f) (fun _ => TableOk) := by
  refine Triple.get_bind (fun s₀ hs₀ => ?_)
  obtain ⟨hok, hnp, hc⟩ := hs₀
  have hpar := hok c hc
  have hchild := hok np hnp
  refine Triple.weaken (update_ok (P := fun s => s = s₀) np _ (fun s _ hs _ => ?_)) (fun s hs => ⟨hs ▸ hok, hs⟩)
  subst hs
  -- one assignment: what is copied from the parent is the parent's, the rest is the child's own
  cases f with
  | parent => exact ⟨hchild.nonneg, hchild.le39, hchild.weight, hchild.low⟩
  | vruntimeHigh => exact ⟨hchild.nonneg, hchild.le39, hchild.weight, hchild.low⟩
  | vruntimeLow => exact ⟨hchild.nonneg, hchild.le39, hchild.weight, hpar.low⟩
  | aruntime => exact ⟨hchild.nonneg, hchild.le39, hchild.weight, hchild.low⟩
  | aruntimePrev => exact ⟨hchild.nonneg, hchild.le39, hchild.weight, hchild.low⟩
  | nice => exact ⟨hpar.nonneg, hpar.le39, hchild.weight, hchild.low⟩
  | weight => exact ⟨hchild.nonneg, hchild.le39, hpar.weight, hchild.low⟩

theorem setRunnable_ok (p : Fin nproc) : Triple BorrowFree R (fun s => TableOk s ∧ (s.proc p).state ≠ .unused)
    (setRunnable p) (fun _ => TableOk) :=
  update_same p _ (fun _ hs => hs) (fun _ => ⟨rfl, rfl, rfl⟩)

theorem sleep_ok (p : Fin nproc) (chan : Chan) :
    Triple BorrowFree R (fun s => TableOk s ∧ (s.proc p).state ≠ .unused) (sleep p chan) (fun _ => TableOk) :=
  update_same p _ (fun _ hs => hs) (fun _ => ⟨rfl, rfl, rfl⟩)

theorem sleepReturn_ok (p : Fin nproc) :
    Triple BorrowFree R (fun s => TableOk s ∧ (s.proc p).state ≠ .unused) (sleepReturn p) (fun _ => TableOk) :=
  update_same p _ (fun _ hs => hs) (fun _ => ⟨rfl, rfl, rfl⟩)

theorem userinit_ok : Triple BorrowFree R TableOk userinit (fun _ => TableOk) := by
  refine Triple.bind allocproc_ok (fun r => ?_)
  cases r with
  | none => exact Triple.pure () (fun s hs => hs.1)
  | some p =>
    exact Triple.bind (Triple.modify (fun s hs => ⟨hs.1, by rw [hs.2 p rfl]; decide⟩)) (fun _ => setRunnable_ok p)

/-- **`wakeup1` keeps the table when no sleeper needs a borrow.** -/
theorem wakeup1_ok (chan : Chan) : Triple BorrowFree (fun _ => True) TableOk (wakeup1 chan) (fun _ => TableOk) := by
  refine Triple.get_bind (fun s₀ hs₀ => ?_)
  refine Triple.bind (Q := fun _ s => s = s₀ ∧ BorrowFree ⟨s₀, chan⟩)
    (Triple.emit (fun _ _ _ => trivial) (fun s hs hG => ⟨hs, hG⟩)) (fun _ => Triple.modify (fun s hs p hp => ?_))
  obtain ⟨rfl, hb⟩ := hs
  simp only at hp ⊢
  split
  · rename_i hsl
    have hst : (s.proc p).state ≠ .unused := by
      unfold sleepsOn at hsl
      simp only [Bool.and_eq_true, decide_eq_true_eq] at hsl
      rw [hsl.1]; decide
    exact woken_ok hs₀ (hs₀ p hst) (hb p hsl)
  · rename_i hsl
    rw [if_neg hsl] at hp
    exact hs₀ p hp

theorem kill_ok (pid : Int) : Triple BorrowFree R TableOk (kill pid) (fun _ => TableOk) := by
  refine Triple.get_bind (fun s₀ hs₀ => ?_)
  cases hf : findPid s₀ pid with
  | none => exact Triple.pure _ (fun s hs => hs ▸ hs₀)
  | some p =>
    refine Triple.bind (Triple.weaken (update_ok (P := fun s => s = s₀) p _ (fun s hs _ hu => ?_))
      (fun s hs => ⟨hs ▸ hs₀, hs⟩)) (fun _ => Triple.pure _ (fun s hs => hs))
    have hst : (s.proc p).state ≠ .unused := by
      intro he
      rw [he] at hu
      exact hu rfl
    have hq := hs p hst
    exact ⟨hq.nonneg, hq.le39, hq.weight, hq.low⟩

theorem setnice_ok (pid v : Int) : Triple BorrowFree R TableOk (setnice pid v) (fun _ => TableOk) := by
  refine Triple.ite (fun _ => Triple.pure _ (fun s hs => hs)) (fun hv => Triple.get_bind (fun s₀ hs₀ => ?_))
  cases hf : findPid s₀ pid with
  | none => exact Triple.pure _ (fun s hs => hs ▸ hs₀)
  | some p =>
    refine Triple.bind (Triple.weaken (update_ok (P := fun s => s = s₀) p _ (fun s hs _ hu => ?_))
      (fun s hs => ⟨hs ▸ hs₀, hs⟩)) (fun _ => Triple.pure _ (fun s hs => hs))
    exact ⟨by dsimp only; omega, by dsimp only; omega, weightAt_mem (by omega) (by omega), (hs p hu).low⟩

theorem exit_ok (c : Fin nproc) : Triple BorrowFree (fun _ => True) (fun s => TableOk s ∧ (s.proc c).state ≠ .unused)
    (exit c) (fun _ => TableOk) := by
  -- only `allocFail` and `wait` make a slot unused, so `c` stays in use through the section
  have hwake : ∀ chan, Triple BorrowFree (fun _ => True) (fun s => TableOk s ∧ (s.proc c).state ≠ .unused)
      (wakeup1 chan) (fun _ s => TableOk s ∧ (s.proc c).state ≠ .unused) := by
    intro chan s hs hG
    obtain ⟨hR, hok⟩ := wakeup1_ok chan s hs.1 hG
    refine ⟨hR, fun a ha => ⟨hok a ha, ?_⟩⟩
    show (if sleepsOn chan (s.proc c) then woken (minRunnable s) (s.proc c) else s.proc c).state ≠ .unused
    split
    · rw [woken_eq]
      exact nofun
    · exact hs.2
  refine Triple.get_bind (fun s₀ hs₀ => Triple.ite (fun _ => Triple.stop _) (fun _ => ?_))
  refine Triple.bind (Triple.weaken (hwake _) (fun s hs => hs ▸ hs₀)) (fun _ => ?_)
  refine Triple.bind (Triple.forEach slots (fun p _ => ?_))
    (fun _ => update_same c _ (fun _ hs => hs) (fun _ => ⟨rfl, rfl, rfl⟩))
  refine Triple.get_bind (fun s₁ hs₁ => Triple.ite (fun _ => ?_) (fun _ => Triple.pure () (fun s hs => hs ▸ hs₁)))
  refine Triple.bind (Q := fun _ s => TableOk s ∧ (s.proc c).state ≠ .unused) (Triple.modify (fun s hs => ?_))
    (fun _ => Triple.ite (fun _ => hwake _) (fun _ => Triple.pure () (fun _ hs => hs)))
  subst hs
  refine ⟨fun r hr => ?_, ?_⟩
  · rw [setProc_proc] at hr ⊢
    split
    · rename_i hrp
      rw [if_pos hrp] at hr
      have hq := hs₁.1 p hr
      exact ⟨hq.nonneg, hq.le39, hq.weight, hq.low⟩
    · rename_i hrp
      rw [if_neg hrp] at hr
      exact hs₁.1 r hr
  · rw [setProc_proc]
    split
    · rename_i hcp
      exact hcp ▸ hs₁.2
    · exact hs₁.2

theorem waitReap_ok (c : Fin nproc) : Triple BorrowFree R TableOk (waitReap c) (fun _ => TableOk) := by
  refine Triple.get_bind (fun s₀ hs₀ => ?_)
  split
  · exact Triple.pure _ (fun s hs => hs ▸ hs₀)
  · refine Triple.bind (Triple.weaken (update_ok (P := fun _ => True) _ _ (fun s _ _ hu => absurd rfl hu))
      (fun s hs => ⟨hs ▸ hs₀, trivial⟩)) (fun _ => Triple.pure _ (fun s hs => hs))

theorem trapTick_ok (p : Fin nproc) : Triple BorrowFree R (fun s => TableOk s ∧ (s.proc p).state ≠ .unused)
    (trapTick p) (fun _ => TableOk) :=
  update_ok p ticked (fun _ hs hp _ => (hs p hp).ticked)

theorem schedScan_runnable (s : State) (p : Fin nproc) (hp : (s.proc p).state = .runnable) :
    (s.proc (schedScan s p).1).state = .runnable := by
  have hfold : ∀ (l : List (Fin nproc)) (acc : Fin nproc × uint), (s.proc acc.1).state = .runnable →
      (s.proc (l.foldl (scanStep s) acc).1).state = .runnable := by
    intro l
    induction l with
    | nil => exact fun acc h => h
    | cons t l ih =>
      refine fun acc h => ih _ ?_
      unfold scanStep
      split
      · rename_i ht
        simp only
        split
        · exact ht
        · exact h
      · exact h
  exact hfold slots (p, 0) hp

theorem dispatch_ok (p : Fin nproc) : Triple BorrowFree R (fun s => TableOk s ∧ (s.proc p).state = .runnable)
    (dispatch p) (fun _ => TableOk) := by
  refine Triple.get_bind (fun s₀ hs₀ => ?_)
  refine Triple.bind (Triple.weaken (update_ok (P := fun s => s = s₀) _ _ (fun s hs he _ => ?_))
    (fun s hs => ⟨hs ▸ hs₀.1, hs⟩)) (fun _ => Triple.pure _ (fun s hs => hs))
  subst he
  have hq := hs _ (by rw [schedScan_runnable s p hs₀.2]; decide)
  exact ⟨hq.nonneg, hq.le39, weightAt_mem hq.nonneg hq.le39, hq.low⟩

/-- **One step keeps the table**, if it calls `wakeup1` only where no sleeper needs a borrow. -/
theorem step_ok (a : Act) : Triple BorrowFree (fun _ => True) TableOk (step a) (fun _ => TableOk) := by
  refine Triple.get_bind (fun s₀ hs₀ => Triple.ite (fun hen => ?_) (fun _ => Triple.pure () (fun s hs => hs ▸ hs₀)))
  have hused : ∀ {p st}, decide ((s₀.proc p).state = st) = true → st ≠ .unused → (s₀.proc p).state ≠ .unused :=
    fun h hst he => hst ((of_decide_eq_true h).symm.trans he)
  cases a with
  | userinit => exact userinit_ok.weaken (fun s hs => hs ▸ hs₀)
  | allocproc => exact Triple.bind (allocproc_ok.weaken (fun s hs => hs ▸ hs₀)) (fun _ => Triple.pure () (fun _ h => h.1))
  | allocFail p =>
    exact (update_ok (P := fun _ => True) p _ (fun _ _ _ hu => absurd rfl hu)).weaken (fun s hs => ⟨hs ▸ hs₀, trivial⟩)
  | forkCopy np c f =>
    simp only [Act.enabled, Bool.and_eq_true] at hen
    exact (forkCopy_ok np c f).weaken (fun s hs => hs ▸ ⟨hs₀, hused hen.1 (by decide), hused hen.2 (by decide)⟩)
  | ready p => exact (setRunnable_ok p).weaken (fun s hs => hs ▸ ⟨hs₀, hused hen (by decide)⟩)
  | sleep p chan => exact (sleep_ok p chan).weaken (fun s hs => hs ▸ ⟨hs₀, hused hen (by decide)⟩)
  | sleepReturn p => exact (sleepReturn_ok p).weaken (fun s hs => hs ▸ ⟨hs₀, hused hen (by decide)⟩)
  | wakeup chan => exact (wakeup1_ok chan).weaken (fun s hs => hs ▸ hs₀)
  | kill pid => exact Triple.bind ((kill_ok pid).weaken (fun s hs => hs ▸ hs₀)) (fun _ => Triple.pure () (fun _ h => h))
  | setnice pid v =>
    exact Triple.bind ((setnice_ok pid v).weaken (fun s hs => hs ▸ hs₀)) (fun _ => Triple.pure () (fun _ h => h))
  | exit p => exact (exit_ok p).weaken (fun s hs => hs ▸ ⟨hs₀, hused hen (by decide)⟩)
  | wait p => exact Triple.bind ((waitReap_ok p).weaken (fun s hs => hs ▸ hs₀)) (fun _ => Triple.pure () (fun _ h => h))
  | tick p => exact (trapTick_ok p).weaken (fun s hs => hs ▸ ⟨hs₀, hused hen (by decide)⟩)
  | dispatch p =>
    exact Triple.bind ((dispatch_ok p).weaken (fun s hs => hs ▸ ⟨hs₀, of_decide_eq_true hen⟩))
      (fun _ => Triple.pure () (fun _ h => h))

end Steps

theorem run_ok (acts : List Act) : Triple BorrowFree (fun _ => True) TableOk (run acts) (fun _ => TableOk) :=
  Triple.forEach acts (fun a _ => step_ok a)

theorem boot_ok : TableOk boot := fun _ hp => absurd rfl hp

/-- **In every run from boot whose calls of `wakeup1` need no borrow, the virtual runtimes stay normalised** and their
lexicographic order is the order of the numbers. -/
theorem run_normalised (acts : List Act) (hb : ∀ e ∈ (run acts boot).tr, BorrowFree e)
    (hrun : (run acts boot).res = .ok ()) :
    Normalised (run acts boot).st ∧ OrderAgrees (run acts boot).st := by
  obtain ⟨-, hok⟩ := run_ok acts boot boot_ok hb
  have hn := (hok () hrun).normalised
  exact ⟨hn, hn.orderAgrees⟩

/-- The first process forks, goes to sleep while its child waits with virtual runtime zero, and is woken. -/
def sleepAndWake : List Act :=
  [.userinit, .dispatch 0, .allocproc, .ready 1, .sleep 0 (.obj 1), .wakeup (.obj 1)]

/-- **The woken process is left with `2 ^ 32 - 1000` in its low word**, above `10 ^ 9`. -/
theorem sleepAndWake_not_normalised :
    (run sleepAndWake boot).res = .ok () ∧ ¬ Normalised (run sleepAndWake boot).st := by
  refine ⟨by rfl, fun hn => ?_⟩
  have hlow : ((run sleepAndWake boot).st.proc 0).vruntimeLow = 4294966296 := by rfl
  have h := hn 0 (by decide)
  rw [hlow] at h
  exact absurd h (by decide)

/-- The first process runs for a tick, forks, goes to sleep and is woken: its child's low word covers its tick. -/
def tickForkAndWake : List Act :=
  [.userinit, .dispatch 0, .tick 0, .allocproc, .forkCopy 1 0 .vruntimeLow, .ready 1, .sleep 0 (.obj 1),
   .wakeup (.obj 1)]

theorem tickForkAndWake_free : (run tickForkAndWake boot).tr.all (fun e => decide (BorrowFree e)) = true := by rfl

theorem tickForkAndWake_normalised :
    Normalised (run tickForkAndWake boot).st ∧ OrderAgrees (run tickForkAndWake boot).st :=
  run_normalised tickForkAndWake (fun e he => of_decide_eq_true (List.all_eq_true.1 tickForkAndWake_free e he)) (by rfl)

end Sched
end Xv6
