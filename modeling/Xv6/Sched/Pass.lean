import Xv6.Sched.Change
import Xv6.Sched.Scheduler
/-!
# Sched.Pass — one pass of `scheduler()` over the table

The outer loop of `scheduler`, in a system where anything may happen while the chosen process runs.  The loop's own index
is overwritten by the process chosen, so a pass is not a walk over the slots: it goes on behind that process, and it
ends only if the choices stop going back.
-/
namespace Xv6
namespace Sched

/-- The pass at its loop test: the index `p`, and the table. -/
structure Pass where
  index : Nat
  s     : State

def Pass.ended (m : Pass) : Prop := nproc ≤ m.index

/-- The turn at `m` dispatches. -/
def Pass.dispatches (m : Pass) : Prop := ∃ h : m.index < nproc, (m.s.proc ⟨m.index, h⟩).state = .runnable

def Pass.chosen (m : Pass) : Fin nproc := (schedScan m.s (Fin.ofNat nproc m.index)).1

/-- One turn of the loop.  `acts` are the steps of all processes from the switch until control comes back. -/
def passTurn (acts : List Act) (m : Pass) : Pass :=
  if h : m.index < nproc then
    if (m.s.proc ⟨m.index, h⟩).state = .runnable then
      ⟨(schedScan m.s ⟨m.index, h⟩).1 + 1, (run acts (step (.dispatch ⟨m.index, h⟩) m.s).st).st⟩
    else { m with index := m.index + 1 }
  else m

/-- The pass after `n` turns, `env n` being what happens in the turn `n`. -/
def pass (env : Nat → List Act) (m : Pass) : Nat → Pass
  | 0     => m
  | n + 1 => passTurn (env n) (pass env m n)

/-- `(vruntime_high, vruntime_low)` of `p` is lexicographically smaller. -/
def Proc.below (p q : Proc) : Prop :=
  p.vruntimeHigh < q.vruntimeHigh ∨ p.vruntimeHigh = q.vruntimeHigh ∧ p.vruntimeLow < q.vruntimeLow

/-- The switch is to a RUNNABLE process, and no RUNNABLE one is below it. -/
def PicksMin (m : Pass) : Prop :=
  (m.s.proc m.chosen).state = .runnable ∧ ∀ t, (m.s.proc t).state = .runnable → ¬ (m.s.proc t).below (m.s.proc m.chosen)

variable {env : Nat → List Act} {m : Pass}

theorem below_key {p q : Proc} (h : p.below q) : p.key < q.key := by
  unfold Proc.key
  rcases h with h | ⟨he, h⟩
  · rw [BitVec.lt_def] at h
    have := p.vruntimeLow.isLt
    omega
  · rw [BitVec.lt_def] at h
    rw [he]
    omega

theorem chosen_eq (h : m.index < nproc) : m.chosen = (schedScan m.s ⟨m.index, h⟩).1 := by
  have hix : Fin.ofNat nproc m.index = ⟨m.index, h⟩ := Fin.ext (Nat.mod_eq_of_lt h)
  unfold Pass.chosen
  rw [hix]

/-- **Every dispatch picks a least RUNNABLE process**, wherever the scan starts. -/
theorem Pass.dispatches.picksMin (h : m.dispatches) : PicksMin m := by
  obtain ⟨hlt, hrun⟩ := h
  unfold PicksMin
  rw [chosen_eq hlt]
  refine ⟨schedScan_runnable m.s _ hrun, fun t ht hb => ?_⟩
  exact absurd (schedScan_least m.s ⟨m.index, hlt⟩ t ht) (Nat.not_le.2 (below_key hb))

/-! ## The index -/

theorem passTurn_dispatch (h : m.dispatches) (acts : List Act) : (passTurn acts m).index = m.chosen + 1 := by
  obtain ⟨hlt, hrun⟩ := h
  unfold passTurn
  rw [dif_pos hlt, if_pos hrun, chosen_eq hlt]

theorem passTurn_skip (hlt : m.index < nproc) (h : ¬ m.dispatches) (acts : List Act) :
    passTurn acts m = { m with index := m.index + 1 } := by
  unfold passTurn
  rw [dif_pos hlt, if_neg fun hrun => h ⟨hlt, hrun⟩]

theorem passTurn_ended (h : m.ended) (acts : List Act) : passTurn acts m = m := by
  unfold passTurn
  exact dif_neg (Nat.not_lt.2 h)

theorem passTurn_on (hlt : m.index < nproc) (h : m.dispatches → m.index ≤ m.chosen) (acts : List Act) :
    m.index + 1 ≤ (passTurn acts m).index := by
  by_cases hd : m.dispatches
  · rw [passTurn_dispatch hd]
    exact Nat.succ_le_succ (h hd)
  · rw [passTurn_skip hlt hd]

/-- **A pass that has stopped going back ends**, within one turn for each slot. -/
theorem pass_ends {N : Nat} (h : ∀ n, N ≤ n → (pass env m n).dispatches → (pass env m n).index ≤ (pass env m n).chosen) :
    (pass env m (N + nproc)).ended := by
  have hwalk : ∀ k, (pass env m (N + k)).ended ∨ k ≤ (pass env m (N + k)).index := by
    intro k
    induction k with
    | zero => exact .inr (Nat.zero_le _)
    | succ k ih =>
      show (passTurn _ (pass env m (N + k))).ended ∨ k + 1 ≤ (passTurn _ (pass env m (N + k))).index
      by_cases hend : (pass env m (N + k)).ended
      · rw [passTurn_ended hend]
        exact .inl hend
      · have hon := passTurn_on (Nat.not_le.1 hend) (h (N + k) (Nat.le_add_right N k)) (env (N + k))
        exact .inr ((Nat.succ_le_succ (ih.resolve_left hend)).trans hon)
  rcases hwalk nproc with hend | hle
  · exact hend
  · exact hle

/-- **A pass over a table with a RUNNABLE process dispatches**: up to there the table stays as it was. -/
theorem pass_dispatches {s : State} {p : Fin nproc} (hp : (s.proc p).state = .runnable) :
    ∃ n, (pass env ⟨0, s⟩ n).dispatches := by
  by_contra hno
  push Not at hno
  have hwalk : ∀ k, k ≤ p.val → pass env ⟨0, s⟩ k = ⟨k, s⟩ := by
    intro k
    induction k with
    | zero => exact fun _ => rfl
    | succ k ih =>
      intro hk
      have hat := ih (by omega)
      have hskip := hno k
      show passTurn _ (pass env ⟨0, s⟩ k) = _
      rw [hat] at hskip ⊢
      rw [passTurn_skip (Nat.lt_trans (by exact hk) p.isLt) hskip]
  have hat := hno p
  rw [hwalk p (Nat.le_refl _)] at hat
  exact hat ⟨p.isLt, hp⟩

/-- **The passes of `scheduler`**, whatever the processes do: every dispatch picks a least RUNNABLE process, a pass that
starts with a RUNNABLE process dispatches, and it ends once its choices have stopped going back behind the index. -/
theorem pass_minimum (env : Nat → List Act) (s : State) :
    (∀ n, (pass env ⟨0, s⟩ n).dispatches → PicksMin (pass env ⟨0, s⟩ n)) ∧
    ((∃ p, (s.proc p).state = .runnable) → ∃ n, (pass env ⟨0, s⟩ n).dispatches) ∧
    ∀ N, (∀ n, N ≤ n → (pass env ⟨0, s⟩ n).dispatches → (pass env ⟨0, s⟩ n).index ≤ (pass env ⟨0, s⟩ n).chosen) →
      (pass env ⟨0, s⟩ (N + nproc)).ended :=
  ⟨fun _ h => h.picksMin, fun ⟨_, hp⟩ => pass_dispatches hp, fun _ h => pass_ends h⟩

/-! ## A pass without end -/

/-- Slots 0 and 1 wake each other and sleep, on 1 and on 2; slot 2 has run for a tick and waits. -/
def pingpong (first : Bool) : State :=
  { boot with proc := fun p =>
      if p = 0 then { unusedProc with
        state := if first then .runnable else .sleeping, chan := .obj 1, nice := 20, weight := 1024 }
      else if p = 1 then { unusedProc with
        state := if first then .sleeping else .runnable, chan := .obj 2, nice := 20, weight := 1024 }
      else if p = 2 then { unusedProc with state := .runnable, nice := 20, weight := 1024, vruntimeLow := 1000 }
      else unusedProc }

/-- What slot 0 does while it runs, and what slot 1 does. -/
def pings (n : Nat) : List Act :=
  if n % 2 = 0 then [.sleepReturn 0, .wakeup (.obj 2), .sleep 0 (.obj 1)]
  else [.sleepReturn 1, .wakeup (.obj 1), .sleep 1 (.obj 2)]

deriving instance DecidableEq for Proc

theorem pingpong_first (i : Nat) (hi : i = 0 ∨ i = 2) : passTurn (pings 0) ⟨i, pingpong true⟩ = ⟨1, pingpong false⟩ := by
  rcases hi with rfl | rfl
  · exact congrArg (Pass.mk 1) (State.eq_of (by decide +kernel) rfl rfl)
  · exact congrArg (Pass.mk 1) (State.eq_of (by decide +kernel) rfl rfl)

theorem pingpong_second : passTurn (pings 1) ⟨1, pingpong false⟩ = ⟨2, pingpong true⟩ :=
  congrArg (Pass.mk 2) (State.eq_of (by decide +kernel) rfl rfl)

theorem pingpong_turns (k : Nat) :
    pass pings ⟨0, pingpong true⟩ (2 * k + 1) = ⟨1, pingpong false⟩ ∧
    pass pings ⟨0, pingpong true⟩ (2 * k + 2) = ⟨2, pingpong true⟩ := by
  have heven : ∀ k, pings (2 * k) = pings 0 := fun k => by simp [pings]
  have hodd : ∀ k, pings (2 * k + 1) = pings 1 := fun k => by simp [pings, Nat.add_mod]
  have hsecond : ∀ k, pass pings ⟨0, pingpong true⟩ (2 * k + 1) = ⟨1, pingpong false⟩ →
      pass pings ⟨0, pingpong true⟩ (2 * k + 2) = ⟨2, pingpong true⟩ := by
    intro k hk
    show passTurn (pings (2 * k + 1)) (pass pings _ (2 * k + 1)) = _
    rw [hk, hodd, pingpong_second]
  induction k with
  | zero =>
    have hone : pass pings ⟨0, pingpong true⟩ (2 * 0 + 1) = ⟨1, pingpong false⟩ := pingpong_first 0 (.inl rfl)
    exact ⟨hone, hsecond 0 hone⟩
  | succ k ih =>
    have hone : pass pings ⟨0, pingpong true⟩ (2 * (k + 1) + 1) = ⟨1, pingpong false⟩ := by
      show passTurn (pings (2 * (k + 1))) (pass pings _ (2 * k + 2)) = _
      rw [ih.2, heven, pingpong_first 2 (.inr rfl)]
    exact ⟨hone, hsecond (k + 1) hone⟩

/-- **The pass that starts here never ends**: slot 2, RUNNABLE throughout, is never chosen. -/
theorem pingpong_endless : (∃ p, ((pingpong true).proc p).state = .runnable) ∧
    ∀ n, ¬ (pass pings ⟨0, pingpong true⟩ n).ended := by
  refine ⟨⟨2, rfl⟩, fun n => ?_⟩
  rcases Nat.eq_zero_or_pos n with rfl | hpos
  · exact Nat.not_le.2 (by decide)
  · obtain ⟨k, hk⟩ : ∃ k, n = 2 * k + 1 ∨ n = 2 * k + 2 := ⟨(n - 1) / 2, by omega⟩
    rcases hk with rfl | rfl
    · rw [(pingpong_turns k).1]
      exact Nat.not_le.2 (by decide)
    · rw [(pingpong_turns k).2]
      exact Nat.not_le.2 (by decide)

end Sched
end Xv6
