import Xv6.Sched.Change
/-!
# Sched.Lookup — the system calls that take a pid

`kill`, `getpname`, `getnice` and `setnice` scan the table for the first slot with the pid they are given.  None of
them looks at the state of the slot, and of the two ways a slot is given up only `wait` clears its pid and `killed`:
a `fork` that fails leaves both.  So a lookup concerns a live process exactly when no unused slot holds the pid
(`Pids.concerns_iff`), and a `kill` that finds an unused slot, or one still being filled, marks the process that will
start there next (`Unmarked`).  The pids themselves never collide.
-/
namespace Xv6
namespace Sched

def getpname (pid : Int) : SchedM Int := do
  let s ← Prog.get
  match findPid s pid with
  | none   => pure (-1)
  | some _ => pure 0

def getnice (pid : Int) : SchedM Int := do
  if pid ≤ 0 then pure (-1)
  else
    let s ← Prog.get
    match findPid s pid with
    | none   => pure (-1)
    | some p => pure (s.proc p).nice

inductive Lookup where
  | kill | getpname | getnice
  | setnice (value : Int)

def Lookup.call (pid : Int) : Lookup → SchedM Int
  | .kill          => Sched.kill pid
  | .getpname      => Sched.getpname pid
  | .getnice       => Sched.getnice pid
  | .setnice value => Sched.setnice pid value

/-- The arguments a call rejects before it looks at the table. -/
def Lookup.refuses (pid : Int) : Lookup → Prop
  | .kill          => False
  | .getpname      => False
  | .getnice       => pid ≤ 0
  | .setnice value => value < 0 ∨ 39 < value ∨ pid ≤ 0

instance (pid : Int) (op : Lookup) : Decidable (op.refuses pid) := by
  cases op <;> unfold Lookup.refuses <;> infer_instance

/-- What a call returns that found the slot `q`. -/
def Lookup.value : Lookup → Proc → Int
  | .getnice, q => q.nice
  | _, _        => 0

/-- What a call makes of the slot `q` it found. -/
def Lookup.after : Lookup → Proc → Proc
  | .kill, q          => killedProc q
  | .setnice value, q => { q with nice := value, weight := weightAt value }
  | _, q              => q

/-- The call ends, succeeds only for a process in use with that pid and then changes no other slot, and changes nothing
when it returns -1. -/
def Concerns (s : State) (pid : Int) (op : Lookup) : Prop :=
  ∃ r, (op.call pid s).res = .ok r ∧ (r = -1 → (op.call pid s).st = s) ∧
    (r ≠ -1 → ∃ p, (s.proc p).pid = pid ∧ (s.proc p).state ≠ .unused ∧
      ∀ q, q ≠ p → (op.call pid s).st.proc q = s.proc q)

/-- No unused slot holds the pid. -/
def Current (s : State) (pid : Int) : Prop := ∀ p, (s.proc p).pid = pid → (s.proc p).state ≠ .unused

/-- A `kill` finds no slot that is unused or still being filled. -/
def Spared (s : State) : Act → Prop
  | .kill pid => ∀ p, (s.proc p).pid = pid → (s.proc p).state ≠ .unused ∧ (s.proc p).state ≠ .embryo
  | _ => True

instance (s : State) (pid : Int) : Decidable (Current s pid) :=
  inferInstanceAs (Decidable (∀ p, (s.proc p).pid = pid → (s.proc p).state ≠ .unused))

instance (s : State) (a : Act) : Decidable (Spared s a) := by
  cases a <;> unfold Spared <;> infer_instance

/-- The pids handed out are those below `nextpid`; a used slot has one, and two slots never have the same. -/
structure Pids (s : State) : Prop where
  next     : 1 ≤ s.nextpid
  bounds   : ∀ p, 0 ≤ (s.proc p).pid ∧ (s.proc p).pid < s.nextpid
  live     : ∀ p, (s.proc p).state ≠ .unused → (s.proc p).pid ≠ 0
  distinct : ∀ p q, (s.proc p).pid = (s.proc q).pid → (s.proc p).pid ≠ 0 → p = q
  nice     : ∀ p, 0 ≤ (s.proc p).nice

/-- No slot that is unused or being filled is marked as killed. -/
def Unmarked (s : State) : Prop :=
  ∀ p, (s.proc p).state = .unused ∨ (s.proc p).state = .embryo → (s.proc p).killed = false

/-! ## One step -/

theorem Change.pid {s : State} {a : Act} {r : Fin nproc} {q : Proc} (h : Change s a r q) :
    (q.pid = (s.proc r).pid ∧ (q.state ≠ .unused → (s.proc r).state ≠ .unused)) ∨
    (q.pid = s.nextpid ∧ firstUnused s = some r ∧ a.enabled s = true ∧ (a = .userinit ∨ a = .allocproc)) ∨
    (q.pid = 0 ∧ q.state = .unused) := by
  cases h with
  | same => exact .inl ⟨rfl, id⟩
  | userinit _ hi hf => exact .inr (.inl ⟨rfl, hf, decide_eq_true hi, .inl rfl⟩)
  | alloc _ hf => exact .inr (.inl ⟨rfl, hf, rfl, .inr rfl⟩)
  | fail _ he => exact .inl ⟨rfl, fun _ => used_of he (by decide)⟩
  | copy _ c f he _ => exact .inl ⟨by cases f <;> rfl, fun _ => used_of he (by decide)⟩
  | ready _ he => exact .inl ⟨rfl, fun _ => used_of he (by decide)⟩
  | sleep _ _ he => exact .inl ⟨rfl, fun _ => used_of he (by decide)⟩
  | sleepReturn _ he => exact .inl ⟨rfl, fun _ => used_of he (by decide)⟩
  | wakeup _ _ he _ => exact .inl ⟨(woken_kept _ _).1, fun _ => used_of he (by decide)⟩
  | kill =>
    refine .inl ⟨rfl, fun hu he => hu ?_⟩
    unfold killedProc
    dsimp only
    rw [he]
    rfl
  | setnice => exact .inl ⟨rfl, id⟩
  | exit c _ _ hc _ hx => exact .inl ⟨hx.pid, hx.used hc⟩
  | wait => exact .inr (.inr ⟨rfl, rfl⟩)
  | tick _ he => exact .inl ⟨by unfold ticked; dsimp only; split <;> rfl, fun _ => used_of he (by decide)⟩
  | dispatch p _ hp hm =>
    have hrun := schedScan_runnable s p hp
    rw [hm] at hrun
    exact .inl ⟨rfl, fun _ => used_of hrun (by decide)⟩

theorem Change.nice {s : State} {a : Act} {r : Fin nproc} {q : Proc} (h : Change s a r q)
    (hs : ∀ p, 0 ≤ (s.proc p).nice) : 0 ≤ q.nice := by
  have h20 : (0 : Int) ≤ 20 := by decide
  cases h with
  | userinit => exact h20
  | alloc => exact h20
  | copy _ c f _ _ =>
    cases f with
    | nice => exact hs c
    | _ => exact hs r
  | wakeup _ _ _ _ => rw [(woken_kept _ _).2.1]; exact hs r
  | setnice _ _ _ h0 _ _ _ => exact h0
  | exit _ _ _ _ _ hx => rw [hx.nice]; exact hs r
  | tick _ _ => rw [ticked_nice]; exact hs r
  | _ => exact hs r

theorem Change.killed {s : State} {a : Act} {r : Fin nproc} {q : Proc} (h : Change s a r q) (hs : Unmarked s)
    (ha : Spared s a) (hq : q.state = .unused ∨ q.state = .embryo) : q.killed = false := by
  cases h with
  | same => exact hs r hq
  | userinit => rcases hq with hq | hq <;> cases hq
  | alloc _ hf => exact hs r (.inl (firstUnused_state hf))
  | fail _ he => exact hs r (.inr he)
  | copy _ c f he _ => cases f <;> exact hs r (.inr he)
  | ready => rcases hq with hq | hq <;> cases hq
  | sleep => rcases hq with hq | hq <;> cases hq
  | sleepReturn _ he => exact hs r hq
  | wakeup => rw [(woken_kept _ _).2.2.2.2.2.2] at hq; rcases hq with hq | hq <;> cases hq
  | kill pid _ hf =>
    obtain ⟨hu, he⟩ := ha r (findPid_pid hf)
    unfold killedProc at hq
    dsimp only at hq
    split at hq
    · rcases hq with hq | hq <;> cases hq
    · exact absurd hq (not_or.2 ⟨hu, he⟩)
  | setnice => exact hs r hq
  | exit c _ _ hc _ hx =>
    rw [hx.killed]
    apply hs r
    by_cases hr : r = c
    · rw [hx.self hr] at hq; rcases hq with hq | hq <;> cases hq
    · by_cases hw : roused s c slots (s.proc r)
      · rw [hx.woken hr hw] at hq; rcases hq with hq | hq <;> cases hq
      · rw [← hx.other hr hw]; exact hq
  | wait => rfl
  | tick _ he =>
    exfalso
    unfold ticked at hq
    dsimp only at hq
    split at hq
    · rcases hq with hq | hq <;> cases hq
    · rw [he] at hq; rcases hq with hq | hq <;> cases hq
  | dispatch => rcases hq with hq | hq <;> cases hq

theorem Unmarked.step {s : State} (h : Unmarked s) {a : Act} (ha : Spared s a) : Unmarked (step a s).st :=
  fun r hr => (step_change a s r).killed h ha hr

/-- **Every step keeps the pids apart**: the one it may hand out is new, and the one it may take back becomes 0. -/
theorem Pids.step {s : State} (h : Pids s) (a : Act) : Pids (step a s).st := by
  have hrest := step_rest a s
  have hle : s.nextpid ≤ (Sched.step a s).st.nextpid := by rcases hrest.nextpid with h | h <;> omega
  -- the slot that gets the new pid is the first unused one
  have hcase : ∀ r, ((Sched.step a s).st.proc r).pid = (s.proc r).pid ∨
      (((Sched.step a s).st.proc r).pid = s.nextpid ∧ firstUnused s = some r ∧
        (Sched.step a s).st.nextpid = s.nextpid + 1) ∨ ((Sched.step a s).st.proc r).pid = 0 := by
    intro r
    rcases (step_change a s r).pid with ⟨hp, -⟩ | ⟨hp, hf, hen, ha⟩ | ⟨hp, -⟩
    · exact .inl hp
    · exact .inr (.inl ⟨hp, hf, hrest.fresh r hf hen ha⟩)
    · exact .inr (.inr hp)
  refine ⟨Int.le_trans h.next hle, fun r => ?_, fun r hu => ?_, fun p q hpq hp => ?_,
    fun r => (step_change a s r).nice h.nice⟩
  · have hb := h.bounds r
    have hn := h.next
    rcases hcase r with hp | ⟨hp, -, hn⟩ | hp <;> omega
  · rcases (step_change a s r).pid with ⟨hp, hused⟩ | ⟨hp, -⟩ | ⟨-, hun⟩
    · rw [hp]; exact h.live r (hused hu)
    · have hn := h.next
      omega
    · exact absurd hun hu
  · have hbp := h.bounds p
    have hbq := h.bounds q
    rcases hcase p with hp' | ⟨hp', hfp, -⟩ | hp'
    · rcases hcase q with hq' | ⟨hq', -⟩ | hq'
      · exact h.distinct p q (by omega) (by omega)
      · omega
      · omega
    · rcases hcase q with hq' | ⟨-, hfq, -⟩ | hq'
      · omega
      · exact Option.some.inj (hfp.symm.trans hfq)
      · omega
    · exact absurd hp' hp

/-! ## The calls -/

theorem setProc_self (s : State) (p : Fin nproc) : s.setProc p (s.proc p) = s := by
  have h : (fun r => if r = p then s.proc p else s.proc r) = s.proc := by
    funext r
    split
    · rename_i hr; rw [hr]
    · rfl
  unfold State.setProc
  rw [h]

/-- **The four calls have one shape**: refuse, find nothing, or find a slot and change at most that one. -/
theorem Lookup.call_run (op : Lookup) (pid : Int) (s : State) : op.call pid s =
    if op.refuses pid then ⟨.ok (-1), s, []⟩
    else match findPid s pid with
      | none   => ⟨.ok (-1), s, []⟩
      | some p => ⟨.ok (op.value (s.proc p)), s.setProc p (op.after (s.proc p)), []⟩ := by
  cases op with
  | kill => exact kill_run pid s
  | getpname =>
    show Sched.getpname pid s = _
    unfold Sched.getpname
    rw [Prog.get_bind_run]
    cases hf : findPid s pid with
    | none => rfl
    | some p => simp only [Lookup.refuses, Lookup.after, setProc_self]; rfl
  | getnice =>
    show Sched.getnice pid s = _
    unfold Sched.getnice
    by_cases hp : pid ≤ 0
    · rw [if_pos hp, if_pos (show Lookup.refuses pid .getnice from hp)]; rfl
    · rw [if_neg hp, if_neg (show ¬ Lookup.refuses pid .getnice from hp), Prog.get_bind_run]
      cases hf : findPid s pid with
      | none => rfl
      | some p => simp only [Lookup.after, setProc_self]; rfl
  | setnice value => exact setnice_run pid value s

theorem Pids.value {s : State} (h : Pids s) (op : Lookup) (p : Fin nproc) : op.value (s.proc p) ≠ -1 := by
  have hn := h.nice p
  cases op with
  | getnice => show (s.proc p).nice ≠ -1; omega
  | _ => exact (by decide : (0 : Int) ≠ -1)

/-- **A call concerns a live process exactly when it is refused or no unused slot holds the pid.** -/
theorem Pids.concerns_iff {s : State} (h : Pids s) (pid : Int) (op : Lookup) :
    Concerns s pid op ↔ op.refuses pid ∨ Current s pid := by
  unfold Concerns
  rw [op.call_run]
  by_cases href : op.refuses pid
  · rw [if_pos href]
    exact ⟨fun _ => .inl href, fun _ => ⟨-1, rfl, fun _ => rfl, fun hr => absurd rfl hr⟩⟩
  · rw [if_neg href]
    cases hf : findPid s pid with
    | none =>
      exact ⟨fun _ => .inr fun p hp => absurd hp (findPid_none hf p),
        fun _ => ⟨-1, rfl, fun _ => rfl, fun hr => absurd rfl hr⟩⟩
    | some p =>
      have hv := h.value op p
      constructor
      · rintro ⟨r, hr, -, hlive⟩
        cases hr
        obtain ⟨p', hp', hu', -⟩ := hlive hv
        refine .inr fun q hq hqu => hu' ?_
        -- a live process has a pid that no other slot has
        have : p' = q := h.distinct p' q (hp'.trans hq.symm) (h.live p' hu')
        rw [this, hqu]
      · intro hc
        have hcur := hc.resolve_left href
        exact ⟨_, rfl, fun hr => absurd hr hv, fun _ => ⟨p, findPid_pid hf, hcur p (findPid_pid hf), fun q hq => by
          show (s.setProc p _).proc q = _
          rw [setProc_proc, if_neg hq]⟩⟩

/-! ## Whole runs -/

theorem boot_pids : Pids boot where
  next         := Int.le_refl 1
  bounds _     := ⟨Int.le_refl 0, (by decide : (0 : Int) < 1)⟩
  live _ h     := absurd rfl h
  distinct _ _ _ h := absurd rfl h
  nice _       := Int.le_refl 0

theorem run_pids (acts : List Act) : Pids (run acts boot).st :=
  (Prog.forEach_admits (C := fun _ _ => True) (I := Pids) (R := fun _ => True)
    (fun a _ h _ => ⟨fun _ _ => trivial, h.step a⟩) acts boot boot_pids
    (Prog.admits_of_forall (fun _ _ => trivial) acts boot)).2

/-- **In every state a run from boot reaches** a call concerns a live process exactly when it is refused or no unused
slot holds its pid; the pids in use are distinct while they fit an `int`; and where every `kill` was spared, a process
that becomes RUNNABLE starts with `killed` clear. -/
theorem run_lookups (acts : List Act) :
    (∀ pid op, Concerns (run acts boot).st pid op ↔ op.refuses pid ∨ Current (run acts boot).st pid) ∧
    ((run acts boot).st.nextpid - 1 < 2 ^ 31 →
      (∀ p, ((run acts boot).st.proc p).state ≠ .unused →
        1 ≤ ((run acts boot).st.proc p).pid ∧ ((run acts boot).st.proc p).pid < 2 ^ 31) ∧
      ∀ p q, ((run acts boot).st.proc p).state ≠ .unused → ((run acts boot).st.proc q).state ≠ .unused →
        ((run acts boot).st.proc p).pid = ((run acts boot).st.proc q).pid → p = q) ∧
    (Prog.Admits Spared step acts boot → ∀ p, ((run acts boot).st.proc p).state = .embryo →
      ((step (.ready p) (run acts boot).st).st.proc p).state = .runnable ∧
      ((step (.ready p) (run acts boot).st).st.proc p).killed = false) := by
  have h := run_pids acts
  refine ⟨h.concerns_iff, fun hn => ⟨fun p hp => ?_, fun p q hp _ hpq => h.distinct p q hpq (h.live p hp)⟩,
    fun ha p hp => ?_⟩
  · have hb := h.bounds p
    have hl := h.live p hp
    omega
  · have hu : Unmarked (run acts boot).st := (Prog.forEach_admits (I := Unmarked) (R := fun _ => True)
      (fun _ _ hs hx => ⟨fun _ _ => trivial, hs.step hx⟩) acts boot (fun _ _ => rfl) ha).2
    have hst : (step (.ready p) (run acts boot).st).st.proc p =
        { (run acts boot).st.proc p with state := .runnable } := by
      rw [step_run, if_pos (show Act.enabled _ (.ready p) = true from decide_eq_true hp)]
      show (if p = p then _ else _) = _
      rw [if_pos rfl]
    rw [hst]
    exact ⟨rfl, hu p (.inr hp)⟩

/-- init forks, its child is killed, and init forks again. -/
def killThenFork : List Act :=
  [.userinit, .dispatch 0, .allocproc, .forkCopy 1 0 .parent, .ready 1, .kill 2, .allocproc, .forkCopy 2 0 .parent]

theorem killThenFork_lookups :
    Concerns (run killThenFork boot).st 2 .kill ∧
    ((run killThenFork boot).st.proc 0).pid ≠ ((run killThenFork boot).st.proc 1).pid ∧
    ((step (.ready 2) (run killThenFork boot).st).st.proc 2).killed = false := by
  obtain ⟨hc, hd, hk⟩ := run_lookups killThenFork
  refine ⟨(hc 2 .kill).2 (.inr (by decide +kernel)), fun he => ?_, (hk (by decide +kernel) 2 (by decide +kernel)).2⟩
  exact absurd ((hd (by decide +kernel)).2 0 1 (by decide +kernel) (by decide +kernel) he) (by decide)

/-- A fork of init fails in `copyuvm`, and `kill(2)` follows; then a fork succeeds. -/
def killAfterFailedFork : List Act :=
  [.userinit, .dispatch 0, .allocproc, .allocFail 1, .kill 2, .allocproc, .forkCopy 1 0 .parent, .ready 1]

/-- **`kill(2)` succeeds though no process has pid 2**, and the process started next, with pid 3, is born killed. -/
theorem killAfterFailedFork_marks :
    (Lookup.call 2 .kill (run (killAfterFailedFork.take 4) boot).st).res = .ok 0 ∧
    (∀ p, ((run (killAfterFailedFork.take 4) boot).st.proc p).pid = 2 →
      ((run (killAfterFailedFork.take 4) boot).st.proc p).state = .unused) ∧
    ¬ Concerns (run (killAfterFailedFork.take 4) boot).st 2 .kill ∧
    ((run killAfterFailedFork boot).st.proc 1).pid = 3 ∧
    ((run killAfterFailedFork boot).st.proc 1).state = .runnable ∧
    ((run killAfterFailedFork boot).st.proc 1).killed = true := by
  refine ⟨by rfl, by decide +kernel, ?_, by decide +kernel, by decide +kernel, by decide +kernel⟩
  rw [(run_pids _).concerns_iff]
  decide +kernel

end Sched
end Xv6
