import Xv6.Vm.Publish
import Xv6.Vm.Faults
/-!
# Vm.Trap — `trap` (trap.c)

A trap, interrupts off, is one step.  `p` is `myproc()`, `none` for the null pointer, and what the cases of the switch
call in other files is a parameter.  `exit` does not return, so a trap ends in `exit` or goes back to the code that
trapped.  What `cprintf` and `lapiceoi` do is not part of the state.
-/
namespace Xv6
namespace Vm

open Mem
open Sched (nproc)

def tPgflt : Word := 14#32
def tIrq0 : Word := 32#32
def tSyscall : Word := 64#32
def irqTimer : Word := 0#32
def irqKbd : Word := 1#32
def irqCom1 : Word := 4#32
def irqIde : Word := 14#32
def irqSpurious : Word := 31#32
def dplUser : BitVec 16 := 3#16

/-- `struct trapframe`, as far as `trap` reads it. -/
structure Trapframe where
  trapno : Word
  err    : Word
  cs     : BitVec 16

def Trapframe.fromUser (tf : Trapframe) : Bool := decide (tf.cs &&& 3#16 = dplUser)
def Trapframe.fromKernel (tf : Trapframe) : Bool := decide (tf.cs &&& 3#16 = 0#16)

/-- `syscall`, the section under `tickslock`, and the drivers. -/
structure Handlers where
  syscall  : M Unit
  clock    : M Unit
  ideintr  : M Unit
  kbdintr  : M Unit
  uartintr : M Unit

inductive Left where
  | resumed | exited
  deriving DecidableEq

def exits (q : Fin nproc) : M Left := do
  exit q
  pure .exited

/-- `page_fault_handler` in the process `p`.  No area in use belongs to the null pointer. -/
def pageFault (p : Option (Fin nproc)) (addr : Addr) (io : Word) : M Int :=
  match p with
  | some q => pageFaultHandler q addr io
  | none   => do
    acquire
    let addr := pgRoundDown addr
    match ← Prog.read (·.findArea (fun a => a.covers addr && decide (a.state = .using) && decide (a.p = none))) with
    | none   =>
      release
      pure (-1)
    | some _ => Prog.stop .wild

/-- `tf->err & 2 ? 2 : 1`. -/
def Trapframe.io (tf : Trapframe) : Word := if tf.err &&& 2#32 ≠ 0 then 2 else 1

/-- The cases `T_IRQ0 + 7` and `T_IRQ0 + IRQ_SPURIOUS`: a line on the console. -/
def spurious : M Unit := pure ()

def unexpected (p : Option (Fin nproc)) (tf : Trapframe) : M Unit :=
  match p with
  | none   => Prog.stop (.panic "trap")
  | some q =>
    if tf.fromKernel then Prog.stop (.panic "trap")
    else Prog.modify (fun s => { s with tab := s.tab.setProc q { s.tab.proc q with killed := true } })

def trapSwitch (h : Handlers) (p : Option (Fin nproc)) (tf : Trapframe) (cr2 : Addr) : M Unit :=
  if tf.trapno = tIrq0 + irqTimer then h.clock
  else if tf.trapno = tIrq0 + irqIde then h.ideintr
  else if tf.trapno = tIrq0 + irqIde + 1 then pure ()
  else if tf.trapno = tIrq0 + irqKbd then h.kbdintr
  else if tf.trapno = tIrq0 + irqCom1 then h.uartintr
  else if tf.trapno = tPgflt then do
    let r ← pageFault p cr2 tf.io
    -- no `break` after -1: the next case runs
    Prog.when (r = -1) spurious
  else if tf.trapno = tIrq0 + 7 ∨ tf.trapno = tIrq0 + irqSpurious then spurious
  else unexpected p tf

/-- `if (myproc() && myproc()->killed && (tf->cs & 3) == DPL_USER) exit();`, and the rest. -/
def exitIfKilled (p : Option (Fin nproc)) (tf : Trapframe) (rest : M Left) : M Left :=
  match p with
  | none   => rest
  | some q => do
    if (← Prog.read (·.tab.proc q)).killed && tf.fromUser then exits q else rest

def trapTimer (p : Option (Fin nproc)) (tf : Trapframe) : M Unit :=
  match p with
  | none   => pure ()
  | some q => do
    let r ← Prog.read (·.tab.proc q)
    Prog.when (r.state = .running ∧ tf.trapno = tIrq0 + irqTimer) (table (.tick q))

def trapSyscall (h : Handlers) (p : Option (Fin nproc)) : M Left :=
  match p with
  | none   => Prog.stop .wild
  | some q => do
    if (← Prog.read (·.tab.proc q)).killed then exits q
    else
      h.syscall
      if (← Prog.read (·.tab.proc q)).killed then exits q else pure .resumed

def trap (h : Handlers) (p : Option (Fin nproc)) (tf : Trapframe) (cr2 : Addr) : M Left := do
  if tf.trapno = tSyscall then trapSyscall h p
  else
    trapSwitch h p tf cr2
    exitIfKilled p tf (do
      trapTimer p tf
      exitIfKilled p tf (pure .resumed))

/-! ## A page fault that is refused -/

theorem pageFault_refused {p : Option (Fin nproc)} {addr : Addr} {io : Word} {s : Sys}
    (h : (pageFault p addr io s).res = .ok (-1)) : pageFault p addr io s = ⟨.ok (-1), s, []⟩ := by
  cases p with
  | some q => exact pageFaultHandler_refused h
  | none =>
    unfold pageFault at h ⊢
    dsimp only at h ⊢
    cases hl : s.locked with
    | true =>
      rw [Prog.bind_run_error (acquire_panic hl)] at h
      cases h
    | false =>
      rw [Prog.bind_run_nil (acquire_run hl), Prog.read_bind_run] at h ⊢
      cases hi : s.lock.findArea (fun a => a.covers (pgRoundDown addr) && decide (a.state = .using) &&
            decide (a.p = none)) with
      | none =>
        dsimp only
        rw [Prog.bind_run_nil (release_run rfl), unlock_lock hl]
        rfl
      | some i =>
        rw [hi] at h
        cases h

variable {p : Option (Fin nproc)} {tf : Trapframe} {cr2 : Addr} {s : Sys}

theorem exitIfKilled_killed {q : Fin nproc} {rest : M Left} (hk : (s.tab.proc q).killed = true)
    (hu : tf.fromUser = true) : exitIfKilled (some q) tf rest s = exits q s := by
  unfold exitIfKilled
  dsimp only
  rw [Prog.read_bind_run, hk, hu]
  rfl

theorem exitIfKilled_alive {rest : M Left} (h : ∀ q, p = some q → ((s.tab.proc q).killed && tf.fromUser) = false) :
    exitIfKilled p tf rest s = rest s := by
  cases p with
  | none => rfl
  | some q =>
    unfold exitIfKilled
    dsimp only
    rw [Prog.read_bind_run, h q rfl]
    rfl

theorem trapTimer_other (hno : tf.trapno ≠ tIrq0 + irqTimer) : trapTimer p tf s = ⟨.ok (), s, []⟩ := by
  cases p with
  | none => rfl
  | some q =>
    unfold trapTimer
    dsimp only
    rw [Prog.read_bind_run, Prog.when_neg (fun h => hno h.2)]
    rfl

/-- **A refused page fault goes through the spurious interrupt**: only a process killed before it leaves. -/
theorem trap_refused_run (h : Handlers) (hno : tf.trapno = tPgflt) (hr : (pageFault p cr2 tf.io s).res = .ok (-1)) :
    trap h p tf cr2 s = exitIfKilled p tf (pure .resumed) s := by
  have hswitch : trapSwitch h p tf cr2 s = ⟨.ok (), s, []⟩ := by
    have hcase : trapSwitch h p tf cr2 = (do
        let r ← pageFault p cr2 tf.io
        Prog.when (r = -1) spurious) := by
      unfold trapSwitch
      rw [hno]
      rfl
    rw [hcase, Prog.bind_run_nil (pageFault_refused hr)]
    rfl
  have htrap : trap h p tf cr2 = (do
      trapSwitch h p tf cr2
      exitIfKilled p tf (do
        trapTimer p tf
        exitIfKilled p tf (pure .resumed))) := by
    unfold trap
    rw [hno]
    rfl
  have hclock : tf.trapno ≠ tIrq0 + irqTimer := by
    rw [hno]
    decide
  rw [htrap, Prog.bind_run_nil hswitch]
  by_cases hk : ∀ q, p = some q → ((s.tab.proc q).killed && tf.fromUser) = false
  · rw [exitIfKilled_alive hk, Prog.bind_run_nil (trapTimer_other hclock)]
  · push Not at hk
    obtain ⟨q, hp, hk⟩ := hk
    subst hp
    rw [Bool.ne_false_iff, Bool.and_eq_true] at hk
    rw [exitIfKilled_killed hk.1 hk.2, exitIfKilled_killed hk.1 hk.2]

theorem exits_left (q : Fin nproc) (s : Sys) : (exits q s).res ≠ .ok .resumed := by
  intro h
  obtain ⟨_, _, h, _, _⟩ := Prog.bind_ok h
  cases h

/-- How a trap that nobody serves is to end: a process, marked killed, in `exit`; the kernel in a panic. -/
structure Unserved (p : Option (Fin nproc)) (tf : Trapframe) (o : Outcome Stop Sys Event Left) : Prop where
  user   : tf.fromUser = true → ∃ q t, p = some q ∧ (t.tab.proc q).killed = true ∧ o = exits q t
  kernel : tf.fromKernel = true → o.res = .error (.panic "trap")
  leaves : o.res ≠ .ok .resumed

/-- **A page fault that `page_fault_handler` refuses ends as it should if and only if** it comes from user mode and
the process had been killed before it. -/
theorem trap_refused (h : Handlers) (p : Option (Fin nproc)) (tf : Trapframe) (cr2 : Addr) (s : Sys)
    (hno : tf.trapno = tPgflt) (hr : (pageFault p cr2 tf.io s).res = .ok (-1)) :
    Unserved p tf (trap h p tf cr2 s) ↔ tf.fromUser = true ∧ ∃ q, p = some q ∧ (s.tab.proc q).killed = true := by
  rw [trap_refused_run h hno hr]
  constructor
  · intro hend
    by_contra hnot
    refine hend.leaves ?_
    rw [exitIfKilled_alive]
    · rfl
    · intro q hp
      rw [Bool.and_eq_false_iff]
      by_cases hu : tf.fromUser = true
      · exact .inl (Bool.eq_false_iff.2 fun hk => hnot ⟨hu, q, hp, hk⟩)
      · exact .inr (Bool.eq_false_iff.2 hu)
  · rintro ⟨hu, q, rfl, hk⟩
    rw [exitIfKilled_killed hk hu]
    refine ⟨fun _ => ⟨q, s, rfl, hk, rfl⟩, fun hker => ?_, exits_left q s⟩
    unfold Trapframe.fromUser dplUser at hu
    unfold Trapframe.fromKernel at hker
    rw [decide_eq_true_eq] at hu hker
    rw [hu] at hker
    cases hker

def quietHandlers : Handlers := ⟨pure (), pure (), pure (), pure (), pure ()⟩

def userRead : Trapframe := ⟨tPgflt, 4#32, 0x1b#16⟩

/-- `kill` has come before the fault. -/
def killed : Sys := { sample with tab := sample.tab.setProc 0 { sample.tab.proc 0 with killed := true } }

theorem killed_refused : Unserved (some 0) userRead (trap quietHandlers (some 0) userRead 0x5000#32 killed) :=
  (trap_refused quietHandlers (some 0) userRead 0x5000#32 killed rfl (Prog.res_ok (by decide +kernel))).2
    ⟨by decide, 0, rfl, rfl⟩

/-- **The fault is taken again and again**: no area has the address, and the instruction is resumed. -/
theorem sample_refused : (pageFault (some 0) 0x5000#32 userRead.io sample).res = .ok (-1) ∧
    trap quietHandlers (some 0) userRead 0x5000#32 sample = ⟨.ok .resumed, sample, []⟩ ∧
    ¬ Unserved (some 0) userRead (trap quietHandlers (some 0) userRead 0x5000#32 sample) := by
  have hr : (pageFault (some 0) 0x5000#32 userRead.io sample).res = .ok (-1) := Prog.res_ok (by decide +kernel)
  have hrun : trap quietHandlers (some 0) userRead 0x5000#32 sample = ⟨.ok .resumed, sample, []⟩ := by
    rw [trap_refused_run quietHandlers rfl hr]
    rfl
  refine ⟨hr, hrun, fun h => h.leaves ?_⟩
  rw [hrun]

end Vm
end Xv6
