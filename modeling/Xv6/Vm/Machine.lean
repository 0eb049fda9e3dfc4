import Xv6.Vm.Mmap
import Xv6.Sched.Change
/-!
# Vm.Machine — processes that map memory

The calls and faults of processes, each one step of an interleaving: `fork`, `exit`, `wait` (proc.c) and the commit of
`exec` (exec.c) with what they do to the address spaces and the open files, on the scheduler's process table.  What
`exec` loads before its commit is a program of its own, of which nothing is assumed.  `Call` lists the steps, `step`
runs one and does nothing where the kernel could not take it, `run` is a whole interleaving.
-/
namespace Xv6
namespace Vm

open Mem
open Sched (nproc firstUnused zombieChild)

def table (a : Sched.Act) : M Unit := fun s =>
  ⟨match (Sched.step a s.tab).res with | .ok _ => .ok () | .error (.panic m) => .error (.panic m),
    { s with tab := (Sched.step a s.tab).st }, []⟩

def Sys.setKstack (s : Sys) (p : Fin nproc) (k : Option Frame) : Sys :=
  { s with kstack := fun q => if q = p then k else s.kstack q }

def Sys.setFd (s : Sys) (p : Fin nproc) (fd : Fin 16) (f : Option Nat) : Sys :=
  { s with ofile := fun q => if q = p then fun n => if n = fd then f else s.ofile q n else s.ofile q }

/-- `p->pgdir = g; p->sz = sz`. -/
def setImage (p : Fin nproc) (g : Space) (sz : Addr) : M Unit := do
  Prog.modify (fun s => { s.setSpace p g with sz := fun q => if q = p then sz else s.sz q })
  Prog.emit (.space p)

/-- `freevm(g)`, with the free list it leaves. -/
def freevmOf (g : Space) : M Unit := do
  vm (freevm g)
  Prog.emit (.freed g (← Prog.read (·.phys.freelist)))

/-- `allocproc` with its kernel stack. -/
def allocproc : M (Option (Fin nproc)) := do
  match ← Prog.read (fun s => firstUnused s.tab) with
  | none   => pure none
  | some p =>
    table .allocproc
    match ← vm kalloc with
    | none   =>
      table (.allocFail p)
      pure none
    | some k =>
      Prog.modify (·.setKstack p (some k))
      pure (some p)

def fds : List (Fin 16) := List.finRange 16

/-- The assignments of `fork` to the fields the scheduler reads. -/
def forkFields : List Sched.ForkField :=
  [.parent, .vruntimeHigh, .vruntimeLow, .aruntime, .aruntimePrev, .nice, .weight]

def fork (p : Fin nproc) : M (Option (Fin nproc)) := do
  match ← allocproc with
  | none    => pure none
  | some np =>
    let g ← follow (·.pgdir p)
    let sz ← Prog.read (·.sz p)
    match ← vm (copyuvm g sz) with
    | none   =>
      let k ← follow (·.kstack np)
      vm (kfree k)
      Prog.modify (·.setKstack np none)
      table (.allocFail np)
      pure none
    | some d =>
      setImage np d sz
      Prog.forEach forkFields (fun f => table (.forkCopy np p f))
      Prog.forEach fds (fun fd => do
        match ← Prog.read (·.ofile p fd) with
        | none   => pure ()
        | some i =>
          filedup i
          Prog.modify (·.setFd np fd (some i)))
      table (.ready np)
      mapFork p np
      pure (some np)

def exit (p : Fin nproc) : M Unit := do
  if (← Prog.read (·.tab.initproc)) = some p then Prog.stop (.panic "init exiting")
  else
    Prog.forEach fds (fun fd => do
      match ← Prog.read (·.ofile p fd) with
      | none   => pure ()
      | some i =>
        fileclose i
        Prog.modify (·.setFd p fd none))
    table (.exit p)

/-- One scan of `wait`. -/
def wait (p : Fin nproc) : M Unit := do
  match ← Prog.read (fun s => zombieChild s.tab p) with
  | none   => pure ()
  | some z =>
    match ← Prog.read (·.kstack z) with
    | none   => Prog.stop (.panic "kfree")
    | some k =>
      vm (kfree k)
      Prog.modify (·.setKstack z none)
      let g ← follow (·.pgdir z)
      freevmOf g
      table (.wait p)

/-- `exec` from its commit on; `load` is what it does before. -/
def exec (p : Fin nproc) (load : V (Option (Space × Addr))) : M Unit := do
  match ← vm load with
  | none         => pure ()
  | some (g, sz) =>
    let old ← follow (·.pgdir p)
    setImage p g sz
    freevmOf old

/-- The branches of `growproc`. -/
def resize (g : Space) (sz : Addr) (n : Word) : M (Addr × Space) :=
  if (0#32).slt n then vm (allocuvm g sz (sz + n))
  else if n.slt 0 then vm (deallocuvm g sz (sz + n))
  else pure (sz, g)

/-- 0, or -1 where `allocuvm` or `deallocuvm` return 0. -/
def growproc (p : Fin nproc) (n : Word) : M Int := do
  let sz ← Prog.read (·.sz p)
  let g ← follow (·.pgdir p)
  let r ← resize g sz n
  Prog.modify (·.setSpace p r.2)
  if n ≠ 0 ∧ r.1 = 0 then pure (-1)
  else
    Prog.modify (fun s => { s with sz := fun q => if q = p then r.1 else s.sz q })
    pure 0

/-- `userinit`, with the first program's code. -/
def userinit (init : List Byte) : M Unit := do
  match ← Prog.read (fun s => firstUnused s.tab) with
  | none   => Prog.stop .wild
  | some p =>
    match ← vm kalloc with
    | none   => Prog.stop .wild
    | some k =>
      Prog.modify (·.setKstack p (some k))
      match ← vm setupkvm with
      | none   => Prog.stop (.panic "userinit: out of memory?")
      | some g =>
        setImage p (← vm (inituvm g init)) pgsize
        table .userinit

/-! ## Interleavings -/

/-- The calls that map memory, and an access of a process to its memory. -/
inductive MmCall where
  | mmap (p : Fin nproc) (addr length prot flags fd offset : Word)
  | munmap (p : Fin nproc) (addr : Addr)
  | touch (p : Fin nproc) (va : Addr) (write : Bool)

/-- An access that the hardware does not let through is a page fault. -/
def touch (p : Fin nproc) (va : Addr) (write : Bool) : M Unit := do
  let g ← follow (·.pgdir p)
  if (g.user va write).isSome then pure ()
  else
    let _ ← pageFaultHandler p va (if write then 2 else 1)

def MmCall.proc : MmCall → Fin nproc
  | .mmap p .. | .munmap p _ | .touch p .. => p

def mmStep : MmCall → M Unit
  | .mmap p addr length prot flags fd offset => do let _ ← mmap p addr length prot flags fd offset
  | .munmap p addr                           => do let _ ← munmap p addr
  | .touch p va write                        => touch p va write

inductive Call where
  | userinit (init : List Byte)
  | mm (c : MmCall)
  | read (p : Fin nproc) (fd : Fin 16) (n : Word)
  | fork (p : Fin nproc)
  | exec (p : Fin nproc) (load : V (Option (Space × Addr)))
  | exit (p : Fin nproc)
  | wait (p : Fin nproc)
  | sbrk (p : Fin nproc) (n : Word)
  /-- What `open`, `close` and `dup` leave in a descriptor, and any change of an open file. -/
  | setFd (p : Fin nproc) (fd : Fin 16) (f : Option Nat)
  | setFile (i : Nat) (f : File)
  /-- Any other step of the process table. -/
  | table (a : Sched.Act)

def tableOnly : Sched.Act → Bool
  | .sleep .. | .sleepReturn _ | .wakeup _ | .kill _ | .setnice .. | .tick _ | .dispatch _ => true
  | _ => false

def Sys.runs (s : Sys) (p : Fin nproc) : Bool := decide ((s.tab.proc p).state = .running)

def Call.enabled (s : Sys) : Call → Bool
  | .userinit _  => decide (s.tab.initproc = none)
  | .mm c        => s.runs c.proc
  | .read p ..   => s.runs p
  | .fork p      => s.runs p
  | .exec p _    => s.runs p
  | .exit p      => s.runs p
  | .wait p      => s.runs p
  | .sbrk p _    => s.runs p
  | .setFd p ..  => s.runs p
  | .setFile ..  => true
  | .table a     => tableOnly a

def Call.body : Call → M Unit
  | .userinit init => Vm.userinit init
  | .mm c          => mmStep c
  | .read p fd n   => do
    match ← Prog.read (·.ofile p fd) with
    | none   => pure ()
    | some i => do let _ ← fileread p (.file i) n
  | .fork p        => do let _ ← Vm.fork p
  | .exec p load   => Vm.exec p load
  | .exit p        => Vm.exit p
  | .wait p        => Vm.wait p
  | .sbrk p n      => do let _ ← growproc p n
  | .setFd p fd f  => Prog.modify (·.setFd p fd f)
  | .setFile i f   => Prog.modify (·.setFile i f)
  | .table a       => Vm.table a

def step (c : Call) : M Unit := do
  let s ← Prog.get
  if c.enabled s then c.body else pure ()

def run (calls : List Call) : M Unit := Prog.forEach calls step

def boot (phys : Phys) (file : Nat → File) : Sys :=
  { phys := phys, maps := fun _ => Area.cleared, locked := false, file := file, tab := Sched.boot
    pgdir := fun _ => none, sz := fun _ => 0, kstack := fun _ => none, ofile := fun _ _ => none }

end Vm
end Xv6
