import Xv6.Vm.Space
import Xv6.Sched.Ptable
/-!
# Vm.File — the state of the kernel, and open files

`struct file` and `fileread` (file.c), `readi` (fs.c), `struct mmap_area` and `mtable` (vm.c), and the parts of
`struct proc` that mapping reads.  The process table is the scheduler's.  A null `struct file *` is an object of the
caller's memory: its fields are bytes of the page at address 0.
-/
namespace Xv6
namespace Vm

open Mem
open Sched (nproc)

abbrev Word := BitVec 32
abbrev Byte := BitVec 8

/-- `MAXFILE * BSIZE`. -/
def maxFileSize : Nat := 71680

/-- What a file is open on: nothing (a released entry), a pipe, the contents of an inode, or a device with the input
that waits on it. -/
inductive FileKind where
  | none
  | pipe (q : List Byte)
  | inode (data : List Byte) (size : data.length ≤ maxFileSize)
  | dev (q : List Byte)

structure File where
  kind     : FileKind
  ref      : Int
  readable : Bool
  writable : Bool
  off      : Word

/-- What reading and seeking leave as it is: how the file was opened, how often, and that it is. -/
def File.mode (f : File) : Bool × Bool × Int × Bool :=
  (f.readable, f.writable, f.ref, match f.kind with | .none => false | _ => true)

/-- The bytes of the inode a file is open on, if it is open on one. -/
def File.source (f : File) : Option (List Byte) := match f.kind with | .inode data _ => some data | _ => none

/-- A `struct file *`: null, an entry of `ftable`, or memory that is no `struct file`. -/
inductive FileRef where
  | null
  | file (i : Nat)
  | wild
  deriving DecidableEq

inductive MemState where
  | unusing | using
  deriving DecidableEq

/-- `struct mmap_area`. -/
structure Area where
  f      : FileRef
  addr   : Addr
  length : Word
  offset : Word
  prot   : Word
  flags  : Word
  p      : Option (Fin nproc)
  state  : MemState

/-- The entries of `mtable.maps`. -/
abbrev nmaps : Nat := 64

structure Sys where
  phys   : Phys
  maps   : Fin nmaps → Area
  /-- `mtable.lock` is held. -/
  locked : Bool
  file   : Nat → File
  tab    : Sched.State
  pgdir  : Fin nproc → Option Space
  sz     : Fin nproc → Addr
  kstack : Fin nproc → Option Frame
  ofile  : Fin nproc → Fin 16 → Option Nat

/-- A page that `page_fault_handler` fills from a file: the area, the address, the file before the read, the page. -/
structure Fill where
  area : Area
  va   : Addr
  file : File
  page : Page

inductive Event where
  /-- By a function of the mapping calls. -/
  | mm (e : PhysEvent)
  | vm (e : PhysEvent)
  | fill (e : Fill)
  /-- `mmap` makes the area `i` of `p`; `map_fork` gives it one. -/
  | made (p : Fin nproc) (i : Fin nmaps)
  | inherited (p : Fin nproc) (i : Fin nmaps)
  /-- The address space of `p` is a new one. -/
  | space (p : Fin nproc)
  /-- `munmap` by `p` looks for the address `x`. -/
  | unmap (p : Fin nproc) (x : Addr) (maps : Fin nmaps → Area)
  /-- `freevm` has released a page directory. -/
  | freed (g : Space) (freelist : List Frame)
  /-- A function of the mapping calls calls `fileread`, with `mtable.lock` held or not. -/
  | fileread (locked : Bool)

abbrev M := Prog Stop Sys Event

def mm {α : Type} (c : V α) : M α := Prog.zoom Sys.phys (fun s k => { s with phys := k }) Event.mm c
def vm {α : Type} (c : V α) : M α := Prog.zoom Sys.phys (fun s k => { s with phys := k }) Event.vm c

def follow {α : Type} (p : Sys → Option α) : M α := do
  match ← Prog.read p with
  | some a => pure a
  | none   => Prog.stop .wild

def Sys.setSpace (s : Sys) (p : Fin nproc) (g : Space) : Sys :=
  { s with pgdir := fun q => if q = p then some g else s.pgdir q }

def Sys.setArea (s : Sys) (i : Fin nmaps) (a : Area) : Sys :=
  { s with maps := fun j => if j = i then a else s.maps j }

def Sys.setFile (s : Sys) (i : Nat) (f : File) : Sys := { s with file := fun j => if j = i then f else s.file j }

/-- `ofile[fd]`: below the array stands `killed`, above it memory that is no `struct file *`. -/
def Sys.ofileAt (s : Sys) (p : Fin nproc) (fd : Word) : FileRef :=
  if h : fd.toNat < 16 then
    match s.ofile p ⟨fd.toNat, h⟩ with
    | none   => .null
    | some i => .file i
  else if fd = -1 ∧ (s.tab.proc p).killed = false then .null
  else .wild

/-- The frame the page at address 0 of `p` is in. -/
def Sys.lowPage (s : Sys) (p : Fin nproc) : Option Frame :=
  match s.pgdir p with
  | none   => none
  | some g => g.user 0 true

/-! ## Files -/

/-- `f->readable` and `f->writable`, at bytes 8 and 9 of a `struct file`. -/
def fileReadable (p : Fin nproc) : FileRef → M Bool
  | .file i => Prog.read (fun s => (s.file i).readable)
  | .null   => do
    let lo ← follow (·.lowPage p)
    Prog.read (fun s => s.phys.mem lo 8 != 0)
  | .wild   => Prog.stop .wild

def fileWritable (p : Fin nproc) : FileRef → M Bool
  | .file i => Prog.read (fun s => (s.file i).writable)
  | .null   => do
    let lo ← follow (·.lowPage p)
    Prog.read (fun s => s.phys.mem lo 9 != 0)
  | .wild   => Prog.stop .wild

/-- `f->off = off`, the word at byte 20. -/
def setOff (p : Fin nproc) (f : FileRef) (off : Word) : M Unit :=
  match f with
  | .file i => Prog.modify (fun s => s.setFile i { s.file i with off := off })
  | .null   => do
    let lo ← follow (·.lowPage p)
    Prog.modify (fun s => { s with phys := s.phys.setPage lo (setWord (s.phys.mem lo) 5 off) })
  | .wild   => Prog.stop .wild

/-- `readi` of an inode that is no device; `none` is `-1`. -/
def readi (data : List Byte) (off n : Word) : Option (List Byte) :=
  if data.length < off.toNat ∨ off + n < off then none
  else some ((data.drop off.toNat).take n.toNat)

/-- `fileread`: the bytes read, or `none` for `-1`. -/
def fileread (p : Fin nproc) (f : FileRef) (n : Word) : M (Option (List Byte)) :=
  match f with
  | .file i => do
    let fl ← Prog.read (·.file i)
    if !fl.readable then pure none
    else
      match fl.kind with
      | .none         => Prog.stop (.panic "fileread")
      | .pipe q       =>
        Prog.modify (·.setFile i { fl with kind := .pipe (q.drop n.toNat) })
        pure (some (q.take n.toNat))
      | .inode data _ =>
        let r := readi data fl.off n
        Prog.modify (·.setFile i { fl with off := fl.off + BitVec.ofNat 32 (r.getD []).length })
        pure r
      | .dev q        =>
        Prog.modify (·.setFile i { fl with
          kind := .dev (q.drop n.toNat), off := fl.off + BitVec.ofNat 32 (q.take n.toNat).length })
        pure (some (q.take n.toNat))
  | _ => do
    if ← fileReadable p f then Prog.stop .wild else pure none

def filedup (i : Nat) : M Unit := do
  if (← Prog.read (·.file i)).ref < 1 then Prog.stop (.panic "filedup")
  else Prog.modify (fun s => s.setFile i { s.file i with ref := (s.file i).ref + 1 })

/-- `fileclose`, without what `pipeclose` and `iput` do to the pipe and the inode. -/
def fileclose (i : Nat) : M Unit := do
  let f ← Prog.read (·.file i)
  if f.ref < 1 then Prog.stop (.panic "fileclose")
  else if 0 < f.ref - 1 then Prog.modify (·.setFile i { f with ref := f.ref - 1 })
  else Prog.modify (·.setFile i { f with ref := 0, kind := .none })

def storeBytes (f : Frame) (bytes : List Byte) : M Unit :=
  Prog.modify (fun s => { s with phys := s.phys.setPage f (fun o => bytes.getD o.toNat (s.phys.mem f o)) })

end Vm
end Xv6
