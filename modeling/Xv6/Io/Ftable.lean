import Xv6.Lib.Counted
/-!
# Io.Ftable — open files (file.c, the calls of sysfile.c and proc.c, pipe.c)

A step is what one process does up to the next place where another can come between: a section under `ftable.lock` or
the lock of a pipe, with what it does to its own table and to files that nobody else has yet.  A process in the middle
of a call is at one of the points `Pc`.
-/
namespace Xv6
namespace Ftable

/-- `NPROC`, `NOFILE` and `NFILE`. -/
abbrev nproc : Nat := 64
abbrev nofile : Nat := 16
abbrev nfile : Nat := 100

/-! ## The state -/

inductive FdType where
  | none
  | pipe
  | inode
deriving DecidableEq

/-- `struct file`; `pipe` is the address of a page, `ip` an inode. -/
structure File where
  type     : FdType
  ref      : Nat
  readable : Bool
  writable : Bool
  pipe     : Nat
  ip       : Nat
  off      : Nat

structure Pipe where
  readopen  : Bool
  writeopen : Bool
deriving DecidableEq

inductive ProcState where
  | unused
  | embryo
  /-- `RUNNABLE`, `RUNNING` and `SLEEPING`. -/
  | live
  | zombie
deriving DecidableEq

/-- What the last `fileclose` of a file has to release. -/
inductive Resource where
  | pipe (page : Nat) (writable : Bool)
  | inode (ip : Nat)
deriving DecidableEq

/-- Where `fileclose` returns to: to a call that closes more files and returns, or to the loop of `exit`. -/
inductive After where
  | calls (fs : List (Fin nfile))
  | exit (fd : Fin nofile)

inductive Pc where
  | user
  /-- `sys_open` before `filealloc`, and with a descriptor whose file it has not filled in. -/
  | opening (ip : Nat) (omode : BitVec 32)
  | opened (f : Fin nfile) (ip : Nat) (omode : BitVec 32)
  /-- `pipealloc` with one file and with two, and `sys_pipe` behind it. -/
  | piping (f0 : Fin nfile)
  | pipeKalloc (f0 f1 : Fin nfile)
  | pipeFds (rf wf : Fin nfile)
  /-- `sys_dup` before `filedup`. -/
  | duping (f : Fin nfile) (fd : Fin nofile)
  /-- `fileclose` before its section, and behind it when `ff` is the copy of a file that has lost its last reference. -/
  | closing (f : Fin nfile) (k : After)
  | releasing (f : Fin nfile) (ff : File) (k : After)
  /-- `fork` before `copyuvm`, and in its loop. -/
  | forkCopy (np : Fin nproc)
  | forking (np : Fin nproc) (i : Nat)
  /-- The loop of `exit`. -/
  | exiting (fd : Nat)

inductive Event where
  /-- A file becomes an `FD_PIPE` or an `FD_INODE`. -/
  | opened (f : Fin nfile) (r : Resource)
  /-- `fileclose` calls `pipeclose` or `iput`. -/
  | released (f : Fin nfile) (r : Resource)
  /-- A page becomes a pipe, and goes to `kfree`. -/
  | kalloc (page : Nat)
  | kfree (page : Nat)
deriving DecidableEq

structure State where
  file  : Fin nfile → File
  /-- The pages that are pipes. -/
  pipe  : Nat → Option Pipe
  ofile : Fin nproc → Fin nofile → Option (Fin nfile)
  state : Fin nproc → ProcState
  pc    : Fin nproc → Pc
  /-- What has happened, the latest first. -/
  past  : List Event

inductive Stop where
  | panic (msg : String)
  /-- A page that is no pipe is used as one. -/
  | wild
deriving DecidableEq

def State.setFile (s : State) (f : Fin nfile) (v : File) : State := { s with file := Function.update s.file f v }

def State.setOfile (s : State) (p : Fin nproc) (fd : Fin nofile) (v : Option (Fin nfile)) : State :=
  { s with ofile := Function.update s.ofile p (Function.update (s.ofile p) fd v) }

def State.setState (s : State) (p : Fin nproc) (v : ProcState) : State := { s with state := Function.update s.state p v }

def State.setPipe (s : State) (page : Nat) (v : Option Pipe) : State := { s with pipe := Function.update s.pipe page v }

def State.goto (s : State) (p : Fin nproc) (pc : Pc) : State := { s with pc := Function.update s.pc p pc }

def State.emit (s : State) (e : Event) : State := { s with past := e :: s.past }

/-! ## Files -/

def filealloc (s : State) : Option (Fin nfile × State) :=
  ((List.finRange nfile).find? fun f => decide ((s.file f).ref = 0)).map fun f => (f, s.setFile f { s.file f with ref := 1 })

def fdalloc (p : Fin nproc) (f : Fin nfile) (s : State) : Option (Fin nofile × State) :=
  ((List.finRange nofile).find? fun fd => (s.ofile p fd).isNone).map fun fd => (fd, s.setOfile p fd (some f))

def filedup (f : Fin nfile) (s : State) : Except Stop State :=
  if (s.file f).ref < 1 then .error (.panic "filedup")
  else .ok (s.setFile f { s.file f with ref := (s.file f).ref + 1 })

def resume (p : Fin nproc) (k : After) (s : State) : State :=
  match k with
  | .calls []        => s.goto p .user
  | .calls (f :: fs) => s.goto p (.closing f (.calls fs))
  | .exit fd         => (s.setOfile p fd none).goto p (.exiting (fd + 1))

def fileclose (p : Fin nproc) (f : Fin nfile) (k : After) (s : State) : Except Stop State :=
  let ff := s.file f
  if ff.ref < 1 then .error (.panic "fileclose")
  else if 0 < ff.ref - 1 then .ok (resume p k (s.setFile f { ff with ref := ff.ref - 1 }))
  else .ok ((s.setFile f { ff with ref := 0, type := .none }).goto p (.releasing f ff k))

/-- `pipeclose`, and `kfree` when the other end is closed too. -/
def pipeclose (page : Nat) (writable : Bool) (s : State) : Except Stop State :=
  match s.pipe page with
  | none   => .error .wild
  | some v =>
    let v := if writable then { v with writeopen := false } else { v with readopen := false }
    if v.readopen = false ∧ v.writeopen = false then .ok ((s.setPipe page none).emit (.kfree page))
    else .ok (s.setPipe page (some v))

/-- The end of `fileclose`. -/
def lastClose (p : Fin nproc) (f : Fin nfile) (ff : File) (k : After) (s : State) : Except Stop State := do
  match ff.type with
  | .none  => pure (resume p k s)
  | .inode => pure (resume p k (s.emit (.released f (.inode ff.ip))))
  | .pipe  =>
    let t ← pipeclose ff.pipe ff.writable (s.emit (.released f (.pipe ff.pipe ff.writable)))
    pure (resume p k t)

/-! ## Calls -/

def argfd (p : Fin nproc) (fd : Int) (s : State) : Option (Fin nofile × Fin nfile) :=
  if h : 0 ≤ fd ∧ fd < nofile then
    (s.ofile p ⟨fd.toNat, by omega⟩).map fun f => (⟨fd.toNat, by omega⟩, f)
  else none

/-- `sys_open` behind `namei` or `create`. -/
def openFile (p : Fin nproc) (ip : Nat) (omode : BitVec 32) (s : State) : State :=
  match filealloc s with
  | none        => s.goto p .user
  | some (f, t) =>
    match fdalloc p f t with
    | none        => t.goto p (.closing f (.calls []))
    | some (_, u) => u.goto p (.opened f ip omode)

/-- `O_WRONLY` and `O_RDWR`. -/
def oWronly : BitVec 32 := 1
def oRdwr : BitVec 32 := 2

def openSet (p : Fin nproc) (f : Fin nfile) (ip : Nat) (omode : BitVec 32) (s : State) : State :=
  ((s.setFile f { s.file f with
    type     := .inode
    ip       := ip
    off      := 0
    readable := omode &&& oWronly = 0
    writable := omode &&& oWronly ≠ 0 ∨ omode &&& oRdwr ≠ 0 }).emit (.opened f (.inode ip))).goto p .user

/-- The first `filealloc` of `pipealloc`, the second, and the page. -/
def pipeFirst (p : Fin nproc) (s : State) : State :=
  match filealloc s with
  | none         => s
  | some (f0, t) => t.goto p (.piping f0)

def pipeSecond (p : Fin nproc) (f0 : Fin nfile) (s : State) : State :=
  match filealloc s with
  | none         => s.goto p (.closing f0 (.calls []))
  | some (f1, t) => t.goto p (.pipeKalloc f0 f1)

def State.setPipeFile (s : State) (f : Fin nfile) (page : Nat) (writable : Bool) : State :=
  (s.setFile f { s.file f with type := .pipe, readable := !writable, writable := writable, pipe := page }).emit
    (.opened f (.pipe page writable))

/-- `kalloc` gives no page that is in use. -/
def pipePage (p : Fin nproc) (f0 f1 : Fin nfile) (mem : Option Nat) (s : State) : State :=
  match mem.filter fun page => (s.pipe page).isNone with
  | none      => s.goto p (.closing f0 (.calls [f1]))
  | some page =>
    let t := (s.setPipe page (some ⟨true, true⟩)).emit (.kalloc page)
    ((t.setPipeFile f0 page false).setPipeFile f1 page true).goto p (.pipeFds f0 f1)

/-- `sys_pipe` behind `pipealloc`. -/
def pipeFds (p : Fin nproc) (rf wf : Fin nfile) (s : State) : State :=
  match fdalloc p rf s with
  | none          => s.goto p (.closing rf (.calls [wf]))
  | some (fd0, t) =>
    match fdalloc p wf t with
    | none        => (t.setOfile p fd0 none).goto p (.closing rf (.calls [wf]))
    | some (_, u) => u.goto p .user

def sysDup (p : Fin nproc) (fd : Int) (s : State) : State :=
  match argfd p fd s with
  | none        => s
  | some (_, f) =>
    match fdalloc p f s with
    | none         => s
    | some (fd, t) => t.goto p (.duping f fd)

def sysClose (p : Fin nproc) (fd : Int) (s : State) : State :=
  match argfd p fd s with
  | none         => s
  | some (fd, f) => (s.setOfile p fd none).goto p (.closing f (.calls []))

/-- `allocproc`'s section. -/
def fork (p : Fin nproc) (s : State) : State :=
  match (List.finRange nproc).find? fun q => decide (s.state q = .unused) with
  | none    => s
  | some np => (s.setState np .embryo).goto p (.forkCopy np)

/-- The kernel stack and `copyuvm`. -/
def forkCopy (p np : Fin nproc) (ok : Bool) (s : State) : State :=
  if ok then s.goto p (.forking np 0) else (s.setState np .unused).goto p .user

/-- A turn of the loop of `fork`, and its end. -/
def forkNext (p np : Fin nproc) (i : Nat) (s : State) : Except Stop State :=
  if h : i < nofile then
    match s.ofile p ⟨i, h⟩ with
    | none   => .ok (s.goto p (.forking np (i + 1)))
    | some f => do
      let t ← filedup f s
      pure ((t.setOfile np ⟨i, h⟩ (some f)).goto p (.forking np (i + 1)))
  else .ok ((s.setState np .live).goto p .user)

/-- A turn of the loop of `exit`, and its end. -/
def exitNext (p : Fin nproc) (fd : Nat) (s : State) : State :=
  if h : fd < nofile then
    match s.ofile p ⟨fd, h⟩ with
    | none   => s.goto p (.exiting (fd + 1))
    | some f => s.goto p (.closing f (.exit ⟨fd, h⟩))
  else (s.setState p .zombie).goto p .user

def initproc : Fin nproc := 0

inductive Call where
  /-- What `namei` or `create` gives, for a directory only if it is opened to read. -/
  | opens (found : Option Nat) (omode : BitVec 32)
  | pipe
  | dup (fd : Int)
  | close (fd : Int)
  | fork
  | exit

inductive Act where
  | call (p : Fin nproc) (c : Call)
  /-- A process in a call goes on; `mem` is what the page allocator gives it, if it asks. -/
  | next (p : Fin nproc) (mem : Option Nat)
  /-- `wait` frees a zombie. -/
  | reap (p : Fin nproc)

def State.call (s : State) (p : Fin nproc) : Call → Except Stop State
  | .opens none _           => .ok s
  | .opens (some ip) omode  => .ok (s.goto p (.opening ip omode))
  | .pipe                   => .ok (pipeFirst p s)
  | .dup fd                 => .ok (sysDup p fd s)
  | .close fd               => .ok (sysClose p fd s)
  | .fork                   => .ok (Ftable.fork p s)
  | .exit                   => if p = initproc then .error (.panic "init exiting") else .ok (s.goto p (.exiting 0))

def State.next (s : State) (p : Fin nproc) (mem : Option Nat) : Except Stop State :=
  match s.pc p with
  | .user               => .ok s
  | .opening ip omode   => .ok (openFile p ip omode s)
  | .opened f ip omode  => .ok (openSet p f ip omode s)
  | .piping f0          => .ok (pipeSecond p f0 s)
  | .pipeKalloc f0 f1   => .ok (pipePage p f0 f1 mem s)
  | .pipeFds rf wf      => .ok (Ftable.pipeFds p rf wf s)
  | .duping f _         => (filedup f s).map (·.goto p .user)
  | .closing f k        => fileclose p f k s
  | .releasing f ff k   => lastClose p f ff k s
  | .forkCopy np        => .ok (Ftable.forkCopy p np mem.isSome s)
  | .forking np i       => forkNext p np i s
  | .exiting fd         => .ok (exitNext p fd s)

def Pc.isUser : Pc → Bool
  | .user => true
  | _     => false

def State.step (s : State) : Act → Except Stop State
  | .call p c   => if s.state p = .live ∧ (s.pc p).isUser = true then s.call p c else .ok s
  | .next p mem => s.next p mem
  | .reap p     => .ok (if s.state p = .zombie then s.setState p .unused else s)

def State.run : List Act → State → Except Stop State
  | [], s      => .ok s
  | a :: as, s => (s.step a).bind (State.run as)

def init : State where
  file  _   := ⟨.none, 0, false, false, 0, 0, 0⟩
  pipe  _   := none
  ofile _ _ := none
  state p   := if p = initproc then .live else .unused
  pc    _   := .user
  past      := []

end Ftable
end Xv6
