import Xv6.Files.Image
import Xv6.User.Input
/-!
# Files.Mkfs — the first file system (mkfs.c)

The program that makes the image.  Its own allocator gives out the blocks in order; the bitmap is written last.
-/
namespace Xv6
namespace Mkfs

open Fs (Bno Block nlog)
open Files
open User (Input)

inductive Stop where
  /-- `assert(rootino == ROOTINO)` -/
  | rootIno
  /-- `assert(index(argv[i], '/') == 0)` -/
  | slash
  /-- `perror(argv[i])` -/
  | open
  /-- `assert(fbn < MAXFILE)` -/
  | maxFile
  /-- `assert(used < BSIZE*8)` -/
  | used
  /-- `perror("read")` -/
  | read
deriving DecidableEq

structure Disk where
  img       : Image
  freeinode : Nat
  freeblock : Nat

abbrev M := Prog Stop Disk Empty

/-- An argument: a name, and what its file has, where it can be opened. -/
structure Arg where
  name : Name
  inp  : Option Input

def sb : Superblock where
  size       := BitVec.ofNat 32 fsSize
  nblocks    := BitVec.ofNat 32 (fsSize - nmeta)
  ninodes    := BitVec.ofNat 32 ninodes
  nlog       := BitVec.ofNat 32 nlog
  logstart   := 2
  inodestart := BitVec.ofNat 32 inodestart
  bmapstart  := BitVec.ofNat 32 bmapstart

def wsect (sec : Nat) (buf : Block) : M Unit := Prog.modify fun s => { s with img := Function.update s.img sec buf }

/-- The file has `FSSIZE` sectors. -/
def rsect (sec : Nat) : M Block := if sec < fsSize then Prog.read fun s => s.img sec else Prog.stop .read

def winode (inum : Nat) (d : Dinode) : M Unit := do
  let buf ← rsect (iblock inum)
  wsect (iblock inum) (putInode buf (inum % ipb) d)

def rinode (inum : Nat) : M Dinode := do
  let buf ← rsect (iblock inum)
  pure (inodeOf buf (inum % ipb))

def ialloc (type : FileType) : M Nat := do
  let inum ← Prog.read (·.freeinode)
  Prog.modify fun s => { s with freeinode := s.freeinode + 1 }
  winode inum { Dinode.zero with type := type, nlink := 1 }
  pure inum

def balloc (used : Nat) : M Unit := if bsize * 8 ≤ used then Prog.stop .used else wsect bmapstart (mapBits used)

/-- `xint(freeblock++)`. -/
def freshBlock : M Bno := do
  let b ← Prog.read fun s => BitVec.ofNat 32 s.freeblock
  Prog.modify fun s => { s with freeblock := s.freeblock + 1 }
  pure b

def slotBlock (din : Dinode) (k : Fin 13) : M (Dinode × Bno) :=
  if din.addrs k = 0 then do
    let b ← freshBlock
    pure (din.setAddr k b, b)
  else pure (din, din.addrs k)

/-- The sector of block `fbn`. -/
def fileBlock (din : Dinode) (fbn : Nat) : M (Dinode × Bno) :=
  if fbn < ndirect then slotBlock din (Fin.ofNat 13 fbn)
  else do
    let (din, a) ← slotBlock din 12
    let indirect ← rsect a.toNat
    let j := Fin.ofNat 128 (fbn - ndirect)
    if indirect j = 0 then do
      let x ← freshBlock
      wsect a.toNat (Function.update indirect j x)
      pure (din, x)
    else pure (din, indirect j)

/-- The loop of `iappend` on the `n` bytes that are left, in at most `k` turns. -/
def appendLoop : Nat → (Nat → Byte) → Nat → Nat → Dinode → M (Dinode × Nat)
  | 0, _, off, _, din         => pure (din, off)
  | k + 1, src, off, n, din =>
    if n = 0 then pure (din, off)
    else if maxFile ≤ off / bsize then Prog.stop .maxFile
    else do
      let (din, x) ← fileBlock din (off / bsize)
      let n1 := min n ((off / bsize + 1) * bsize - off)
      let buf ← rsect x.toNat
      wsect x.toNat (putBytes buf (off - off / bsize * bsize) src n1)
      appendLoop k (fun j => src (n1 + j)) (off + n1) (n - n1) din

def iappend (inum : Nat) (src : Nat → Byte) (n : Nat) : M Unit := do
  let din ← rinode inum
  let (din, off) ← appendLoop n src din.size.toNat n din
  winode inum { din with size := BitVec.ofNat 32 off }

/-- The bytes of the file, as `read` gives them. -/
def copy (inum : Nat) : Nat → Input → M Unit
  | 0, _       => pure ()
  | k + 1, inp =>
    match User.read bsize inp with
    | (some (c :: d), inp) => do
      iappend inum (fun j => (c :: d).getD j 0) (c :: d).length
      copy inum k inp
    | _                    => pure ()

/-- The name in the file system: without a leading `_`. -/
def strip : Name → Name
  | 95 :: name => name
  | name       => name

def enter (root : Nat) (name : Name) (inum : Nat) : M Unit := iappend root (Dirent.byte ⟨BitVec.ofNat 16 inum, name⟩) 16

def addFile (root : Nat) (f : Arg) : M Unit :=
  if f.name.contains slash then Prog.stop .slash
  else
    match f.inp with
    | none     => Prog.stop .open
    | some inp => do
      let inum ← ialloc .file
      enter root (strip f.name) inum
      copy inum (inp.size + 1) inp

def fixRoot (root : Nat) : M Unit := do
  let din ← rinode root
  winode root { din with size := BitVec.ofNat 32 ((din.size.toNat / bsize + 1) * bsize) }

def main (argv : List Arg) : M Unit := do
  Prog.modify fun s => { s with freeblock := nmeta }
  Prog.forEach (List.range fsSize) fun i => wsect i fun _ => 0
  wsect 1 sb.block
  let rootino ← ialloc .dir
  if rootino ≠ rootIno then Prog.stop .rootIno
  else
    enter rootino dot rootino
    enter rootino dotDot rootino
    Prog.forEach argv (addFile rootino)
    fixRoot rootino
    balloc (← Prog.read (·.freeblock))

end Mkfs
end Xv6
