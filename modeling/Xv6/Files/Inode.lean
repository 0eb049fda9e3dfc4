import Xv6.Fs.Reserve
import Xv6.Lib.Wp
/-!
# Files.Inode — blocks and inodes (fs.c)

The block allocator and the inodes of the page-replacement kernel on the disk that `mkfs` lays out: the free bitmap by
block, the inodes on the disk and in the cache by number, and the contents of all other blocks.  A call runs by itself;
its events are the blocks it logs and its calls of `balloc`.
-/
namespace Xv6
namespace Files

open Fs (Bno Block nlog)

abbrev Byte := BitVec 8

/-! ## The layout (mkfs.c) -/

abbrev fsSize : Nat := 100000
abbrev ninodes : Nat := 200
/-- `BPB`, the bits of a bitmap block, and `IPB`, the inodes of an inode block. -/
abbrev bpb : Nat := 4096
abbrev ipb : Nat := 8
abbrev bsize : Nat := 512
abbrev ndirect : Nat := 12
abbrev nindirect : Nat := 128
abbrev maxFile : Nat := ndirect + nindirect
/-- `NINODE` and `NFILE`, the entries of the inode cache and of the file table. -/
abbrev ninode : Nat := 50
abbrev nfile : Nat := 100

instance addrs_neZero : NeZero 13 := ⟨by decide⟩
instance words_neZero : NeZero 128 := ⟨by decide⟩

def nbitmap : Nat := fsSize / bpb + 1
def ninodeblocks : Nat := ninodes / ipb + 1
def nmeta : Nat := 2 + nlog + ninodeblocks + nbitmap
def inodestart : Nat := 2 + nlog
def bmapstart : Nat := 2 + nlog + ninodeblocks

/-- `IBLOCK` and `BBLOCK`. -/
def iblock (i : Nat) : Nat := i / ipb + inodestart
def bblock (b : Bno) : Nat := b.toNat / bpb + bmapstart

/-! ## The state -/

/-- `type`, where 0 is `free`. -/
inductive FileType where
  | free | dir | file | dev
  deriving DecidableEq

/-- `struct dinode`. -/
structure Dinode where
  type  : FileType
  major : BitVec 16
  minor : BitVec 16
  nlink : BitVec 16
  size  : BitVec 32
  addrs : Fin 13 → Bno

/-- `memset(dip, 0, sizeof(*dip))`. -/
def Dinode.zero : Dinode := ⟨.free, 0, 0, 0, 0, fun _ => 0⟩

/-- `struct inode`. -/
structure Inode where
  ref    : Int
  locked : Bool
  valid  : Bool
  d      : Dinode

/-- `devsw`: what the functions of a device return, where it has them. -/
structure DevSw where
  read  : BitVec 16 → Nat → Option (List Byte)
  write : BitVec 16 → (Nat → Byte) → Nat → Option Int

/-- `struct file`; of a pipe only that it is one. -/
inductive FdType where
  | none | pipe | inode
  deriving DecidableEq

structure File where
  type     : FdType
  ref      : Int
  readable : Bool
  writable : Bool
  ip       : Nat
  off      : BitVec 32

structure State where
  bit    : Bno → Bool
  dinode : Nat → Dinode
  data   : Bno → Block
  inode  : Nat → Inode
  /-- The entries of `icache` that are referred to. -/
  cached : Nat
  /-- `log.outstanding`. -/
  outstanding : Int
  devsw  : DevSw
  /-- `ftable`. -/
  file   : Fin nfile → File
  /-- `p->ofile[fd]` and `p->cwd`. -/
  ofile  : Nat → Nat → Option (Fin nfile)
  cwd    : Nat → Nat

inductive Event where
  | log (b : Nat)
  | balloc
  deriving DecidableEq

inductive Stop where
  | panic (msg : String)
  /-- A process sleeps on a lock that it holds itself. -/
  | asleep
  deriving DecidableEq

abbrev F := Prog Stop State Event

def State.setBit (s : State) (b : Bno) (v : Bool) : State := { s with bit := fun c => if c = b then v else s.bit c }

def State.setDinode (s : State) (i : Nat) (d : Dinode) : State :=
  { s with dinode := fun j => if j = i then d else s.dinode j }

def State.setData (s : State) (b : Bno) (v : Block) : State := { s with data := fun c => if c = b then v else s.data c }

def State.setInode (s : State) (i : Nat) (n : Inode) : State := { s with inode := fun j => if j = i then n else s.inode j }

def State.ip (s : State) (i : Nat) : Dinode := (s.inode i).d

def State.setIp (s : State) (i : Nat) (d : Dinode) : State := s.setInode i { s.inode i with d := d }

def beginOp : F Unit := Prog.modify (fun s => { s with outstanding := s.outstanding + 1 })
def endOp : F Unit := Prog.modify (fun s => { s with outstanding := s.outstanding - 1 })

/-- `log_write` of the buffer of a block. -/
def logWrite (b : Nat) : F Unit := do
  if (← Prog.read (·.outstanding)) < 1 then Prog.stop (.panic "log_write outside of trans") else Prog.emit (.log b)

/-! ## Blocks -/

@[irreducible] def State.freeBlock (s : State) : Option Nat :=
  (List.range fsSize).find? (fun b => !s.bit (BitVec.ofNat 32 b))

def bzero (b : Bno) : F Unit := do
  Prog.modify (·.setData b (fun _ => 0))
  logWrite b.toNat

/-- `balloc` of the block that it finds. -/
def take (b : Bno) : F Bno := do
  Prog.modify (·.setBit b true)
  logWrite (bblock b)
  bzero b
  pure b

def balloc : F Bno := do
  Prog.emit .balloc
  match ← Prog.read State.freeBlock with
  | none   => Prog.stop (.panic "balloc: out of blocks")
  | some n => take (BitVec.ofNat 32 n)

def bfree (b : Bno) : F Unit := do
  if ← Prog.read (·.bit b) then
    Prog.modify (·.setBit b false)
    logWrite (bblock b)
  else Prog.stop (.panic "freeing free block")

/-! ## Inodes -/

def iupdate (i : Nat) : F Unit := do
  Prog.modify (fun s => s.setDinode i (s.ip i))
  logWrite (iblock i)

def State.addRef (s : State) (i : Nat) : State := s.setInode i { s.inode i with ref := (s.inode i).ref + 1 }

/-- `iget` of an inode that is not in the cache, and so has no references. -/
def State.recycle (s : State) (i : Nat) : State :=
  { s.setInode i { s.inode i with ref := (s.inode i).ref + 1, valid := false } with cached := s.cached + 1 }

/-- `ip->ref--`. -/
def State.dropRef (s : State) (i : Nat) : State :=
  { s.setInode i { s.inode i with ref := (s.inode i).ref - 1 } with
    cached := if (s.inode i).ref = 1 then s.cached - 1 else s.cached }

/-- The entry of `icache` that `iget` finds or takes. -/
def entry (i : Nat) : F Unit := do
  let s ← Prog.get
  if 0 < (s.inode i).ref then Prog.modify (·.addRef i)
  else if ninode ≤ s.cached then Prog.stop (.panic "iget: no inodes")
  else Prog.modify (·.recycle i)

def iget (i : Nat) : F Nat := do
  entry i
  pure i

def idup (i : Nat) : F Nat := do
  Prog.modify (·.addRef i)
  pure i

def acquiresleep (i : Nat) : F Unit := do
  if (← Prog.read (·.inode i)).locked then Prog.stop .asleep
  else Prog.modify (fun s => s.setInode i { s.inode i with locked := true })

def releasesleep (i : Nat) : F Unit := Prog.modify (fun s => s.setInode i { s.inode i with locked := false })

/-- `ilock` of an inode that is to be read from the disk. -/
def readInode (i : Nat) : F Unit := do
  Prog.modify (fun s => s.setInode i { s.inode i with d := s.dinode i, valid := true })
  if (← Prog.read (·.ip i)).type = .free then Prog.stop (.panic "ilock: no type") else pure ()

def ilock (i : Nat) : F Unit := do
  if (← Prog.read (·.inode i)).ref < 1 then Prog.stop (.panic "ilock")
  else
    acquiresleep i
    Prog.when (!(← Prog.read (·.inode i)).valid) (readInode i)

def iunlock (i : Nat) : F Unit := do
  let n ← Prog.read (·.inode i)
  if !n.locked ∨ n.ref < 1 then Prog.stop (.panic "iunlock") else releasesleep i

/-- The inode that `ialloc` finds. -/
def State.freeInode (s : State) : Option Nat :=
  ((List.range ninodes).drop 1).find? (fun i => decide ((s.dinode i).type = .free))

def ialloc (type : FileType) : F Nat := do
  match ← Prog.read State.freeInode with
  | none   => Prog.stop (.panic "ialloc: no inodes")
  | some i =>
    Prog.modify (·.setDinode i { Dinode.zero with type := type })
    logWrite (iblock i)
    iget i

/-- `ip->addrs[k] = b`. -/
def State.setAddr (s : State) (i : Nat) (k : Fin 13) (b : Bno) : State :=
  s.setIp i { s.ip i with addrs := fun j => if j = k then b else (s.ip i).addrs j }

def slotAddr (i : Nat) (k : Fin 13) : F Bno := do
  let addr ← Prog.read (fun s => (s.ip i).addrs k)
  if addr = 0 then
    let b ← balloc
    Prog.modify (·.setAddr i k b)
    pure b
  else pure addr

/-- `a[j] = b`. -/
def State.setWord (s : State) (addr : Bno) (j : Fin 128) (b : Bno) : State :=
  s.setData addr (fun w => if w = j then b else s.data addr w)

/-- The address in a word of the indirect block, allocated if there is none. -/
def wordAddr (addr : Bno) (j : Fin 128) : F Bno := do
  let a ← Prog.read (fun s => s.data addr j)
  if a = 0 then
    let b ← balloc
    Prog.modify (·.setWord addr j b)
    logWrite addr.toNat
    pure b
  else pure a

def bmap (i bn : Nat) : F Bno := do
  if bn < ndirect then slotAddr i (Fin.ofNat 13 bn)
  else if bn - ndirect < nindirect then
    let addr ← slotAddr i 12
    wordAddr addr (Fin.ofNat 128 (bn - ndirect))
  else Prog.stop (.panic "bmap: out of range")

/-- The slots of `ip->addrs` that hold data blocks. -/
def directs : List (Fin 13) := (List.finRange 13).take ndirect

/-- `itrunc` on a direct slot. -/
def truncSlot (i : Nat) (k : Fin 13) : F Unit := do
  let addr ← Prog.read (fun s => (s.ip i).addrs k)
  Prog.when (addr ≠ 0) (do
    bfree addr
    Prog.modify (·.setAddr i k 0))

def truncIndirect (i : Nat) : F Unit := do
  let addr ← Prog.read (fun s => (s.ip i).addrs 12)
  Prog.when (addr ≠ 0) (do
    let a ← Prog.read (fun s => s.data addr)
    Prog.forEach (List.finRange nindirect) (fun j => Prog.when (a j ≠ 0) (bfree (a j)))
    bfree addr
    Prog.modify (·.setAddr i 12 0))

def itrunc (i : Nat) : F Unit := do
  Prog.forEach directs (truncSlot i)
  truncIndirect i
  Prog.modify (fun s => s.setIp i { s.ip i with size := 0 })
  iupdate i

/-- `iput` of an inode without links, by the last that refers to it. -/
def ifree (i : Nat) : F Unit := do
  itrunc i
  Prog.modify (fun s => s.setIp i { s.ip i with type := .free })
  iupdate i
  Prog.modify (fun s => s.setInode i { s.inode i with valid := false })

def iput (i : Nat) : F Unit := do
  acquiresleep i
  let n ← Prog.read (·.inode i)
  Prog.when (n.valid = true ∧ n.d.nlink = 0 ∧ n.ref = 1) (ifree i)
  releasesleep i
  Prog.modify (·.dropRef i)

def iunlockput (i : Nat) : F Unit := do
  iunlock i
  iput i

/-! ## Contents -/

/-- The byte `o` of a block. -/
def byteOf (b : Block) (o : Nat) : Byte := (b (Fin.ofNat 128 (o / 4))).extractLsb' (8 * (o % 4)) 8

/-- `memmove(bp->data + o, src, m)`. -/
def putBytes (b : Block) (o : Nat) (src : Nat → Byte) (m : Nat) : Block := fun w =>
  let byte : Nat → Byte := fun k => if o ≤ k ∧ k < o + m then src (k - o) else byteOf b k
  byte (4 * w.val + 3) ++ byte (4 * w.val + 2) ++ byte (4 * w.val + 1) ++ byte (4 * w.val)

/-- `min(n - tot, BSIZE - off%BSIZE)`. -/
def chunk (off n : Nat) : Nat := min n (bsize - off % bsize)

/-- The loop of `readi` on the `n` bytes that are left, in at most `k` turns. -/
def readLoop (i : Nat) : Nat → Nat → Nat → F (List Byte)
  | 0, _, _ => pure []
  | k + 1, off, n =>
    if n = 0 then pure []
    else do
      let addr ← bmap i (off / bsize)
      let b ← Prog.read (fun s => s.data addr)
      let rest ← readLoop i k (off + chunk off n) (n - chunk off n)
      pure ((List.range (chunk off n)).map (fun j => byteOf b (off % bsize + j)) ++ rest)

/-- `readi`; `none` is `-1`. -/
def readi (i : Nat) (off n : BitVec 32) : F (Option (List Byte)) := do
  let s ← Prog.get
  if (s.ip i).type = .dev then pure (s.devsw.read (s.ip i).major n.toNat)
  else if (s.ip i).size < off ∨ off + n < off then pure none
  else
    let m := if (s.ip i).size < off + n then (s.ip i).size - off else n
    let bytes ← readLoop i m.toNat off.toNat m.toNat
    pure (some bytes)

/-- The loop of `writei` on the `n` bytes that are left, in at most `k` turns. -/
def writeLoop (i : Nat) : Nat → (Nat → Byte) → Nat → Nat → F Unit
  | 0, _, _, _ => pure ()
  | k + 1, src, off, n =>
    if n = 0 then pure ()
    else do
      let addr ← bmap i (off / bsize)
      Prog.modify (fun s => s.setData addr (putBytes (s.data addr) (off % bsize) src (chunk off n)))
      logWrite addr.toNat
      writeLoop i k (fun j => src (chunk off n + j)) (off + chunk off n) (n - chunk off n)

/-- `writei` after its loop: the size, where it has grown. -/
def grow (i : Nat) (off n : BitVec 32) : F Unit := do
  Prog.when (0 < n ∧ (← Prog.read (·.ip i)).size < off) (do
    Prog.modify (fun s => s.setIp i { s.ip i with size := off })
    iupdate i)

/-- `writei`; -1 is a failure. -/
def writei (i : Nat) (src : Nat → Byte) (off n : BitVec 32) : F Int := do
  let s ← Prog.get
  if (s.ip i).type = .dev then pure ((s.devsw.write (s.ip i).major src n.toNat).getD (-1))
  else if (s.ip i).size < off ∨ off + n < off then pure (-1)
  else if BitVec.ofNat 32 (maxFile * bsize) < off + n then pure (-1)
  else
    writeLoop i n.toNat src off.toNat n.toNat
    grow i (off + n) n
    pure n.toNat

end Files
end Xv6
