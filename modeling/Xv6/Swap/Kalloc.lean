import Xv6.Lib.Prog
import Xv6.Mem.Mmu
/-!
# Swap.Kalloc — the page allocator and the eviction of pages (page-replacement)

kalloc.c with what it calls: `walkpgdir` (vm.c) and the swap blocks of device 0 (`swapread`, `swapwrite`, fs.c).  A
pointer to a page of kernel memory is the frame it points into, `kmem.freelist` is the list of its frames, and a
`struct page *` is the frame whose entry of `pages` it is, or null.  A block read returns the last bytes written.

A program stops where the kernel panics, and where C leaves a null or wild pointer's dereference undefined.  The locks
are modelled on their own (Lock), and a call here is one step.
-/
namespace Xv6
namespace Swap

open Mem

/-- `struct page`. -/
structure PageInfo where
  next  : Option Frame
  prev  : Option Frame
  pgdir : Option Frame
  vaddr : Addr

/-- A disk block of `BSIZE` bytes. -/
abbrev Block := BitVec 9 → BitVec 8

structure Kern where
  mem         : Frame → Page
  freelist    : List Frame
  pages       : Frame → PageInfo
  pageLruHead : Option Frame
  numLruPages : Int
  bitmap      : Nat → BitVec 8
  disk        : Nat → Block
  /-- The page directory in `%cr3`, that of the current process. -/
  cur         : Frame
  /-- The linker's symbols `end` and `data`. -/
  kend        : Addr
  kdata       : Addr

/-- A page `reclaim` evicts: its entry of the LRU list, its PTE before, the slot, and the frame handed to `kfree`. -/
structure Eviction where
  pgdir : Option Frame
  vaddr : Addr
  pte   : Pte
  slot  : Nat
  freed : Frame
  deriving DecidableEq

inductive Event where
  | swapRead (k : Nat)
  | swapWrite (k : Nat)
  | clearBit (k : Nat)
  | kfree (f : Frame)
  | evict (e : Eviction)
  /-- `deallocuvm` finds an entry on the LRU list and pops the entry of a frame. -/
  | popLru (found popped : Frame)
  /-- `deallocuvm` gives up the page of a PTE. -/
  | dealloc (pte : Pte)
  /-- `page_fault_hadler` serves a PTE; the bitmap bit of its number is set or not. -/
  | swapIn (pte : Pte) (bit : Bool)
  deriving DecidableEq

inductive Stop where
  | panic (msg : String)
  /-- A null or wild pointer is dereferenced. -/
  | wild
  | diverge
  deriving DecidableEq

abbrev K := Prog Stop Kern Event

/-- A `pte_t *`: an entry of a page table. -/
abbrev PtePtr := Frame × BitVec 10

def Kern.setPage (s : Kern) (f : Frame) (p : Page) : Kern := { s with mem := fun g => if g = f then p else s.mem g }

def Kern.pte (s : Kern) (q : PtePtr) : Pte := wordAt (s.mem q.1) q.2

def Kern.setPte (s : Kern) (q : PtePtr) (v : Pte) : Kern := s.setPage q.1 (setWord (s.mem q.1) q.2 v)

def Kern.setInfo (s : Kern) (f : Frame) (i : PageInfo) : Kern :=
  { s with pages := fun g => if g = f then i else s.pages g }

/-- `p->next = n` and `p->prev = n`. -/
def Kern.setNext (s : Kern) (p : Frame) (n : Option Frame) : Kern := s.setInfo p { s.pages p with next := n }
def Kern.setPrev (s : Kern) (p : Frame) (n : Option Frame) : Kern := s.setInfo p { s.pages p with prev := n }

def follow {α : Type} (p : Kern → Option α) : K α := do
  match ← Prog.read p with
  | some a => pure a
  | none   => Prog.stop .wild

/-! ## Page tables -/

def walkpgdir (s : Kern) (pgdir : Frame) (va : Addr) : Option PtePtr :=
  if present (s.pte (pgdir, pdx va)) then some (pteFrame (s.pte (pgdir, pdx va)), ptx va) else none

def translate (s : Kern) (pgdir : Frame) (va : Addr) : Option Frame :=
  match walkpgdir s pgdir va with
  | none   => none
  | some q => if present (s.pte q) then some (pteFrame (s.pte q)) else none

/-! ## The swap space -/

/-- `SWAPMAX / BLKS_PER_PG`, the slots of the swap space. -/
def nslots : Nat := 12437

/-- The `i`-th block of a slot, from `SWAPBASE` on. -/
def slotBlock (blkno : Nat) (i : BitVec 3) : Nat := 500 + 8 * blkno + i.toNat

/-- `for (i = 0; i < BLKS_PER_PG; ++i)`. -/
def blocks : List (BitVec 3) := [0, 1, 2, 3, 4, 5, 6, 7]

def swapread (f : Frame) (blkno : Nat) : K Unit := do
  if nslots ≤ blkno then Prog.stop (.panic "swapread: blkno exceeded range")
  else
    Prog.emit (.swapRead blkno)
    Prog.forEach blocks (fun i => Prog.modify (fun s => s.setPage f (fun o =>
      if o.extractLsb' 9 3 = i then s.disk (slotBlock blkno i) (o.extractLsb' 0 9) else s.mem f o)))

def userByte (s : Kern) (a : Addr) : BitVec 8 :=
  match translate s s.cur a with
  | some f => s.mem f (a.extractLsb' 0 12)
  | none   => 0

/-- A user page is touched: what the fault handler does where it is not mapped. -/
def touch (fault : Addr → K Unit) (a : Addr) : K Unit := do
  match ← Prog.read (fun s => translate s s.cur a) with
  | some _ => pure ()
  | none   => fault a

/-- `memmove(bp->data, a, BSIZE)` from user memory, page by page. -/
def copyIn (fault : Addr → K Unit) (a : Addr) : K Block := do
  touch fault a
  let lo ← Prog.read (fun s => fun (o : BitVec 9) => userByte s (a + o.setWidth 32))
  if pageNum (a + 511#32) = pageNum a then pure lo
  else
    touch fault (a + 511#32)
    let hi ← Prog.read (fun s => fun (o : BitVec 9) => userByte s (a + o.setWidth 32))
    pure (fun o => if pageNum (a + o.setWidth 32) = pageNum a then lo o else hi o)

def swapwrite (fault : Addr → K Unit) (ptr : Addr) (blkno : Nat) : K Unit := do
  if nslots ≤ blkno then Prog.stop (.panic "swapwrite: blkno exceeded range")
  else
    Prog.emit (.swapWrite blkno)
    Prog.forEach blocks (fun i => do
      let b ← copyIn fault (ptr + i.setWidth 32 * 512#32)
      Prog.modify (fun s => { s with disk := fun n => if n = slotBlock blkno i then b else s.disk n }))

/-- `BITMAP_SIZE`, the slots `find_free_swap_index` looks at. -/
def bitmapSize : Nat := 4096

/-- `bitmap[index / 8] |= (1 << (index % 8))`. -/
def Kern.setBit (s : Kern) (index : Nat) : Kern :=
  { s with bitmap := fun n => if n = index / 8 then s.bitmap n ||| (1#8 <<< (index % 8)) else s.bitmap n }

/-- `bitmap[index / 8] &= ~(1 << (index % 8))`. -/
def Kern.clearBit (s : Kern) (index : Nat) : Kern :=
  { s with bitmap := fun n => if n = index / 8 then s.bitmap n &&& ~~~(1#8 <<< (index % 8)) else s.bitmap n }

def setBit (index : Nat) : K Unit := Prog.modify (·.setBit index)

def clearBit (index : Nat) : K Unit := do
  Prog.emit (.clearBit index)
  Prog.modify (·.clearBit index)

/-- `check_bit`, as a truth value. -/
def checkBit (s : Kern) (index : Nat) : Bool := s.bitmap (index / 8) &&& (1#8 <<< (index % 8)) != 0

def findFreeFrom (s : Kern) : Nat → Nat → Option Nat
  | 0, _     => none
  | n + 1, i => if !checkBit s i then some i else findFreeFrom s n (i + 1)

/-- `none` is `-1`. -/
def findFreeSwapIndex (s : Kern) : Option Nat := findFreeFrom s bitmapSize 0

/-! ## The LRU list -/

/-- `PHYSTOP / PGSIZE`, the length of `pages`. -/
def npages : Nat := 57344

/-- `append_lru`'s branch for a list of one page. -/
def linkFirst (f : Frame) : K Unit := do
  Prog.modify (fun s => { s with pageLruHead := some f })
  Prog.modify (fun s => s.setPrev f (some f))
  Prog.modify (fun s => s.setNext f (some f))

/-- `append_lru`'s other branch: in front of the head, behind the last. -/
def linkLast (f : Frame) : K Unit := do
  let h ← follow (·.pageLruHead)
  Prog.modify (fun s => s.setPrev f (s.pages h).prev)
  Prog.modify (fun s => s.setNext f (some h))
  let t ← follow (fun s => (s.pages h).prev)
  Prog.modify (fun s => s.setNext t (some f))
  Prog.modify (fun s => s.setPrev h (some f))

def linkLru (f : Frame) : K Unit := do
  if (← Prog.read (·.numLruPages)) = 1 then linkFirst f else linkLast f

def appendLru (pgdir : Frame) (va : Addr) (f : Frame) : K Unit := do
  Prog.modify (fun s => s.setInfo f { s.pages f with vaddr := va, pgdir := some pgdir })
  linkLru f
  Prog.modify (fun s => { s with numLruPages := s.numLruPages + 1 })

/-- `pop_lru`'s branch for a page that is not the head. -/
def unlinkPage (f : Frame) : K Unit := do
  let p ← follow (fun s => (s.pages f).prev)
  Prog.modify (fun s => s.setNext p (s.pages f).next)
  let n ← follow (fun s => (s.pages f).next)
  Prog.modify (fun s => s.setPrev n (s.pages f).prev)
  Prog.modify (fun s => s.setInfo f ⟨none, none, none, 0⟩)

def unlinkLru (f : Frame) : K Unit := do
  if (← Prog.read (·.pageLruHead)) = some f then Prog.modify (fun s => { s with pageLruHead := none })
  else unlinkPage f

def popLru (f : Frame) : K Unit := do
  if npages ≤ f.toNat then Prog.stop .wild
  else
    unlinkLru f
    Prog.modify (fun s => { s with numLruPages := s.numLruPages - 1 })

/-! ## Free pages -/

/-- What `kfree` leaves of a page: ones, and the link to the next free page. -/
def freePage (next : Option Frame) : Page :=
  setWord (fun _ => 1) 0 (match next with | some g => p2v g | none => 0)

def kfree (f : Frame) : K Unit := do
  Prog.emit (.kfree f)
  if ← Prog.read (fun s => decide (p2v f < s.kend ∨ phystop ≤ frameAddr f)) then Prog.stop (.panic "kfree")
  else Prog.modify (fun s => { s.setPage f (freePage s.freelist.head?) with freelist := f :: s.freelist })

/-- `page_fault_hadler` with the PTE `pte` while `kmem.lock` is held: it fails, and `trap` panics, or it calls `kalloc`. -/
def lockedPte (pte : Pte) : K Unit := if pte = 0 then Prog.stop (.panic "trap") else Prog.stop (.panic "acquire")

/-- A page fault of the kernel while it holds `kmem.lock`, which never returns. -/
def lockedFault (a : Addr) : K Unit := do
  match ← Prog.read (fun s => (walkpgdir s s.cur (pgRoundDown a)).map s.pte) with
  | some pte => lockedPte pte
  | none     =>
    -- the PTE is read through a null pointer, at user address 0
    match ← Prog.read (fun s => walkpgdir s s.cur 0) with
    | none   => Prog.stop .wild
    | some q =>
      let pte ← Prog.read (·.pte q)
      if present pte then lockedPte (← Prog.read (·.pte (pteFrame pte, 0)))
      else lockedPte pte

theorem lockedPte_run (pte : Pte) (s : Kern) : ∃ e, lockedPte pte s = ⟨.error e, s, []⟩ := by
  unfold lockedPte
  split
  · exact ⟨_, rfl⟩
  · exact ⟨_, rfl⟩

theorem lockedFault_run (a : Addr) (s : Kern) : ∃ e, lockedFault a s = ⟨.error e, s, []⟩ := by
  unfold lockedFault
  rw [Prog.read_bind_run]
  cases (walkpgdir s s.cur (pgRoundDown a)).map s.pte with
  | some pte => exact lockedPte_run pte s
  | none =>
    dsimp only
    rw [Prog.read_bind_run]
    cases walkpgdir s s.cur 0 with
    | none => exact ⟨_, rfl⟩
    | some q =>
      dsimp only
      rw [Prog.read_bind_run]
      split
      · rw [Prog.read_bind_run]
        exact lockedPte_run _ s
      · exact lockedPte_run _ s

/-- The scan of `reclaim`: the first entry whose PTE was not accessed, and the PTE.  A step clears an accessed bit, so
with more steps than there are pages the scan comes to an end. -/
def clockScan : Nat → K (Frame × PtePtr)
  | 0     => Prog.stop .diverge
  | n + 1 => do
    let h ← follow (·.pageLruHead)
    let pgdir ← follow (fun s => (s.pages h).pgdir)
    let q ← follow (fun s => walkpgdir s pgdir (pgRoundDown (s.pages h).vaddr))
    if (← Prog.read (fun s => s.pte q &&& pteA)) ≠ 0 then
      Prog.modify (fun s => s.setPte q (s.pte q &&& ~~~pteA))
      Prog.modify (fun s => { s with pageLruHead := (s.pages h).next })
      clockScan n
    else pure (h, q)

/-- `reclaim` takes its target off the LRU list. -/
def unlinkHead (target : Frame) : K Unit := do
  Prog.modify (fun s => { s with pageLruHead := (s.pages target).next })
  let h ← follow (·.pageLruHead)
  Prog.modify (fun s => s.setPrev h (s.pages target).prev)
  let t ← follow (fun s => (s.pages target).prev)
  Prog.modify (fun s => s.setNext t (some h))
  Prog.when (h = target) (Prog.modify (fun s => { s with pageLruHead := none }))

/-- `reclaim` writes its target to a slot and frees the frame number its PTE holds then. -/
def swapOut (target : Frame) (q : PtePtr) (slot : Nat) : K Unit := do
  let info ← Prog.read (fun s => s.pages target)
  swapwrite lockedFault info.vaddr slot
  setBit slot
  let pte ← Prog.read (fun s => s.pte q)
  Prog.modify (fun s => s.setPte q (swapPte slot (pteFlags pte)))
  let freed ← Prog.read (fun s => pteFrame (s.pte q))
  Prog.emit (.evict ⟨info.pgdir, info.vaddr, pte, slot, freed⟩)
  kfree freed

/-- `true` is the return value 1. -/
def reclaim : K Bool := do
  if (← Prog.read (·.numLruPages)) = 0 then pure false
  else
    let (target, q) ← clockScan (npages + 1)
    unlinkHead target
    match ← Prog.read findFreeSwapIndex with
    | none      => pure false
    | some slot =>
      swapOut target q slot
      pure true

/-- `kalloc` from `try_again` on.  A page that `reclaim` freed is on the list, so two turns are enough. -/
def kallocLoop : Nat → K (Option Frame)
  | 0     => Prog.stop .diverge
  | n + 1 => do
    match ← Prog.read (·.freelist) with
    | f :: l =>
      Prog.modify (fun s => { s with freelist := l })
      pure (some f)
    | []     => if ← reclaim then kallocLoop n else pure none

def kalloc : K (Option Frame) := kallocLoop 2

end Swap
end Xv6
