import Xv6.Swap.Kalloc
/-!
# Swap.Vm — address spaces and the page-fault handler (page-replacement)

vm.c and `page_fault_hadler` (trap.c).  A `pde_t *` is the frame of the page directory.  The loops over addresses are
given more steps than there are pages; a loop that does not end in the kernel ends in `diverge` here.
-/
namespace Xv6
namespace Swap

open Mem

/-- More steps than a loop over the pages of an address space takes. -/
def maxPages : Nat := 1048577

def memset0 (f : Frame) : K Unit := Prog.modify (fun s => s.setPage f zeroPage)

/-- `walkpgdir(pgdir, va, 1)`. -/
def walkpgdirAlloc (pgdir : Frame) (va : Addr) : K (Option PtePtr) := do
  match ← Prog.read (fun s => walkpgdir s pgdir va) with
  | some q => pure (some q)
  | none   =>
    match ← kalloc with
    | none       => pure none
    | some pgtab =>
      memset0 pgtab
      Prog.modify (fun s => s.setPte (pgdir, pdx va) (mapPte pgtab (pteW ||| pteU)))
      pure (some (pgtab, ptx va))

def mappagesLoop : Nat → Frame → Addr → Addr → Addr → Pte → K Bool
  | 0, _, _, _, _, _ => Prog.stop .diverge
  | n + 1, pgdir, a, last, pa, perm => do
    match ← walkpgdirAlloc pgdir a with
    | none   => pure false
    | some q =>
      if present (← Prog.read (fun s => s.pte q)) then Prog.stop (.panic "remap")
      else
        Prog.modify (fun s => s.setPte q (pa ||| perm ||| pteP))
        if a = last then pure true else mappagesLoop n pgdir (a + pgsize) last (pa + pgsize) perm

/-- `true` is the return value 0. -/
def mappages (pgdir : Frame) (va size pa : Addr) (perm : Pte) : K Bool :=
  mappagesLoop maxPages pgdir (pgRoundDown va) (pgRoundDown (va + size - 1#32)) pa perm

/-! ## Deallocation -/

/-- The scan of the LRU list in `deallocuvm`, a `do` loop that starts at the head. -/
def scanLru : Nat → Frame → Addr → Frame → Option Frame → K Unit
  | 0, _, _, _, _ => Prog.stop .diverge
  | _ + 1, _, _, _, none => pure ()
  | n + 1, pgdir, a, pa, some target => do
    let info ← Prog.read (fun s => s.pages target)
    Prog.when (info.vaddr = a ∧ info.pgdir = some pgdir) (do
      Prog.emit (.popLru target pa)
      popLru pa)
    let next ← Prog.read (fun s => (s.pages target).next)
    if next = (← Prog.read (·.pageLruHead)) then pure () else scanLru n pgdir a pa next

/-- The two branches of `deallocuvm`: a swapped-out page gives up its slot, any other its frame. -/
def releasePage (pgdir : Frame) (a : Addr) (pte : Pte) : K Unit := do
  if pteAddr pte = 0 then clearBit (pteAddr pte >>> 12).toNat
  else
    scanLru (2 * npages + 2) pgdir a (pteFrame pte) (← Prog.read (·.pageLruHead))
    kfree (pteFrame pte)

/-- The body of `deallocuvm` at a PTE that is not zero. -/
def deallocPage (pgdir : Frame) (a : Addr) (q : PtePtr) : K Unit := do
  let pte ← Prog.read (fun s => s.pte q)
  Prog.emit (.dealloc pte)
  releasePage pgdir a pte
  Prog.modify (fun s => s.setPte q 0)

def deallocuvmLoop : Nat → Frame → Addr → Addr → K Unit
  | 0, _, _, _ => Prog.stop .diverge
  | n + 1, pgdir, a, oldsz => do
    if a < oldsz then
      match ← Prog.read (fun s => walkpgdir s pgdir a) with
      | none   => deallocuvmLoop n pgdir (pgAddr ((pdx a).setWidth 32 + 1) 0 0 - pgsize + pgsize) oldsz
      | some q =>
        Prog.when ((← Prog.read (fun s => s.pte q)) ≠ 0) (deallocPage pgdir a q)
        deallocuvmLoop n pgdir (a + pgsize) oldsz
    else pure ()

def deallocuvm (pgdir : Frame) (oldsz newsz : Addr) : K Addr := do
  if oldsz ≤ newsz then pure oldsz
  else
    deallocuvmLoop maxPages pgdir (pgRoundUp newsz) oldsz
    pure newsz

/-- The page directory's entries, `NPDENTRIES` of them. -/
def pdes : List (BitVec 10) := (List.finRange 1024).map (BitVec.ofFin (w := 10))

def freevm (pgdir : Frame) : K Unit := do
  let _ ← deallocuvm pgdir kernbase 0
  Prog.forEach pdes (fun i => do
    let pde ← Prog.read (fun s => s.pte (pgdir, i))
    Prog.when (present pde) (kfree (pteFrame pde)))
  kfree pgdir

/-! ## Allocation -/

/-- The table `kmap`: virtual start, physical start and end, permissions. -/
def kmap (s : Kern) : List (Addr × Addr × Addr × Pte) :=
  [(kernbase, 0, extmem, pteW),
   (kernlink, kernlink - kernbase, s.kdata - kernbase, 0),
   (s.kdata, s.kdata - kernbase, phystop, pteW),
   (devspace, devspace, 0, pteW)]

/-- `setupkvm`'s loop; `false` after a failed `mappages`. -/
def mapKernel (pgdir : Frame) : List (Addr × Addr × Addr × Pte) → K Bool
  | []     => pure true
  | (virt, physStart, physEnd, perm) :: l => do
    if ← mappages pgdir virt (physEnd - physStart) physStart perm then mapKernel pgdir l else pure false

def setupkvm : K (Option Frame) := do
  match ← kalloc with
  | none       => pure none
  | some pgdir =>
    memset0 pgdir
    if ← mapKernel pgdir (← Prog.read kmap) then pure (some pgdir)
    else
      freevm pgdir
      pure none

def allocuvmLoop : Nat → Frame → Addr → Addr → Addr → K Addr
  | 0, _, _, _, _ => Prog.stop .diverge
  | n + 1, pgdir, a, oldsz, newsz => do
    if a < newsz then
      match ← kalloc with
      | none     =>
        let _ ← deallocuvm pgdir newsz oldsz
        pure 0
      | some mem =>
        memset0 mem
        if ← mappages pgdir a pgsize (frameAddr mem) (pteW ||| pteU) then
          allocuvmLoop n pgdir (a + pgsize) oldsz newsz
        else
          let _ ← deallocuvm pgdir newsz oldsz
          kfree mem
          pure 0
    else pure newsz

def allocuvm (pgdir : Frame) (oldsz newsz : Addr) : K Addr := do
  if kernbase ≤ newsz then pure 0
  else if newsz < oldsz then pure oldsz
  else allocuvmLoop maxPages pgdir (pgRoundUp oldsz) oldsz newsz

/-- `inituvm`, for code of less than a page; `memset(0, 0, PGSIZE)` is what a failed `kalloc` leads to. -/
def inituvm (pgdir : Frame) (init : List (BitVec 8)) : K Unit := do
  if 4096 ≤ init.length then Prog.stop (.panic "inituvm: more than a page")
  else
    match ← kalloc with
    | none     => Prog.stop .wild
    | some mem =>
      memset0 mem
      let _ ← mappages pgdir 0 pgsize (frameAddr mem) (pteW ||| pteU)
      Prog.modify (fun s => s.setPage mem (fun o => init.getD o.toNat (s.mem mem o)))

/-- What `copyuvm` does with the page at `i`; `false` leads to `bad`. -/
def copyPage (pgdir d : Frame) (i : Addr) : K Bool := do
  match ← Prog.read (fun s => walkpgdir s pgdir i) with
  | none   => Prog.stop (.panic "copyuvm: pte should exist")
  | some q =>
    if present (← Prog.read (fun s => s.pte q)) then
      let pte ← Prog.read (fun s => s.pte q)
      match ← kalloc with
      | none     => pure false
      | some mem =>
        Prog.modify (fun s => s.setPage mem (s.mem (pteFrame pte)))
        if ← mappages d i pgsize (frameAddr mem) (pteFlags pte) then
          appendLru d i mem
          pure true
        else
          kfree mem
          pure false
    else
      match ← kalloc with
      | none     => pure false
      | some mem =>
        swapread mem ((← Prog.read (fun s => s.pte q)) >>> 12).toNat
        let flags ← Prog.read (fun s => pteFlags (s.pte q) ||| pteP)
        if ← mappages d i pgsize (frameAddr mem) flags then
          appendLru d i mem
          pure true
        else
          kfree mem
          pure false

def copyuvmLoop : Nat → Frame → Frame → Addr → Addr → K (Option Frame)
  | 0, _, _, _, _ => Prog.stop .diverge
  | n + 1, pgdir, d, i, sz => do
    if i < sz then
      if ← copyPage pgdir d i then copyuvmLoop n pgdir d (i + pgsize) sz
      else
        freevm d
        pure none
    else pure (some d)

def copyuvm (pgdir : Frame) (sz : Addr) : K (Option Frame) := do
  match ← setupkvm with
  | none   => pure none
  | some d => copyuvmLoop maxPages pgdir d 0 sz

def clearpteu (pgdir : Frame) (uva : Addr) : K Unit := do
  match ← Prog.read (fun s => walkpgdir s pgdir uva) with
  | none   => Prog.stop (.panic "clearpteu")
  | some q => Prog.modify (fun s => s.setPte q (s.pte q &&& ~~~pteU))

/-! ## The page fault -/

/-- `page_fault_hadler`; `true` is the return value 1. -/
def pageFaultHadler (pgdir : Frame) (vaddr : Addr) : K Bool := do
  let q ← follow (fun s => walkpgdir s pgdir (pgRoundDown vaddr))
  if (← Prog.read (fun s => s.pte q)) = 0 then pure false
  else
    match ← kalloc with
    | none         => pure false
    | some newPage =>
      let pte ← Prog.read (fun s => s.pte q)
      let bit ← Prog.read (fun s => checkBit s (pte >>> 12).toNat)
      Prog.emit (.swapIn pte bit)
      swapread newPage (pte >>> 12).toNat
      clearBit (pte >>> 12).toNat
      Prog.modify (fun s => s.setPte q (mapPte newPage (pteFlags pte)))
      pure true

end Swap
end Xv6
