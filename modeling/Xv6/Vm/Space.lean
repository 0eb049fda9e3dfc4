import Xv6.Vm.Kalloc
/-!
# Vm.Space — page tables (virtual memory)

vm.c up to `copyuvm`.  A page directory is a `Space`: the frame it is kept in, the frame of each page table, and the
entries by page number, so that a pointer to an entry is the number of its page.  A function that writes to a page
directory returns the `Space` it leaves.  The loops over addresses are given more steps than there are pages.
-/
namespace Xv6
namespace Vm

open Mem

structure Space where
  dir : Frame
  pde : BitVec 10 → Option Frame
  pte : Frame → Pte

/-- More steps than a loop over the pages of an address space takes. -/
def maxPages : Nat := 1048577

def Space.setPte (g : Space) (n : Frame) (e : Pte) : Space := { g with pte := fun m => if m = n then e else g.pte m }

def dirIx (n : Frame) : BitVec 10 := n.extractLsb' 10 10

/-- `*pde = V2P(pgtab) | …`, the page table cleared. -/
def Space.setPde (g : Space) (d : BitVec 10) (t : Frame) : Space :=
  { g with pde := fun c => if c = d then some t else g.pde c
           pte := fun n => if dirIx n = d then 0 else g.pte n }

def Space.hasTable (g : Space) (va : Addr) : Bool := (g.pde (pdx va)).isSome

def walkpgdir (g : Space) (va : Addr) : V (Option Frame) := do
  Prog.emit (.walk va)
  pure (if g.hasTable va then some (pageNum va) else none)

/-- `walkpgdir(pgdir, va, 1)`; `none` is the null pointer. -/
def walkpgdirAlloc (g : Space) (va : Addr) : V (Option Space) := do
  Prog.emit (.walk va)
  if g.hasTable va then pure (some g)
  else
    match ← kalloc with
    | none       => pure none
    | some pgtab =>
      memset pgtab 0
      pure (some (g.setPde (pdx va) pgtab))

def mappagesLoop : Nat → Space → Addr → Addr → Addr → Pte → V (Bool × Space)
  | 0, _, _, _, _, _ => Prog.stop .diverge
  | n + 1, g, a, last, pa, perm => do
    match ← walkpgdirAlloc g a with
    | none   => pure (false, g)
    | some g =>
      if present (g.pte (pageNum a)) then Prog.stop (.panic "remap")
      else
        let g := g.setPte (pageNum a) (pa ||| perm ||| pteP)
        if a = last then pure (true, g) else mappagesLoop n g (a + pgsize) last (pa + pgsize) perm

/-- `true` is the return value 0. -/
def mappages (g : Space) (va size pa : Addr) (perm : Pte) : V (Bool × Space) :=
  mappagesLoop maxPages g (pgRoundDown va) (pgRoundDown (va + size - 1#32)) pa perm

/-! ## Deallocation -/

def deallocuvmLoop : Nat → Space → Addr → Addr → V Space
  | 0, _, _, _ => Prog.stop .diverge
  | n + 1, g, a, oldsz => do
    if a < oldsz then
      match ← walkpgdir g a with
      | none   => deallocuvmLoop n g (pgAddr ((pdx a).setWidth 32 + 1) 0 0 - pgsize + pgsize) oldsz
      | some q =>
        if present (g.pte q) then
          if pteAddr (g.pte q) = 0 then Prog.stop (.panic "kfree")
          else
            kfree (pteFrame (g.pte q))
            deallocuvmLoop n (g.setPte q 0) (a + pgsize) oldsz
        else deallocuvmLoop n g (a + pgsize) oldsz
    else pure g

def deallocuvm (g : Space) (oldsz newsz : Addr) : V (Addr × Space) := do
  if oldsz ≤ newsz then pure (oldsz, g)
  else pure (newsz, ← deallocuvmLoop maxPages g (pgRoundUp newsz) oldsz)

/-- The page directory's entries, `NPDENTRIES` of them. -/
def pdes : List (BitVec 10) := (List.finRange 1024).map (BitVec.ofFin (w := 10))

def freevm (g : Space) : V Unit := do
  let (_, g) ← deallocuvm g kernbase 0
  Prog.forEach pdes (fun i =>
    match g.pde i with
    | none   => pure ()
    | some t => kfree t)
  kfree g.dir

/-! ## Allocation -/

/-- The table `kmap`: virtual start, physical start and end, permissions. -/
def kmap (kdata : Addr) : List (Addr × Addr × Addr × Pte) :=
  [(kernbase, 0, extmem, pteW),
   (kernlink, kernlink - kernbase, kdata - kernbase, 0),
   (kdata, kdata - kernbase, phystop, pteW),
   (devspace, devspace, 0, pteW)]

/-- `setupkvm`'s loop; `false` after a failed `mappages`. -/
def mapKernel (g : Space) : List (Addr × Addr × Addr × Pte) → V (Bool × Space)
  | []     => pure (true, g)
  | (virt, physStart, physEnd, perm) :: l => do
    let (ok, g) ← mappages g virt (physEnd - physStart) physStart perm
    if ok then mapKernel g l else pure (false, g)

def setupkvm : V (Option Space) := do
  match ← kalloc with
  | none       => pure none
  | some pgdir =>
    memset pgdir 0
    let (ok, g) ← mapKernel ⟨pgdir, fun _ => none, fun _ => 0⟩ (kmap (← Prog.read (·.kdata)))
    if ok then pure (some g)
    else
      freevm g
      pure none

def allocuvmLoop : Nat → Space → Addr → Addr → Addr → V (Addr × Space)
  | 0, _, _, _, _ => Prog.stop .diverge
  | n + 1, g, a, oldsz, newsz => do
    if a < newsz then
      match ← kalloc with
      | none     =>
        let (_, g) ← deallocuvm g newsz oldsz
        pure (0, g)
      | some mem =>
        memset mem 0
        let (ok, g) ← mappages g a pgsize (frameAddr mem) (pteW ||| pteU)
        if ok then allocuvmLoop n g (a + pgsize) oldsz newsz
        else
          let (_, g) ← deallocuvm g newsz oldsz
          kfree mem
          pure (0, g)
    else pure (newsz, g)

def allocuvm (g : Space) (oldsz newsz : Addr) : V (Addr × Space) := do
  if kernbase ≤ newsz then pure (0, g)
  else if newsz < oldsz then pure (oldsz, g)
  else allocuvmLoop maxPages g (pgRoundUp oldsz) oldsz newsz

/-- `inituvm`, for code of less than a page. -/
def inituvm (g : Space) (init : List (BitVec 8)) : V Space := do
  if 4096 ≤ init.length then Prog.stop (.panic "inituvm: more than a page")
  else
    let mem ← kallocPage
    memset mem 0
    let (_, g) ← mappages g 0 pgsize (frameAddr mem) (pteW ||| pteU)
    Prog.modify (fun s => s.setPage mem (fun o => init.getD o.toNat (s.mem mem o)))
    pure g

/-- `copyuvm`'s loop; the new page directory is `d`. -/
def copyuvmLoop : Nat → Space → Space → Addr → Addr → V (Option Space)
  | 0, _, _, _, _ => Prog.stop .diverge
  | n + 1, g, d, i, sz => do
    if i < sz then
      match ← walkpgdir g i with
      | none   => Prog.stop (.panic "copyuvm: pte should exist")
      | some q =>
        if present (g.pte q) then
          match ← kalloc with
          | none     =>
            freevm d
            pure none
          | some mem =>
            Prog.modify (fun s => s.setPage mem (s.mem (pteFrame (g.pte q))))
            let (ok, d) ← mappages d i pgsize (frameAddr mem) (pteFlags (g.pte q))
            if ok then copyuvmLoop n g d (i + pgsize) sz
            else
              kfree mem
              freevm d
              pure none
        else Prog.stop (.panic "copyuvm: page not present")
    else pure (some d)

def copyuvm (g : Space) (sz : Addr) : V (Option Space) := do
  match ← setupkvm with
  | none   => pure none
  | some d => copyuvmLoop maxPages g d 0 sz

/-- The frame and offset a user access finds, with `PTE_U` and, for a write, `PTE_W` checked by the hardware. -/
def Space.user (g : Space) (va : Addr) (write : Bool) : Option Frame :=
  if g.hasTable va && decide (present (g.pte (pageNum va))) && (g.pte (pageNum va)).getLsbD 2 &&
      (!write || (g.pte (pageNum va)).getLsbD 1) then some (pteFrame (g.pte (pageNum va)))
  else none

def Space.mapped (g : Space) (n : Frame) : Bool := (g.pde (dirIx n)).isSome && decide (present (g.pte n))

def Space.frame (g : Space) (n : Frame) : Frame := pteFrame (g.pte n)

theorem dirIx_pageNum (va : Addr) : dirIx (pageNum va) = pdx va := by
  refine BitVec.eq_of_getLsbD_eq fun i hi => ?_
  rw [getLsbD_pdx]
  show (BitVec.extractLsb' 10 10 (pageNum va)).getLsbD i = _
  rw [BitVec.getLsbD_extractLsb', getLsbD_pageNum]
  simp [hi, show 10 + i < 20 by omega, show 12 + (10 + i) = 22 + i by omega]

theorem mapped_pageNum (g : Space) (va : Addr) :
    g.mapped (pageNum va) = (g.hasTable va && decide (present (g.pte (pageNum va)))) := by
  unfold Space.mapped Space.hasTable
  rw [dirIx_pageNum]

end Vm
end Xv6
