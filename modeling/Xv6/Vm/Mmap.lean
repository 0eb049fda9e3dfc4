import Xv6.Vm.File
/-!
# Vm.Mmap — mmap, munmap, the page fault and map_fork (vm.c)

`p` is the calling process, `myproc()`.  A call is one step: what `acquire` protects against is another call, and what
it does to a caller that holds the lock already is a panic.
-/
namespace Xv6
namespace Vm

open Mem
open Sched (nproc)

def protRead : Word := 1#32
def protWrite : Word := 2#32
def mapAnonymous : Word := 1#32
def mapPopulate : Word := 2#32
def mmapBase : Addr := 0x40000000#32

/-- `for (mmap = mtable.maps; mmap < &mtable.maps[64]; mmap++)`. -/
def areas : List (Fin nmaps) := List.finRange nmaps

def acquire : M Unit := do
  if ← Prog.read (·.locked) then Prog.stop (.panic "acquire") else Prog.modify (fun s => { s with locked := true })

def release : M Unit := do
  if ← Prog.read (·.locked) then Prog.modify (fun s => { s with locked := false }) else Prog.stop (.panic "release")

/-- `a->addr <= x && a->addr + a->length > x`. -/
def Area.covers (a : Area) (x : Addr) : Bool := decide (a.addr ≤ x) && decide (x < a.addr + a.length)

/-- `a->state == USING && a->p == p`. -/
def Area.ownedBy (a : Area) (p : Fin nproc) : Bool := decide (a.state = .using) && decide (a.p = some p)

/-- `length / PGSIZE`, the turns of the loops over an area. -/
def Area.npages (a : Area) : Nat := (a.length.toInt.tdiv 4096).toNat

/-- `(void *)addr + i * PGSIZE`. -/
def Area.page (a : Area) (i : Nat) : Addr := a.addr + BitVec.ofNat 32 i * pgsize

def Sys.findArea (s : Sys) (test : Area → Bool) : Option (Fin nmaps) := areas.find? (fun i => test (s.maps i))

def mallock : M (Option (Fin nmaps)) := do
  acquire
  let i ← Prog.read (fun s => s.findArea (fun a => decide (a.state = .unusing)))
  release
  pure i

/-- `1` and `0` as a truth value. -/
def compareProt (p : Fin nproc) (i : Fin nmaps) : M Bool := do
  let a ← Prog.read (·.maps i)
  let r ← fileReadable p a.f
  let w ← fileWritable p a.f
  let fileFlags : Word := (if r then 1 else 0) ||| (if w then 2 else 0)
  pure (a.prot.sle fileFlags)

/-- `mappages` of one page into the page table of `p`, its result not looked at. -/
def mapPage (p : Fin nproc) (va : Addr) (page : Frame) (perm : Pte) : M Unit := do
  let g ← follow (·.pgdir p)
  let (_, g) ← mm (mappages g va pgsize (frameAddr page) perm)
  Prog.modify (·.setSpace p g)

/-- `fileread(f, page, PGSIZE)`. -/
def readPage (p : Fin nproc) (f : FileRef) (page : Frame) : M Unit := do
  Prog.emit (.fileread (← Prog.read (·.locked)))
  match ← fileread p f pgsize with
  | none       => pure ()
  | some bytes => storeBytes page bytes

def zeroedPage : M Frame := do
  let page ← mm kallocPage
  mm (memset page 0)
  pure page

def mapPopulateFile (p : Fin nproc) (i : Fin nmaps) : M Unit := do
  let a ← Prog.read (·.maps i)
  let pteW : Pte := if a.prot &&& protWrite ≠ 0 then Mem.pteW else 0
  Prog.forEach (List.range a.npages) (fun n => do
    let page ← zeroedPage
    readPage p a.f page
    setOff p a.f a.offset
    mapPage p (a.page n) page (pteW ||| pteU))

def mapPopulateAnonymous (p : Fin nproc) (i : Fin nmaps) : M Unit := do
  let a ← Prog.read (·.maps i)
  let pteW : Pte := if a.prot &&& protWrite ≠ 0 then Mem.pteW else 0
  Prog.forEach (List.range a.npages) (fun n => do
    let page ← zeroedPage
    mapPage p (a.page n) page (pteW ||| pteU))

/-- The entry of a fault, and of an area by page fault: covers the address, belongs to `p`, is in use. -/
def Area.faults (p : Fin nproc) (x : Addr) (a : Area) : Bool := a.covers x && a.ownedBy p

/-- `1` or `-1`. -/
def pageFaultHandler (p : Fin nproc) (addr : Addr) (io : Word) : M Int := do
  let addr := pgRoundDown addr
  acquire
  match ← Prog.read (·.findArea (Area.faults p addr)) with
  | none   =>
    release
    pure (-1)
  | some i =>
    let a ← Prog.read (·.maps i)
    if a.prot.slt io then
      release
      pure (-1)
    else
      let prot : Pte := if (1#32).slt a.prot then pteW else 0
      match a.f with
      | .null =>
        let page ← zeroedPage
        mapPage p addr page (prot ||| pteU)
        release
        pure 1
      | f =>
        let page ← zeroedPage
        release
        let s ← Prog.get
        readPage p f page
        match f with
        | .file j => do
          let filled ← Prog.read (·.phys.mem page)
          Prog.emit (.fill ⟨a, addr, s.file j, filled⟩)
        | _       => pure ()
        setOff p f a.offset
        acquire
        mapPage p addr page (prot ||| pteU)
        release
        pure 1

/-- Step 1 of `mmap`, the arguments it takes. -/
def validArgs (addr length prot flags fd offset : Word) : Bool :=
  decide (addr.toNat % 4096 = 0) && !length.slt 0 && decide (length.toNat % 4096 = 0) &&
    (decide (prot = protRead) || decide (prot = protRead ||| protWrite)) &&
    (if flags &&& mapAnonymous ≠ 0 then decide (fd = -1) && decide (offset = 0) else !fd.slt 0)

def Area.init (a : Area) (p : Fin nproc) (addr length prot flags : Word) : Area :=
  { a with f := .null, addr := addr + mmapBase, length := length, prot := prot, flags := flags, p := some p,
           state := .using }

/-- Step 4 for a file: `f->off = offset`, and the check of the permissions. -/
def openArea (p : Fin nproc) (i : Fin nmaps) (fd offset : Word) : M Bool := do
  Prog.modify (fun s => s.setArea i { s.maps i with f := s.ofileAt p fd, offset := offset })
  let f ← Prog.read (fun s => (s.maps i).f)
  setOff p f offset
  if ← compareProt p i then pure true
  else
    Prog.modify (fun s => s.setArea i { s.maps i with state := .unusing })
    pure false

def mmap (p : Fin nproc) (addr length prot flags fd offset : Word) : M Addr := do
  -- 1. Validate
  if !validArgs addr length prot flags fd offset then pure 0
  else
    -- 2. Check mmap_area array
    acquire
    let clash ← Prog.read (·.findArea (fun a => a.covers (addr + mmapBase) && a.ownedBy p))
    release
    if clash.isSome then pure 0
    else
      -- 3. Init mmap_area
      match ← mallock with
      | none   => Prog.stop .wild
      | some i =>
        Prog.modify (fun s => s.setArea i ((s.maps i).init p addr length prot flags))
        Prog.emit (.made p i)
        -- 4. Worked
        if flags &&& mapPopulate ≠ 0 then
          if flags &&& mapAnonymous ≠ 0 then
            mapPopulateAnonymous p i
            pure (addr + mmapBase)
          else if ← openArea p i fd offset then
            mapPopulateFile p i
            pure (addr + mmapBase)
          else pure 0
        else if ← openArea p i fd offset then pure (addr + mmapBase)
        else pure 0

/-- What `munmap` does with a page that is there: fill it with ones, free it, clear the entry. -/
def dropPage (p : Fin nproc) (g : Space) (q : Frame) : M Unit := do
  mm (memset (pteFrame (g.pte q)) 1)
  mm (kfree (pteFrame (g.pte q)))
  Prog.modify (·.setSpace p (g.setPte q 0))

def unmapPage (p : Fin nproc) (va : Addr) : M Unit := do
  let g ← follow (·.pgdir p)
  match ← mm (walkpgdir g va) with
  | none   => pure ()
  | some q => Prog.when (present (g.pte q)) (dropPage p g q)

/-- `munmap`'s test of an area, `>=` at its end. -/
def Area.reaches (p : Fin nproc) (x : Addr) (a : Area) : Bool :=
  decide (a.addr ≤ x) && decide (x ≤ a.addr + a.length) && a.ownedBy p

/-- The area as `munmap` leaves it. -/
def Area.cleared : Area := ⟨.null, 0, 0, 0, 0, 0, none, .unusing⟩

/-- `1` or `-1`. -/
def munmap (p : Fin nproc) (addr : Addr) : M Int := do
  acquire
  let maps ← Prog.read (·.maps)
  Prog.emit (.unmap p (addr + mmapBase) maps)
  match ← Prog.read (·.findArea (Area.reaches p (addr + mmapBase))) with
  | none   =>
    release
    pure (-1)
  | some i =>
    let a ← Prog.read (·.maps i)
    Prog.forEach (List.range a.npages) (fun n => unmapPage p (a.page n))
    Prog.modify (·.setArea i Area.cleared)
    release
    pure 1

/-- What `map_fork` does with one page of the area `a`: the child gets the bytes of the file. -/
def forkPage (p np : Fin nproc) (a : Area) (va : Addr) : M Unit := do
  let g ← follow (·.pgdir p)
  match ← mm (walkpgdirAlloc g va) with
  | none   => pure ()
  | some g =>
    Prog.modify (·.setSpace p g)
    Prog.when (present (g.pte (pageNum va))) (do
      let page ← zeroedPage
      let pteW : Pte := if (2#32).sle a.prot then Mem.pteW else 0
      Prog.when (a.f ≠ .null) (do
        readPage p a.f page
        match a.f with
        | .file j => Prog.modify (fun s => s.setFile j { s.file j with off := (s.file j).off + pgsize })
        | _       => Prog.stop .wild)
      mapPage np va page (pteW ||| pteU))

/-- `map_fork(np)` by `p`.  `mallock` acquires the lock that is held here. -/
def mapFork (p np : Fin nproc) : M Unit := do
  acquire
  Prog.forEach areas (fun i => do
    let a ← Prog.read (·.maps i)
    Prog.when (a.ownedBy p) (do
      match ← mallock with
      | none   => Prog.stop .wild
      | some j =>
        Prog.modify (·.setArea j { a with p := some np, state := .using })
        Prog.emit (.inherited np j)
        Prog.when (a.f ≠ .null) (setOff p a.f a.offset)
        Prog.forEach (List.range a.npages) (fun n => forkPage p np a (a.page n))))
  release

/-! ## Areas -/

theorem findArea_some {s : Sys} {P : Area → Bool} {i : Fin nmaps} :
    s.findArea P = some i ↔ P (s.maps i) = true ∧ ∀ j < i, P (s.maps j) = false := by
  unfold Sys.findArea areas
  rw [← Fin.find?_eq_find?_finRange, Fin.find?_eq_some_iff]

theorem findArea_none {s : Sys} {P : Area → Bool} : s.findArea P = none ↔ ∀ i, P (s.maps i) = false := by
  unfold Sys.findArea areas
  rw [← Fin.find?_eq_find?_finRange, Fin.find?_eq_none_iff]

theorem ownedBy_iff {a : Area} {p : Fin nproc} : a.ownedBy p = true ↔ a.state = .using ∧ a.p = some p := by
  unfold Area.ownedBy
  simp only [Bool.and_eq_true, decide_eq_true_eq]

theorem npages_eq {a : Area} (h : a.length.toNat < 2147483648) : a.npages = a.length.toNat / 4096 := by
  unfold Area.npages
  rw [BitVec.toInt_eq_toNat_of_lt (by omega), Int.tdiv_eq_ediv_of_nonneg (by omega)]
  omega

theorem page_toNat (a : Area) (k : Nat) (h : a.addr.toNat + k * 4096 < 4294967296) :
    (a.page k).toNat = a.addr.toNat + k * 4096 := by
  unfold Area.page pgsize
  rw [BitVec.toNat_add, BitVec.toNat_mul]
  simp only [BitVec.toNat_ofNat]
  rw [Nat.mod_eq_of_lt (show k < 2 ^ 32 by omega)]
  omega

end Vm
end Xv6
