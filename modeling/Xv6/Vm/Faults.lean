import Xv6.Vm.Walk
/-!
# Vm.Faults — what the page fault fills a page of a mapped file with

`page_fault_handler` reads at the shared offset of the open file, wherever that stands, and not at the page's own
position.  Every page it fills in a run holds the bytes from that offset on; so it is right exactly when the file has
the same bytes there.
-/
namespace Xv6
namespace Vm

open Mem
open Prog (Quiet Triple)
open Sched (nproc)

/-- The page of a file's bytes from `pos` on, zero where the file has none. -/
def filePage (data : List Byte) (pos : Int) : Page := fun o =>
  if 0 ≤ pos + o.toNat then data.getD (pos + o.toNat).toNat 0 else 0

/-- The position in the file of the page filled: the offset of the mapping, and the page's distance from its start. -/
def Fill.pos (x : Fill) : Int := x.area.offset.toInt + (x.va - x.area.addr).toNat

/-- What `fileread` leaves of a page of zeros. -/
def File.filled (f : File) (data : List Byte) : Page := if f.readable then filePage data f.off.toNat else zeroPage

/-- The page holds what `fileread` found, where the file is an inode's. -/
def Fill.Read (x : Fill) : Prop := ∀ data size, x.file.kind = .inode data size → x.page = x.file.filled data

def Filled (e : Event) : Prop := ∀ x, e = .fill x → x.Read

theorem filled_mm (e : PhysEvent) : Filled (.mm e) := fun _ h => by cases h
theorem filled_vm (e : PhysEvent) : Filled (.vm e) := fun _ h => by cases h
theorem filled_fileread (b : Bool) : Filled (.fileread b) := fun _ h => by cases h

theorem getD_past {data : List Byte} {n : Nat} (h : data.length ≤ n) : data.getD n 0 = 0 := by
  rw [List.getD_eq_getElem?_getD, List.getElem?_eq_none h, Option.getD_none]

theorem readi_page {data : List Byte} (size : data.length ≤ maxFileSize) (off : Word) (o : BitVec 12) :
    ((readi data off pgsize).getD []).getD o.toNat 0 = filePage data off.toNat o := by
  have ho := o.isLt
  have hpos : ((off.toNat : Int) + o.toNat).toNat = off.toNat + o.toNat := by omega
  unfold readi filePage
  rw [if_pos (show (0 : Int) ≤ off.toNat + o.toNat by omega), hpos]
  by_cases h : data.length < off.toNat ∨ off + pgsize < off
  · have hoff := off.isLt
    unfold maxFileSize at size
    rw [if_pos h]
    refine (getD_past ?_).symm
    rw [BitVec.lt_def, BitVec.toNat_add] at h
    simp only [pgsize, BitVec.toNat_ofNat] at h
    omega
  · rw [if_neg h, Option.getD_some, List.getD_eq_getElem?_getD, List.getElem?_take,
      if_pos (show o.toNat < pgsize.toNat from ho), List.getElem?_drop, ← List.getD_eq_getElem?_getD]

theorem fileread_inode {s : Sys} {p : Fin nproc} {j : Nat} {n : Word} {data : List Byte}
    {size : data.length ≤ maxFileSize} (hr : (s.file j).readable = true) (hk : (s.file j).kind = .inode data size) :
    fileread p (.file j) n s = ⟨.ok (readi data (s.file j).off n), s.setFile j { s.file j with
      off := (s.file j).off + BitVec.ofNat 32 ((readi data (s.file j).off n).getD []).length }, []⟩ := by
  unfold fileread
  dsimp only
  rw [Prog.read_bind_run, hr, hk]
  rfl

theorem fileread_unreadable {s : Sys} {p : Fin nproc} {j : Nat} {n : Word} (hr : (s.file j).readable = false) :
    fileread p (.file j) n s = ⟨.ok none, s, []⟩ := by
  unfold fileread
  dsimp only
  rw [Prog.read_bind_run, hr]
  rfl

/-- The memory after the bytes of a file have been stored from the start of a page on. -/
def Phys.stored (k : Phys) (page : Frame) (data : List Byte) (off : Word) : Phys :=
  k.setPage page (fun o => ((readi data off pgsize).getD []).getD o.toNat (k.mem page o))

/-- The state after a page has been read from the file `j`, open on an inode. -/
def Sys.pageRead (s : Sys) (j : Nat) (page : Frame) (data : List Byte) : Sys :=
  let read := (readi data (s.file j).off pgsize).getD []
  { s.setFile j { s.file j with off := (s.file j).off + BitVec.ofNat 32 read.length } with
    phys := s.phys.stored page data (s.file j).off }

/-- **A page is read** from an inode, with what is left of the file or nothing. -/
theorem readPage_run {s : Sys} {p : Fin nproc} {j : Nat} {page : Frame} {data : List Byte}
    {size : data.length ≤ maxFileSize} (hr : (s.file j).readable = true) (hk : (s.file j).kind = .inode data size) :
    readPage p (.file j) page s = ⟨.ok (), s.pageRead j page data, [.fileread s.locked]⟩ := by
  unfold readPage
  rw [Prog.read_bind_run, Prog.bind_run_ok (Prog.emit_run _ _), Prog.bind_run_nil (fileread_inode hr hk)]
  unfold Sys.pageRead Phys.stored
  cases hi : readi data (s.file j).off pgsize with
  | some bytes => rfl
  | none =>
    have hsame : s.phys.setPage page (fun o => s.phys.mem page o) = s.phys := by
      unfold Phys.setPage
      congr 1
      funext f
      split_ifs with hf
      · rw [hf]
      · rfl
    show _ = (⟨_, { s.setFile j _ with phys := s.phys.setPage page (fun o => s.phys.mem page o) }, _⟩ :
      Outcome Stop Sys Event Unit)
    rw [hsame]
    rfl

theorem stored_page {k : Phys} {page : Frame} {data : List Byte} {off : Word} (size : data.length ≤ maxFileSize)
    (hz : k.mem page = zeroPage) : (k.stored page data off).mem page = filePage data off.toNat := by
  funext o
  rw [← readi_page size]
  refine (congrFun (if_pos rfl) o).trans ?_
  rw [hz]
  rfl

theorem walks_filled {va size : Addr} {perm : Pte} (g : Space) (pa : Addr) :
    Only (fun e => Filled (.mm e)) (mappages g va size pa perm) := mappages_walks (fun _ => filled_mm _)

theorem any_view : ∀ s t : Sys, Alike s t → () = () := fun _ _ _ => rfl

theorem any_lock : ∀ (s : Sys) (b : Bool), (fun _ : Sys => ()) { s with locked := b } = () := fun _ _ => rfl

structure Unfaulted {ρ : Type} (π : Sys → ρ) : Prop where
  alike : ∀ s t : Sys, Alike s t → π s = π t
  space : ∀ (s : Sys) p g, π (s.setSpace p g) = π s
  lock  : ∀ (s : Sys) (b : Bool), π { s with locked := b } = π s

structure Unseen {ρ : Type} (π : Sys → ρ) : Prop extends Unfaulted π where
  area  : ∀ (s : Sys) i a, π (s.setArea i a) = π s

theorem unseen_unit : Unseen (fun _ : Sys => ()) := ⟨⟨fun _ _ _ => rfl, fun _ _ _ => rfl, fun _ _ => rfl⟩, fun _ _ _ => rfl⟩

theorem unseen_symbols : Unseen (fun s : Sys => s.phys.symbols) :=
  ⟨⟨fun _ _ h => h.phys, fun _ _ _ => rfl, fun _ _ => rfl⟩, fun _ _ _ => rfl⟩

section Handler

variable {ρ : Type} {π : Sys → ρ} (hπ : Unfaulted π)
variable {G : Event → Prop} {P : Sys → Prop} {p : Fin nproc}

theorem emits_triple {α : Type} {c : M α} (hc : Quiet (fun _ => ()) Filled c) :
    Triple G Filled P c (fun _ _ => True) := fun s _ _ => ⟨(hc s).2, fun _ _ => trivial⟩

theorem zeroedPage_zero : Triple G Filled P zeroedPage (fun page s => s.phys.mem page = zeroPage) := by
  refine Triple.bind (emits_triple (mm_quiet any_view kallocPage_only)) (fun page => ?_)
  refine Triple.bind (Q := fun _ s => s.phys.mem page = zeroPage) ?_ (fun _ => Triple.pure page (fun _ h => h))
  rintro s - -
  exact ⟨fun e he => (by cases he), fun _ _ => if_pos rfl⟩

theorem release_zero (page : Frame) : Triple G Filled (fun s => s.phys.mem page = zeroPage) release
    (fun _ s => s.phys.mem page = zeroPage) :=
  Triple.read_bind (fun _ hs => Triple.ite (fun _ => Triple.modify (fun _ ht => ht ▸ hs)) (fun _ => Triple.stop _))

theorem readPage_filled (s : Sys) (j : Nat) (page : Frame) (hz : s.phys.mem page = zeroPage) :
    Triple G Filled (fun t => t = s) (readPage p (.file j) page)
      (fun _ t => ∀ data size, (s.file j).kind = .inode data size → t.phys.mem page = (s.file j).filled data) := by
  intro t ht hG
  subst ht
  have hquiet : Quiet (fun _ => ()) Filled (readPage p (.file j) page) :=
    readPage_quiet any_view p _ page filled_fileread
  refine ⟨(hquiet t).2, fun a ha data size hk => ?_⟩
  unfold File.filled
  cases hr : (t.file j).readable with
  | false =>
    unfold readPage
    rw [Prog.read_bind_run, Prog.bind_run_ok (Prog.emit_run _ _), Prog.bind_run_ok (fileread_unreadable hr)]
    exact hz
  | true =>
    rw [readPage_run hr hk, if_pos rfl]
    exact stored_page size hz

include hπ in
/-- **The branch for a file**: what it fills the page with is what `fileread` finds. -/
theorem fillPage_fills (a : Area) (va : Addr) (j : Nat) (perm : Pte) :
    Quiet π Filled (do
      let page ← zeroedPage
      release
      let s ← Prog.get
      readPage p (.file j) page
      let filled ← Prog.read (·.phys.mem page)
      Prog.emit (.fill ⟨a, va, s.file j, filled⟩)
      setOff p (.file j) a.offset
      acquire
      mapPage p va page perm
      release
      pure (1 : Int)) := by
  have hview : Quiet π (fun _ => True) (do
      let page ← zeroedPage
      release
      let s ← Prog.get
      readPage p (.file j) page
      let filled ← Prog.read (·.phys.mem page)
      Prog.emit (.fill ⟨a, va, s.file j, filled⟩)
      setOff p (.file j) a.offset
      acquire
      mapPage p va page perm
      release
      pure (1 : Int)) :=
    Quiet.bind (zeroedPage_quiet hπ.alike) (fun page => Quiet.bind (release_quiet hπ.lock) (fun _ =>
      Quiet.bind Quiet.get (fun _ => Quiet.bind (readPage_quiet hπ.alike p _ page fun _ => trivial) (fun _ =>
        Quiet.bind (Quiet.read _) (fun _ => Quiet.bind (Quiet.emit trivial) (fun _ =>
          Quiet.bind (setOff_quiet hπ.alike p _ _) (fun _ => Quiet.bind (acquire_quiet hπ.lock) (fun _ =>
            Quiet.bind (mapPage_quiet hπ.alike hπ.space p page perm fun _ _ => mappages_walks fun _ => trivial) (fun _ =>
              Quiet.bind (release_quiet hπ.lock) (fun _ => Quiet.pure _))))))))))
  have htriple : Triple (fun _ => True) Filled (fun _ => True) (do
      let page ← zeroedPage
      release
      let s ← Prog.get
      readPage p (.file j) page
      let filled ← Prog.read (·.phys.mem page)
      Prog.emit (.fill ⟨a, va, s.file j, filled⟩)
      setOff p (.file j) a.offset
      acquire
      mapPage p va page perm
      release
      pure (1 : Int)) (fun _ _ => True) := by
    refine Triple.bind zeroedPage_zero (fun page => Triple.bind (release_zero page) (fun _ => ?_))
    refine Triple.get_bind (fun s hz => Triple.bind (readPage_filled s j page hz) (fun _ => ?_))
    refine Triple.read_bind (fun t ht => Triple.bind (Q := fun _ _ => True) ?_ (fun _ => emits_triple ?_))
    · refine Triple.emit (fun _ _ _ x hx => ?_) (fun _ _ _ => trivial)
      cases hx
      exact ht
    · exact Quiet.bind (setOff_quiet any_view _ _ _) (fun _ => Quiet.bind (acquire_quiet any_lock) (fun _ =>
        Quiet.bind (mapPage_quiet any_view (fun _ _ _ => rfl) p page perm walks_filled) (fun _ =>
          Quiet.bind (release_quiet any_lock) (fun _ => Quiet.pure _))))
  exact fun s => ⟨(hview s).1, (htriple s trivial (fun _ _ => trivial)).1⟩

end Handler

/-! ## Every function -/

/-- A program whose fills are what `fileread` found. -/
abbrev Fills {α : Type} (c : M α) : Prop := Quiet (fun _ => ()) Filled c

section Every

variable {ρ : Type} {π : Sys → ρ} (hπ : Unfaulted π) {p : Fin nproc}

theorem filled_made (i : Fin nmaps) : Filled (.made p i) := fun _ h => by cases h
theorem filled_inherited (i : Fin nmaps) : Filled (.inherited p i) := fun _ h => by cases h
theorem filled_unmap (x : Addr) (maps : Fin nmaps → Area) : Filled (.unmap p x maps) := fun _ h => by cases h

theorem pages_fills {a : Area} {body : Nat → M Unit} (h : ∀ n, Quiet π Filled (body n)) :
    Quiet π Filled (Prog.forEach (List.range a.npages) body) := Quiet.forEach _ (fun n _ => h n)

include hπ

theorem pageFaultHandler_fills (addr : Addr) (io : Word) : Quiet π Filled (pageFaultHandler p addr io) := by
  refine Quiet.bind (acquire_quiet hπ.lock) (fun _ => Quiet.bind (Quiet.read _) (fun o => ?_))
  cases o with
  | none => exact Quiet.bind (release_quiet hπ.lock) (fun _ => Quiet.pure _)
  | some i =>
    refine Quiet.bind (Quiet.read _) (fun a => Quiet.ite
      (fun _ => Quiet.bind (release_quiet hπ.lock) (fun _ => Quiet.pure _)) (fun _ => ?_))
    cases hf : a.f with
    | null =>
      exact Quiet.bind (zeroedPage_quiet hπ.alike) (fun page => Quiet.bind
        (mapPage_quiet hπ.alike hπ.space p page _ walks_filled) (fun _ =>
          Quiet.bind (release_quiet hπ.lock) (fun _ => Quiet.pure _)))
    | file j => exact fillPage_fills hπ a _ j _
    | wild =>
      exact Quiet.bind (zeroedPage_quiet hπ.alike) (fun page => Quiet.bind (release_quiet hπ.lock) (fun _ =>
        Quiet.bind Quiet.get (fun _ => Quiet.bind (readPage_quiet hπ.alike p _ page filled_fileread) (fun _ =>
          Quiet.bind (setOff_quiet hπ.alike p _ _) (fun _ => Quiet.bind (acquire_quiet hπ.lock) (fun _ =>
            Quiet.bind (mapPage_quiet hπ.alike hπ.space p page _ walks_filled) (fun _ =>
              Quiet.bind (release_quiet hπ.lock) (fun _ => Quiet.pure _))))))))

theorem mapPopulateAnonymous_fills (i : Fin nmaps) : Quiet π Filled (mapPopulateAnonymous p i) :=
  Quiet.bind (Quiet.read _) (fun _ => pages_fills (fun _ => Quiet.bind (zeroedPage_quiet hπ.alike) (fun page =>
    mapPage_quiet hπ.alike hπ.space p page _ walks_filled)))

theorem mapPopulateFile_fills (i : Fin nmaps) : Quiet π Filled (mapPopulateFile p i) :=
  Quiet.bind (Quiet.read _) (fun a => pages_fills (fun _ => Quiet.bind (zeroedPage_quiet hπ.alike) (fun page =>
    Quiet.bind (readPage_quiet hπ.alike p a.f page filled_fileread)
      (fun _ => Quiet.bind (setOff_quiet hπ.alike p a.f _) (fun _ =>
      mapPage_quiet hπ.alike hπ.space p page _ walks_filled)))))

end Every

section Calls

variable {ρ : Type} {π : Sys → ρ} (hπ : Unseen π) {p : Fin nproc}

include hπ

theorem openArea_fills (i : Fin nmaps) (fd offset : Word) : Quiet π Filled (openArea p i fd offset) :=
  Quiet.bind (Quiet.modify (fun s => hπ.area s _ _)) (fun _ => Quiet.bind (Quiet.read _) (fun f =>
    Quiet.bind (setOff_quiet hπ.alike p f offset) (fun _ => Quiet.bind (compareProt_quiet p i) (fun _ =>
      Quiet.ite (fun _ => Quiet.pure _) (fun _ => Quiet.bind (Quiet.modify (fun s => hπ.area s _ _))
        (fun _ => Quiet.pure _))))))

theorem mmap_fills (addr length prot flags fd offset : Word) : Quiet π Filled (mmap p addr length prot flags fd offset) := by
  refine Quiet.ite (fun _ => Quiet.pure _) (fun _ => Quiet.bind (acquire_quiet hπ.lock) (fun _ =>
    Quiet.bind (Quiet.read _) (fun _ => Quiet.bind (release_quiet hπ.lock) (fun _ => Quiet.ite (fun _ => Quiet.pure _)
      (fun _ => Quiet.bind (mallock_quiet hπ.lock) (fun o => ?_))))))
  cases o with
  | none => exact Quiet.stop _
  | some i =>
    refine Quiet.bind (Quiet.modify (fun s => hπ.area s _ _)) (fun _ => Quiet.bind (Quiet.emit (filled_made i)) (fun _ =>
      Quiet.ite (fun _ => Quiet.ite (fun _ => ?_) (fun _ => ?_)) (fun _ => ?_)))
    · exact Quiet.bind (mapPopulateAnonymous_fills hπ.toUnfaulted i) (fun _ => Quiet.pure _)
    · exact Quiet.bind (openArea_fills hπ i fd offset) (fun _ => Quiet.ite
        (fun _ => Quiet.bind (mapPopulateFile_fills hπ.toUnfaulted i) (fun _ => Quiet.pure _)) (fun _ => Quiet.pure _))
    · exact Quiet.bind (openArea_fills hπ i fd offset) (fun _ => Quiet.ite (fun _ => Quiet.pure _) (fun _ => Quiet.pure _))

theorem munmap_fills (addr : Addr) : Quiet π Filled (munmap p addr) := by
  refine Quiet.bind (acquire_quiet hπ.lock) (fun _ => Quiet.bind (Quiet.read _) (fun maps =>
    Quiet.bind (Quiet.emit (filled_unmap _ maps)) (fun _ => Quiet.bind (Quiet.read _) (fun o => ?_))))
  cases o with
  | none => exact Quiet.bind (release_quiet hπ.lock) (fun _ => Quiet.pure _)
  | some i =>
    exact Quiet.bind (Quiet.read _) (fun a => Quiet.bind
      (pages_fills fun n => unmapPage_quiet hπ.alike hπ.space p (filled_mm _) (fun _ => filled_mm _)) (fun _ =>
        Quiet.bind (Quiet.modify (fun s => hπ.area s _ _))
          (fun _ => Quiet.bind (release_quiet hπ.lock) (fun _ => Quiet.pure _))))

theorem mapFork_fills (np : Fin nproc) : Quiet π Filled (mapFork p np) := by
  refine Quiet.bind (acquire_quiet hπ.lock) (fun _ => Quiet.bind (Quiet.forEach _ (fun i _ =>
    Quiet.bind (Quiet.read _) (fun a => Quiet.when (fun _ => Quiet.bind (mallock_quiet hπ.lock) (fun o => ?_)))))
    (fun _ => release_quiet hπ.lock))
  cases o with
  | none => exact Quiet.stop _
  | some j =>
    exact Quiet.bind (Quiet.modify (fun s => hπ.area s _ _)) (fun _ => Quiet.bind (Quiet.emit (filled_inherited j)) (fun _ =>
      Quiet.bind (Quiet.when (fun _ => setOff_quiet hπ.alike p a.f _)) (fun _ =>
        pages_fills fun n => forkPage_quiet hπ.alike hπ.space p np a (filled_mm _) (fun g pa _ => walks_filled g pa)
          filled_fileread)))

theorem mmStep_fills (c : MmCall) : Quiet π Filled (mmStep c) := by
  cases c with
  | mmap p addr length prot flags fd offset =>
    exact Quiet.bind (mmap_fills hπ addr length prot flags fd offset) (fun _ => Quiet.pure _)
  | munmap p addr => exact Quiet.bind (munmap_fills hπ addr) (fun _ => Quiet.pure _)
  | touch p va write =>
    exact Quiet.bind (follow_quiet _) (fun g => Quiet.ite (fun _ => Quiet.pure _)
      (fun _ => Quiet.bind (pageFaultHandler_fills hπ.toUnfaulted va _) (fun _ => Quiet.pure _)))

omit hπ

theorem fills_walk : Walk (fun _ c => Fills c) where
  pure _ := Quiet.pure _
  stop _ := Quiet.stop _
  read _ := Quiet.read _
  bind hc hf := Quiet.bind hc hf
  modify _ _ _ := Quiet.modify fun _ => rfl
  vm _ := vm_quiet filled_vm fun _ _ => rfl
  table _ := fun _ => ⟨rfl, fun e he => by cases he⟩
  space _ := Quiet.emit fun _ h => by cases h
  freed _ _ := Quiet.emit fun _ h => by cases h

theorem run_filled (calls : List Call) : Fills (run calls) := Quiet.forEach calls (fun c _ => 
    fills_walk.step (mmStep_fills unseen_unit) (fun _ np => mapFork_fills unseen_unit np) c)

end Calls

/-- **What a fault finds of the file.**  In every run, a page of a mapped file is filled with the bytes that belong
there exactly when the file is open for reading and has the same bytes from its shared offset on, or is not and has only
zeros there. -/
theorem run_fills (s : Sys) (calls : List Call) (x : Fill) (hx : .fill x ∈ (run calls s).tr) (data : List Byte)
    (size : data.length ≤ maxFileSize) (hk : x.file.kind = .inode data size) :
    x.page = filePage data x.pos ↔
      x.file.readable = true ∧ filePage data x.file.off.toNat = filePage data x.pos ∨
        x.file.readable = false ∧ zeroPage = filePage data x.pos := by
  rw [(run_filled calls s).2 _ hx x rfl data size hk, File.filled]
  cases x.file.readable <;> simp

/-- A process whose page tables for the mapped pages exist, with a file of one byte open for reading. -/
def sampleSpace : Space := { dir := 200#20, pde := fun d => if d = 256#10 then some 201#20 else none, pte := fun _ => 0 }

def sampleFile : File := { kind := .inode [7#8] (by decide), ref := 1, readable := true, writable := true, off := 0 }

def sample : Sys :=
  { boot ⟨fun _ => zeroPage, [300#20, 301#20, 302#20, 303#20], 4, 0x80100000#32, 0x80100000#32⟩ (fun _ => sampleFile) with
    tab := { Sched.boot with proc := fun p => { Sched.unusedProc with state := if p = 0 then .running else .unused } }
    pgdir := fun p => if p = 0 then some sampleSpace else none
    ofile := fun p fd => if p = 0 ∧ fd = 3 then some 0 else none }

/-- Two pages of the file are mapped, and one is touched. -/
def mapAndTouch (va : Addr) : List Call := [.mm (.mmap 0 0 8192 protRead 0 3 0), .mm (.touch 0 va false)]

def fills (s : Sys) (calls : List Call) : List Fill :=
  (run calls s).tr.filterMap fun e => match e with | .fill x => some x | _ => none

theorem mem_fills {s : Sys} {calls : List Call} {x : Fill} (h : x ∈ fills s calls) : .fill x ∈ (run calls s).tr := by
  obtain ⟨e, he, hx⟩ := List.mem_filterMap.1 h
  cases e <;> cases hx
  exact he

def File.bytes (f : File) : Option (List Byte) := match f.kind with | .inode data _ => some data | _ => none

theorem bytes_kind {f : File} {data : List Byte} (h : f.bytes = some data) : ∃ size, f.kind = .inode data size := by
  unfold File.bytes at h
  split at h
  · rename_i d size hk
    cases h
    exact ⟨size, hk⟩
  · cases h

/-- The first page, touched first, is right. -/
theorem mapAndTouch_first : ∃ x, .fill x ∈ (run (mapAndTouch 0x40000000#32) sample).tr ∧
    x.page = filePage [7#8] x.pos := by
  have h : (fills sample (mapAndTouch 0x40000000#32)).map
      (fun x => (x.file.bytes, x.pos, x.file.off.toNat, x.file.readable)) = [(some [7#8], 0, 0, true)] := by
    decide +kernel
  obtain ⟨x, hx⟩ := List.map_eq_singleton_iff.1 h
  obtain ⟨hl, he⟩ := hx
  simp only [Prod.mk.injEq] at he
  obtain ⟨hb, hp, ho, hr⟩ := he
  obtain ⟨size, hk⟩ := bytes_kind hb
  have hm : .fill x ∈ (run (mapAndTouch 0x40000000#32) sample).tr := mem_fills (by rw [hl]; simp)
  exact ⟨x, hm, (run_fills sample _ x hm [7#8] size hk).2 (.inl ⟨hr, by rw [ho, hp]; rfl⟩)⟩

/-- The second page, touched first, holds the bytes of the first. -/
theorem mapAndTouch_second : ∃ x data size, .fill x ∈ (run (mapAndTouch 0x40001000#32) sample).tr ∧
    x.file.kind = .inode data size ∧ x.page ≠ filePage data x.pos := by
  have h : (fills sample (mapAndTouch 0x40001000#32)).map (fun x => (x.file.bytes, x.pos, x.page 0)) =
      [(some [7#8], 4096, 7#8)] := by decide +kernel
  obtain ⟨x, hl, he⟩ := List.map_eq_singleton_iff.1 h
  simp only [Prod.mk.injEq] at he
  obtain ⟨hb, hp, h0⟩ := he
  obtain ⟨size, hk⟩ := bytes_kind hb
  refine ⟨x, [7#8], size, mem_fills (by rw [hl]; simp), hk, fun hpage => ?_⟩
  rw [hpage, hp] at h0
  exact absurd h0 (by decide)

end Vm
end Xv6
