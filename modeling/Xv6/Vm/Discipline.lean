import Xv6.Vm.Fds
/-!
# Vm.Discipline — the four paths end without the lock

`Vm.Lock` says what a path does to `mtable.lock` as far as it comes.  Here it comes to its end: where `mmap` finds an
entry, the file is open, the pages are not there and there is memory for them, and `kfree` takes the frames that are given
up.  `map_fork` comes to its end for a process without areas only.
-/
namespace Xv6
namespace Vm

open Mem
open Prog (wp)
open Sched (nproc)

variable {s t : Sys} {p np : Fin nproc} {i : Fin nmaps} {f : FileRef} {addr length prot flags fd offset : Word}

/-! ## The paths -/

inductive LockCall where
  | mmap (p : Fin nproc) (addr length prot flags fd offset : Word)
  | munmap (p : Fin nproc) (addr : Addr)
  | fault (p : Fin nproc) (addr : Addr) (io : Word)
  | mapFork (p np : Fin nproc)

def LockCall.body : LockCall → M Unit
  | .mmap p addr length prot flags fd offset => do let _ ← Vm.mmap p addr length prot flags fd offset
  | .munmap p addr                           => do let _ ← Vm.munmap p addr
  | .fault p addr io                         => do let _ ← pageFaultHandler p addr io
  | .mapFork p np                            => Vm.mapFork p np

/-- The lock is used as it should be: the path comes to its end, where the lock is released, and `fileread` is called
without it. -/
def Disciplined (c : LockCall) (s : Sys) : Prop :=
  wp c.body (fun _ t => t.locked = false) (fun _ => False) s ∧ ∀ e ∈ (c.body s).tr, Calm e

/-- `f` points to a file that is open. -/
def OpenFile (s : Sys) (f : FileRef) : Prop := ∃ j, f = .file j ∧ (s.file j).kind ≠ .none

/-- What `mmap` needs for an area: an entry, a pointer that leads somewhere in `ofile[fd]` where it follows one, and for
the pages of a populated area, unless the file does not permit it, an open file, memory, and that they are not there. -/
structure Mappable (s : Sys) (p : Fin nproc) (addr length prot flags fd : Word) : Prop where
  free  : s.free.isSome = true
  file  : opensFile flags → (s.permits p (s.ofileAt p fd) prot).isSome = true
  pages : flags &&& mapPopulate ≠ 0 → (opensFile flags → s.permits p (s.ofileAt p fd) prot = some true) →
    (opensFile flags → OpenFile s (s.ofileAt p fd)) ∧ (length = 0 ∨ Supplied s p (pageNums (addr + mmapBase) length))

/-- What `munmap` needs for the pages of the area `a`: `kfree` takes the frame of each that is there. -/
def Unmappable (s : Sys) (p : Fin nproc) (a : Area) : Prop :=
  ∃ g, s.pgdir p = some g ∧ ∀ n ∈ a.nums, g.mapped n = true → s.phys.kfrees (g.frame n) = true

/-- What a fault at `va` needs that the area `a` grants: a frame, an open file if it has one, and that the page is not
there. -/
structure Faultable (s : Sys) (p : Fin nproc) (va : Addr) (a : Area) : Prop where
  frame : s.phys.freelist ≠ []
  file  : a.f = .null ∨ OpenFile s a.f
  page  : ∃ g, s.pgdir p = some g ∧ g.mapped (pageNum va) = false

/-- **The condition.** -/
def LockCall.Meets (s : Sys) : LockCall → Prop
  | .mmap p addr length prot flags fd offset => validArgs addr length prot flags fd offset = true →
      s.clash p addr = false → Mappable s p addr length prot flags fd
  | .munmap p addr => ∀ i, s.findArea (Area.reaches p (addr + mmapBase)) = some i → Unmappable s p (s.maps i)
  | .fault p addr io => ∀ i, s.findArea (Area.faults p (pgRoundDown addr)) = some i → (s.maps i).prot.slt io = false →
      Faultable s p (pgRoundDown addr) (s.maps i)
  | .mapFork p _ => ∀ i, (s.maps i).ownedBy p = false

/-! ## A page that there is memory for -/

/-- A page has been taken for `n`, which is not there, and there is memory for the pages `l`. -/
def Paged (s : Sys) (p : Fin nproc) (n : Frame) (l : List Frame) : Prop :=
  ∃ g, s.pgdir p = some g ∧ (∀ m ∈ n :: l, g.mapped m = false) ∧
    l.length + (g.missing (n :: l)).card ≤ s.phys.freelist.length

variable {n : Frame} {l : List Frame}

theorem Supplied.zeroedPage (h : Supplied s p (n :: l)) :
    wp zeroedPage (fun _ t => Paged t p n l ∧ t.file = s.file) (fun _ => False) s := by
  obtain ⟨g, hg, hno, hroom⟩ := h
  rw [List.length_cons] at hroom
  refine zeroedPage_takes (fun hl => ?_) fun f fs hl => ⟨⟨g, hg, hno, ?_⟩, rfl⟩
  · rw [hl, List.length_nil] at hroom
    omega
  · rw [hl, List.length_cons] at hroom
    show _ ≤ fs.length
    omega

theorem Paged.congr (h : Paged s p n l) (hg : t.pgdir = s.pgdir) (hl : t.phys.freelist = s.phys.freelist) :
    Paged t p n l := by
  unfold Paged
  rw [hg, hl]
  exact h

theorem Paged.mapPage {va : Addr} (h : Paged s p (pageNum va) l) (ha : pgRoundDown va = va) (hne : pageNum va ∉ l)
    (page : Frame) (perm : Pte) :
    wp (mapPage p va page perm) (fun _ t => Supplied t p l ∧ t.file = s.file) (fun _ => False) s := by
  obtain ⟨g, hg, hno, hroom⟩ := h
  have htable : (g.pde (dirIx (pageNum va))).isSome = true ∨ s.phys.freelist ≠ [] := by
    by_cases hd : (g.pde (dirIx (pageNum va))).isSome = true
    · exact .inl hd
    · refine .inr fun hnil => ?_
      have hpos := Finset.card_pos.2 ⟨_, missing_head (l := l) hd⟩
      rw [hnil, List.length_nil] at hroom
      omega
  unfold Vm.mapPage
  rw [Prog.wp_bind]
  refine Prog.wp_of_run (follow_run hg) ?_
  rw [Prog.wp_bind, mm_wp]
  refine (mappages_placed ha (hno _ List.mem_cons_self) htable).imp fun r k ⟨_, hr⟩ => ?_
  obtain ⟨_, g'⟩ := r
  rw [Prog.wp_modify]
  have hcount := missing_placed (l := l) hr
  have hfree := hr.free
  dsimp only at hcount hfree
  refine ⟨⟨g', if_pos rfl, fun m hm => ?_, ?_⟩, rfl⟩
  · rw [(hr.other m fun e => hne (e ▸ hm)).1]
    exact hno m (List.mem_cons_of_mem _ hm)
  · show _ ≤ k.freelist.length
    omega

/-- **A loop over pages** ends, where one turn leaves the rest what it needs. -/
theorem supplied_forEach {body : Nat → M Unit} {I : Sys → Prop} {pg : Nat → Frame}
    (hturn : ∀ n l s, pg n ∉ l → Supplied s p (pg n :: l) → I s →
      wp (body n) (fun _ t => Supplied t p l ∧ I t) (fun _ => False) s) : ∀ (rest : List Nat) (s : Sys),
    (rest.map pg).Nodup → Supplied s p (rest.map pg) → I s → wp (Prog.forEach rest body) (fun _ _ => True) (fun _ => False) s
  | [], _, _, _, _          => trivial
  | n :: rest, s, hnd, hs, hI => by
    rw [List.map_cons, List.nodup_cons] at hnd
    rw [Prog.forEach_cons, Prog.wp_bind]
    exact (hturn n _ s hnd.1 hs hI).imp fun _ t ht => supplied_forEach hturn rest t hnd.2 ht.1 ht.2

theorem mapPage_absent {g : Space} {va : Addr} (hg : s.pgdir p = some g) (hm : g.mapped (pageNum va) = false)
    (ha : pgRoundDown va = va) (page : Frame) (perm : Pte) :
    wp (mapPage p va page perm) (fun _ t => t.locked = s.locked) (fun _ => False) s := by
  unfold mapPage
  rw [Prog.wp_bind]
  refine Prog.wp_of_run (follow_run hg) ?_
  rw [Prog.wp_bind, mm_wp]
  exact mappages_wp ha (fun _ _ _ _ _ => rfl) (fun h => Bool.false_ne_true (hm.symm.trans h)) fun _ _ _ _ _ => rfl

/-! ## An open file -/

theorem OpenFile.congr (h : OpenFile s f) (hf : t.file = s.file) : OpenFile t f := by
  unfold OpenFile
  rw [hf]
  exact h

theorem OpenFile.setFile {j : Nat} {fl : File} (h : fl.kind ≠ .none) : OpenFile (s.setFile j fl) (.file j) := by
  have hj : (s.setFile j fl).file j = fl := if_pos rfl
  exact ⟨j, rfl, hj.symm ▸ h⟩

/-- The file stays open, and nothing else that a mapping call goes by is changed. -/
structure Reading (s : Sys) (f : FileRef) (t : Sys) : Prop where
  file     : OpenFile t f
  pgdir    : t.pgdir = s.pgdir
  freelist : t.phys.freelist = s.phys.freelist
  locked   : t.locked = s.locked

theorem fileread_open (h : OpenFile s f) (n : Word) :
    wp (fileread p f n) (fun _ t => Reading s f t) (fun _ => False) s := by
  obtain ⟨j, rfl, hk⟩ := h
  unfold fileread
  rw [Prog.wp_bind, Prog.wp_read]
  refine Prog.wp_ite (fun _ => ⟨⟨j, rfl, hk⟩, rfl, rfl, rfl⟩) fun _ => ?_
  cases hkind : (s.file j).kind with
  | none => exact absurd hkind hk
  | pipe q => exact ⟨.setFile nofun, rfl, rfl, rfl⟩
  | inode data size => exact ⟨.setFile nofun, rfl, rfl, rfl⟩
  | dev q => exact ⟨.setFile nofun, rfl, rfl, rfl⟩

theorem readPage_open (h : OpenFile s f) (page : Frame) :
    wp (readPage p f page) (fun _ t => Reading s f t) (fun _ => False) s := by
  unfold readPage
  rw [Prog.wp_bind, Prog.wp_read, Prog.wp_bind, Prog.wp_emit, Prog.wp_bind]
  refine (fileread_open h pgsize).imp fun o t ht => ?_
  cases o with
  | none => exact ht
  | some bytes => exact ⟨ht.file.congr rfl, ht.pgdir, ht.freelist, ht.locked⟩

theorem setOff_open (h : OpenFile s f) (off : Word) :
    wp (setOff p f off) (fun _ t => Reading s f t) (fun _ => False) s := by
  obtain ⟨j, rfl, hk⟩ := h
  have hset : OpenFile (s.setFile j { s.file j with off := off }) (.file j) := .setFile hk
  exact ⟨hset, rfl, rfl, rfl⟩

/-! ## mmap -/

/-- The pages of the area `a` are whole ones, not there, and there is memory for them. -/
structure Fillable (s : Sys) (p : Fin nproc) (a : Area) : Prop where
  aligned : a.addr.toNat % 4096 = 0
  npages  : a.npages = a.length.toNat / 4096
  pages   : a.length = 0 ∨ Supplied s p a.nums

variable {a : Area}

theorem Fillable.forEach {body : Nat → M Unit} {I : Sys → Prop} (h : Fillable s p a) (hI : I s)
    (hturn : ∀ n l s, pageNum (a.page n) ∉ l → Supplied s p (pageNum (a.page n) :: l) → I s →
      wp (body n) (fun _ t => Supplied t p l ∧ I t) (fun _ => False) s) :
    wp (Prog.forEach (List.range a.npages) body) (fun _ _ => True) (fun _ => False) s := by
  rcases h.pages with hz | hs
  · have h0 : a.npages = 0 := by rw [h.npages, hz]; rfl
    rw [h0]
    trivial
  · refine supplied_forEach hturn (List.range a.npages) s ?_ hs hI
    refine List.nodup_range.map_on fun m hm n hn hmn => page_inj h.aligned ?_ ?_ hmn
    all_goals
      rw [List.mem_range, h.npages] at *
      have := a.length.isLt
      omega

theorem mapPopulateAnonymous_returns (hi : s.maps i = a) (h : Fillable s p a) :
    wp (mapPopulateAnonymous p i) (fun _ _ => True) (fun _ => False) s := by
  unfold mapPopulateAnonymous
  rw [Prog.wp_bind, Prog.wp_read, hi]
  refine h.forEach (I := fun _ => True) trivial fun n l s hne hs _ => ?_
  rw [Prog.wp_bind]
  refine hs.zeroedPage.imp fun page u hu => ?_
  exact (hu.1.mapPage (aligned_page h.aligned n) hne page _).imp fun _ t ht => ⟨ht.1, trivial⟩

theorem mapPopulateFile_returns (hi : s.maps i = a) (h : Fillable s p a) (hf : OpenFile s a.f) :
    wp (mapPopulateFile p i) (fun _ _ => True) (fun _ => False) s := by
  unfold mapPopulateFile
  rw [Prog.wp_bind, Prog.wp_read, hi]
  refine h.forEach (I := fun t => OpenFile t a.f) hf fun n l s hne hs hI => ?_
  rw [Prog.wp_bind]
  refine hs.zeroedPage.imp fun page u hu => ?_
  rw [Prog.wp_bind]
  refine (readPage_open (hI.congr hu.2) page).imp fun _ v hv => ?_
  rw [Prog.wp_bind]
  refine (setOff_open hv.file a.offset).imp fun _ w hw => ?_
  have hpaged := (hu.1.congr hv.pgdir hv.freelist).congr hw.pgdir hw.freelist
  exact (hpaged.mapPage (aligned_page h.aligned n) hne page _).imp fun _ t ht => ⟨ht.1, hw.file.congr ht.2⟩

theorem fillable_made (hv : validArgs addr length prot flags fd offset = true) (ha : a.addr = addr + mmapBase)
    (hlen : a.length = length) (h : length = 0 ∨ Supplied s p (pageNums (addr + mmapBase) length)) : Fillable s p a := by
  subst hlen
  have hn := npages_eq (validArgs_small hv)
  have hnums : a.nums = pageNums (addr + mmapBase) a.length := by
    unfold Area.nums pageNums Area.page
    rw [hn, ha]
  refine ⟨?_, hn, hnums ▸ h⟩
  have hal := (validArgs_valid hv).aligned
  rw [ha, BitVec.toNat_add]
  show (addr.toNat + 1073741824) % 4294967296 % 4096 = 0
  omega

/-- **`mmap` comes to its end.** -/
theorem Mappable.returns (h : Mappable s p addr length prot flags fd) (hl : s.locked = false)
    (hv : validArgs addr length prot flags fd offset = true) (hc : s.clash p addr = false) :
    wp (mmap p addr length prot flags fd offset) (fun _ _ => True) (fun _ => False) s := by
  obtain ⟨i, hi⟩ := Option.isSome_iff_exists.1 h.free
  obtain ⟨u, hu⟩ : ∃ u, u = s.setArea i ((s.maps i).init p addr length prot flags) := ⟨_, rfl⟩
  have hui : u.maps i = (s.maps i).init p addr length prot flags := by rw [hu, setArea_maps]
  have hpermits : u.permits p (u.ofileAt p fd) (u.maps i).prot = s.permits p (s.ofileAt p fd) prot := by
    rw [hui, hu]
    rfl
  unfold wp
  rw [mmap_made hv hl hc hi, ← hu]
  change wp (do Prog.emit (.made p i); mapArea p i addr flags fd offset : M Addr) (fun _ _ => True) (fun _ => False) u
  rw [Prog.wp_bind, Prog.wp_emit]
  by_cases ho : opensFile flags
  · obtain ⟨b, hb⟩ := Option.isSome_iff_exists.1 (h.file ho)
    cases b with
    | false => exact Prog.wp_of_run (mapArea_refused ho (hpermits.trans hb)) trivial
    | true =>
      have hopen : openArea p i fd offset u = ⟨.ok true, u.opened p i (u.ofileAt p fd) offset true, []⟩ :=
        openArea_run (hpermits.trans hb)
      unfold mapArea
      by_cases hpop : flags &&& mapPopulate ≠ 0
      · obtain ⟨hfile, hroom⟩ := h.pages hpop fun _ => hb
        obtain ⟨j, hj, hk⟩ := hfile ho
        have huj : u.ofileAt p fd = .file j := by rw [hu]; exact hj
        rw [if_pos hpop, if_neg (not_not.2 (ho.resolve_left hpop)), Prog.wp_bind]
        refine Prog.wp_of_run hopen ?_
        rw [if_pos rfl, Prog.wp_bind, huj]
        have hsame : (u.opened p i (.file j) offset true).maps i =
            ((s.maps i).init p addr length prot flags).opened (.file j) offset true := by
          unfold Sys.opened
          rw [setArea_maps, hui]
        have hnow : OpenFile (u.opened p i (.file j) offset true) (.file j) := by
          have hset : OpenFile (s.setFile j { s.file j with off := offset }) (.file j) := .setFile hk
          rw [hu]
          exact hset.congr rfl
        have hfill := fillable_made (s := s) (a := ((s.maps i).init p addr length prot flags).opened (.file j) offset true)
          hv rfl rfl hroom
        refine (mapPopulateFile_returns hsame ⟨hfill.aligned, hfill.npages, ?_⟩ hnow).imp fun _ _ _ => trivial
        rw [hu]
        exact hfill.pages
      · rw [if_neg hpop, Prog.wp_bind]
        exact Prog.wp_of_run hopen trivial
  · obtain ⟨hpop, hanon⟩ := not_or.1 ho
    have hfill := fillable_made (s := s) (a := (s.maps i).init p addr length prot flags) hv rfl rfl
      (h.pages hpop fun hof => absurd hof ho).2
    unfold mapArea
    rw [if_pos hpop, if_pos hanon, Prog.wp_bind]
    refine (mapPopulateAnonymous_returns hui ⟨hfill.aligned, hfill.npages, ?_⟩).imp fun _ _ _ => trivial
    rw [hu]
    exact hfill.pages

/-! ## munmap -/

/-- **A page is given up**, or is not there; `kfree` takes the others as before. -/
theorem Unmappable.unmapPage {va : Addr} (h : Unmappable s p a) (hva : pageNum va ∈ a.nums) :
    wp (unmapPage p va) (fun _ t => t.locked = s.locked ∧ Unmappable t p a) (fun _ => False) s := by
  obtain ⟨g, hg, hk⟩ := h
  cases hm : g.mapped (pageNum va) with
  | false => exact Prog.wp_of_run ((unmapPage_run hg).trans (if_neg (ne_true_of_eq_false hm))) ⟨rfl, g, hg, hk⟩
  | true =>
    obtain ⟨t, tr, hdrop, hu⟩ := dropPage_run (p := p) (hk _ hva hm)
    have hrun : Vm.unmapPage p va s = ⟨.ok (), t, .mm (.walk va) :: tr⟩ := by rw [unmapPage_run hg, if_pos hm, hdrop]
    refine Prog.wp_of_run hrun ⟨hu.locked, g.drop [pageNum va], ?_, fun n hn hmn => ?_⟩
    · rw [hu.pgdir]
      exact if_pos rfl
    · have hne : n ∉ [pageNum va] := fun he => by
        rw [List.mem_singleton.1 he, mapped_drop List.mem_cons_self] at hmn
        cases hmn
      rw [mapped_drop_not hne] at hmn
      rw [frame_drop_not hne, kfrees_congr hu.kend]
      exact hk n hn hmn

/-- **`munmap` comes to its end.** -/
theorem Unmappable.returns (h : Unmappable s p (s.maps i)) (hl : s.locked = false)
    (hi : s.findArea (Area.reaches p (addr + mmapBase)) = some i) :
    wp (munmap p addr) (fun _ _ => True) (fun _ => False) s := by
  unfold wp
  rw [munmap_some hl hi]
  change wp (do Prog.emit (.unmap p (addr + mmapBase) s.maps); unmapArea p i : M Int)
    (fun _ _ => True) (fun _ => False) s.lock
  unfold unmapArea
  rw [Prog.wp_bind, Prog.wp_emit, Prog.wp_bind, Prog.wp_read, Prog.wp_bind]
  have hloop : Unmappable s.lock p (s.maps i) := h
  refine (Prog.wp_forEach (I := fun t => t.locked = true ∧ Unmappable t p (s.maps i)) _ s.lock ⟨rfl, hloop⟩
    fun n hn t ht => ?_).imp fun _ t ht => ?_
  · exact (ht.2.unmapPage (List.mem_map_of_mem hn)).imp fun _ u hu => ⟨hu.1.trans ht.1, hu.2⟩
  · rw [Prog.wp_bind, Prog.wp_modify, Prog.wp_bind]
    exact Prog.wp_of_run (release_run ht.1) trivial

/-! ## The page fault -/

/-- **The page fault comes to its end.** -/
theorem Faultable.returns {io : Word} (h : Faultable s p (pgRoundDown addr) (s.maps i)) (hl : s.locked = false)
    (hi : s.findArea (Area.faults p (pgRoundDown addr)) = some i) (hio : (s.maps i).prot.slt io = false) :
    wp (pageFaultHandler p addr io) (fun _ _ => True) (fun _ => False) s := by
  obtain ⟨hfree, hfile, g, hg, hm⟩ := h
  have halign : pgRoundDown (pgRoundDown addr) = pgRoundDown addr := by
    rw [pgRoundDown_eq_self, toNat_pgRoundDown]
    omega
  have hi' : s.lock.findArea (Area.faults p (pgRoundDown addr)) = some i := hi
  unfold pageFaultHandler
  dsimp only
  rw [Prog.wp_bind]
  refine Prog.wp_of_run (acquire_run hl) ?_
  rw [Prog.wp_bind, Prog.wp_read, hi']
  dsimp only
  rw [Prog.wp_bind, Prog.wp_read, if_neg (show ¬ (s.lock.maps i).prot.slt io = true from ne_true_of_eq_false hio)]
  have hpage : wp zeroedPage (fun _ t => t.locked = true ∧ t.pgdir = s.pgdir ∧ t.file = s.file) (fun _ => False) s.lock :=
    zeroedPage_takes hfree fun _ _ _ => ⟨rfl, rfl, rfl⟩
  have hmap : ∀ (t : Sys) (page : Frame) (perm : Pte), t.pgdir = s.pgdir → t.locked = true →
      wp (do mapPage p (pgRoundDown addr) page perm; release; pure (1 : Int) : M Int) (fun _ _ => True)
        (fun _ => False) t := by
    intro t page perm hgt hlt
    rw [Prog.wp_bind]
    refine (mapPage_absent (by rw [hgt]; exact hg) hm halign page perm).imp fun _ u hu => ?_
    rw [Prog.wp_bind]
    exact Prog.wp_of_run (release_run (hu.trans hlt)) trivial
  have hlm : s.lock.maps i = s.maps i := rfl
  rw [hlm]
  rcases hfile with hf | ⟨j, hf, hk⟩
  · rw [hf]
    dsimp only
    rw [Prog.wp_bind]
    exact hpage.imp fun page t ht => hmap t page _ ht.2.1 ht.1
  · rw [hf]
    dsimp only
    rw [Prog.wp_bind]
    refine hpage.imp fun page t ⟨htl, htg, htf⟩ => ?_
    rw [Prog.wp_bind]
    refine Prog.wp_of_run (release_run htl) ?_
    rw [Prog.wp_bind, Prog.wp_get, Prog.wp_bind]
    have hopen : OpenFile t.unlock (.file j) := OpenFile.congr (s := s) ⟨j, rfl, hk⟩ htf
    refine (readPage_open hopen page).imp fun _ u hu => ?_
    rw [Prog.wp_bind, Prog.wp_read, Prog.wp_bind, Prog.wp_emit, Prog.wp_bind]
    refine (setOff_open hu.file _).imp fun _ v hv => ?_
    rw [Prog.wp_bind]
    exact Prog.wp_of_run (acquire_run ((hv.locked.trans hu.locked).trans rfl))
      (hmap v.lock page _ ((hv.pgdir.trans hu.pgdir).trans htg) rfl)

/-! ## The four paths -/

theorem Locks.ends {c : M Unit} (h : Locks false false c) (hl : s.locked = false)
    (hr : wp c (fun _ _ => True) (fun _ => False) s) :
    wp c (fun _ t => t.locked = false) (fun _ => False) s ∧ ∀ e ∈ (c s).tr, Calm e :=
  ⟨(hr.and (h s hl).1).imp fun _ _ ht => ht.2, (h s hl).2⟩

theorem LockCall.Meets.disciplined {c : LockCall} (h : c.Meets s) (hl : s.locked = false) : Disciplined c s := by
  cases c with
  | mmap p addr length prot flags fd offset =>
    refine Locks.ends (Locks.bind (Locks.mmap addr length prot flags fd offset) fun _ => Locks.pure ()) hl ?_
    suffices wp (Vm.mmap p addr length prot flags fd offset) (fun _ _ => True) (fun _ => False) s from Prog.wp_bind.2 this
    cases hv : validArgs addr length prot flags fd offset with
    | false => exact Prog.wp_of_run (mmap_invalid hv) trivial
    | true =>
      cases hc : s.clash p addr with
      | true => exact Prog.wp_of_run (mmap_clash hv hl hc) trivial
      | false => exact (h hv hc).returns hl hv hc
  | munmap p addr =>
    refine Locks.ends (Locks.bind (Locks.munmap addr) fun _ => Locks.pure ()) hl ?_
    suffices wp (Vm.munmap p addr) (fun _ _ => True) (fun _ => False) s from Prog.wp_bind.2 this
    cases hi : s.findArea (Area.reaches p (addr + mmapBase)) with
    | none => exact Prog.wp_of_run (munmap_none hl hi) trivial
    | some i => exact (h i hi).returns hl hi
  | fault p addr io =>
    refine Locks.ends (Locks.bind (Locks.pageFaultHandler addr io) fun _ => Locks.pure ()) hl ?_
    suffices wp (pageFaultHandler p addr io) (fun _ _ => True) (fun _ => False) s from Prog.wp_bind.2 this
    by_cases href : ∀ i, s.findArea (Area.faults p (pgRoundDown addr)) = some i → (s.maps i).prot.slt io = true
    · exact Prog.wp_of_run (pageFaultHandler_refuses hl href) trivial
    · push Not at href
      obtain ⟨i, hi, hio⟩ := href
      have hio := Bool.eq_false_iff.2 hio
      exact (h i hi hio).returns hl hi hio
  | mapFork p np =>
    have hrun : (LockCall.mapFork p np).body s = ⟨.ok (), s, []⟩ := mapFork_none hl h
    unfold Disciplined
    rw [hrun]
    exact ⟨Prog.wp_of_run hrun hl, nofun⟩

def halfFilled : Sys := (run (mapAndTouch 0x40000000#32) sample).st

/-- Another page of the file is mapped and filled at once, the area is unmapped, its second page is touched, and and
a process without areas forks. -/
def lockCalls : List LockCall :=
  [.mmap 0 0x2000#32 4096 protRead mapPopulate 3 0, .munmap 0 0, .fault 0 0x40001000#32 1, .mapFork 1 2]

theorem halfFilled_meets : ∀ c ∈ lockCalls, c.Meets halfFilled := by
  obtain ⟨t, ht⟩ : ∃ t, t = halfFilled := ⟨_, rfl⟩
  rw [← ht]
  have hfile : OpenFile t (.file 0) := by
    have hb : (t.file 0).bytes = some [7#8] := by rw [ht]; decide +kernel
    obtain ⟨size, hk⟩ := bytes_kind hb
    exact ⟨0, rfl, by rw [hk]; nofun⟩
  intro c hc
  simp only [lockCalls, List.mem_cons, List.not_mem_nil, or_false] at hc
  rcases hc with rfl | rfl | rfl | rfl
  · have hfd : t.ofileAt 0 3 = .file 0 := by rw [ht]; decide +kernel
    have hp : (t.pgdir 0).map (fun g => (pageNums (0x2000#32 + mmapBase) 4096).all (fun n => !g.mapped n) &&
        decide ((pageNums (0x2000#32 + mmapBase) 4096).length + (g.missing (pageNums (0x2000#32 + mmapBase) 4096)).card ≤
          t.phys.freelist.length)) = some true := by rw [ht]; decide +kernel
    obtain ⟨g, hg, hroom⟩ := Option.map_eq_some_iff.1 hp
    rw [Bool.and_eq_true, decide_eq_true_eq, List.all_eq_true] at hroom
    refine fun _ _ => ⟨by rw [ht]; decide +kernel, fun _ => by rw [ht]; decide +kernel, fun _ _ =>
      ⟨fun _ => hfd ▸ hfile, .inr ⟨g, hg, fun n hn => ?_, hroom.2⟩⟩⟩
    simpa using hroom.1 n hn
  · intro i hi
    have h0 : t.findArea (Area.reaches 0 (0 + mmapBase)) = some 0 := by rw [ht]; decide +kernel
    obtain rfl := Option.some.inj (h0.symm.trans hi)
    have hp : (t.pgdir 0).map (fun g => (t.maps 0).nums.all fun n => !g.mapped n || t.phys.kfrees (g.frame n)) =
      some true := by
      rw [ht]; decide +kernel
    obtain ⟨g, hg, hall⟩ := Option.map_eq_some_iff.1 hp
    refine ⟨g, hg, fun n hn hm => ?_⟩
    have := List.all_eq_true.1 hall n hn
    rwa [hm, Bool.not_true, Bool.false_or] at this
  · intro i hi _
    have h0 : t.findArea (Area.faults 0 (pgRoundDown 0x40001000#32)) = some 0 := by rw [ht]; decide +kernel
    obtain rfl := Option.some.inj (h0.symm.trans hi)
    have hf : (t.maps 0).f = .file 0 := by rw [ht]; decide +kernel
    have hp : (t.pgdir 0).map (fun g => g.mapped (pageNum (pgRoundDown 0x40001000#32))) = some false := by
      rw [ht]; decide +kernel
    obtain ⟨g, hg, hm⟩ := Option.map_eq_some_iff.1 hp
    exact ⟨by rw [ht]; decide +kernel, .inr (hf ▸ hfile), g, hg, hm⟩
  · intro i
    rw [ht]
    revert i
    decide +kernel

def mapOne : List Call := [.mm (.mmap 0 0 8192 protRead 0 3 0)]

end Vm
end Xv6
