import Xv6.Vm.Drawn
import Xv6.Vm.Undo
/-!
# Vm.Populate — the pages that MAP_POPULATE fills

`map_populate` reads one page after the other at the file's offset, and sets the offset back to that of the mapping
each time, so that every page is filled with the bytes of the first.
-/
namespace Xv6
namespace Vm

open Mem
open Prog (wp)
open Sched (nproc)

def Area.perm (a : Area) : Pte := (if a.prot &&& protWrite ≠ 0 then pteW else 0) ||| pteU

variable {s t : Sys} {p : Fin nproc} {E : Stop → Prop}

/-! ## One page -/

theorem zeroedPage_takes {Q : Frame → Sys → Prop} (hn : s.phys.freelist = [] → E .wild)
    (h : ∀ f l, s.phys.freelist = f :: l → Q f { s with phys :=
      { s.phys.setPage f (fun _ => 0) with freelist := l, freemems := s.phys.freemems - 1 } }) :
    wp zeroedPage Q E s := by
  unfold zeroedPage kallocPage
  rw [Prog.wp_bind, mm_wp, Prog.wp_bind]
  refine Prog.wp_of_run (kalloc_run s.phys) ?_
  cases hl : s.phys.freelist with
  | nil => exact hn hl
  | cons f l => exact h f l hl

theorem mapPage_drawn {va : Addr} {page : Frame} {perm : Pte} (hw : E .wild) (hr : E (.panic "remap"))
    (ha : pgRoundDown va = va) {Q : Unit → Sys → Prop}
    (hfail : ∀ g k, s.pgdir p = some g → g.mapped (pageNum va) = false → Drawn s.phys k →
      Q () ({ s with phys := k }.setSpace p g))
    (hok : ∀ g g' k, s.pgdir p = some g → g'.mapped (pageNum va) = true → g'.pte (pageNum va) = mapPte page perm →
      (∀ m, m ≠ pageNum va → g'.mapped m = true → g.mapped m = true ∧ g'.pte m = g.pte m) → Drawn s.phys k →
      Q () ({ s with phys := k }.setSpace p g')) : wp (mapPage p va page perm) Q E s := by
  unfold mapPage
  rw [Prog.wp_bind]
  refine follow_wp hw fun g hg => ?_
  rw [Prog.wp_bind, mm_wp]
  have hdrawn := mappages_drawn g va pgsize (frameAddr page) perm s.phys
  have hmap : wp (mappages g va pgsize (frameAddr page) perm) (fun r _ =>
      r.2 = g ∧ g.mapped (pageNum va) = false ∨ r.2.mapped (pageNum va) = true ∧
        r.2.pte (pageNum va) = mapPte page perm ∧
        ∀ m, m ≠ pageNum va → r.2.mapped m = true → g.mapped m = true ∧ r.2.pte m = g.pte m) E s.phys := by
    refine mappages_wp ha (fun ht _ _ _ _ => .inl ⟨rfl, ?_⟩) (fun _ => hr) fun g' t hg' ht hm => .inr ⟨?_, if_pos rfl, ?_⟩
    · rw [mapped_pageNum, ht]
      rfl
    · rw [mapped_setPte, if_pos rfl, dirIx_pageNum]
      simp only [Bool.and_eq_true, decide_eq_true_eq]
      exact ⟨ht, present_mapPte page perm⟩
    · intro m hne hm'
      rw [mapped_setPte, if_neg hne] at hm'
      rw [pte_setPte hne]
      have hgm := ((hg'.mapped m).1 hm').resolve_right id
      exact ⟨hgm, hg'.pte m hgm⟩
  refine (hmap.final hdrawn).imp fun r k ⟨h, hk⟩ => ?_
  rw [Prog.wp_modify]
  rcases h with ⟨hr, hm⟩ | ⟨h1, h2, h3⟩
  · rw [hr]
    exact hfail g k hg hm hk
  · exact hok g r.2 k hg h1 h2 h3 hk

/-! ## The loop -/

theorem pageRead_seek (s : Sys) (j : Nat) (page : Frame) (data : List Byte) (off : Word) :
    (s.pageRead j page data).setFile j { (s.pageRead j page data).file j with off := off } =
      { s.setFile j { s.file j with off := off } with phys := s.phys.stored page data (s.file j).off } := by
  have hread : (s.pageRead j page data).file j = { s.file j with
    off := (s.file j).off + BitVec.ofNat 32 ((readi data (s.file j).off pgsize).getD []).length } := if_pos rfl
  rw [hread]
  unfold Sys.setFile Sys.pageRead
  congr 1
  funext i
  dsimp only
  split_ifs
  · rfl
  · rename_i hi
    exact if_neg hi

/-- The pages `done` of the area that are there are filled with the bytes of the file from the mapping's offset on, and
the file stands at that offset. -/
structure Populated (p : Fin nproc) (a : Area) (j : Nat) (data : List Byte) (perm : Pte) (done : List Nat) (s : Sys) :
    Prop where
  nodup    : s.phys.freelist.Nodup
  readable : (s.file j).readable = true
  inode    : ∃ size, (s.file j).kind = .inode data size
  off      : (s.file j).off = a.offset
  pages    : ∀ g, s.pgdir p = some g → ∀ n ∈ done, g.mapped (pageNum (a.page n)) = true →
    ∃ f, g.pte (pageNum (a.page n)) = mapPte f perm ∧ f ∉ s.phys.freelist ∧ s.phys.mem f = filePage data a.offset.toNat

variable {a : Area} {j : Nat} {data : List Byte} {perm : Pte} {done : List Nat}

theorem Populated.map (h : Populated p a j data perm done s) {n : Nat} (ha : pgRoundDown (a.page n) = a.page n) {f : Frame}
    (hf : f ∉ s.phys.freelist) (hmem : s.phys.mem f = filePage data a.offset.toNat) :
    wp (mapPage p (a.page n) f perm) (fun _ t => Populated p a j data perm (done ++ [n]) t) (fun _ => True) s := by
  refine mapPage_drawn trivial trivial ha (fun g k hg hm hk => ?_) fun g g' k hg hm hpte hrest hk => ?_
  · refine ⟨hk.nodup h.nodup, h.readable, h.inode, h.off, fun g₁ hg₁ m hm' hmap => ?_⟩
    obtain rfl : g = g₁ := Option.some.inj ((if_pos rfl).symm.trans hg₁)
    rcases List.mem_append.1 hm' with hm' | hm'
    · obtain ⟨f', hpte, hfree, hmem'⟩ := h.pages g hg m hm' hmap
      exact ⟨f', hpte, fun hin => hfree (hk.subset hin), (hk.kept hfree).trans hmem'⟩
    · rw [List.mem_singleton.1 hm', hm] at hmap
      cases hmap
  · refine ⟨hk.nodup h.nodup, h.readable, h.inode, h.off, fun g₁ hg₁ m hm' hmap => ?_⟩
    obtain rfl : g' = g₁ := Option.some.inj ((if_pos rfl).symm.trans hg₁)
    by_cases hmn : pageNum (a.page m) = pageNum (a.page n)
    · rw [hmn]
      exact ⟨f, hpte, fun hin => hf (hk.subset hin), (hk.kept hf).trans hmem⟩
    · obtain ⟨hmap', hpte'⟩ := hrest _ hmn hmap
      rcases List.mem_append.1 hm' with hm' | hm'
      · obtain ⟨f', hpte, hfree, hmem'⟩ := h.pages g hg m hm' hmap'
        exact ⟨f', hpte'.trans hpte, fun hin => hfree (hk.subset hin), (hk.kept hfree).trans hmem'⟩
      · exact absurd (by rw [List.mem_singleton.1 hm']) hmn

/-- **One turn**: `kalloc`, `fileread`, the offset set back, `mappages`. -/
theorem Populated.turn (h : Populated p a j data perm done s) {n : Nat} (ha : pgRoundDown (a.page n) = a.page n) :
    wp (do
      let page ← zeroedPage
      readPage p (.file j) page
      setOff p (.file j) a.offset
      mapPage p (a.page n) page perm : M Unit)
      (fun _ t => Populated p a j data perm (done ++ [n]) t) (fun _ => True) s := by
  obtain ⟨size, hk⟩ := h.inode
  rw [Prog.wp_bind]
  refine zeroedPage_takes (fun _ => trivial) fun f l hl => ?_
  have hnd := h.nodup
  rw [hl, List.nodup_cons] at hnd
  generalize hk₁ : ({ s.phys.setPage f (fun _ => 0) with freelist := l, freemems := s.phys.freemems - 1 } : Phys) = k₁
  have hfree : k₁.freelist = l := by rw [← hk₁]
  have hz : k₁.mem f = zeroPage := by rw [← hk₁]; exact if_pos rfl
  have hother : ∀ f', f' ≠ f → k₁.mem f' = s.phys.mem f' := fun f' hf' => by rw [← hk₁]; exact if_neg hf'
  rw [Prog.wp_bind]
  refine Prog.wp_of_run (readPage_run (s := { s with phys := k₁ }) h.readable hk) ?_
  rw [Prog.wp_bind]
  refine (Prog.wp_modify _).2 ?_
  rw [pageRead_seek]
  dsimp only
  rw [h.off]
  -- the frames of the pages filled before are others
  refine Populated.map ⟨hfree ▸ hnd.2, ?_, ⟨size, ?_⟩, ?_, fun g hg m hm hmap => ?_⟩ ha (hfree ▸ hnd.1) (stored_page size hz)
  · exact (congrArg File.readable (if_pos rfl)).trans h.readable
  · exact (congrArg File.kind (if_pos rfl)).trans hk
  · exact congrArg File.off (if_pos rfl)
  · obtain ⟨f', hpte, hnot, hmem⟩ := h.pages g hg m hm hmap
    rw [hl, List.mem_cons, not_or] at hnot
    exact ⟨f', hpte, hfree ▸ hnot.2, (if_neg hnot.1).trans ((hother f' hnot.1).trans hmem)⟩

/-! ## The call -/

theorem mapPopulateFile_bytes {i : Fin nmaps} (hf : (s.maps i).f = .file j)
    (ha : ∀ n, pgRoundDown ((s.maps i).page n) = (s.maps i).page n)
    (h : Populated p (s.maps i) j data (s.maps i).perm [] s) : wp (mapPopulateFile p i)
      (fun _ t => Populated p (s.maps i) j data (s.maps i).perm (List.range (s.maps i).npages) t) (fun _ => True) s := by
  unfold mapPopulateFile
  rw [Prog.wp_bind, Prog.wp_read]
  dsimp only
  rw [hf]
  have hrange := Prog.wp_forEach_done (E := fun _ => True) (I := Populated p (s.maps i) j data (s.maps i).perm)
    (List.range (s.maps i).npages) [] s h fun done n _ t ht => ht.turn (ha n)
  exact hrange

theorem openArea_populated {i : Fin nmaps} {fd offset : Word} {size : data.length ≤ maxFileSize}
    (hnd : s.phys.freelist.Nodup) (hfd : s.ofileAt p fd = .file j) (hr : (s.file j).readable = true)
    (hk : (s.file j).kind = .inode data size) : wp (openArea p i fd offset) (fun b t => b = true →
      t.maps i = { s.maps i with f := .file j, offset := offset } ∧
        Populated p { s.maps i with f := .file j, offset := offset } j data (s.maps i).perm [] t) (fun _ => True) s := by
  unfold openArea
  rw [Prog.wp_bind, Prog.wp_modify, Prog.wp_bind, Prog.wp_read, setArea_maps, hfd, Prog.wp_bind]
  refine (Prog.wp_modify _).2 ?_
  rw [Prog.wp_bind]
  refine (compareProt_wp trivial).imp fun b t hb => ?_
  obtain ⟨rfl, -⟩ := hb
  cases b with
  | false => exact nofun
  | true =>
    refine fun _ => ⟨if_pos rfl, hnd, ?_, ⟨size, ?_⟩, ?_, fun _ _ _ hn => by cases hn⟩
    · exact (congrArg File.readable (if_pos rfl)).trans hr
    · exact (congrArg File.kind (if_pos rfl)).trans hk
    · exact congrArg File.off (if_pos rfl)

section Mmap

variable {addr length prot flags fd offset : Word} {r : Addr}

theorem mmap_ok (hr : r ≠ 0) (h : (mmap p addr length prot flags fd offset s).res = .ok r) :
    validArgs addr length prot flags fd offset = true ∧ s.locked = false ∧ s.clash p addr = false ∧
      ∃ i, s.free = some i := by
  cases hv : validArgs addr length prot flags fd offset with
  | false =>
    rw [mmap_invalid hv] at h
    exact absurd (Except.ok.inj h).symm hr
  | true =>
    cases hl : s.locked with
    | true =>
      rw [mmap_locked hv hl] at h
      cases h
    | false =>
      cases hc : s.clash p addr with
      | true =>
        rw [mmap_clash hv hl hc] at h
        exact absurd (Except.ok.inj h).symm hr
      | false =>
        cases hi : s.free with
        | none =>
          rw [mmap_full hv hl hc hi] at h
          cases h
        | some i => exact ⟨rfl, rfl, rfl, i, rfl⟩

def Area.filed (p : Fin nproc) (addr length prot flags : Word) (j : Nat) (offset : Word) : Area :=
  ⟨.file j, addr + mmapBase, length, offset, prot, flags, some p, .using⟩

theorem aligned_page {a : Area} (h : a.addr.toNat % 4096 = 0) (n : Nat) : pgRoundDown (a.page n) = a.page n := by
  rw [pgRoundDown_eq_self]
  unfold Area.page pgsize
  rw [BitVec.toNat_add, BitVec.toNat_mul]
  simp only [BitVec.toNat_ofNat]
  omega

theorem mmap_populated {size : data.length ≤ maxFileSize} (hnd : s.phys.freelist.Nodup) (hpop : flags &&& mapPopulate ≠ 0)
    (hanon : flags &&& mapAnonymous = 0) (hfd : s.ofileAt p fd = .file j) (hread : (s.file j).readable = true)
    (hk : (s.file j).kind = .inode data size) (hr : r ≠ 0) (h : (mmap p addr length prot flags fd offset s).res = .ok r) :
    r = addr + mmapBase ∧ Populated p (.filed p addr length prot flags j offset) j data
      (Area.filed p addr length prot flags j offset).perm
      (List.range (Area.filed p addr length prot flags j offset).npages) (mmap p addr length prot flags fd offset s).st := by
  obtain ⟨hv, hl, hc, i, hi⟩ := mmap_ok hr h
  have hal := (validArgs_valid hv).aligned
  rw [mmap_made hv hl hc hi] at h ⊢
  have hwp : wp (do Prog.emit (.made p i); mapArea p i addr flags fd offset : M Addr)
      (fun a t => a ≠ 0 → a = addr + mmapBase ∧ Populated p (.filed p addr length prot flags j offset) j data
        (Area.filed p addr length prot flags j offset).perm
        (List.range (Area.filed p addr length prot flags j offset).npages) t) (fun _ => True)
      (s.setArea i ((s.maps i).init p addr length prot flags)) := by
    unfold mapArea
    rw [Prog.wp_bind, Prog.wp_emit, if_pos hpop, if_neg (not_not.2 hanon), Prog.wp_bind]
    refine (openArea_populated (s := s.setArea i _) hnd hfd hread hk).imp fun b t hb => ?_
    cases b with
    | false => exact fun hne => absurd rfl hne
    | true =>
      obtain ⟨harea, hpopd⟩ := hb rfl
      rw [setArea_maps] at harea hpopd
      have hfiled : t.maps i = .filed p addr length prot flags j offset := harea
      rw [if_pos rfl, Prog.wp_bind]
      have halign : ∀ n, pgRoundDown ((t.maps i).page n) = (t.maps i).page n := by
        refine aligned_page ?_
        rw [hfiled]
        show (addr + mmapBase).toNat % 4096 = 0
        rw [BitVec.toNat_add]
        show (addr.toNat + 1073741824) % 4294967296 % 4096 = 0
        omega
      have hnone : Populated p (t.maps i) j data (t.maps i).perm [] t := by
        rw [hfiled]
        exact hpopd
      refine (mapPopulateFile_bytes (congrArg Area.f hfiled) halign hnone).imp fun _ u hu _ => ⟨rfl, ?_⟩
      rwa [hfiled] at hu
  exact hwp.ok h hr

/-! ## The bytes -/

/-- The byte that `p` reads at `va`. -/
def Sys.userByte (s : Sys) (p : Fin nproc) (va : Addr) : Option Byte :=
  match s.pgdir p with
  | none   => none
  | some g =>
    match g.user va false with
    | none   => none
    | some f => some (s.phys.mem f (va.extractLsb' 0 12))

theorem page_byte {a : Area} (h : a.addr.toNat % 4096 = 0) {n o : Nat} (ho : o < 4096) :
    pageNum (a.addr + BitVec.ofNat 32 (n * 4096 + o)) = pageNum (a.page n) ∧
      ((a.addr + BitVec.ofNat 32 (n * 4096 + o)).extractLsb' 0 12).toNat = o := by
  constructor
  · rw [← BitVec.toNat_inj, pageNum_toNat, pageNum_toNat]
    unfold Area.page pgsize
    rw [BitVec.toNat_add, BitVec.toNat_add, BitVec.toNat_mul]
    simp only [BitVec.toNat_ofNat]
    omega
  · rw [BitVec.extractLsb'_toNat, BitVec.toNat_add]
    simp only [BitVec.toNat_ofNat, Nat.shiftRight_zero]
    omega

theorem entry_byte {va : Addr} {g : Space} {f : Frame} (hg : s.pgdir p = some g) (hm : g.mapped (pageNum va) = true)
    (hpte : g.pte (pageNum va) = mapPte f a.perm) : s.userByte p va = some (s.phys.mem f (va.extractLsb' 0 12)) := by
  rw [mapped_pageNum, Bool.and_eq_true] at hm
  have huser : g.user va false = some f := by
    have hflags : pteFlags a.perm = a.perm := by
      unfold Area.perm
      split_ifs <;> decide
    have hbit : (mapPte f a.perm).getLsbD 2 = true := by
      unfold mapPte Area.perm
      simp only [BitVec.getLsbD_or, getLsbD_pteU, decide_true, Bool.or_true, Bool.true_or]
    unfold Space.user
    rw [hm.1, hm.2, hpte, hbit, pteFrame_mapPte hflags]
    rfl
  unfold Sys.userByte
  rw [hg]
  dsimp only
  rw [huser]

theorem Populated.byte {n o : Nat} (h : Populated p a j data a.perm done s) (ha : a.addr.toNat % 4096 = 0) (hn : n ∈ done)
    (ho : o < 4096) {g : Space} (hg : s.pgdir p = some g)
    (hm : g.mapped (pageNum (a.page n)) = true) :
    s.userByte p (a.addr + BitVec.ofNat 32 (n * 4096 + o)) = some (data.getD (a.offset.toNat + o) 0) := by
  obtain ⟨hnum, hoff⟩ := page_byte ha ho
  obtain ⟨f, hpte, -, hmem⟩ := h.pages g hg n hn hm
  rw [← hnum] at hm hpte
  rw [entry_byte hg hm hpte, hmem]
  unfold filePage
  rw [hoff, if_pos (by omega)]
  congr 2

/-- **MAP_POPULATE** maps the file's own bytes exactly when each page of the file from the offset on is the page at the
offset. -/
theorem mmapPopulate_bytes (s : Sys) (p : Fin nproc) (addr length prot flags fd offset : Word) (j : Nat)
    (data : List Byte) (size : data.length ≤ maxFileSize) (r : Addr) (hnd : s.phys.freelist.Nodup)
    (hpop : flags &&& mapPopulate ≠ 0) (hanon : flags &&& mapAnonymous = 0) (hfd : s.ofileAt p fd = .file j)
    (hread : (s.file j).readable = true) (hk : (s.file j).kind = .inode data size)
    (hr : r ≠ 0) (hmmap : (mmap p addr length prot flags fd offset s).res = .ok r)
    (hmapped : ∀ i < length.toNat / 4096, ∃ g, (mmap p addr length prot flags fd offset s).st.pgdir p = some g ∧
      g.mapped (pageNum (r + BitVec.ofNat 32 (i * 4096))) = true) :
    (∀ i < length.toNat / 4096, ∀ o < 4096,
        (mmap p addr length prot flags fd offset s).st.userByte p (r + BitVec.ofNat 32 (i * 4096 + o)) =
          some (data.getD (offset.toNat + i * 4096 + o) 0)) ↔
      ∀ i < length.toNat / 4096, ∀ o < 4096, data.getD (offset.toNat + i * 4096 + o) 0 = data.getD (offset.toNat + o) 0 := by
  obtain ⟨hra, hpopd⟩ := mmap_populated hnd hpop hanon hfd hread hk hr hmmap
  obtain ⟨hv, -⟩ := mmap_ok hr hmmap
  have hal := (validArgs_valid hv).aligned
  have hnp : (Area.filed p addr length prot flags j offset).npages = length.toNat / 4096 := npages_eq (validArgs_small hv)
  have hbase : (Area.filed p addr length prot flags j offset).addr.toNat % 4096 = 0 := by
    show (addr + mmapBase).toNat % 4096 = 0
    rw [BitVec.toNat_add]
    show (addr.toNat + 1073741824) % 4294967296 % 4096 = 0
    omega
  -- every page holds the bytes at the offset
  have hbyte : ∀ i < length.toNat / 4096, ∀ o < 4096,
      (mmap p addr length prot flags fd offset s).st.userByte p (r + BitVec.ofNat 32 (i * 4096 + o)) =
        some (data.getD (offset.toNat + o) 0) := by
    intro i hi o ho
    obtain ⟨g, hg, hm⟩ := hmapped i hi
    rw [hra] at hm ⊢
    have hnum := (page_byte (a := .filed p addr length prot flags j offset) (n := i) hbase (o := 0) (by omega)).1
    rw [Nat.add_zero] at hnum
    refine hpopd.byte hbase (List.mem_range.2 (hnp ▸ hi)) ho hg ?_
    rw [← hnum]
    exact hm
  constructor
  · intro h i hi o ho
    exact Option.some.inj ((h i hi o ho).symm.trans (hbyte i hi o ho))
  · intro h i hi o ho
    rw [hbyte i hi o ho, h i hi o ho]

/-- Two pages that lie behind the end of the file. -/
theorem populatePast_bytes : (mmap 0 0 8192 protRead mapPopulate 3 4096 sample).res = .ok 0x40000000#32 ∧
    ∀ i < 2, ∀ o < 4096,
      (mmap 0 0 8192 protRead mapPopulate 3 4096 sample).st.userByte 0 (0x40000000#32 + BitVec.ofNat 32 (i * 4096 + o)) =
        some ([7#8].getD (4096 + i * 4096 + o) 0) := by
  have hres : (mmap 0 0 8192 protRead mapPopulate 3 4096 sample).res = .ok 0x40000000#32 := Prog.res_ok (by decide +kernel)
  have hpast : ∀ k, 1 ≤ k → [7#8].getD k 0 = (0#8 : Byte) := fun k hk => getD_past hk
  refine ⟨hres, (mmapPopulate_bytes sample 0 0 8192 protRead mapPopulate 3 4096 0 [7#8] (by decide) 0x40000000#32 (by decide)
    (by decide) (by decide) (by decide) rfl rfl (by decide) hres ?_).2 ?_⟩
  · have hsome : ∀ i < 2, ((mmap 0 0 8192 protRead mapPopulate 3 4096 sample).st.pgdir 0).any
        (fun g => g.mapped (pageNum (0x40000000#32 + BitVec.ofNat 32 (i * 4096)))) = true := by decide +kernel
    exact fun i hi => (Option.any_eq_true _ _).1 (hsome i hi)
  · intro i _ o _
    change [7#8].getD (4096 + i * 4096 + o) 0 = [7#8].getD (4096 + o) 0
    rw [hpast _ (by omega), hpast _ (by omega)]

/-- Two pages of a file of one byte: the second page has the byte again. -/
theorem populateTwo_repeats : (mmap 0 0 8192 protRead mapPopulate 3 0 sample).res = .ok 0x40000000#32 ∧
    (mmap 0 0 8192 protRead mapPopulate 3 0 sample).st.userByte 0 0x40001000#32 = some 7#8 ∧
      [7#8].getD (0 + 1 * 4096 + 0) 0 = (0#8 : Byte) :=
  ⟨Prog.res_ok (by decide +kernel), by decide +kernel, by decide⟩

end Mmap

end Vm
end Xv6
