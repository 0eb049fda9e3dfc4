import Xv6.Vm.Areas
/-!
# Vm.Tidy — mmap, munmap and the page fault on tidy areas

`mmap` refuses a range whose first address an own area covers, and checks nothing else: neither that the range ends
below `KERNBASE`, nor that no own area starts inside it.  Where both hold of the areas that are made, the areas stay
tidy, and no page is mapped that is there.
-/
namespace Xv6
namespace Vm

open Mem
open Prog (wp Quiet Stops)
open Sched (nproc)

def NoRemap (e : Stop) : Prop := e ≠ .panic "remap"

theorem noRemap_wild : NoRemap .wild := nofun
theorem noRemap_acquire : NoRemap (.panic "acquire") := by unfold NoRemap; decide
theorem noRemap_release : NoRemap (.panic "release") := by unfold NoRemap; decide
theorem noRemap_kfree : NoRemap (.panic "kfree") := by unfold NoRemap; decide
theorem noRemap_fileread : NoRemap (.panic "fileread") := by unfold NoRemap; decide

variable {s t : Sys} {p : Fin nproc} {i : Fin nmaps} {a : Area} {N : Fin nproc → Frame → Pte → Prop} {E : Stop → Prop}

/-! ## The loops over the pages of an area -/

theorem pages_wp {body : Nat → M Unit} {va : Nat → Addr} {G : Pte → Prop} : ∀ (l : List Nat) (s : Sys),
    (l.map fun k => pageNum (va k)).Nodup → (∀ k ∈ l, Missing p (pageNum (va k)) s) →
    (∀ k ∈ l, ∀ s, Missing p (pageNum (va k)) s →
      wp (body k) (fun _ t => Adds (fun q m e => q = p ∧ m = pageNum (va k) ∧ G e) s t) E s) →
    wp (Prog.forEach l body)
      (fun _ t => Adds (fun q m e => q = p ∧ m ∈ l.map (fun k => pageNum (va k)) ∧ G e) s t) E s
  | [], s, _, _, _ => adds_frame.refl s
  | k :: l, s, hnd, hmiss, hbody => by
    rw [List.map_cons, List.nodup_cons] at hnd
    obtain ⟨hk, hnd⟩ := hnd
    rw [Prog.forEach_cons, Prog.wp_bind]
    refine (hbody k List.mem_cons_self s (hmiss k List.mem_cons_self)).imp fun _ t ht => ?_
    have hmiss' : ∀ j ∈ l, Missing p (pageNum (va j)) t := by
      refine fun j hj => (hmiss j (List.mem_cons_of_mem k hj)).adds ht ?_
      rintro e ⟨-, he, -⟩
      exact hk (he ▸ List.mem_map_of_mem hj)
    refine (pages_wp l t hnd hmiss' fun j hj => hbody j (List.mem_cons_of_mem k hj)).imp fun _ u hu => ?_
    refine adds_frame.trans (ht.mono fun q m e h => ?_) (hu.mono fun q m e h => ?_)
    · exact ⟨h.1, h.2.1 ▸ List.mem_map.2 ⟨k, List.mem_cons_self, rfl⟩, h.2.2⟩
    · exact ⟨h.1, List.mem_cons_of_mem _ h.2.1, h.2.2⟩

/-- `p` gets pages of `a`, as `a` grants them. -/
def Within (p : Fin nproc) (a : Area) (q : Fin nproc) (m : Frame) (e : Pte) : Prop :=
  q = p ∧ a.holds (m.toNat * 4096) ∧ Granted a e

/-- The pages of an area are missing. -/
def Bare (p : Fin nproc) (a : Area) (s : Sys) : Prop := ∀ m : Frame, a.holds (m.toNat * 4096) → Missing p m s

theorem areaPages_wp {body : Nat → M Unit} (hs : a.Shape) (hb : Bare p a s)
    (hbody : ∀ k, pgRoundDown (a.page k) = a.page k → ∀ s, Missing p (pageNum (a.page k)) s →
      wp (body k) (fun _ t => Adds (fun q m e => q = p ∧ m = pageNum (a.page k) ∧ Granted a e) s t) E s) :
    wp (Prog.forEach (List.range a.npages) body) (fun _ t => Adds (Within p a) s t) E s := by
  have hmem : ∀ {m}, m ∈ (List.range a.npages).map (fun k => pageNum (a.page k)) ↔ a.holds (m.toNat * 4096) :=
    hs.flat.mem_nums
  refine (pages_wp (List.range a.npages) s hs.flat.nodup_nums (fun k hk => ?_) fun k hk => hbody k ?_).imp fun _ t ht => ?_
  · exact hb _ (hmem.1 (List.mem_map_of_mem hk))
  · have hal := hs.aligned
    rw [pgRoundDown_eq_self, (hs.flat.page_toNat (List.mem_range.1 hk)).2]
    omega
  · exact ht.mono fun q m e h => ⟨h.1, hmem.1 h.2.1, h.2.2⟩

theorem mapPage_grants {u : Sys} {va : Addr} {page : Frame} {b : Prop} [Decidable b] (hw : E .wild)
    (ha : pgRoundDown va = va) (hb : b ↔ a.prot &&& protWrite ≠ 0) (hn : Missing p (pageNum va) s)
    (hu : u.shared = s.shared) : wp (mapPage p va page ((if b then Mem.pteW else 0) ||| pteU))
      (fun _ t => Adds (fun q m e => q = p ∧ m = pageNum va ∧ Granted a e) s t) E u := by
  have hsu : Adds (fun _ _ _ => False) s u := adds_shared hu
  refine (mapPage_wp hw ha (hn.adds hsu fun _ => id)).imp fun _ t ht => ?_
  refine adds_frame.trans (adds_shared hu) (ht.mono fun q m e h => ⟨h.1, h.2.1, ?_⟩)
  rw [h.2.2]
  exact granted_mapPte page hb

theorem zeroedPage_wp (hw : E .wild) {Q : Frame → Sys → Prop} (hQ : ∀ page t, t.shared = s.shared → Q page t) :
    wp zeroedPage Q E s := shared_wp (zeroedPage_quiet shared_view) (zeroedPage_stops hw) hQ

theorem readPage_wp (hw : E .wild) (hr : E (.panic "fileread")) {f : FileRef} {page : Frame} {Q : Unit → Sys → Prop}
    (hQ : ∀ t, t.shared = s.shared → Q () t) : wp (readPage p f page) Q E s :=
  shared_wp (readPage_quiet shared_view p f page fun _ => trivial) (readPage_stops hw p hr f page) fun _ => hQ

theorem setOff_wp (hw : E .wild) {f : FileRef} {off : Word} {Q : Unit → Sys → Prop}
    (hQ : ∀ t, t.shared = s.shared → Q () t) : wp (setOff p f off) Q E s :=
  shared_wp (setOff_quiet shared_view p f off) (setOff_stops hw p f off) fun _ => hQ

theorem populateAnonymous_wp (hw : E .wild) (hs : (s.maps i).Shape) (hb : Bare p (s.maps i) s) :
    wp (mapPopulateAnonymous p i) (fun _ t => Adds (Within p (s.maps i)) s t) E s := by
  unfold mapPopulateAnonymous
  rw [Prog.wp_bind, Prog.wp_read]
  refine areaPages_wp hs hb fun k hk s hn => ?_
  rw [Prog.wp_bind]
  exact zeroedPage_wp hw fun page t ht => mapPage_grants hw hk Iff.rfl hn ht

theorem populateFile_wp (hw : E .wild) (hr : E (.panic "fileread")) (hs : (s.maps i).Shape)
    (hb : Bare p (s.maps i) s) : wp (mapPopulateFile p i) (fun _ t => Adds (Within p (s.maps i)) s t) E s := by
  unfold mapPopulateFile
  rw [Prog.wp_bind, Prog.wp_read]
  refine areaPages_wp hs hb fun k hk s hn => ?_
  rw [Prog.wp_bind]
  refine zeroedPage_wp hw fun page t ht => ?_
  rw [Prog.wp_bind]
  refine readPage_wp hw hr fun u hu => ?_
  rw [Prog.wp_bind]
  exact setOff_wp hw fun v hv => mapPage_grants hw hk Iff.rfl hn (hv.trans (hu.trans ht))

/-! ## The permissions of a file -/

/-- `file_flags`. -/
def File.flags (f : File) : Word := (if f.readable then 1 else 0) ||| (if f.writable then 2 else 0)

theorem fileReadable_wp (hw : E .wild) (f : FileRef) :
    wp (fileReadable p f) (fun b t => t = s ∧ ∀ j, f = .file j → b = (s.file j).readable) E s := by
  cases f with
  | null =>
    refine Prog.wp_bind.2 (follow_wp hw fun lo _ => ⟨rfl, fun j h => ?_⟩)
    cases h
  | file j => exact ⟨rfl, fun j' h => by cases h; rfl⟩
  | wild => exact hw

theorem fileWritable_wp (hw : E .wild) (f : FileRef) :
    wp (fileWritable p f) (fun b t => t = s ∧ ∀ j, f = .file j → b = (s.file j).writable) E s := by
  cases f with
  | null =>
    refine Prog.wp_bind.2 (follow_wp hw fun lo _ => ⟨rfl, fun j h => ?_⟩)
    cases h
  | file j => exact ⟨rfl, fun j' h => by cases h; rfl⟩
  | wild => exact hw

theorem compareProt_wp (hw : E .wild) : wp (compareProt p i)
    (fun b t => t = s ∧ ∀ j, (s.maps i).f = .file j → b = (s.maps i).prot.sle (s.file j).flags) E s := by
  unfold compareProt
  rw [Prog.wp_bind, Prog.wp_read, Prog.wp_bind]
  refine (fileReadable_wp hw _).imp fun r t hr => ?_
  obtain ⟨rfl, hr⟩ := hr
  rw [Prog.wp_bind]
  refine (fileWritable_wp hw _).imp fun w u hu => ?_
  obtain ⟨rfl, hu⟩ := hu
  refine ⟨rfl, fun j hj => ?_⟩
  rw [hr j hj, hu j hj]
  rfl

/-- The area as `openArea` leaves it. -/
def Area.opened (a : Area) (f : FileRef) (offset : Word) (b : Bool) : Area :=
  { a with f := f, offset := offset, state := if b then a.state else .unusing }

theorem setArea_setArea (s : Sys) (i : Fin nmaps) (a b : Area) : (s.setArea i a).setArea i b = s.setArea i b := by
  unfold Sys.setArea
  congr 1
  funext j
  by_cases hj : j = i
  · simp [hj]
  · simp [hj]

theorem setArea_maps (s : Sys) (i : Fin nmaps) (a : Area) : (s.setArea i a).maps i = a := if_pos rfl

theorem shared_setArea {a : Area} (h : t.shared = s.shared) : (t.setArea i a).shared = (s.setArea i a).shared := by
  unfold Sys.shared at h ⊢
  simp only [Prod.mk.injEq] at h
  obtain ⟨h1, h2, h3, h4, h5, h6⟩ := h
  unfold Sys.setArea
  dsimp only
  rw [h1, h2, h3, h4, h5, h6]

theorem shared_maps (h : t.shared = s.shared) : t.maps = s.maps := congrArg Prod.fst h

/-- **`compare_prot` has accepted the file**, if it is one. -/
def Accepted (s : Sys) (f : FileRef) (prot : Word) : Prop := ∀ j, f = .file j → prot.sle (s.file j).flags = true

theorem shared_mode (h : t.shared = s.shared) (j : Nat) : (t.file j).mode = (s.file j).mode :=
  congrFun (congrArg (fun x => x.2.2.2.2.2) h) j

theorem flags_mode {f f' : File} (h : f.mode = f'.mode) : f.flags = f'.flags := by
  unfold File.mode at h
  simp only [Prod.mk.injEq] at h
  unfold File.flags
  rw [h.1, h.2.1]

theorem openArea_wp {fd offset : Word} (hw : E .wild) : wp (openArea p i fd offset)
    (fun b t => t.shared = (s.setArea i ((s.maps i).opened (s.ofileAt p fd) offset b)).shared ∧
      (b = true → Accepted s (s.ofileAt p fd) (s.maps i).prot)) E s := by
  unfold openArea
  rw [Prog.wp_bind, Prog.wp_modify, Prog.wp_bind, Prog.wp_read, Prog.wp_bind]
  refine setOff_wp hw fun t ht => ?_
  have hmi : t.maps i = { s.maps i with f := s.ofileAt p fd, offset := offset } := by
    rw [shared_maps ht]
    exact setArea_maps s i _
  have hflags : ∀ j, (t.file j).flags = (s.file j).flags := fun j => flags_mode (shared_mode ht j)
  rw [Prog.wp_bind]
  refine (compareProt_wp hw).imp fun b u hu => ?_
  obtain ⟨rfl, hb⟩ := hu
  cases b with
  | true =>
    refine ⟨ht, fun _ j hj => ?_⟩
    have hb' := hb j (by rw [hmi]; exact hj)
    rw [hmi, hflags j] at hb'
    exact hb'.symm
  | false =>
    refine ⟨?_, fun h => by cases h⟩
    show (u.setArea i { u.maps i with state := .unusing }).shared = _
    rw [hmi, shared_setArea ht, setArea_setArea]
    rfl

/-! ## The table of areas -/

theorem setArea_other {j : Fin nmaps} (h : j ≠ i) : (s.setArea i a).maps j = s.maps j := if_neg h

/-- No own area of `p` holds an address of `a`. -/
def Avoids (p : Fin nproc) (a : Area) (s : Sys) : Prop :=
  ∀ j x, (s.maps j).ownedBy p = true → (s.maps j).holds x → ¬ a.holds x

theorem Tidy.bare (h : Tidy s) (hs : a.Shape) (hd : Avoids p a s) : Bare p a s := by
  intro m hm g hg
  cases hmap : g.mapped m with
  | false => rfl
  | true =>
    obtain ⟨j, hj, hx, -⟩ := h.pages p g m hg (hs.upper hm) hmap
    exact absurd hm (hd j _ hj hx)

theorem Tidy.made (h : Tidy s) (hfree : (s.maps i).state = .unusing) (hp : a.p = some p)
    (hs : a.state = .using → a.Shape) (hd : Avoids p a s) : Tidy (s.setArea i a) where
  shape j hj := by
    by_cases hji : j = i
    · rw [hji, setArea_maps] at hj ⊢
      exact hs hj
    · rw [setArea_other hji] at hj ⊢
      exact h.shape j hj
  apart q j k x hj hk hxj hxk := by
    have hq : a.ownedBy q = true → q = p := fun ha =>
      Option.some.inj ((ownedBy_iff.1 ha).2.symm.trans hp)
    by_cases hji : j = i <;> by_cases hki : k = i
    · rw [hji, hki]
    · rw [hji, setArea_maps] at hj hxj
      rw [setArea_other hki] at hk hxk
      exact absurd hxj (hd k x (hq hj ▸ hk) hxk)
    · rw [setArea_other hji] at hj hxj
      rw [hki, setArea_maps] at hk hxk
      exact absurd hxk (hd j x (hq hk ▸ hj) hxj)
    · rw [setArea_other hji] at hj hxj
      rw [setArea_other hki] at hk hxk
      exact h.apart q j k x hj hk hxj hxk
  pages q g n hg hu hm := by
    obtain ⟨j, hj, hx⟩ := h.pages q g n hg hu hm
    have hji : j ≠ i := by
      rintro rfl
      rw [(ownedBy_iff.1 hj).1] at hfree
      cases hfree
    exact ⟨j, by rw [setArea_other hji]; exact hj, by rw [setArea_other hji]; exact hx⟩

/-- The areas of a call: what `mmap` gives a new one. -/
def MmCall.opens (s : Sys) (f : FileRef) (prot : Word) : MmCall → Prop
  | .mmap p _ _ prot' _ fd _ => prot = prot' ∧ (f = .null ∨ f = s.ofileAt p fd)
  | _                        => False

/-- What a mapping call leaves of the rest, and of the areas. -/
structure Follows (c : MmCall) (s t : Sys) : Prop where
  tab   : t.tab = s.tab
  ofile : t.ofile = s.ofile
  sz    : t.sz = s.sz
  mode  : ∀ j, (t.file j).mode = (s.file j).mode
  maps  : ∀ j, (t.maps j).state = .using → t.maps j = s.maps j ∨
    (t.maps j).p = some c.proc ∧ c.opens s (t.maps j).f (t.maps j).prot ∧ Accepted s (t.maps j).f (t.maps j).prot

theorem Adds.follows {c : MmCall} (h : Adds N s t) : Follows c s t :=
  ⟨h.tab, h.ofile, h.sz, h.mode, fun j _ => .inl (congrFun h.maps j)⟩

theorem wp_congr {α : Type} {c d : M α} {Q : α → Sys → Prop} (h : c s = d t) (hd : wp d Q E t) : wp c Q E s := by
  unfold wp at hd ⊢
  rw [h]
  exact hd

/-! ## mmap -/

/-- The range of a new area: below `KERNBASE`, and no own area starts inside it. -/
def FitsRange (s : Sys) (p : Fin nproc) (addr length : Word) : Prop :=
  addr.toNat + length.toNat ≤ 1073741824 ∧ ∀ i, (s.maps i).ownedBy p = true →
    (s.maps i).addr.toNat ≤ addr.toNat + 1073741824 ∨
      addr.toNat + 1073741824 + length.toNat ≤ (s.maps i).addr.toNat

/-- **The condition on a call**: an area that `mmap` makes fits. -/
def Fits (s : Sys) : MmCall → Prop
  | .mmap p addr length prot flags fd offset =>
    validArgs addr length prot flags fd offset = true → s.clash p addr = false → FitsRange s p addr length
  | _ => True

section Mmap

variable {addr length prot flags fd offset : Word}

/-- What `mmap` takes. -/
structure Valid (addr length prot : Word) : Prop where
  aligned : addr.toNat % 4096 = 0
  whole   : length.toNat % 4096 = 0
  prot    : prot = protRead ∨ prot = protRead ||| protWrite

theorem validArgs_valid (h : validArgs addr length prot flags fd offset = true) : Valid addr length prot := by
  unfold validArgs at h
  simp only [Bool.and_eq_true, Bool.or_eq_true, decide_eq_true_eq] at h
  exact ⟨h.1.1.1.1, h.1.1.2, h.1.2⟩

theorem FitsRange.start (h : FitsRange s p addr length) : (addr + mmapBase).toNat = addr.toNat + 1073741824 := by
  have := h.1
  rw [BitVec.toNat_add]
  show (_ + 1073741824) % 4294967296 = _
  omega

theorem FitsRange.shape (h : FitsRange s p addr length) (hv : Valid addr length prot) (b : Area) :
    (b.init p addr length prot flags).Shape := by
  have hstart := h.start
  have hal := hv.aligned
  have hlen := h.1
  refine ⟨?_, hv.whole, ?_, ?_, hv.prot⟩
  all_goals
    unfold Area.init
    dsimp only
    omega

theorem FitsRange.apart (h : FitsRange s p addr length) (ht : Tidy s) (hc : s.clash p addr = false) (b : Area) :
    Avoids p (b.init p addr length prot flags) s := by
  intro j x hj hx hb
  have hs := ht.shape j (ownedBy_iff.1 hj).1
  have hclash : (s.maps j).covers (addr + mmapBase) = false := by
    have hnone : s.findArea (fun a => a.covers (addr + mmapBase) && a.ownedBy p) = none := by
      unfold Sys.clash at hc
      cases hf : s.findArea (fun a => a.covers (addr + mmapBase) && a.ownedBy p) with
      | none => rfl
      | some k => rw [hf] at hc; cases hc
    have hnot := findArea_none.1 hnone j
    rwa [hj, Bool.and_true] at hnot
  have hstart := h.start
  have htop := hs.top
  have hend : ((s.maps j).addr + (s.maps j).length).toNat = (s.maps j).addr.toNat + (s.maps j).length.toNat := by
    rw [BitVec.toNat_add]
    omega
  have hcov : ¬ ((s.maps j).addr.toNat ≤ addr.toNat + 1073741824 ∧
      addr.toNat + 1073741824 < (s.maps j).addr.toNat + (s.maps j).length.toNat) := by
    intro hin
    unfold Area.covers at hclash
    rw [Bool.and_eq_false_iff, decide_eq_false_iff_not, decide_eq_false_iff_not, BitVec.le_def, BitVec.lt_def, hstart,
      hend] at hclash
    omega
  have hfit := h.2 j hj
  unfold Area.holds Area.init at hb
  unfold Area.holds at hx
  dsimp only at hb
  omega

theorem opened_shape {f : FileRef} {off : Word} {b : Bool} (h : a.Shape) : (a.opened f off b).Shape :=
  ⟨h.aligned, h.whole, h.base, h.top, h.prot⟩

/-- The new area as `mmap` leaves it, and the pages it has mapped there. -/
def Mapped (p : Fin nproc) (i : Fin nmaps) (fd : Word) (s t : Sys) : Prop :=
  ∃ f off b, Adds (fun q m e => b = true ∧ Within p (s.maps i) q m e) (s.setArea i ((s.maps i).opened f off b)) t ∧
    (f = .null ∨ f = s.ofileAt p fd) ∧ (b = true → Accepted s f (s.maps i).prot)

theorem setArea_self (s : Sys) (i : Fin nmaps) : s.setArea i (s.maps i) = s := by
  unfold Sys.setArea
  congr 1
  funext j
  by_cases hj : j = i
  · rw [if_pos hj, hj]
  · rw [if_neg hj]

theorem mapArea_wp (hw : E .wild) (hr : E (.panic "fileread")) (hs : (s.maps i).Shape) (hb : Bare p (s.maps i) s)
    (hnull : (s.maps i).f = .null) : wp (mapArea p i addr flags fd offset) (fun _ t => Mapped p i fd s t) E s := by
  have hopen : ∀ b t, t.shared = (s.setArea i ((s.maps i).opened (s.ofileAt p fd) offset b)).shared →
      (b = true → Accepted s (s.ofileAt p fd) (s.maps i).prot) → Mapped p i fd s t :=
    fun b t ht hacc => ⟨_, _, b, adds_shared ht, .inr rfl, hacc⟩
  unfold mapArea
  refine Prog.wp_ite (fun _ => Prog.wp_ite (fun _ => ?_) fun _ => ?_) fun _ => ?_
  · rw [Prog.wp_bind]
    refine (populateAnonymous_wp hw hs hb).imp fun _ t ht => ?_
    have hself : s.setArea i ((s.maps i).opened (s.maps i).f (s.maps i).offset true) = s := setArea_self s i
    refine ⟨(s.maps i).f, (s.maps i).offset, true, ?_, .inl hnull, fun _ j hj => ?_⟩
    · rw [hself]
      exact ht.mono fun q m e h => ⟨rfl, h⟩
    · rw [hnull] at hj
      cases hj
  · rw [Prog.wp_bind]
    refine (openArea_wp hw).imp fun b t ht => ?_
    obtain ⟨ht, hacc⟩ := ht
    cases b with
    | false => exact hopen false t ht hacc
    | true =>
      have hmi : t.maps i = (s.maps i).opened (s.ofileAt p fd) offset true := by
        rw [shared_maps ht]
        exact setArea_maps s i _
      have hbare : Bare p (t.maps i) t := by
        intro m hm g hg
        rw [hmi] at hm
        have hpg : t.pgdir = s.pgdir := congrArg (fun x => x.2.2.2.1) ht
        exact hb m hm g (by rw [← hpg]; exact hg)
      rw [if_pos rfl, Prog.wp_bind]
      refine (populateFile_wp hw hr (by rw [hmi]; exact opened_shape hs) hbare).imp fun _ u hu => ?_
      refine ⟨_, offset, true, adds_frame.trans (adds_shared ht) (hu.mono fun q m e h => ⟨rfl, ?_⟩), .inr rfl, hacc⟩
      rw [hmi] at h
      exact h
  · rw [Prog.wp_bind]
    refine (openArea_wp hw).imp fun b t ht => ?_
    cases b with
    | false => exact hopen false t ht.1 ht.2
    | true => exact hopen true t ht.1 ht.2

/-- The table of areas is as it was, or has one more, that `mmap` has checked. -/
def Opens (p : Fin nproc) (addr length prot flags fd offset : Word) (s t : Sys) : Prop :=
  t.maps = s.maps ∨ validArgs addr length prot flags fd offset = true ∧ s.clash p addr = false ∧
    ∃ i f off b, t.maps = (s.setArea i (((s.maps i).init p addr length prot flags).opened f off b)).maps

/-- **`mmap` keeps the areas tidy.** -/
theorem mmap_wp (h : Tidy s) (hf : Fits s (.mmap p addr length prot flags fd offset)) :
    wp (mmap p addr length prot flags fd offset)
      (fun _ t => Tidy t ∧ Follows (.mmap p addr length prot flags fd offset) s t ∧
        Opens p addr length prot flags fd offset s t) NoRemap s := by
  have hstill : Tidy s ∧ Follows (.mmap p addr length prot flags fd offset) s s ∧
      Opens p addr length prot flags fd offset s s :=
    ⟨h, (adds_frame (N := fun _ _ _ => False)).refl s |>.follows, .inl rfl⟩
  cases hv : validArgs addr length prot flags fd offset with
  | false => exact Prog.wp_of_run (mmap_invalid hv) hstill
  | true =>
    cases hl : s.locked with
    | true => exact Prog.wp_of_stop (mmap_locked hv hl) noRemap_acquire
    | false =>
      cases hc : s.clash p addr with
      | true => exact Prog.wp_of_run (mmap_clash hv hl hc) hstill
      | false =>
        cases hi : s.free with
        | none => exact Prog.wp_of_stop (mmap_full hv hl hc hi) noRemap_wild
        | some i =>
          have hfit : FitsRange s p addr length := hf hv hc
          have hfree : (s.maps i).state = .unusing := of_decide_eq_true (findArea_some.1 hi).1
          obtain ⟨a, ha⟩ : ∃ a, a = (s.maps i).init p addr length prot flags := ⟨_, rfl⟩
          have hshape : a.Shape := ha ▸ hfit.shape (validArgs_valid hv) _
          have hapart : Avoids p a s := ha ▸ hfit.apart h hc _
          have hmi : (s.setArea i a).maps i = a := setArea_maps s i a
          have hbare : Bare p a (s.setArea i a) := h.bare hshape hapart
          refine wp_congr (mmap_made hv hl hc hi) ?_
          rw [← ha, Prog.wp_bind, Prog.wp_emit]
          refine (mapArea_wp noRemap_wild noRemap_fileread (by rw [hmi]; exact hshape) (by rw [hmi]; exact hbare)
            (by rw [hmi, ha]; rfl)).imp fun _ t ht => ?_
          obtain ⟨f, off, b, hadds, hsrc, hacc⟩ := ht
          rw [hmi, setArea_setArea] at hadds
          rw [hmi] at hacc
          have hstate : (a.opened f off b).state = if b then .using else .unusing := by rw [ha]; rfl
          have htidy : Tidy (s.setArea i (a.opened f off b)) :=
            h.made hfree (p := p) (by rw [ha]; rfl) (fun _ => opened_shape hshape) hapart
          refine ⟨htidy.adds (hadds.mono fun q m e hn => ?_),
            ⟨hadds.tab, hadds.ofile, hadds.sz, hadds.mode, fun j hj => ?_⟩, .inr ⟨hv, hc, i, f, off, b, ha ▸ hadds.maps⟩⟩
          · obtain ⟨rfl, rfl, hin, hgr⟩ := hn
            refine ⟨i, ?_, ?_, ?_⟩
            · rw [setArea_maps, ownedBy_iff, hstate, ha]
              exact ⟨rfl, rfl⟩
            · rw [setArea_maps]
              exact hin
            · rw [setArea_maps]
              exact hgr
          · rw [hadds.maps] at hj ⊢
            by_cases hji : j = i
            · rw [hji, setArea_maps] at hj ⊢
              cases b with
              | false => rw [hstate] at hj; cases hj
              | true =>
                have hprot : a.prot = prot := by rw [ha]; rfl
                exact .inr ⟨by rw [ha]; rfl, ⟨hprot, hsrc⟩, hacc rfl⟩
            · exact .inl (setArea_other hji)

end Mmap

end Vm
end Xv6
