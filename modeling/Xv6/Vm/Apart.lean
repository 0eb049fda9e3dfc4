import Xv6.Vm.Faults
import Xv6.Vm.Tidy
/-!
# Vm.Apart — which areas munmap and the page fault find

`munmap` and the page fault keep the areas tidy.  Where no new area touches an own one, an address has one area at most:
for the fault handler, and for `munmap`, which looks one address further.
-/
namespace Xv6
namespace Vm

open Mem
open Prog (wp Quiet Stops Admits)
open Sched (nproc)

variable {s t : Sys} {p : Fin nproc} {i : Fin nmaps} {a : Area} {E : Stop → Prop}

/-! ## munmap -/

/-- From `s` to `t`, under whatever lock, pages have gone at most, and `p` has none of `N`. -/
structure Drops (p : Fin nproc) (N : Frame → Prop) (s t : Sys) : Prop where
  maps   : t.maps = s.maps
  tab    : t.tab = s.tab
  ofile  : t.ofile = s.ofile
  sz     : t.sz = s.sz
  mode   : ∀ j, (t.file j).mode = (s.file j).mode
  pages  : ∀ q g', t.pgdir q = some g' → ∃ g, s.pgdir q = some g ∧ ∀ m, g'.mapped m = true →
    g.mapped m = true ∧ g'.pte m = g.pte m ∧ (q = p → ¬ N m)

theorem Drops.refl (s : Sys) (p : Fin nproc) : Drops p (fun _ => False) s s :=
  ⟨rfl, rfl, rfl, rfl, fun _ => rfl, fun _ g hg => ⟨g, hg, fun _ hm => ⟨hm, rfl, fun _ => id⟩⟩⟩

theorem Drops.trans {N N' : Frame → Prop} {u : Sys} (h : Drops p N s t) (h' : Drops p N' t u) :
    Drops p (fun m => N m ∨ N' m) s u := by
  refine ⟨h'.maps.trans h.maps, h'.tab.trans h.tab, h'.ofile.trans h.ofile, h'.sz.trans h.sz,
    fun j => (h'.mode j).trans (h.mode j), fun q g'' hg'' => ?_⟩
  obtain ⟨g', hg', h2⟩ := h'.pages q g'' hg''
  obtain ⟨g, hg, h1⟩ := h.pages q g' hg'
  refine ⟨g, hg, fun m hm => ?_⟩
  obtain ⟨hm', hp', hn'⟩ := h2 m hm
  obtain ⟨hm'', hp'', hn''⟩ := h1 m hm'
  exact ⟨hm'', hp'.trans hp'', fun hq hN => hN.elim (hn'' hq) (hn' hq)⟩

theorem Drops.mono {N N' : Frame → Prop} (h : Drops p N s t) (hN : ∀ m, N' m → N m) : Drops p N' s t := by
  refine ⟨h.maps, h.tab, h.ofile, h.sz, h.mode, fun q g' hg' => ?_⟩
  obtain ⟨g, hg, h1⟩ := h.pages q g' hg'
  exact ⟨g, hg, fun m hm => ⟨(h1 m hm).1, (h1 m hm).2.1, fun hq hn => (h1 m hm).2.2 hq (hN m hn)⟩⟩

theorem unmapPage_wp (hw : E .wild) (hk : E (.panic "kfree")) (va : Addr) :
    wp (unmapPage p va) (fun _ t => Drops p (fun m => m = pageNum va) s t) E s := by
  unfold unmapPage
  rw [Prog.wp_bind]
  refine follow_wp hw fun g hg => ?_
  rw [Prog.wp_bind, mm_wp, walkpgdir_wp]
  have hstill : g.mapped (pageNum va) = false → Drops p (fun m => m = pageNum va) s s := fun hm => by
    refine ⟨rfl, rfl, rfl, rfl, fun _ => rfl, fun q g' hq => ⟨g', hq, fun m hmm => ⟨hmm, rfl, ?_⟩⟩⟩
    rintro rfl rfl
    rw [hg] at hq
    cases hq
    rw [hm] at hmm
    cases hmm
  have hmap := mapped_pageNum g va
  cases ht : g.hasTable va with
  | false => exact hstill (by rw [hmap, ht]; rfl)
  | true =>
    rw [ht, Bool.true_and] at hmap
    rw [if_pos rfl]
    refine Prog.wp_when (fun hp => ?_) fun hp => hstill (by rw [hmap]; exact decide_eq_false hp)
    unfold dropPage
    rw [Prog.wp_bind, mm_wp, memset_wp, Prog.wp_bind, mm_wp]
    refine kfree_wp (fun _ k _ _ => ?_) fun _ => hk
    rw [Prog.wp_modify]
    refine ⟨rfl, rfl, rfl, rfl, fun _ => rfl, fun q g' hq => ?_⟩
    by_cases hqp : q = p
    · subst hqp
      obtain rfl : g.setPte (pageNum va) 0 = g' := Option.some.inj ((if_pos rfl).symm.trans hq)
      refine ⟨g, hg, fun m hm => ?_⟩
      have hz : ¬ present 0#32 := not_present_zero
      rw [mapped_setPte] at hm
      by_cases hmn : m = pageNum va
      · simp [hmn, hz] at hm
      · rw [if_neg hmn] at hm
        exact ⟨hm, pte_setPte hmn, fun _ => hmn⟩
    · exact ⟨g', (if_neg hqp).symm.trans hq, fun m hm => ⟨hm, rfl, fun he => absurd he hqp⟩⟩

theorem unmapPages_wp (hw : E .wild) (hk : E (.panic "kfree")) {va : Nat → Addr} : ∀ (l : List Nat) (s : Sys),
    wp (Prog.forEach l (fun k => unmapPage p (va k))) (fun _ t => Drops p (fun m => ∃ k ∈ l, m = pageNum (va k)) s t) E s
  | [], s => (Drops.refl s p).mono fun m ⟨_, hk, _⟩ => by cases hk
  | k :: l, s => by
    rw [Prog.forEach_cons, Prog.wp_bind]
    refine (unmapPage_wp hw hk (va k)).imp fun _ t ht => (unmapPages_wp hw hk l t).imp fun _ u hu => ?_
    refine (ht.trans hu).mono fun m ⟨j, hj, hm⟩ => ?_
    rcases List.mem_cons.1 hj with rfl | hj
    · exact .inl hm
    · exact .inr ⟨j, hj, hm⟩

theorem Tidy.drops {u : Sys} (h : Tidy s) (hi : (s.maps i).ownedBy p = true)
    (hu : Drops p (fun n => (s.maps i).holds (n.toNat * 4096)) s u) (hm : t.maps = (u.setArea i Area.cleared).maps)
    (hg : t.pgdir = u.pgdir) : Tidy t := by
  have hother : ∀ j, (t.maps j).state = .using → j ≠ i ∧ t.maps j = s.maps j := by
    intro j hj
    rw [hm] at hj ⊢
    by_cases hji : j = i
    · rw [hji, setArea_maps] at hj
      cases hj
    · rw [setArea_other hji, hu.maps]
      exact ⟨hji, rfl⟩
  have hown : ∀ {q j}, (t.maps j).ownedBy q = true → j ≠ i ∧ t.maps j = s.maps j :=
    fun hj => hother _ (ownedBy_iff.1 hj).1
  refine ⟨fun j hj => ?_, fun q j k x hj hk hxj hxk => ?_, fun q g' n hq hn hmap => ?_⟩
  · have hsj := (hother j hj).2
    rw [hsj] at hj ⊢
    exact h.shape j hj
  · have hsj := (hown hj).2
    have hsk := (hown hk).2
    rw [hsj] at hj hxj
    rw [hsk] at hk hxk
    exact h.apart q j k x hj hk hxj hxk
  · obtain ⟨g, hgs, hkeep⟩ := hu.pages q g' (hg ▸ hq)
    obtain ⟨hold, hpte, hgone⟩ := hkeep n hmap
    obtain ⟨j, hj, hx, hgr⟩ := h.pages q g n hgs hn hold
    have hji : j ≠ i := by
      rintro rfl
      have hqp : q = p := Option.some.inj ((ownedBy_iff.1 hj).2.symm.trans (ownedBy_iff.1 hi).2)
      exact hgone hqp hx
    have hmj : t.maps j = s.maps j := by rw [hm, setArea_other hji, hu.maps]
    exact ⟨j, by rw [hmj]; exact hj, by rw [hmj]; exact hx, by rw [hmj, hpte]; exact hgr⟩

def Closes (s t : Sys) : Prop := ∀ j, t.maps j = s.maps j ∨ (t.maps j).state = .unusing

/-- **`munmap` keeps the areas tidy.** -/
theorem munmap_wp (h : Tidy s) (addr : Addr) :
    wp (munmap p addr) (fun _ t => Tidy t ∧ Follows (.munmap p addr) s t ∧ Closes s t) NoRemap s := by
  have hstill : Tidy s ∧ Follows (.munmap p addr) s s ∧ Closes s s :=
    ⟨h, (adds_frame (N := fun _ _ _ => False)).refl s |>.follows, fun _ => .inl rfl⟩
  cases hl : s.locked with
  | true =>
    have hstop : munmap p addr s = ⟨.error (.panic "acquire"), s, []⟩ := Prog.bind_run_error (acquire_panic hl)
    exact Prog.wp_of_stop hstop noRemap_acquire
  | false =>
    cases hi : s.findArea (Area.reaches p (addr + mmapBase)) with
    | none => exact Prog.wp_of_run (munmap_none hl hi) hstill
    | some i =>
      have hown : (s.maps i).ownedBy p = true := (Bool.and_eq_true_iff.1 (findArea_some.1 hi).1).2
      have hshape := h.shape i (ownedBy_iff.1 hown).1
      refine wp_congr (munmap_some hl hi) ?_
      rw [Prog.wp_bind, Prog.wp_emit]
      unfold unmapArea
      rw [Prog.wp_bind, Prog.wp_read, Prog.wp_bind]
      refine (unmapPages_wp noRemap_wild noRemap_kfree _ s.lock).imp fun _ u hu => ?_
      have hdrop : Drops p (fun n => (s.maps i).holds (n.toNat * 4096)) s u :=
        ⟨hu.maps, hu.tab, hu.ofile, hu.sz, hu.mode, (hu.mono fun n hn => by
          obtain ⟨k, hk, he⟩ := List.mem_map.1 (hshape.flat.mem_nums.2 hn)
          exact ⟨k, hk, he.symm⟩).pages⟩
      have hcleared : ∀ t : Sys, t.maps = (u.setArea i Area.cleared).maps → Closes s t := fun t ht j => by
        rw [ht]
        by_cases hji : j = i
        · rw [hji, setArea_maps]
          exact .inr rfl
        · rw [setArea_other hji, hu.maps]
          exact .inl rfl
      rw [Prog.wp_bind, Prog.wp_modify, Prog.wp_bind]
      unfold release
      rw [Prog.wp_bind, Prog.wp_read]
      refine Prog.wp_ite (fun _ => ?_) fun _ => noRemap_release
      refine ⟨h.drops hown hdrop rfl rfl, ⟨hu.tab, hu.ofile, hu.sz, hu.mode, fun j hj => .inl ?_⟩, hcleared _ rfl⟩
      rcases hcleared { u.setArea i Area.cleared with locked := false } rfl j with hkeep | hgone
      · exact hkeep
      · exact absurd (hj.symm.trans hgone) nofun

/-! ## The page fault -/

section Fault

variable {Q : Unit → Sys → Prop}

theorem acquire_wp (hE : E (.panic "acquire")) (hQ : ∀ t, t.shared = s.shared → Q () t) : wp acquire Q E s :=
  shared_wp (acquire_quiet fun _ _ => rfl)
    (Stops.bind (Stops.read _) fun _ => Stops.ite (fun _ => Stops.stop hE) fun _ => Stops.modify _) fun _ => hQ

theorem release_wp (hE : E (.panic "release")) (hQ : ∀ t, t.shared = s.shared → Q () t) : wp release Q E s :=
  shared_wp (release_quiet fun _ _ => rfl)
    (Stops.bind (Stops.read _) fun _ => Stops.ite (fun _ => Stops.modify _) fun _ => Stops.stop hE) fun _ => hQ

theorem findArea_congr {P : Area → Bool} (h : t.maps = s.maps) : t.findArea P = s.findArea P := by
  unfold Sys.findArea
  rw [h]

/-- The page of `p` at `va`, as the area grants it. -/
def AtPage (p : Fin nproc) (va : Addr) (a : Area) (q : Fin nproc) (m : Frame) (e : Pte) : Prop :=
  q = p ∧ m = pageNum va ∧ Granted a e

theorem writes_iff (hs : a.Shape) : (1#32).slt a.prot = true ↔ a.prot &&& protWrite ≠ 0 := by
  rcases hs.prot with hp | hp
  · rw [hp]
    decide
  · rw [hp]
    decide

theorem Area.Shape.covers_iff (hs : a.Shape) (x : Addr) : a.covers x = true ↔ a.holds x.toNat := by
  have htop := hs.top
  have hend : (a.addr + a.length).toNat = a.addr.toNat + a.length.toNat := by
    rw [BitVec.toNat_add]
    omega
  unfold Area.covers Area.holds
  rw [Bool.and_eq_true, decide_eq_true_eq, decide_eq_true_eq, BitVec.le_def, BitVec.lt_def, hend]

theorem Area.Shape.holds_covers (hs : a.Shape) {va : Addr} (ha : pgRoundDown va = va) (hc : a.covers va = true) :
    a.holds ((pageNum va).toNat * 4096) := by
  have hal := pgRoundDown_eq_self.1 ha
  have hin := (hs.covers_iff va).1 hc
  unfold Area.holds at hin ⊢
  rw [pageNum_toNat]
  omega

theorem mapFault_wp {u : Sys} {va : Addr} {page : Frame} (hs : a.Shape) (ha : pgRoundDown va = va)
    (hn : Missing p (pageNum va) s) (hu : u.shared = s.shared) :
    wp (do mapPage p va page ((if (1#32).slt a.prot then pteW else 0) ||| pteU); release; pure (1 : Int) : M Int)
      (fun _ t => Adds (AtPage p va a) s t) NoRemap u := by
  rw [Prog.wp_bind]
  refine (mapPage_grants noRemap_wild ha (writes_iff hs) hn hu).imp fun _ v hv => ?_
  rw [Prog.wp_bind]
  exact release_wp noRemap_release fun w hw => adds_frame.trans hv (adds_shared hw)

theorem pageFaultHandler_wp {va : Addr} {io : Word} (h : Tidy s)
    (hmiss : ∀ i, s.findArea (Area.faults p (pgRoundDown va)) = some i → (s.maps i).prot.slt io = false →
      Missing p (pageNum (pgRoundDown va)) s) :
    wp (pageFaultHandler p va io) (fun _ t => Adds (Settled s.maps) s t) NoRemap s := by
  have hstill : ∀ t : Sys, t.shared = s.shared → Adds (Settled s.maps) s t := fun t ht => adds_shared ht
  unfold pageFaultHandler
  rw [Prog.wp_bind]
  refine acquire_wp noRemap_acquire fun t ht => ?_
  have hmaps : t.maps = s.maps := shared_maps ht
  rw [Prog.wp_bind, Prog.wp_read, findArea_congr hmaps]
  cases hi : s.findArea (Area.faults p (pgRoundDown va)) with
  | none =>
    dsimp only
    rw [Prog.wp_bind]
    exact release_wp noRemap_release fun u hu => hstill u (hu.trans ht)
  | some i =>
    dsimp only
    obtain ⟨hcov, hown⟩ := Bool.and_eq_true_iff.1 (findArea_some.1 hi).1
    have hs : (s.maps i).Shape := h.shape i (ownedBy_iff.1 hown).1
    have hal : pgRoundDown (pgRoundDown va) = pgRoundDown va := by
      rw [pgRoundDown_eq_self, toNat_pgRoundDown]
      omega
    rw [Prog.wp_bind, Prog.wp_read, hmaps]
    refine Prog.wp_ite (fun _ => ?_) fun hprot => ?_
    · rw [Prog.wp_bind]
      exact release_wp noRemap_release fun u hu => hstill u (hu.trans ht)
    have hn := hmiss i hi (Bool.eq_false_iff.2 hprot)
    have hsettled : ∀ u, Adds (AtPage p (pgRoundDown va) (s.maps i)) s u → Adds (Settled s.maps) s u := by
      refine fun u hu => hu.mono fun q m e hm => ?_
      obtain ⟨rfl, rfl, hgr⟩ := hm
      exact ⟨i, hown, hs.holds_covers hal hcov, hgr⟩
    cases hf : (s.maps i).f with
    | null =>
      dsimp only
      rw [Prog.wp_bind]
      refine zeroedPage_wp noRemap_wild fun page u hu => ?_
      exact (mapFault_wp hs hal hn (hu.trans ht)).imp fun _ w hw => hsettled w hw
    | file j =>
      dsimp only
      rw [Prog.wp_bind]
      refine zeroedPage_wp noRemap_wild fun page u hu => ?_
      rw [Prog.wp_bind]
      refine release_wp noRemap_release fun u' hu' => ?_
      rw [Prog.wp_bind, Prog.wp_get, Prog.wp_bind]
      refine readPage_wp noRemap_wild noRemap_fileread fun v hv => ?_
      rw [Prog.wp_bind, Prog.wp_read, Prog.wp_bind, Prog.wp_emit, Prog.wp_bind]
      refine setOff_wp noRemap_wild fun w hw => ?_
      rw [Prog.wp_bind]
      refine acquire_wp noRemap_acquire fun x hx => ?_
      have hxs : x.shared = s.shared := hx.trans (hw.trans (hv.trans (hu'.trans (hu.trans ht))))
      exact (mapFault_wp hs hal hn hxs).imp fun _ y hy => hsettled y hy
    | wild =>
      dsimp only
      rw [Prog.wp_bind]
      refine zeroedPage_wp noRemap_wild fun page u hu => ?_
      rw [Prog.wp_bind]
      refine release_wp noRemap_release fun u' hu' => ?_
      rw [Prog.wp_bind, Prog.wp_get, Prog.wp_bind]
      refine readPage_wp noRemap_wild noRemap_fileread fun v hv => ?_
      exact noRemap_wild

/-- **An access keeps the areas tidy**: where the hardware refuses it and an area grants it, the page is not there. -/
theorem touch_wp (h : Tidy s) (va : Addr) (write : Bool) :
    wp (touch p va write) (fun _ t => Adds (Settled s.maps) s t) NoRemap s := by
  unfold touch
  rw [Prog.wp_bind]
  refine follow_wp noRemap_wild fun g hg => Prog.wp_ite (fun _ => adds_frame.refl s) fun huser => ?_
  rw [Prog.wp_bind]
  refine pageFaultHandler_wp h fun i hi hprot g' hg' => ?_
  obtain rfl : g = g' := Option.some.inj (hg.symm.trans hg')
  obtain ⟨hcov, hown⟩ := Bool.and_eq_true_iff.1 (findArea_some.1 hi).1
  have hs : (s.maps i).Shape := h.shape i (ownedBy_iff.1 hown).1
  have hal : pgRoundDown (pgRoundDown va) = pgRoundDown va := by
    rw [pgRoundDown_eq_self, toNat_pgRoundDown]
    omega
  have hnum : pageNum (pgRoundDown va) = pageNum va := by
    refine BitVec.eq_of_toNat_eq ?_
    rw [pageNum_toNat, pageNum_toNat, toNat_pgRoundDown]
    omega
  have hin := hs.holds_covers hal hcov
  rw [hnum] at hin ⊢
  cases hm : g.mapped (pageNum va) with
  | false => rfl
  | true =>
    -- the page is there, as this area grants it, so the access was let through
    obtain ⟨j, hj, hx, hgr⟩ := h.pages p g _ hg (hs.upper hin) hm
    obtain rfl := h.apart p i j _ hown hj hin hx
    refine absurd ?_ huser
    have hpage := hm
    rw [mapped_pageNum, Bool.and_eq_true] at hpage
    have hwrite : write = true → (g.pte (pageNum va)).getLsbD 1 = true := fun hw => by
      rw [hw, if_pos rfl] at hprot
      refine hgr.2.2 ?_
      rcases hs.prot with hp | hp
      · rw [hp] at hprot
        exact absurd hprot (by decide)
      · rw [hp]
        decide
    unfold Space.user
    rw [hpage.1, hpage.2, hgr.1]
    cases write with
    | false => rfl
    | true => rw [hwrite rfl]; rfl

end Fault

/-! ## Runs -/

def Spaced (s : Sys) : Prop := ∀ p i j, (s.maps i).ownedBy p = true → (s.maps j).ownedBy p = true → i ≠ j →
  (s.maps i).addr.toNat + (s.maps i).length.toNat < (s.maps j).addr.toNat ∨
    (s.maps j).addr.toNat + (s.maps j).length.toNat < (s.maps i).addr.toNat

/-- The range of a new area ends below `KERNBASE`, and touches no own area. -/
def Roomy (s : Sys) (p : Fin nproc) (addr length : Word) : Prop :=
  addr.toNat + length.toNat ≤ 1073741824 ∧ ∀ i, (s.maps i).ownedBy p = true →
    (s.maps i).addr.toNat + (s.maps i).length.toNat < addr.toNat + 1073741824 ∨
      addr.toNat + 1073741824 + length.toNat < (s.maps i).addr.toNat

/-- **The condition on a call**: an area that `mmap` makes has an entry, and room. -/
def Clear (s : Sys) : MmCall → Prop
  | .mmap p addr length prot flags fd offset =>
    validArgs addr length prot flags fd offset = true → s.clash p addr = false →
      s.free.isSome = true ∧ Roomy s p addr length
  | _ => True

instance (s : Sys) (p : Fin nproc) (addr length : Word) : Decidable (Roomy s p addr length) :=
  inferInstanceAs (Decidable (_ ∧ _))

instance (s : Sys) : DecidablePred (Clear s)
  | .mmap p addr length _ _ _ _ => inferInstanceAs (Decidable (_ → _ → _ ∧ Roomy s p addr length))
  | .munmap ..                  => isTrue trivial
  | .touch ..                   => isTrue trivial

/-- No area is in use, and no page is there between `MMAPBASE` and `KERNBASE`. -/
structure Clean (s : Sys) : Prop where
  maps  : ∀ i, (s.maps i).state = .unusing
  pages : ∀ p g n, s.pgdir p = some g → upper n → g.mapped n = false

/-- No two areas of a process overlap, and none is found for an address of another. -/
structure Single (s : Sys) : Prop where
  apart : ∀ p i j x, (s.maps i).ownedBy p = true → (s.maps j).ownedBy p = true → (s.maps i).holds x →
    (s.maps j).holds x → i = j
  fault : ∀ p i j x, (s.maps i).faults p x = true → (s.maps j).faults p x = true → i = j
  unmap : ∀ p i j x, (s.maps i).reaches p x = true → (s.maps j).reaches p x = true → i = j

theorem Roomy.fits {addr length : Word} (h : Roomy s p addr length) : FitsRange s p addr length :=
  ⟨h.1, fun i hi => (h.2 i hi).imp (fun hlt => by omega) fun hlt => by omega⟩

theorem Clean.tidy (h : Clean s) : Tidy s where
  shape i hi := by
    rw [h.maps i] at hi
    cases hi
  apart p i _ _ hi := by
    rw [ownedBy_iff, h.maps i] at hi
    cases hi.1
  pages p g n hg hu hm := by
    rw [h.pages p g n hg hu] at hm
    cases hm

theorem Clean.spaced (h : Clean s) : Spaced s := by
  intro p i _ hi
  rw [ownedBy_iff, h.maps i] at hi
  cases hi.1

theorem Tidy.single (h : Tidy s) (hs : Spaced s) : Single s where
  apart := h.apart
  fault p i j x hi hj := by
    obtain ⟨hxi, hi⟩ := Bool.and_eq_true_iff.1 hi
    obtain ⟨hxj, hj⟩ := Bool.and_eq_true_iff.1 hj
    refine h.apart p i j x.toNat hi hj ?_ ?_
    · exact ((h.shape i (ownedBy_iff.1 hi).1).covers_iff x).1 hxi
    · exact ((h.shape j (ownedBy_iff.1 hj).1).covers_iff x).1 hxj
  unmap p i j x hi hj := by
    obtain ⟨hxi, hi⟩ := Bool.and_eq_true_iff.1 hi
    obtain ⟨hxj, hj⟩ := Bool.and_eq_true_iff.1 hj
    by_contra hne
    have hsi := (h.shape i (ownedBy_iff.1 hi).1).top
    have hsj := (h.shape j (ownedBy_iff.1 hj).1).top
    have hgap := hs p i j hi hj hne
    rw [Bool.and_eq_true, decide_eq_true_eq, decide_eq_true_eq, BitVec.le_def, BitVec.le_def, BitVec.toNat_add] at hxi hxj
    omega

theorem Spaced.opens {addr length prot flags fd offset : Word} (h : Spaced s)
    (hc : Clear s (.mmap p addr length prot flags fd offset)) (ht : Opens p addr length prot flags fd offset s t) :
    Spaced t := by
  rcases ht with hm | ⟨hv, hclash, i, f, off, b, hm⟩
  · intro q j k
    rw [hm]
    exact h q j k
  have hmi : t.maps i = ((s.maps i).init p addr length prot flags).opened f off b := by rw [hm, setArea_maps]
  have hmk : ∀ k, k ≠ i → t.maps k = s.maps k := fun k hki => by rw [hm, setArea_other hki]
  have hroom : Roomy s p addr length := (hc hv hclash).2
  have hstart := hroom.fits.start
  have hnew : ∀ q k, k ≠ i → (t.maps i).ownedBy q = true → (t.maps k).ownedBy q = true →
      (t.maps k).addr.toNat + (t.maps k).length.toNat < (t.maps i).addr.toNat ∨
        (t.maps i).addr.toNat + (t.maps i).length.toNat < (t.maps k).addr.toNat := by
    intro q k hki hi hk
    rw [hmi] at hi ⊢
    rw [hmk k hki] at hk ⊢
    obtain rfl : p = q := Option.some.inj (ownedBy_iff.1 hi).2
    have hgap := hroom.2 k hk
    unfold Area.opened Area.init
    dsimp only
    omega
  intro q j k hj hk hjk
  by_cases hji : j = i
  · subst hji
    exact (hnew q k hjk.symm hj hk).symm
  · by_cases hki : k = i
    · subst hki
      exact hnew q j hjk hk hj
    · rw [hmk j hji] at hj ⊢
      rw [hmk k hki] at hk ⊢
      exact h q j k hj hk hjk

theorem Spaced.closes (h : Spaced s) (ht : Closes s t) : Spaced t := by
  have hkeep : ∀ {q j}, (t.maps j).ownedBy q = true → t.maps j = s.maps j := by
    intro q j hj
    refine (ht j).resolve_right fun hgone => ?_
    rw [ownedBy_iff, hgone] at hj
    cases hj.1
  intro q j k hj hk hjk
  have hsj := hkeep hj
  have hsk := hkeep hk
  rw [hsj] at hj ⊢
  rw [hsk] at hk ⊢
  exact h q j k hj hk hjk

theorem mmStep_wp (c : MmCall) (h : Tidy s ∧ Spaced s) (hc : Clear s c) :
    wp (mmStep c) (fun _ t => Tidy t ∧ Spaced t) NoRemap s := by
  obtain ⟨ht, hs⟩ := h
  cases c with
  | mmap p addr length prot flags fd offset =>
    refine Prog.wp_bind.2 ((mmap_wp ht fun hv hclash => (hc hv hclash).2.fits).imp fun _ t h => ?_)
    exact ⟨h.1, hs.opens hc h.2.2⟩
  | munmap p addr => exact Prog.wp_bind.2 ((munmap_wp ht addr).imp fun _ t h => ⟨h.1, hs.closes h.2.2⟩)
  | touch p va write =>
    refine (touch_wp ht va write).imp fun _ t h => ⟨ht.adds h, ?_⟩
    intro q j k
    rw [h.maps]
    exact hs q j k

theorem sample_clean : Clean sample where
  maps _ := rfl
  pages p g n hg _ := by
    have hspace : g = sampleSpace := by
      change (if p = 0 then some sampleSpace else none) = some g at hg
      split at hg
      · exact (Option.some.inj hg).symm
      · cases hg
    rw [hspace]
    unfold Space.mapped
    have hz : ¬ present (sampleSpace.pte n) := not_present_zero
    rw [decide_eq_false hz, Bool.and_false]

/-- Two areas of two pages, two pages apart, and a page of each. -/
def twoAreas : List MmCall :=
  [.mmap 0 0 8192 protRead 0 3 0, .mmap 0 16384 8192 protRead 0 3 0, .touch 0 0x40001000#32 false,
    .touch 0 0x40004000#32 false]

/-- The second area starts in front of the first and ends behind it. -/
def around : List MmCall := [.mmap 0 8192 4096 protRead 0 3 0, .mmap 0 4096 12288 protRead 0 3 0]

end Vm
end Xv6
