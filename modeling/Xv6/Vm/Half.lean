import Xv6.Vm.Apart
import Xv6.Vm.Heap
import Xv6.Vm.Lock
/-!
# Vm.Half — mappings below KERNBASE

`mmap` adds `MMAPBASE` to the address it is given and looks no further up.  Where each area that it makes ends below
`KERNBASE`, the mapping calls walk to no page above, and `freevm`, which gives up the pages below, gives up all of theirs.
-/
namespace Xv6
namespace Vm

open Mem
open Prog (wp Quiet Triple Admits)
open Sched (nproc)

/-- A walk of the mapping calls is to a page below `KERNBASE`. -/
def UserPage (e : Event) : Prop := ∀ va, e = .mm (.walk va) → va < kernbase

/-- The areas in use are whole pages between `MMAPBASE` and `KERNBASE`. -/
def Shaped (s : Sys) : Prop := ∀ i, (s.maps i).state = .using → (s.maps i).Shape

/-- **The condition on a call**: an area that `mmap` makes ends below `KERNBASE`. -/
def Low (s : Sys) : Call → Prop
  | .mm (.mmap p addr length prot flags fd offset) => s.runs p = true →
    validArgs addr length prot flags fd offset = true → s.clash p addr = false →
      addr.toNat + length.toNat ≤ 1073741824
  | _ => True

instance (s : Sys) : DecidablePred (Low s)
  | .mm (.mmap _ addr length _ _ _ _) =>
    inferInstanceAs (Decidable (_ → _ → _ → addr.toNat + length.toNat ≤ 1073741824))
  | .mm (.munmap ..) => isTrue trivial
  | .mm (.touch ..)  => isTrue trivial
  | .userinit _      => isTrue trivial
  | .read ..         => isTrue trivial
  | .fork _          => isTrue trivial
  | .exec ..         => isTrue trivial
  | .exit _          => isTrue trivial
  | .wait _          => isTrue trivial
  | .sbrk ..         => isTrue trivial
  | .setFd ..        => isTrue trivial
  | .setFile ..      => isTrue trivial
  | .table _         => isTrue trivial

/-- The areas are in the user half, and `freevm`, which ends unless `kfree` refuses a frame, frees every page there. -/
structure UserHalf (s : Sys) : Prop where
  area  : ∀ i, (s.maps i).state = .using →
    1073741824 ≤ (s.maps i).addr.toNat ∧ (s.maps i).addr.toNat + (s.maps i).length.toNat ≤ 2147483648
  freed : ∀ g : Space, wp (freevm g) (fun _ t => ∀ n, n.toNat * 4096 < 2147483648 → g.mapped n = true →
    g.frame n ∈ t.freelist) (fun _ => True) s.phys

variable {α : Type} {s t : Sys} {p np : Fin nproc} {i : Fin nmaps} {a : Area} {G : Event → Prop}

/-! ## freevm -/

section Freevm

variable {g : Space} {k : Phys} {f : Frame}

theorem kfree_mem (x : Frame) (hf : f ∈ k.freelist) : wp (kfree x) (fun _ t => f ∈ t.freelist) (fun _ => True) k :=
  kfree_wp (fun _ t ht _ => by rw [ht]; exact List.mem_cons_of_mem x hf) fun _ => trivial

theorem freeTables_wp : ∀ (l : List (BitVec 10)) (k : Phys), (f ∈ k.freelist ∨ ∃ d ∈ l, g.pde d = some f) →
    wp (Prog.forEach l fun d => match g.pde d with | none => pure () | some t => kfree t)
      (fun _ t => f ∈ t.freelist) (fun _ => True) k
  | [], k, h => h.resolve_right fun ⟨_, hd, _⟩ => by cases hd
  | d :: l, k, h => by
    rw [Prog.forEach_cons, Prog.wp_bind]
    cases hd : g.pde d with
    | none =>
      refine freeTables_wp l k (h.imp_right fun ⟨e, he, hf⟩ => ⟨e, ?_, hf⟩)
      refine (List.mem_cons.1 he).resolve_left ?_
      rintro rfl
      rw [hd] at hf
      cases hf
    | some x =>
      refine kfree_wp (fun _ t ht _ => freeTables_wp l t ?_) fun _ => trivial
      rw [ht]
      rcases h with h | ⟨e, he, hf⟩
      · exact .inl (List.mem_cons_of_mem x h)
      · rcases List.mem_cons.1 he with rfl | he
        · obtain rfl : x = f := Option.some.inj (hd.symm.trans hf)
          exact .inl List.mem_cons_self
        · exact .inr ⟨e, he, hf⟩

theorem mem_pdes (d : BitVec 10) : d ∈ pdes := List.mem_map.2 ⟨d.toFin, List.mem_finRange _, rfl⟩

/-- **`freevm`** frees every page below `KERNBASE`. -/
theorem freevm_frees (g : Space) (k : Phys) : wp (freevm g) (fun _ t => ∀ n, n.toNat * 4096 < 2147483648 →
    g.mapped n = true → g.frame n ∈ t.freelist) (fun _ => True) k := by
  have hone : ∀ n : Frame, n.toNat * 4096 < 2147483648 → g.mapped n = true →
      wp (freevm g) (fun _ t => g.frame n ∈ t.freelist) (fun _ => True) k := by
    intro n hn hm
    have hall := mem_pdes
    unfold freevm
    generalize pdes = l at hall ⊢
    rw [Prog.wp_bind]
    have hdealloc : wp (deallocuvm g kernbase 0)
        (fun r t => Shrunk g k (within (pgRoundUp 0).toNat kernbase.toNat) r.2 t) (fun _ => True) k :=
      (deallocuvm_wp (by decide) (by decide)).mono (fun _ _ h => h.2) fun _ _ => trivial
    refine hdealloc.imp fun r t hr => ?_
    have hlow : ∀ m : Frame, m.toNat < 524288 → r.2.mapped m = false := by
      intro m hlt
      cases hmm : r.2.mapped m with
      | false => rfl
      | true =>
        have hnot := ((hr.mapped m).1 hmm).2
        refine absurd ?_ hnot
        unfold within
        rw [show (pgRoundUp 0).toNat = 0 from rfl, show kernbase.toNat = 2147483648 from rfl]
        omega
    have hmem : g.frame n ∈ owned r.2 t := by
      rw [hr.owned]
      exact frame_mem_owned (by omega) hm
    have hpages : r.2.pages = 0 := by
      refine Multiset.eq_zero_of_forall_notMem fun x hx => ?_
      obtain ⟨m, hmx⟩ := mem_held.1 hx
      by_cases hlt : m.toNat < 524288
      · simp [hlow m hlt] at hmx
      · simp [hlt] at hmx
    unfold owned at hmem
    rw [hpages, add_zero, Multiset.mem_add] at hmem
    rw [Prog.wp_bind]
    refine (freeTables_wp (g := r.2) l t ?_).imp fun _ u hu => kfree_mem _ hu
    refine hmem.imp (fun h => Multiset.mem_coe.1 h) fun h => ?_
    obtain ⟨d, hd⟩ := mem_held.1 h
    exact ⟨d, hall d, hd⟩
  unfold Prog.wp
  split
  · rename_i u hu
    exact fun n hn hm => (hone n hn hm).ok hu
  · trivial

end Freevm

/-! ## Parts that leave the areas alone -/

theorem userPage_mm {e : PhysEvent} (h : ∀ va, e ≠ .walk va) : UserPage (.mm e) := fun va he => by
  cases he
  exact absurd rfl (h va)

theorem userPage_kfree (f : Frame) : UserPage (.mm (.kfree f)) := userPage_mm fun _ => nofun
theorem userPage_fileread (b : Bool) : UserPage (.fileread b) := fun _ h => by cases h

theorem maps_view : ∀ s t : Sys, Alike s t → s.maps = t.maps := fun _ _ h => h.maps

/-- A part that leaves the areas alone, and walks to pages below `KERNBASE`. -/
abbrev Still (c : M α) : Prop := Quiet Sys.maps UserPage c

theorem Shaped.congr (hm : t.maps = s.maps) (h : Shaped s) : Shaped t := by
  unfold Shaped
  rw [hm]
  exact h

theorem Shaped.setArea (h : Shaped s) (ha : a.state = .using → a.Shape) : Shaped (s.setArea i a) := by
  intro j hj
  by_cases hji : j = i
  · rw [hji, show (s.setArea i a).maps i = a from if_pos rfl] at hj ⊢
    exact ha hj
  · rw [show (s.setArea i a).maps j = s.maps j from if_neg hji] at hj ⊢
    exact h j hj

theorem Still.shaped {c : M α} (hc : Still c) : Triple G UserPage Shaped c (fun _ => Shaped) :=
  Triple.quiet hc fun _ _ hm hs => hs.congr hm

theorem Still.at {c : M α} (hc : Still c) (hs : Shaped s) : Triple G UserPage (fun t => t = s) c (fun _ => Shaped) :=
  hc.shaped.weaken fun _ ht => ht ▸ hs

theorem Area.Shape.page_low (hs : a.Shape) {k : Nat} (hk : k < a.npages) :
    pgRoundDown (a.page k) = a.page k ∧ a.page k < kernbase := by
  have hpage := (hs.flat.page_toNat hk).2
  have hal := hs.aligned
  have htop := hs.top
  have hwh := hs.whole
  rw [hs.flat.npages] at hk
  rw [pgRoundDown_eq_self, BitVec.lt_def, hpage]
  show _ ∧ _ < 2147483648
  omega

theorem mapPage_still {va : Addr} (ha : pgRoundDown va = va) (hk : va < kernbase) (page : Frame) (perm : Pte) :
    Still (mapPage p va page perm) :=
  mapPage_quiet maps_view (fun _ _ _ => rfl) p page perm fun _ _ => mappages_only ha fun va' he => by cases he; exact hk

theorem zeroedPage_still : Still zeroedPage := zeroedPage_quiet maps_view

theorem readPage_still (f : FileRef) (page : Frame) : Still (readPage p f page) :=
  readPage_quiet maps_view p f page userPage_fileread

theorem setOff_still (f : FileRef) (off : Word) : Still (setOff p f off) := setOff_quiet maps_view p f off

theorem acquire_still : Still acquire := acquire_quiet fun _ _ => rfl
theorem release_still : Still release := release_quiet fun _ _ => rfl

theorem pages_still {body : Nat → M Unit} (hs : a.Shape)
    (hb : ∀ k, pgRoundDown (a.page k) = a.page k → a.page k < kernbase → Still (body k)) :
    Still (Prog.forEach (List.range a.npages) body) := by
  refine Quiet.forEach _ fun k hk => ?_
  obtain ⟨hal, hlow⟩ := hs.page_low (List.mem_range.1 hk)
  exact hb k hal hlow

theorem anonymousPages_still (hs : a.Shape) (perm : Pte) : Still (Prog.forEach (List.range a.npages) (fun n => do
    let page ← zeroedPage
    mapPage p (a.page n) page perm)) :=
  pages_still hs fun _ hal hlow => Quiet.bind zeroedPage_still fun page => mapPage_still hal hlow page perm

theorem filePages_still (hs : a.Shape) (perm : Pte) : Still (Prog.forEach (List.range a.npages) (fun n => do
    let page ← zeroedPage
    readPage p a.f page
    setOff p a.f a.offset
    mapPage p (a.page n) page perm)) :=
  pages_still hs fun _ hal hlow => Quiet.bind zeroedPage_still fun page => Quiet.bind (readPage_still _ page) fun _ =>
    Quiet.bind (setOff_still _ _) fun _ => mapPage_still hal hlow page perm

/-! ## mmap -/

/-- The areas are in shape, and the entry `i` is in use. -/
def ShapedAt (i : Fin nmaps) (s : Sys) : Prop := Shaped s ∧ (s.maps i).state = .using

theorem populateAnonymous_shaped : Triple G UserPage (ShapedAt i) (mapPopulateAnonymous p i) (fun _ => Shaped) :=
  Triple.read_bind fun _ hs => (anonymousPages_still (hs.1 i hs.2) _).at hs.1

theorem populateFile_shaped : Triple G UserPage (ShapedAt i) (mapPopulateFile p i) (fun _ => Shaped) :=
  Triple.read_bind fun _ hs => (filePages_still (hs.1 i hs.2) _).at hs.1

theorem openArea_shaped (fd offset : Word) :
    Triple G UserPage (ShapedAt i) (openArea p i fd offset) (fun b s => if b then ShapedAt i s else Shaped s) := by
  have hmaps : ∀ s t : Sys, t.maps = s.maps → ShapedAt i s → ShapedAt i t := fun s t hm hs =>
    ⟨hs.1.congr hm, by rw [hm]; exact hs.2⟩
  unfold openArea
  refine Triple.bind (Q := fun _ => ShapedAt i) (Triple.modify fun s hs => ?_) fun _ => ?_
  · have hstate : ((s.setArea i { s.maps i with f := s.ofileAt p fd, offset := offset }).maps i).state = .using :=
      (congrArg Area.state (if_pos rfl)).trans hs.2
    exact ⟨hs.1.setArea fun _ => ⟨(hs.1 i hs.2).aligned, (hs.1 i hs.2).whole, (hs.1 i hs.2).base, (hs.1 i hs.2).top,
      (hs.1 i hs.2).prot⟩, hstate⟩
  refine Triple.bind (Triple.quiet (Quiet.read _) hmaps) fun f =>
    Triple.bind (Triple.quiet (setOff_still f offset) hmaps) fun _ => ?_
  refine Triple.bind (Triple.quiet (compareProt_quiet p i) hmaps) fun b => ?_
  cases b with
  | true => exact Triple.pure true fun _ hs => hs
  | false =>
    refine Triple.bind (Q := fun _ => Shaped) (Triple.modify fun s hs => ?_) fun _ => Triple.pure false fun _ hs => hs
    exact hs.1.setArea nofun

theorem mapArea_shaped (addr flags fd offset : Word) :
    Triple G UserPage (ShapedAt i) (mapArea p i addr flags fd offset) (fun _ => Shaped) := by
  unfold mapArea
  refine Triple.ite (fun _ => Triple.ite (fun _ => ?_) fun _ => ?_) fun _ => ?_
  · exact Triple.bind populateAnonymous_shaped fun _ => Triple.pure _ fun _ hs => hs
  · refine Triple.bind (openArea_shaped fd offset) fun b => ?_
    cases b with
    | true => exact Triple.bind populateFile_shaped fun _ => Triple.pure _ fun _ hs => hs
    | false => exact Triple.pure _ fun _ hs => hs
  · refine Triple.bind (openArea_shaped fd offset) fun b => ?_
    cases b with
    | true => exact Triple.pure _ fun _ hs => hs.1
    | false => exact Triple.pure _ fun _ hs => hs

theorem mmap_shaped {addr length prot flags fd offset : Word} (hs : Shaped s)
    (hc : validArgs addr length prot flags fd offset = true → s.clash p addr = false →
      addr.toNat + length.toNat ≤ 1073741824) :
    Triple G UserPage (fun t => t = s) (mmap p addr length prot flags fd offset) (fun _ => Shaped) := by
  cases hv : validArgs addr length prot flags fd offset with
  | false => exact Triple.of_run (mmap_invalid hv) hs
  | true =>
    cases hl : s.locked with
    | true => exact Triple.stopped (mmap_locked hv hl)
    | false =>
      cases hcl : s.clash p addr with
      | true => exact Triple.of_run (mmap_clash hv hl hcl) hs
      | false =>
        cases hi : s.free with
        | none => exact Triple.stopped (mmap_full hv hl hcl hi)
        | some i =>
          have htop := hc hv hcl
          have hvalid := validArgs_valid hv
          have hstart : (addr + mmapBase).toNat = addr.toNat + 1073741824 := by
            rw [BitVec.toNat_add]
            show (_ + 1073741824) % 4294967296 = _
            omega
          have hshape : ((s.maps i).init p addr length prot flags).Shape := by
            have hal := hvalid.aligned
            refine ⟨?_, hvalid.whole, ?_, ?_, hvalid.prot⟩
            all_goals
              unfold Area.init
              dsimp only
              omega
          refine Triple.run_congr (mmap_made hv hl hcl hi) (Triple.emit_at (fun _ => nofun) fun _ => ?_)
          refine (mapArea_shaped addr flags fd offset).weaken fun t ht => ?_
          subst ht
          exact ⟨hs.setArea fun _ => hshape, congrArg Area.state (if_pos rfl)⟩

/-! ## munmap, the page fault and map_fork -/

theorem munmap_shaped (addr : Addr) : Triple G UserPage Shaped (munmap p addr) (fun _ => Shaped) := by
  refine Triple.bind (Still.shaped acquire_still) fun _ => Triple.freeze fun s hs => ?_
  refine Triple.read_at (Triple.emit_at (fun _ => nofun) fun _ => Triple.read_at ?_)
  cases hi : s.findArea (Area.reaches p (addr + mmapBase)) with
  | none => exact Triple.bind (release_still.at hs) fun _ => Triple.pure _ fun _ hs => hs
  | some i =>
    have hown : (s.maps i).ownedBy p = true := (Bool.and_eq_true_iff.1 (findArea_some.1 hi).1).2
    have hshape := hs i (ownedBy_iff.1 hown).1
    refine Triple.read_at (Triple.bind (Still.at (pages_still hshape fun k hal hlow => ?_) hs) fun _ => ?_)
    · exact unmapPage_quiet maps_view (fun _ _ _ => rfl) p (fun _ he => by cases he; exact hlow) userPage_kfree
    · refine Triple.bind (Q := fun _ => Shaped) (Triple.modify fun t ht => Shaped.setArea ht nofun) fun _ => ?_
      exact Triple.bind (Still.shaped release_still) fun _ => Triple.pure _ fun _ hs => hs

theorem pageFaultHandler_shaped (va : Addr) (io : Word) :
    Triple G UserPage Shaped (pageFaultHandler p va io) (fun _ => Shaped) := by
  refine Triple.bind (Still.shaped acquire_still) fun _ => Triple.read_bind fun s hs => ?_
  cases hi : s.findArea (Area.faults p (pgRoundDown va)) with
  | none => exact Triple.bind (release_still.at hs) fun _ => Triple.pure _ fun _ hs => hs
  | some i =>
    obtain ⟨hcov, hown⟩ := Bool.and_eq_true_iff.1 (findArea_some.1 hi).1
    have hshape := hs i (ownedBy_iff.1 hown).1
    have hal : pgRoundDown (pgRoundDown va) = pgRoundDown va := by
      rw [pgRoundDown_eq_self, toNat_pgRoundDown]
      omega
    have hlow : pgRoundDown va < kernbase := by
      have hin := (hshape.covers_iff _).1 hcov
      have htop := hshape.top
      unfold Area.holds at hin
      rw [BitVec.lt_def]
      show _ < 2147483648
      omega
    have hmap : ∀ page perm, Still (mapPage p (pgRoundDown va) page perm) :=
      fun page perm => mapPage_still hal hlow page perm
    refine Triple.read_at (Triple.ite (fun _ => ?_) fun _ => ?_)
    · exact Triple.bind (release_still.at hs) fun _ => Triple.pure _ fun _ hs => hs
    · refine Still.at ?_ hs
      cases (s.maps i).f with
      | null =>
        exact Quiet.bind zeroedPage_still fun page => Quiet.bind (hmap page _) fun _ =>
          Quiet.bind release_still fun _ => Quiet.pure _
      | file j =>
        exact Quiet.bind zeroedPage_still fun page => Quiet.bind release_still fun _ => Quiet.bind Quiet.get fun _ =>
          Quiet.bind (readPage_still _ page) fun _ => Quiet.bind (Quiet.read _)
            fun _ => Quiet.bind (Quiet.emit nofun) fun _ =>
            Quiet.bind (setOff_still _ _) fun _ => Quiet.bind acquire_still fun _ => Quiet.bind (hmap page _) fun _ =>
              Quiet.bind release_still fun _ => Quiet.pure _
      | wild =>
        exact Quiet.bind zeroedPage_still fun page => Quiet.bind release_still fun _ => Quiet.bind Quiet.get fun _ =>
          Quiet.bind (readPage_still _ page) fun _ => Quiet.bind (setOff_still _ _)
            fun _ => Quiet.bind acquire_still fun _ =>
            Quiet.bind (hmap page _) fun _ => Quiet.bind release_still fun _ => Quiet.pure _

theorem mapFork_shaped (p np : Fin nproc) : Triple G UserPage Shaped (mapFork p np) (fun _ => Shaped) := by
  refine Triple.freeze fun s hs => ?_
  cases hl : s.locked with
  | true => exact Triple.stopped (Prog.bind_run_error (acquire_panic hl))
  | false =>
    by_cases h : ∃ i, (s.maps i).ownedBy p = true
    · obtain ⟨i, hi⟩ := h
      exact Triple.stopped (mapFork_stop hl hi)
    · exact Triple.of_run (mapFork_none hl fun i => Bool.eq_false_iff.2 fun hi => h ⟨i, hi⟩) hs

/-! ## Runs -/

theorem shaped_walk : Walk (fun α (c : M α) => Triple (fun _ => True) UserPage Shaped c fun _ => Shaped) where
  pure a := Triple.pure a fun _ hs => hs
  stop e := Triple.stop e
  read g := Still.shaped (Quiet.read g)
  bind hc hf := Triple.bind hc hf
  modify f hm _ := Still.shaped (Quiet.modify hm)
  vm _ := Still.shaped (vm_quiet (fun _ => nofun) fun _ _ => rfl)
  table _ := Still.shaped fun _ => ⟨rfl, fun e he => by cases he⟩
  space _ := Still.shaped (Quiet.emit nofun)
  freed _ _ := Still.shaped (Quiet.emit nofun)

theorem step_shaped (c : Call) (hs : Shaped s) (hc : Low s c) :
    Triple (fun _ => True) UserPage (fun t => t = s) (step c) (fun _ => Shaped) := by
  have hmm : ∀ m, s.runs m.proc = true → c = .mm m →
      Triple (fun _ => True) UserPage (fun t => t = s) (mmStep m) (fun _ => Shaped) := by
    rintro m hruns rfl
    cases m with
    | mmap p addr length prot flags fd offset =>
      exact Triple.bind (mmap_shaped hs (hc hruns)) fun _ => Triple.pure _ fun _ hs => hs
    | munmap p addr =>
      exact Triple.bind ((munmap_shaped addr).weaken fun _ ht => ht ▸ hs) fun _ => Triple.pure _ fun _ hs => hs
    | touch p va write =>
      refine Triple.bind (Still.at (follow_quiet _) hs) fun g =>
        Triple.ite (fun _ => Triple.pure _ fun _ hs => hs) fun _ => ?_
      exact Triple.bind (pageFaultHandler_shaped va _) fun _ => Triple.pure _ fun _ hs => hs
  refine Triple.read_at (g := id) (Triple.ite (fun hen => ?_) fun _ => Triple.pure_at hs)
  by_cases hm : ∃ m, c = .mm m
  · obtain ⟨m, rfl⟩ := hm
    exact hmm m hen rfl
  · exact (shaped_walk.body mapFork_shaped c fun m he => absurd ⟨m, he⟩ hm).weaken fun _ ht => ht ▸ hs

/-- Two pages are mapped, one is touched, and both are given up. -/
def mapLow : List Call :=
  [.mm (.mmap 0 0 8192 protRead 0 3 0), .mm (.touch 0 0x40001000#32 false), .mm (.munmap 0 0)]

/-- A page is mapped at `KERNBASE`. -/
def mapHigh : List Call := [.mm (.mmap 0 0x40000000#32 4096 protRead 0 3 0)]

end Vm
end Xv6
