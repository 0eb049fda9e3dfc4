import Xv6.Vm.Copy
import Xv6.Vm.Dealloc
import Xv6.Vm.Drawn
/-!
# Vm.Clone — the copy of an address space

`setupkvm` and `copyuvm` as a whole.  The frames that a new address space holds and those still free are, at any time,
those that were free before: so the frames are apart from all in use, and where memory runs out, after the first page
table or in the middle of a page, giving back what is held gives back everything.
-/
namespace Xv6
namespace Vm

open Mem
open Prog (wp)

variable {g g' d : Space} {s t u : Phys} {n m : Frame} {e : Addr × Addr × Addr × Pte} {E : Stop → Prop}

/-! ## The kernel's pages -/

/-- `phys_end - phys_start` of an entry of `kmap`. -/
def kmapSize (e : Addr × Addr × Addr × Pte) : Addr := e.2.2.1 - e.2.1

/-- The page `m` is one of those of the entry. -/
def inKmap (e : Addr × Addr × Addr × Pte) (m : Frame) : Prop :=
  e.1.toNat ≤ m.toNat * 4096 ∧ m.toNat * 4096 < e.1.toNat + (kmapSize e).toNat

def kmapPte (e : Addr × Addr × Addr × Pte) (m : Frame) : Pte := (e.2.1 + (frameAddr m - e.1)) ||| e.2.2.2 ||| pteP

/-- The entry is of whole pages from `KERNBASE` on, and does not wrap. -/
structure KmapEntry (e : Addr × Addr × Addr × Pte) : Prop where
  aligned : e.1.toNat % 4096 = 0
  base    : 2147483648 ≤ e.1.toNat
  pos     : 0 < (kmapSize e).toNat
  fits    : e.1.toNat + (kmapSize e).toNat ≤ 4294967296

/-- **The kernel half**: the pages of `kmap`, with their entries, and no others. -/
structure KernelHalf (kdata : Addr) (d : Space) : Prop where
  pages : ∀ e ∈ kmap kdata, ∀ m, inKmap e m → d.mapped m = true ∧ d.pte m = kmapPte e m
  only  : ∀ m, 524288 ≤ m.toNat → d.mapped m = true → ∃ e ∈ kmap kdata, inKmap e m

theorem Grown.kernelPage {pte : Pte} (h : Grown g s (fun _ => False) g' t) (hn : 524288 ≤ n.toNat)
    (hd : (g'.pde (dirIx n)).isSome = true) (hm : g'.mapped n = false) (he : present pte) :
    Grown g s (fun m => m = n) (g'.setPte n pte) t where
  mapped m := by
    rw [mapped_setPte]
    by_cases hmn : m = n
    · simp [hmn, hd, he]
    · simp [hmn, h.mapped]
  pte m hgm := by
    have hmn : m ≠ n := by
      rintro rfl
      rw [(h.mapped m).2 (.inl hgm)] at hm
      cases hm
    exact (pte_setPte hmn).trans (h.pte m hgm)
  fresh m hmn := by
    rw [hmn]
    refine Bool.eq_false_iff.2 fun hg => ?_
    rw [(h.mapped n).2 (.inl hg)] at hm
    cases hm
  owned := by
    have ho := h.owned
    unfold Vm.owned at ho ⊢
    rw [pages_setPte_kernel hn]
    exact ho
  dir := h.dir
  kend := h.kend
  free := h.free

/-- What `mappages` has mapped when it returns: all of the range, or a part. -/
structure Ranged (g : Space) (s : Phys) (lo last : Nat) (entry : Frame → Pte) (r : Bool × Space) (t : Phys) : Prop where
  grown : ∃ N, Grown g s N r.2 t ∧ (∀ m, N m → lo ≤ m.toNat * 4096 ∧ m.toNat * 4096 ≤ last) ∧
    (r.1 = true → ∀ m : Frame, lo ≤ m.toNat * 4096 → m.toNat * 4096 ≤ last → N m ∧ r.2.pte m = entry m)

theorem mappagesLoop_kernel {last : Addr} {perm : Pte} (hl : last.toNat % 4096 = 0) : ∀ (n : Nat) (g : Space) (s : Phys)
    (a pa : Addr), a.toNat % 4096 = 0 → a.toNat ≤ last.toNat → (last.toNat - a.toNat) / 4096 < n →
      2147483648 ≤ a.toNat → (∀ m : Frame, a.toNat ≤ m.toNat * 4096 → m.toNat * 4096 ≤ last.toNat → g.mapped m = false) →
        wp (mappagesLoop n g a last pa perm)
          (Ranged g s a.toNat last.toNat fun m => (pa + (frameAddr m - a)) ||| perm ||| pteP) E s := by
  intro n
  induction n with
  | zero => intro _ _ _ _ _ _ h; omega
  | succ n ih =>
    intro g s a pa ha0 ha hn hbase hfree
    have hnum := pageNum_toNat a
    have hfrm : frameAddr (pageNum a) = a := frameAddr_pageNum ha0
    have hpg : ∀ m : Frame, m.toNat * 4096 = a.toNat ↔ m = pageNum a := fun m => by
      rw [← BitVec.toNat_inj, hnum]
      omega
    unfold mappagesLoop
    rw [Prog.wp_bind]
    refine walkpgdirAlloc_wp (fun _ hnil t htnil hk => ?_) fun g' t hg' ht => ?_
    · -- no frame for a page table: nothing is mapped
      show Ranged g s _ _ _ (false, g) t
      refine ⟨fun _ => False, ⟨fun m => by simp, fun _ _ => rfl, fun _ => False.elim, ?_, rfl, hk, ?_⟩,
        fun _ => False.elim, fun h => by cases h⟩
      · unfold owned
        rw [htnil, hnil]
      · rw [htnil]
        exact List.nil_subset _
    have hm : g'.mapped (pageNum a) = false := by
      refine Bool.eq_false_iff.2 fun hmap => ?_
      have hgm := ((hg'.mapped _).1 hmap).resolve_right id
      rw [hfree _ (by omega) (by omega)] at hgm
      cases hgm
    have hm' := hm
    rw [mapped_pageNum, ht, Bool.true_and] at hm'
    dsimp only
    rw [if_neg (of_decide_eq_false hm')]
    have hpresent : present (pa ||| perm ||| pteP) := by
      simp only [present_iff, BitVec.getLsbD_or, getLsbD_pteP, decide_true, Bool.or_true]
    have hone : Grown g s (fun m => m = pageNum a) (g'.setPte (pageNum a) (pa ||| perm ||| pteP)) t :=
      hg'.kernelPage (by omega) (by rw [dirIx_pageNum]; exact ht) hm hpresent
    have hentry : (g'.setPte (pageNum a) (pa ||| perm ||| pteP)).pte (pageNum a) =
        (pa + (frameAddr (pageNum a) - a)) ||| perm ||| pteP := by
      rw [hfrm, BitVec.sub_self, BitVec.add_zero]
      exact if_pos rfl
    refine Prog.wp_ite (fun hal => ?_) fun hne => ?_
    · rw [Prog.wp_pure, ← hal]
      refine ⟨_, hone, fun m hmn => ?_, fun _ m hlo hhi => ?_⟩
      · have := (hpg m).2 hmn
        omega
      · obtain rfl := (hpg m).1 (by omega)
        exact ⟨rfl, hentry⟩
    · have hlt : a.toNat ≠ last.toNat := fun he => hne (BitVec.eq_of_toNat_eq he)
      have hlast := last.isLt
      have hnext : (a + pgsize).toNat = a.toNat + 4096 := toNat_nextPage (by omega)
      refine (ih _ t (a + pgsize) (pa + pgsize) (by omega) (by omega) (by omega) (by omega) fun m hlo hhi => ?_).imp
        fun r u hr => ?_
      · refine Bool.eq_false_iff.2 fun hmap => ?_
        rcases (hone.mapped m).1 hmap with hgm | hmn
        · rw [hfree m (by omega) hhi] at hgm
          cases hgm
        · have := (hpg m).2 hmn
          omega
      · obtain ⟨N, hN, hrange, hall⟩ := hr
        refine ⟨_, hone.trans hN, fun m hmN => ?_, fun htrue m hlo hhi => ?_⟩
        · rcases hmN with hmn | hmN
          · have := (hpg m).2 hmn
            omega
          · have := hrange m hmN
            omega
        · by_cases hmn : m = pageNum a
          · refine ⟨.inl hmn, ?_⟩
            rw [hmn, hN.pte _ ((hone.mapped _).2 (.inr rfl))]
            exact hentry
          · have hlo' : a.toNat + 4096 ≤ m.toNat * 4096 := by
              have hmne : m.toNat * 4096 ≠ a.toNat := fun h => hmn ((hpg m).1 h)
              omega
            obtain ⟨hmN, hpte⟩ := hall htrue m (by omega) hhi
            refine ⟨.inr hmN, hpte.trans ?_⟩
            have hsum : pa + pgsize + (frameAddr m - (a + pgsize)) = pa + (frameAddr m - a) := by ring
            rw [hsum]

theorem mappages_kernel (he : KmapEntry e) (hfree : ∀ m, inKmap e m → g.mapped m = false) :
    wp (mappages g e.1 (kmapSize e) e.2.1 e.2.2.2) (fun r t => ∃ N, Grown g s N r.2 t ∧ (∀ m, N m → inKmap e m) ∧
      (r.1 = true → ∀ m, inKmap e m → N m ∧ r.2.pte m = kmapPte e m)) E s := by
  obtain ⟨hal, hbase, hpos, hfits⟩ := he
  have hlast : (e.1 + kmapSize e - 1#32).toNat = e.1.toNat + (kmapSize e).toNat - 1 := toNat_last hpos hfits
  have hdown := toNat_pgRoundDown (e.1 + kmapSize e - 1#32)
  have hrange : ∀ m : Frame, inKmap e m ↔ e.1.toNat ≤ m.toNat * 4096 ∧
      m.toNat * 4096 ≤ (pgRoundDown (e.1 + kmapSize e - 1#32)).toNat := by
    intro m
    unfold inKmap
    omega
  unfold mappages
  rw [pgRoundDown_eq_self.2 hal]
  refine (mappagesLoop_kernel (by omega) maxPages g s e.1 e.2.1 hal (by omega) (by unfold maxPages; omega) hbase
    fun m hlo hhi => hfree m ((hrange m).2 ⟨hlo, hhi⟩)).imp fun r t hr => ?_
  obtain ⟨N, hN, hin, hall⟩ := hr
  exact ⟨N, hN, fun m hm => (hrange m).2 (hin m hm), fun h m hm => hall h m ((hrange m).1 hm).1 ((hrange m).1 hm).2⟩

theorem mapKernel_wp : ∀ (l : List (Addr × Addr × Addr × Pte)) (g : Space) (s : Phys), (∀ e ∈ l, KmapEntry e) →
    l.Pairwise (fun e e' => ∀ m, inKmap e m → ¬ inKmap e' m) → (∀ e ∈ l, ∀ m, inKmap e m → g.mapped m = false) →
      wp (mapKernel g l) (fun r t => ∃ N, Grown g s N r.2 t ∧ (∀ m, N m → ∃ e ∈ l, inKmap e m) ∧
        (r.1 = true → ∀ e ∈ l, ∀ m, inKmap e m → N m ∧ r.2.pte m = kmapPte e m)) E s
  | [], g, s, _, _, _ => ⟨_, .refl g s, fun _ => False.elim, fun _ e he => by cases he⟩
  | e :: l, g, s, hl, hp, hfree => by
    obtain ⟨hhead, htail⟩ := List.pairwise_cons.1 hp
    unfold mapKernel
    rw [Prog.wp_bind]
    refine (mappages_kernel (hl e List.mem_cons_self) (hfree e List.mem_cons_self)).imp fun r t hr => ?_
    obtain ⟨N, hN, hin, hall⟩ := hr
    refine Prog.wp_ite (fun hok => ?_) fun hno => ?_
    · refine (mapKernel_wp l r.2 t (fun e' he' => hl e' (List.mem_cons_of_mem e he')) htail fun e' he' m hm => ?_).imp
        fun r' u hr' => ?_
      · refine Bool.eq_false_iff.2 fun hmap => ?_
        rcases (hN.mapped m).1 hmap with hgm | hNm
        · rw [hfree e' (List.mem_cons_of_mem e he') m hm] at hgm
          cases hgm
        · exact hhead e' he' m (hin m hNm) hm
      · obtain ⟨N', hN', hin', hall'⟩ := hr'
        refine ⟨_, hN.trans hN', fun m hm => ?_, fun hok' e' he' m hm => ?_⟩
        · rcases hm with hm | hm
          · exact ⟨e, List.mem_cons_self, hin m hm⟩
          · obtain ⟨e', he', h⟩ := hin' m hm
            exact ⟨e', List.mem_cons_of_mem e he', h⟩
        · rcases List.mem_cons.1 he' with rfl | he'
          · obtain ⟨hNm, hpte⟩ := hall hok m hm
            exact ⟨.inl hNm, (hN'.pte m ((hN.mapped m).2 (.inr hNm))).trans hpte⟩
          · obtain ⟨hNm, hpte⟩ := hall' hok' e' he' m hm
            exact ⟨.inr hNm, hpte⟩
    · refine ⟨N, hN, fun m hm => ⟨e, List.mem_cons_self, hin m hm⟩, fun h => by cases h⟩

theorem kmap_apart {kdata : Addr} (h : kernlink < kdata ∧ kdata < kernbase + phystop) (hd : kdata.toNat % 4096 = 0) :
    (∀ e ∈ kmap kdata, KmapEntry e) ∧ (kmap kdata).Pairwise fun e e' => ∀ m, inKmap e m → ¬ inKmap e' m := by
  have hranges := kmap_ranges h
  have hlo : 2148532224 < kdata.toNat := h.1
  have hhi : kdata.toNat < 2382364672 := h.2
  obtain ⟨hcode, hdata⟩ := kmap_sizes h
  constructor
  · intro e he
    obtain ⟨h1, h2, h3⟩ := hranges e he
    refine ⟨?_, h1, h2, h3⟩
    unfold kmap at he
    simp only [List.mem_cons, List.not_mem_nil, or_false] at he
    rcases he with rfl | rfl | rfl | rfl
    · show kernbase.toNat % 4096 = 0
      decide
    · show kernlink.toNat % 4096 = 0
      decide
    · exact hd
    · show devspace.toNat % 4096 = 0
      decide
  · unfold kmap inKmap kmapSize
    simp only [List.pairwise_cons, List.forall_mem_cons, List.not_mem_nil, false_imp_iff, implies_true, and_true,
      List.Pairwise.nil, hcode, hdata]
    rw [show (extmem - 0).toNat = 1048576 from rfl, show kernbase.toNat = 2147483648 from rfl,
      show kernlink.toNat = 2148532224 from rfl, show devspace.toNat = 4261412864 from rfl]
    refine ⟨⟨fun m h1 => ?_, fun m h1 => ?_, fun m h1 => ?_⟩, ⟨fun m h1 => ?_, fun m h1 => ?_⟩, fun m h1 => ?_⟩ <;> omega

/-! ## The frames held -/

/-- `d` holds frames that were free in `s`, and with those still free they are all. -/
structure Holds (s : Phys) (d : Space) (t : Phys) : Prop where
  all  : d.dir ::ₘ owned d t = (s.freelist : Multiset Frame)
  mem  : ∀ f, f ∉ s.freelist → t.mem f = s.mem f
  kend : t.kend = s.kend

/-- The same frames are free as before, and nothing has been written to the others. -/
structure Returned (s t : Phys) : Prop where
  free : (t.freelist : Multiset Frame) = (s.freelist : Multiset Frame)
  mem  : ∀ f, f ∉ s.freelist → t.mem f = s.mem f

theorem owned_frames (d : Space) (t : Phys) : d.dir ::ₘ owned d t = (t.freelist : Multiset Frame) + d.frames := by
  unfold owned Space.frames
  rw [add_assoc, ← Multiset.add_cons]

theorem Holds.subset (h : Holds s d t) : t.freelist ⊆ s.freelist := by
  intro f hf
  rw [← Multiset.mem_coe, ← h.all, owned_frames]
  exact Multiset.mem_add.2 (.inl hf)

theorem Holds.frame_mem {f : Frame} (h : Holds s d t) (hf : f ∈ d.frames) : f ∈ s.freelist := by
  rw [← Multiset.mem_coe, ← h.all, owned_frames]
  exact Multiset.mem_add.2 (.inr hf)

theorem Holds.apart {f : Frame} (h : Holds s d t) (hs : s.freelist.Nodup) (hf : f ∈ d.frames) : f ∉ t.freelist := by
  rw [← Multiset.coe_nodup, ← h.all, owned_frames] at hs
  exact fun hin => Multiset.disjoint_left.1 (Multiset.nodup_add.1 hs).2.2 hin hf

theorem page_mem_frames (hn : n.toNat < 524288) (hm : d.mapped n = true) : d.frame n ∈ d.frames :=
  Multiset.mem_cons_of_mem (Multiset.mem_add.2 (.inr (mem_held.2 ⟨n, by simp [hn, hm]⟩)))

theorem Holds.grown {N : Frame → Prop} (h : Holds s d t) (hg : Grown d t N g u) (hd : Drawn t u) : Holds s g u := by
  refine ⟨?_, fun f hf => ?_, hg.kend.trans h.kend⟩
  · rw [hg.dir, hg.owned]
    exact h.all
  · exact (hd.kept fun hin => hf (h.subset hin)).trans (h.mem f hf)

theorem Holds.freevm (h : Holds s d t) (hgood : ∀ f ∈ s.freelist, s.good f) :
    wp (freevm d) (fun _ u => Returned s u) E t := by
  have hkeep : ∀ f ∈ d.frames, t.good f := fun f hf =>
    ⟨(kfrees_congr h.kend f).trans (hgood f (h.frame_mem hf)).1, (hgood f (h.frame_mem hf)).2⟩
  obtain ⟨fs, u, tr, hrun, hfs, hfreed⟩ := freevm_run (g := d) (s := t)
    (fun f hf => hkeep f (Multiset.mem_cons_of_mem (Multiset.mem_add.2 (.inr hf))))
    (fun f hf => (hkeep f (by
      unfold Space.frames
      rw [← Multiset.cons_add]
      exact Multiset.mem_add.2 (.inl hf))).1)
  refine Prog.wp_of_run hrun ⟨?_, fun f hf => ?_⟩
  · rw [hfreed.list, ← Multiset.coe_add, Multiset.coe_reverse, hfs, add_comm, ← owned_frames]
    exact h.all
  · refine (hfreed.mem f fun hin => hf (h.frame_mem ?_)).trans (h.mem f hf)
    rw [← hfs]
    exact hin

/-! ## setupkvm -/

theorem mapKernel_drawn : ∀ (l : List (Addr × Addr × Addr × Pte)) (g : Space), Prog.Along Drawn (mapKernel g l)
  | [], _     => Prog.Along.pure drawn_frame _
  | e :: l, g => Prog.Along.bind drawn_frame (mappages_drawn g e.1 _ e.2.1 e.2.2.2) fun r =>
      Prog.Along.ite (fun _ => mapKernel_drawn l r.2) fun _ => Prog.Along.pure drawn_frame _

/-- A new page directory: the kernel half, and no page below it. -/
structure NewSpace (s : Phys) (d : Space) (t : Phys) : Prop where
  holds  : Holds s d t
  kernel : KernelHalf s.kdata d
  none   : ∀ m : Frame, m.toNat < 524288 → d.mapped m = false

/-- **`setupkvm`** returns a new page directory, or 0 with every frame given back. -/
theorem setupkvm_wp (hlink : s.Linked) (hdata : s.kdata.toNat % 4096 = 0) (hgood : ∀ f ∈ s.freelist, s.good f) :
    wp setupkvm (fun o t => match o with | some d => NewSpace s d t | none => Returned s t) E s := by
  unfold setupkvm
  rw [Prog.wp_bind]
  refine Prog.wp_of_run (kalloc_run s) ?_
  cases hl : s.freelist with
  | nil => exact ⟨by rw [hl]; rfl, fun _ _ => rfl⟩
  | cons f l =>
    dsimp only [List.head?_cons, List.tail_cons]
    rw [Prog.wp_bind, memset_wp, Prog.wp_bind, Prog.wp_read, Prog.wp_bind]
    obtain ⟨k, hk⟩ : ∃ k : Phys, k = Phys.setPage { s with freelist := l, freemems := s.freemems - 1 } f fun _ => 0
      := ⟨_, rfl⟩
    rw [← hk]
    have hkl : k.freelist = l := by rw [hk]; rfl
    have hkdata : k.kdata = s.kdata := by rw [hk]; rfl
    have hkend : k.kend = s.kend := by rw [hk]; rfl
    have hblank : Holds s (.blank f) k := by
      refine ⟨?_, fun f' hf' => ?_, hkend⟩
      · rw [owned_frames, hkl, hl]
        unfold Space.frames
        rw [tables_blank, pages_blank, ← Multiset.cons_coe, Multiset.add_cons, add_zero, add_zero]
        rfl
      · rw [hk]
        exact if_neg fun he => hf' (by rw [he, hl]; exact List.mem_cons_self)
    obtain ⟨hentries, hpair⟩ := kmap_apart hlink hdata
    rw [hkdata]
    refine ((mapKernel_wp (kmap s.kdata) (.blank f) k hentries hpair fun _ _ _ _ => rfl).final
      (P := Drawn k) (mapKernel_drawn _ _ k)).imp fun r u hr => ?_
    obtain ⟨⟨N, hN, hin, hall⟩, hdrawn⟩ := hr
    have hholds := hblank.grown hN hdrawn
    have hmapped : ∀ m, r.2.mapped m = true ↔ N m := fun m =>
      (hN.mapped m).trans ⟨fun h => h.resolve_left (by rw [mapped_blank]; decide), .inr⟩
    refine Prog.wp_ite (fun hok => ?_) fun _ => ?_
    · refine ⟨hholds, ⟨fun e he m hm => ?_, fun m _ hm => hin m ((hmapped m).1 hm)⟩, fun m hm => ?_⟩
      · obtain ⟨hNm, hpte⟩ := hall hok e he m hm
        exact ⟨(hmapped m).2 hNm, hpte⟩
      · refine Bool.eq_false_iff.2 fun hmap => ?_
        obtain ⟨e, he, hem⟩ := hin m ((hmapped m).1 hmap)
        have := (hentries e he).base
        have := hem.1
        omega
    · rw [Prog.wp_bind]
      exact hholds.freevm hgood

/-! ## copyuvm -/

/-- The pages below `i` have been copied. -/
structure Copying (g : Space) (s : Phys) (d : Space) (t : Phys) (i : Nat) : Prop where
  holds  : Holds s d t
  kernel : KernelHalf s.kdata d
  pages  : ∀ m : Frame, m.toNat < 524288 → (d.mapped m = true ↔ m.toNat * 4096 < i)
  copies : ∀ m : Frame, m.toNat * 4096 < i → pteFlags (d.pte m) = pteFlags (g.pte m) ∧
    t.mem (d.frame m) = s.mem (g.frame m)

theorem KernelHalf.grown {kdata : Addr} {N : Frame → Prop} (h : KernelHalf kdata d) (hg : Grown d t N g u)
    (hN : ∀ m, N m → m.toNat < 524288) : KernelHalf kdata g := by
  refine ⟨fun e he m hm => ?_, fun m hm hmap => ?_⟩
  · obtain ⟨hmap, hpte⟩ := h.pages e he m hm
    exact ⟨(hg.mapped m).2 (.inl hmap), (hg.pte m hmap).trans hpte⟩
  · refine h.only m hm (((hg.mapped m).1 hmap).resolve_right fun hNm => ?_)
    have := hN m hNm
    omega

theorem pteFlags_mapPte {f : Frame} {fl : Pte} (hf : pteFlags fl = fl) (hp : present fl) : pteFlags (mapPte f fl) = fl := by
  refine BitVec.eq_of_getLsbD_eq fun i hi => ?_
  rw [present_iff] at hp
  rw [getLsbD_pteFlags]
  unfold mapPte
  simp only [BitVec.getLsbD_or, getLsbD_frameAddr, getLsbD_pteP]
  by_cases h12 : i < 12
  · by_cases h0 : i = 0
    · simp [h0, hp]
    · simp [h12, h0]
  · obtain ⟨j, rfl⟩ : ∃ j, i = 12 + j := ⟨i - 12, by omega⟩
    rw [getLsbD_of_flags hf]
    simp

/-- **One page**: a frame is drawn, the page copied into it, and mapped with the parent's flags. -/
theorem Copying.page {i : Nat} {f : Frame} {k : Phys} (h : Copying g s d t i) (hs : s.freelist.Nodup)
    (hi : n.toNat * 4096 = i) (hn : n.toNat < 524288) (hp : present (g.pte n)) (hfree : g.frame n ∉ s.freelist)
    (hl : t.freelist = f :: k.freelist) (hk : k.kend = t.kend)
    (hmem : ∀ f', k.mem f' = if f' = f then t.mem (g.frame n) else t.mem f') (hg : Grown d k (fun _ => False) g' u)
    (hd : Drawn k u) (htab : (g'.pde (dirIx n)).isSome = true) (hm : g'.mapped n = false) :
    Copying g s (g'.setPte n (mapPte f (pteFlags (g.pte n)))) u (i + 4096) := by
  have hflags : pteFlags (pteFlags (g.pte n)) = pteFlags (g.pte n) := pteFlags_pteFlags _
  have hpf : present (pteFlags (g.pte n)) := by
    rw [present_iff] at hp ⊢
    rw [getLsbD_pteFlags, hp]
    rfl
  have hdraw : Drawn t k := .write hl fun f' hf' => by rw [hmem f', if_neg hf']
  have hgrown : Grown d t (fun m => m = n) (g'.setPte n (mapPte f (pteFlags (g.pte n)))) u :=
    hg.page hl hk hn htab hm (present_mapPte _ _) (pteFrame_mapPte hflags)
  have hdrawn := drawn_frame.trans hdraw hd
  have hpage : ∀ m : Frame, m.toNat * 4096 < i + 4096 ↔ m.toNat * 4096 < i ∨ m = n := fun m => by
    rw [← BitVec.toNat_inj]
    omega
  have hnd : (f :: k.freelist).Nodup := by
    have hall := h.holds.all
    rw [owned_frames] at hall
    rw [← hl, ← Multiset.coe_nodup]
    rw [← Multiset.coe_nodup, ← hall] at hs
    exact (Multiset.nodup_add.1 hs).1
  refine ⟨h.holds.grown hgrown hdrawn, h.kernel.grown hgrown (fun m hm => by rw [hm]; exact hn),
      fun m hmu => ?_, fun m hmi => ?_⟩
  · rw [hgrown.mapped m, h.pages m hmu, hpage]
  · rcases (hpage m).1 hmi with hlt | rfl
    · obtain ⟨hfl, hcopy⟩ := h.copies m hlt
      have hmu : m.toNat < 524288 := by omega
      have hmap := (h.pages m hmu).2 hlt
      have hpte := hgrown.pte m hmap
      have hframe : (g'.setPte n (mapPte f (pteFlags (g.pte n)))).frame m = d.frame m := congrArg pteFrame hpte
      rw [hpte, hframe]
      exact ⟨hfl, (hdrawn.kept (h.holds.apart hs (page_mem_frames hmu hmap))).trans hcopy⟩
    · have hpte : (g'.setPte m (mapPte f (pteFlags (g.pte m)))).pte m = mapPte f (pteFlags (g.pte m)) := if_pos rfl
      have hframe : (g'.setPte m (mapPte f (pteFlags (g.pte m)))).frame m = f :=
        (congrArg pteFrame hpte).trans (pteFrame_mapPte hflags)
      rw [hpte, hframe]
      refine ⟨pteFlags_mapPte hflags hpf, (hd.kept (List.nodup_cons.1 hnd).1).trans ?_⟩
      rw [hmem f, if_pos rfl]
      exact h.holds.mem _ hfree

/-- The parent: every page below the size is there, in a frame that is not free. -/
def Parent (g : Space) (sz : Addr) (s : Phys) : Prop :=
  ∀ m : Frame, m.toNat * 4096 < sz.toNat → g.mapped m = true ∧ g.frame m ∉ s.freelist

/-- What `copyuvm` returns. -/
def Cloned (g : Space) (sz : Addr) (s : Phys) (o : Option Space) (t : Phys) : Prop :=
  match o with
  | some d => Copying g s d t sz.toNat
  | none   => Returned s t

theorem copyuvmLoop_wp {sz : Addr} (hsz : sz ≤ kernbase) (hs : s.freelist.Nodup) (hgood : ∀ f ∈ s.freelist, s.good f)
    (hp : Parent g sz s) : ∀ (n : Nat) (d : Space) (t : Phys) (i : Addr), i.toNat % 4096 = 0 →
      i.toNat < sz.toNat + 4096 → (sz.toNat + 4096 - i.toNat) / 4096 < n → Copying g s d t i.toNat →
        wp (copyuvmLoop n g d i sz) (Cloned g sz s) E t := by
  have hsz' : sz.toNat ≤ 2147483648 := hsz
  intro n
  induction n with
  | zero => intro _ _ _ _ _ h; omega
  | succ n ih =>
    intro d t i hi hle hn h
    have hnum := pageNum_toNat i
    refine Prog.wp_ite (fun hlt => ?_) fun hge => ?_
    · have hlt' : i.toNat < sz.toNat := hlt
      obtain ⟨hmap, hfree⟩ := hp (pageNum i) (by omega)
      have hm := hmap
      rw [mapped_pageNum, Bool.and_eq_true, decide_eq_true_eq] at hm
      rw [Prog.wp_bind, walkpgdir_wp, if_pos hm.1]
      dsimp only
      rw [if_pos hm.2, Prog.wp_bind]
      refine Prog.wp_of_run (kalloc_run t) ?_
      cases hl : t.freelist with
      | nil =>
        -- no frame for the page
        have hholds : Holds s d { t with freelist := [].tail, freemems := t.freemems - 1 } := by
          refine ⟨?_, h.holds.mem, h.holds.kend⟩
          rw [← h.holds.all]
          unfold owned
          rw [hl]
          rfl
        dsimp only [List.head?_nil]
        rw [Prog.wp_bind]
        exact hholds.freevm hgood
      | cons f l =>
        dsimp only [List.head?_cons, List.tail_cons]
        rw [Prog.wp_bind, Prog.wp_modify, Prog.wp_bind]
        generalize hk : Phys.setPage { t with freelist := l, freemems := t.freemems - 1 } f
          (Phys.mem { t with freelist := l, freemems := t.freemems - 1 } (pteFrame (g.pte (pageNum i)))) = k
        have hkl : k.freelist = l := by rw [← hk]; rfl
        have hkend : k.kend = t.kend := by rw [← hk]; rfl
        have hkmem : ∀ f', k.mem f' = if f' = f then t.mem (g.frame (pageNum i)) else t.mem f' := fun f' => by
          rw [← hk]
          rfl
        have hfl : t.freelist = f :: k.freelist := by rw [hl, hkl]
        have hf : f ∈ s.freelist := h.holds.subset (by rw [hl]; exact List.mem_cons_self)
        have hmaps : wp (mappages d i pgsize (frameAddr f) (pteFlags (g.pte (pageNum i)))) (fun r u =>
            r = (false, d) ∧ k.freelist = [] ∧ u.freelist = [] ∧ u.kend = k.kend ∨
              r.1 = true ∧ ∃ g', r.2 = g'.setPte (pageNum i) (mapPte f (pteFlags (g.pte (pageNum i)))) ∧
                Grown d k (fun _ => False) g' u ∧ g'.hasTable i = true ∧ g'.mapped (pageNum i) = false) E k := by
          refine mappages_wp (pgRoundDown_eq_self.2 hi) (fun _ hnil u hu hku => .inl ⟨rfl, hnil, hu, hku⟩)
            (fun hmapped => ?_)
            fun g' u hg' ht hm' => .inr ⟨rfl, g', rfl, hg', ht, hm'⟩
          have hbelow := (h.pages (pageNum i) (by omega)).1 hmapped
          omega
        refine (hmaps.final (P := Drawn k) (mappages_drawn _ _ _ _ _ k)).imp fun r u hr => ?_
        obtain ⟨⟨hr, hnil, hu, hku⟩ | ⟨hok, g', hr, hg', htab, hm'⟩, hdrawn⟩ := hr
        · -- no frame for a page table: the page is given back first
          subst hr
          have hkfrees : u.kfrees f = true :=
            (kfrees_congr (hku.trans (hkend.trans h.holds.kend)) f).trans (hgood f hf).1
          dsimp only
          rw [if_neg (by decide), Prog.wp_bind]
          refine Prog.wp_of_run ((kfree_run f u).trans (if_pos hkfrees)) ?_
          rw [Prog.wp_bind]
          refine Holds.freevm (s := s) ⟨?_, fun f' hf' => ?_, hku.trans (hkend.trans h.holds.kend)⟩ hgood
          · rw [← h.holds.all]
            unfold owned
            dsimp only
            rw [hu, hfl, hnil]
          · have hne : f' ≠ f := fun he => hf' (by rw [he]; exact hf)
            refine (if_neg hne).trans ((hdrawn.kept fun hin => hf' (h.holds.subset ?_)).trans ?_)
            · rw [hfl]
              exact List.mem_cons_of_mem f hin
            · rw [hkmem f', if_neg hne]
              exact h.holds.mem f' hf'
        · have hnext : (i + pgsize).toNat = i.toNat + 4096 := toNat_nextPage (by omega)
          rw [hok, hr]
          refine ih _ u (i + pgsize) (by omega) (by omega) (by omega) ?_
          rw [hnext]
          exact h.page hs (by omega) (by omega) hm.2 hfree hfl hkend hkmem hg' hdrawn (by rw [dirIx_pageNum]; exact htab) hm'
    · have hge' : sz.toNat ≤ i.toNat := Nat.not_lt.1 hge
      have hiff : ∀ m : Frame, m.toNat * 4096 < i.toNat ↔ m.toNat * 4096 < sz.toNat := fun m => by omega
      exact ⟨h.holds, h.kernel, fun m hm => (h.pages m hm).trans (hiff m), fun m hm => h.copies m ((hiff m).2 hm)⟩

/-- **`copyuvm` is a deep copy, or nothing.** -/
theorem copyuvm_wp {sz : Addr} (hsz : sz ≤ kernbase) (hlink : s.Linked) (hdata : s.kdata.toNat % 4096 = 0)
    (hs : s.freelist.Nodup) (hgood : ∀ f ∈ s.freelist, s.good f) (hp : Parent g sz s) :
    wp (copyuvm g sz) (Cloned g sz s) E s := by
  have hsz' : sz.toNat ≤ 2147483648 := hsz
  unfold copyuvm
  rw [Prog.wp_bind]
  refine (setupkvm_wp hlink hdata hgood).imp fun o t ho => ?_
  cases o with
  | none => exact ho
  | some d =>
    refine copyuvmLoop_wp hsz hs hgood hp maxPages d t 0 rfl ?_ ?_ ⟨ho.holds, ho.kernel, fun m hm => ?_, fun m hm => ?_⟩
    · show 0 < _
      omega
    · unfold maxPages
      show (sz.toNat + 4096 - 0) / 4096 < _
      omega
    · rw [ho.none m hm]
      simp
    · simp at hm

/-- The frames of a copy are apart from each other and from all that are in use. -/
structure DeepCopy (g : Space) (sz : Addr) (s : Phys) (d : Space) : Prop where
  there    : ∀ m : Frame, m.toNat * 4096 < sz.toNat → d.mapped m = true ∧ pteFlags (d.pte m) = pteFlags (g.pte m)
  only     : ∀ m : Frame, m.toNat < 524288 → d.mapped m = true → m.toNat * 4096 < sz.toNat
  distinct : ∀ m n : Frame, m.toNat * 4096 < sz.toNat → n.toNat * 4096 < sz.toNat → d.frame m = d.frame n → m = n
  unused   : ∀ f ∈ d.frames, f ∈ s.freelist
  kernel   : KernelHalf s.kdata d

/-- **Every copy**, and every call that finds no memory. -/
theorem copyuvm_copies (g : Space) (sz : Addr) (s : Phys) (hsz : sz ≤ kernbase) (hlink : s.Linked)
    (hdata : s.kdata.toNat % 4096 = 0) (hs : s.freelist.Nodup) (hgood : ∀ f ∈ s.freelist, s.good f) (hp : Parent g sz s) :
    ∃ o t, (copyuvm g sz s).res = .ok o ∧ (copyuvm g sz s).st = t ∧ (∀ f, f ∉ s.freelist → t.mem f = s.mem f) ∧
      match o with
      | some d => DeepCopy g sz s d ∧ ∀ m : Frame, m.toNat * 4096 < sz.toNat → t.mem (d.frame m) = s.mem (g.frame m)
      | none   => t.freelist.Perm s.freelist := by
  have hsz' : sz.toNat ≤ 2147483648 := hsz
  obtain ⟨o, hres, hcl⟩ := (copyuvm_wp (E := fun _ => False) hsz hlink hdata hs hgood hp).returns
  refine ⟨o, _, hres, rfl, ?_⟩
  cases o with
  | none => exact ⟨hcl.mem, Multiset.coe_eq_coe.1 hcl.free⟩
  | some d =>
    refine ⟨hcl.holds.mem, ⟨fun m hm => ⟨(hcl.pages m (by omega)).2 hm, (hcl.copies m hm).1⟩,
      fun m hmu hmap => (hcl.pages m hmu).1 hmap, fun m n hm hn he => ?_, fun f hf => hcl.holds.frame_mem hf, hcl.kernel⟩,
      fun m hm => (hcl.copies m hm).2⟩
    by_contra hne
    have hnd : d.pages.Nodup := by
      rw [← Multiset.coe_nodup, ← hcl.holds.all] at hs
      exact (Multiset.nodup_add.1 (Multiset.nodup_cons.1 hs).2).2.1
    have hlist := frames_nodup hnd (l := [m, n]) (by simp [hne]) (by
      intro k hk
      rcases List.mem_pair.1 hk with rfl | rfl
      · exact ⟨by omega, (hcl.pages _ (by omega)).2 hm⟩
      · exact ⟨by omega, (hcl.pages _ (by omega)).2 hn⟩)
    simp [he] at hlist

/-! ## Where there is memory -/

section Stocked

variable {D : Finset (BitVec 10)} {r : Nat} {va size pa : Addr} {perm : Pte}

/-- There are free frames for the page tables that the directory entries `D` lack, and `r` more. -/
def Stocked (D : Finset (BitVec 10)) (r : Nat) (g : Space) (s : Phys) : Prop :=
  (D.filter fun i => (g.pde i).isSome = false).card + r ≤ s.freelist.length

theorem Stocked.walk (h : Stocked D r g s) (hd : pdx va ∈ D) :
    wp (walkpgdirAlloc g va) (fun o t => ∃ g', o = some g' ∧ Stocked D r g' t) E s := by
  unfold walkpgdirAlloc
  rw [Prog.wp_bind, Prog.wp_emit]
  refine Prog.wp_ite (fun _ => ⟨g, rfl, h⟩) fun hno => ?_
  have hin : pdx va ∈ D.filter fun i => (g.pde i).isSome = false := Finset.mem_filter.2 ⟨hd, Bool.eq_false_iff.2 hno⟩
  have hcard := Finset.card_pos.2 ⟨_, hin⟩
  unfold Stocked at h
  rw [Prog.wp_bind]
  refine Prog.wp_of_run (kalloc_run s) ?_
  cases hl : s.freelist with
  | nil =>
    rw [hl, List.length_nil] at h
    omega
  | cons f l =>
    dsimp only [List.head?_cons, List.tail_cons]
    rw [Prog.wp_bind, memset_wp, Prog.wp_pure]
    refine ⟨_, rfl, ?_⟩
    have hsub : (D.filter fun i => ((g.setPde (pdx va) f).pde i).isSome = false) ⊆
        (D.filter fun i => (g.pde i).isSome = false).erase (pdx va) := by
      intro i hi
      obtain ⟨hiD, hi⟩ := Finset.mem_filter.1 hi
      have hpde : (g.setPde (pdx va) f).pde i = if i = pdx va then some f else g.pde i := rfl
      rw [hpde] at hi
      by_cases hiv : i = pdx va
      · rw [if_pos hiv] at hi
        cases hi
      · rw [if_neg hiv] at hi
        exact Finset.mem_erase.2 ⟨hiv, Finset.mem_filter.2 ⟨hiD, hi⟩⟩
    have hle := Finset.card_le_card hsub
    rw [Finset.card_erase_of_mem hin] at hle
    rw [hl, List.length_cons] at h
    unfold Stocked
    show _ ≤ l.length
    omega

theorem mappagesLoop_stocked {last : Addr} (hl : last.toNat % 4096 = 0) : ∀ (n : Nat) (g : Space) (s : Phys) (a pa : Addr),
    a.toNat % 4096 = 0 → a.toNat ≤ last.toNat →
    (∀ m : Frame, a.toNat ≤ m.toNat * 4096 → m.toNat * 4096 ≤ last.toNat → dirIx m ∈ D) → Stocked D r g s →
      wp (mappagesLoop n g a last pa perm) (fun x t => x.1 = true ∧ Stocked D r x.2 t) (fun _ => True) s
  | 0, _, _, _, _, _, _, _, _          => trivial
  | n + 1, g, s, a, pa, ha, hal, hD, h => by
    have hnum := pageNum_toNat a
    have hdir : pdx a ∈ D := by
      rw [← dirIx_pageNum]
      exact hD _ (by omega) (by omega)
    unfold mappagesLoop
    rw [Prog.wp_bind]
    refine (h.walk hdir).imp ?_
    rintro _ t ⟨g', rfl, ht⟩
    refine Prog.wp_ite (fun _ => trivial) fun _ => Prog.wp_ite (fun _ => ⟨rfl, ht⟩) fun hne => ?_
    have hlt : a.toNat ≠ last.toNat := fun he => hne (BitVec.eq_of_toNat_eq he)
    have hlast := last.isLt
    have hnext : (a + pgsize).toNat = a.toNat + 4096 := toNat_nextPage (by omega)
    exact mappagesLoop_stocked hl n _ t _ _ (by omega) (by omega)
      (fun m hlo hhi => hD m (by omega) hhi) ht

theorem mappages_stocked (ha : va.toNat % 4096 = 0) (hpos : 0 < size.toNat) (hfits : va.toNat + size.toNat ≤ 4294967296)
    (hD : ∀ m : Frame, va.toNat ≤ m.toNat * 4096 → m.toNat * 4096 < va.toNat + size.toNat → dirIx m ∈ D)
    (h : Stocked D r g s) :
    wp (mappages g va size pa perm) (fun x t => x.1 = true ∧ Stocked D r x.2 t) (fun _ => True) s := by
  have hlast : (va + size - 1#32).toNat = va.toNat + size.toNat - 1 := toNat_last hpos hfits
  have hdown := toNat_pgRoundDown (va + size - 1#32)
  unfold mappages
  rw [pgRoundDown_eq_self.2 ha]
  exact mappagesLoop_stocked (by omega) maxPages g s va pa ha (by omega) (fun m hlo hhi => hD m hlo (by omega)) h

theorem mapKernel_stocked : ∀ (l : List (Addr × Addr × Addr × Pte)) (g : Space) (s : Phys), (∀ e ∈ l, KmapEntry e) →
    (∀ e ∈ l, ∀ m, inKmap e m → dirIx m ∈ D) → Stocked D r g s →
      wp (mapKernel g l) (fun x t => x.1 = true ∧ Stocked D r x.2 t) (fun _ => True) s
  | [], _, _, _, _, h       => ⟨rfl, h⟩
  | e :: l, g, s, he, hD, h => by
    obtain ⟨hal, hbase, hpos, hfits⟩ := he e List.mem_cons_self
    unfold mapKernel
    rw [Prog.wp_bind]
    refine (mappages_stocked hal hpos hfits (fun m hlo hhi => hD e List.mem_cons_self m ⟨hlo, hhi⟩) h).imp fun x t hx => ?_
    refine Prog.wp_ite (fun _ => ?_) fun hno => absurd hx.1 hno
    exact mapKernel_stocked l x.2 t (fun e' h' => he e' (List.mem_cons_of_mem e h'))
      (fun e' h' => hD e' (List.mem_cons_of_mem e h')) hx.2

theorem setupkvm_stocked (hlink : s.Linked) (hdata : s.kdata.toNat % 4096 = 0)
    (hD : ∀ e ∈ kmap s.kdata, ∀ m, inKmap e m → dirIx m ∈ D) (hroom : D.card + r < s.freelist.length) :
    wp setupkvm (fun o t => ∃ d, o = some d ∧ Stocked D r d t) (fun _ => True) s := by
  unfold setupkvm
  rw [Prog.wp_bind]
  refine Prog.wp_of_run (kalloc_run s) ?_
  cases hl : s.freelist with
  | nil =>
    rw [hl] at hroom
    cases hroom
  | cons f l =>
    dsimp only [List.head?_cons, List.tail_cons]
    rw [Prog.wp_bind, memset_wp, Prog.wp_bind, Prog.wp_read, Prog.wp_bind]
    rw [hl, List.length_cons] at hroom
    have hblank : Stocked D r (.blank f)
        (Phys.setPage { s with freelist := l, freemems := s.freemems - 1 } f fun _ => 0) := by
      have := Finset.card_filter_le D fun i => ((Space.blank f).pde i).isSome = false
      unfold Stocked
      show _ ≤ l.length
      omega
    refine (mapKernel_stocked _ _ _ (kmap_apart hlink hdata).1 hD hblank).imp fun x t hx => ?_
    exact Prog.wp_ite (fun _ => ⟨x.2, rfl, hx.2⟩) fun hno => absurd hx.1 hno

theorem copyuvmLoop_stocked {sz : Addr} (hsz : sz.toNat ≤ 2147483648)
    (hD : ∀ m : Frame, m.toNat * 4096 < sz.toNat → dirIx m ∈ D) : ∀ (n : Nat) (d : Space) (s : Phys) (i : Addr),
    i.toNat % 4096 = 0 → i.toNat ≤ 2147483648 → Stocked D ((sz.toNat - i.toNat + 4095) / 4096) d s →
      wp (copyuvmLoop n g d i sz) (fun o _ => o.isSome = true) (fun _ => True) s
  | 0, _, _, _, _, _, _       => trivial
  | n + 1, d, s, i, hi, hle, h => by
    unfold copyuvmLoop
    refine Prog.wp_ite (fun hlt => ?_) fun _ => rfl
    have hlt' : i.toNat < sz.toNat := hlt
    rw [Prog.wp_bind, walkpgdir_wp]
    by_cases htab : g.hasTable i = true
    case neg =>
      rw [if_neg htab]
      trivial
    rw [if_pos htab]
    refine Prog.wp_ite (fun _ => ?_) fun _ => trivial
    rw [Prog.wp_bind]
    refine Prog.wp_of_run (kalloc_run s) ?_
    unfold Stocked at h
    cases hl : s.freelist with
    | nil =>
      rw [hl, List.length_nil] at h
      omega
    | cons f l =>
      dsimp only [List.head?_cons, List.tail_cons]
      rw [hl, List.length_cons] at h
      rw [Prog.wp_bind, Prog.wp_modify, Prog.wp_bind]
      have hnext : (i + pgsize).toNat = i.toNat + 4096 := toNat_nextPage (by omega)
      refine (mappages_stocked (r := (sz.toNat - (i + pgsize).toNat + 4095) / 4096) hi (by decide)
        (by show _ + 4096 ≤ _; omega) (fun m hlo hhi => hD m ?_) ?_).imp fun x t hx => ?_
      · change m.toNat * 4096 < i.toNat + 4096 at hhi
        omega
      · unfold Stocked
        show _ ≤ l.length
        omega
      · refine Prog.wp_ite (fun _ => ?_) fun hno => absurd hx.1 hno
        exact copyuvmLoop_stocked hsz hD n x.2 t _ (by omega) (by omega) hx.2

/-- **`copyuvm` makes the copy** where there are frames for the page directory, the page tables and the pages. -/
theorem copyuvm_stocked {sz : Addr} (hsz : sz ≤ kernbase) (hlink : s.Linked) (hdata : s.kdata.toNat % 4096 = 0)
    (hkernel : ∀ e ∈ kmap s.kdata, ∀ m, inKmap e m → dirIx m ∈ D)
    (huser : ∀ m : Frame, m.toNat * 4096 < sz.toNat → dirIx m ∈ D)
    (hroom : D.card + (sz.toNat + 4095) / 4096 < s.freelist.length) :
    wp (copyuvm g sz) (fun o _ => o.isSome = true) (fun _ => True) s := by
  unfold copyuvm
  rw [Prog.wp_bind]
  refine (setupkvm_stocked hlink hdata hkernel hroom).imp ?_
  rintro _ t ⟨d, rfl, ht⟩
  exact copyuvmLoop_stocked hsz huser maxPages d t 0 rfl (by decide) ht

end Stocked

/-- A process of three pages, in the frames from 1026 on, and memory with eighty free frames behind them. -/
def smallSpace : Space where
  dir := 1024#20
  pde d := if d = 0 then some 1025#20 else none
  pte m := if m.toNat < 3 then mapPte (1026#20 + m) 7#32 else 0

def eightyFree : Phys :=
  ⟨fun f o => if f = 1026#20 then o.setWidth 8 else 0, (List.range 80).map (fun n => BitVec.ofNat 20 (2048 + n)), 80,
    0x80110000#32, 0x80108000#32⟩

theorem smallSpace_parent : Parent smallSpace 12288#32 eightyFree := by
  intro m hm
  have hm' : m.toNat * 4096 < 12288 := hm
  have hall : ∀ k : Fin 3, smallSpace.mapped (BitVec.ofNat 20 k.val) = true ∧
      smallSpace.frame (BitVec.ofNat 20 k.val) ∉ eightyFree.freelist := by decide +kernel
  have h := hall ⟨m.toNat, by omega⟩
  rwa [BitVec.ofNat_toNat, BitVec.setWidth_eq] at h

/-- The directory entries of a page below 4 MB and of the kernel. -/
def smallDirs : Finset (BitVec 10) :=
  Finset.univ.filter fun d => d.toNat = 0 ∨ 512 ≤ d.toNat ∧ (d.toNat < 568 ∨ 1016 ≤ d.toNat)

theorem smallDirs_kernel : ∀ e ∈ kmap eightyFree.kdata, ∀ m, inKmap e m → dirIx m ∈ smallDirs := by
  have hall : ((kmap eightyFree.kdata).all fun e => decide (2147483648 ≤ e.1.toNat ∧
      (e.1.toNat + (kmapSize e).toNat ≤ 2382364672 ∨ 4261412864 ≤ e.1.toNat))) = true := by decide +kernel
  rintro e he m ⟨hlo, hhi⟩
  have hsize := of_decide_eq_true (List.all_eq_true.1 hall e he)
  have := m.isLt
  rw [smallDirs, Finset.mem_filter, dirIx_toNat]
  refine ⟨Finset.mem_univ _, ?_⟩
  omega

theorem smallDirs_user {sz : Addr} (h : sz.toNat ≤ 4194304) {m : Frame} (hm : m.toNat * 4096 < sz.toNat) :
    dirIx m ∈ smallDirs := by
  rw [smallDirs, Finset.mem_filter, dirIx_toNat]
  exact ⟨Finset.mem_univ _, .inl (by omega)⟩

theorem eightyFree_good : ∀ f ∈ eightyFree.freelist, eightyFree.good f := by
  have hall : (eightyFree.freelist.all fun f => eightyFree.kfrees f && decide (f ≠ 0)) = true := by decide +kernel
  intro f hf
  have h := List.all_eq_true.1 hall f hf
  rwa [Bool.and_eq_true, decide_eq_true_eq] at h

/-- The three pages are copied. -/
theorem smallSpace_copied : ∃ d t, (copyuvm smallSpace 12288#32 eightyFree).res = .ok (some d) ∧
    (copyuvm smallSpace 12288#32 eightyFree).st = t ∧ (∀ f, f ∉ eightyFree.freelist → t.mem f = eightyFree.mem f) ∧
      DeepCopy smallSpace 12288#32 eightyFree d ∧
        ∀ m : Frame, m.toNat * 4096 < (12288#32 : Addr).toNat → t.mem (d.frame m) = eightyFree.mem (smallSpace.frame m) := by
  have hlink : eightyFree.Linked := by decide
  have hdata : eightyFree.kdata.toNat % 4096 = 0 := by decide
  have hnodup : eightyFree.freelist.Nodup := by decide +kernel
  have hroom : smallDirs.card + ((12288#32 : Addr).toNat + 4095) / 4096 < eightyFree.freelist.length := by decide +kernel
  have hgood := eightyFree_good
  have hparent := smallSpace_parent
  have hkernel := smallDirs_kernel
  generalize eightyFree = s at hlink hdata hnodup hroom hgood hparent hkernel ⊢
  obtain ⟨o, t, hres, ht, hmem, ho⟩ := copyuvm_copies smallSpace 12288#32 s (by decide) hlink hdata hnodup hgood hparent
  have hsome := (copyuvm_stocked (g := smallSpace) (show 12288#32 ≤ kernbase by decide) hlink hdata hkernel
    (fun m hm => smallDirs_user (by decide) hm) hroom).ok hres
  obtain ⟨d, rfl⟩ := Option.isSome_iff_exists.1 hsome
  exact ⟨d, t, hres, ht, hmem, ho⟩

end Vm
end Xv6
