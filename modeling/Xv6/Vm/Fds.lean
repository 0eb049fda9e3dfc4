import Xv6.Vm.Populate
import Xv6.Vm.Refuse
/-!
# Vm.Fds — the descriptor that mmap is given

The arguments are checked by `MAP_ANONYMOUS`, and `ofile[fd]` is read by `MAP_POPULATE`: an anonymous area that is not
populated reads `ofile[-1]` and writes through what it finds there.
-/
namespace Xv6
namespace Vm

open Mem
open Prog (wp)
open Sched (nproc)

variable {s t : Sys} {p : Fin nproc} {i : Fin nmaps} {addr length prot flags fd offset : Word} {g g' : Space} {k k' : Phys}

/-! ## A page is mapped -/

/-- The page of `va` has been mapped with the entry `e`, and a page table made for it where there was none. -/
structure Placed (g : Space) (k : Phys) (n : Frame) (e : Pte) (g' : Space) (k' : Phys) : Prop where
  mapped : g'.mapped n = true
  pte    : g'.pte n = e
  other  : ∀ m, m ≠ n → g'.mapped m = g.mapped m ∧ (g.mapped m = true → g'.pte m = g.pte m)
  tables : ∀ d, (g'.pde d).isSome = true ↔ (g.pde d).isSome = true ∨ d = dirIx n
  free   : k.freelist.length = k'.freelist.length + if (g.pde (dirIx n)).isSome then 0 else 1
  drawn  : Drawn k k'

theorem Placed.setPte {n : Frame} {e : Pte} (he : present e) (hn : (g'.pde (dirIx n)).isSome = true)
    (hmap : ∀ m, g'.mapped m = g.mapped m) (hpte : ∀ m, g.mapped m = true → g'.pte m = g.pte m)
    (htab : ∀ d, (g'.pde d).isSome = true ↔ (g.pde d).isSome = true ∨ d = dirIx n)
    (hfree : k.freelist.length = k'.freelist.length + if (g.pde (dirIx n)).isSome then 0 else 1) (hd : Drawn k k') :
    Placed g k n e (g'.setPte n e) k' := by
  refine ⟨?_, if_pos rfl, fun m hm => ⟨?_, fun hgm => ?_⟩, htab, hfree, hd⟩
  · rw [mapped_setPte, if_pos rfl, hn, decide_eq_true he]
    rfl
  · rw [mapped_setPte, if_neg hm, hmap]
  · rw [pte_setPte hm, hpte m hgm]

/-- **`mappages` of one page succeeds** where the page is not mapped and a page table is there or to be had. -/
theorem mappages_placed {va : Addr} {page : Frame} {perm : Pte} (ha : pgRoundDown va = va)
    (hm : g.mapped (pageNum va) = false) (hroom : (g.pde (dirIx (pageNum va))).isSome = true ∨ k.freelist ≠ []) :
    wp (mappages g va pgsize (frameAddr page) perm)
      (fun r k' => r.1 = true ∧ Placed g k (pageNum va) (mapPte page perm) r.2 k') (fun _ => False) k := by
  obtain ⟨n, hn⟩ : ∃ n, maxPages = n + 1 := ⟨maxPages - 1, by unfold maxPages; omega⟩
  have hpresent : present (mapPte page perm) := present_mapPte page perm
  unfold mappages
  rw [pgRoundDown_last ha, ha, hn]
  unfold mappagesLoop walkpgdirAlloc
  rw [Prog.wp_bind, Prog.wp_bind, Prog.wp_emit]
  have hix : dirIx (pageNum va) = pdx va := dirIx_pageNum va
  have htable : g.hasTable va = (g.pde (pdx va)).isSome := rfl
  rw [hix] at hroom
  refine Prog.wp_ite (fun ht => ?_) fun ht => ?_
  · rw [Prog.wp_pure]
    dsimp only
    rw [mapped_pageNum, ht, Bool.true_and] at hm
    rw [if_neg (of_decide_eq_false hm), if_pos rfl, Prog.wp_pure]
    refine ⟨rfl, .setPte hpresent (hix ▸ ht) (fun _ => rfl) (fun _ _ => rfl) (fun d => ?_) ?_ (drawn_frame.refl k)⟩
    · exact ⟨.inl, fun h => h.elim id fun hd => by rw [hd, hix]; exact ht⟩
    · rw [hix, if_pos (htable ▸ ht)]
      rfl
  · have hd : g.pde (pdx va) = none := Option.not_isSome_iff_eq_none.1 ht
    cases hl : k.freelist with
    | nil =>
      rw [hd, hl] at hroom
      simp at hroom
    | cons f l =>
      rw [Prog.wp_bind]
      refine Prog.wp_of_run (kalloc_run k) ?_
      rw [hl]
      dsimp only [List.head?_cons, List.tail_cons]
      rw [Prog.wp_bind, memset_wp, Prog.wp_pure]
      dsimp only
      have hmap := mapped_setPde (g := g) (f := f) hd
      have hnew : ((g.setPde (pdx va) f).pde (pdx va)).isSome = true := by
        show (if pdx va = pdx va then some f else _).isSome = true
        rw [if_pos rfl]
        rfl
      have habs : ¬ present ((g.setPde (pdx va) f).pte (pageNum va)) := by
        have h := hmap (pageNum va)
        rw [hm, mapped_pageNum] at h
        have htab : (g.setPde (pdx va) f).hasTable va = true := hnew
        rw [htab, Bool.true_and] at h
        exact of_decide_eq_false h
      rw [if_neg habs, if_pos rfl, Prog.wp_pure]
      refine ⟨rfl, .setPte hpresent (hix ▸ hnew) hmap (fun m => pte_setPde hd) (fun d => ?_) ?_
        (.write hl fun f' hf' => if_neg hf')⟩
      · show (if d = pdx va then some f else g.pde d).isSome = true ↔ _
        rw [hix]
        by_cases hdv : d = pdx va
        · simp [hdv]
        · simp [hdv]
      · rw [hix, hd, hl]
        rfl

theorem mappages_placed_or {va : Addr} {page : Frame} {perm : Pte} (ha : pgRoundDown va = va) :
    wp (mappages g va pgsize (frameAddr page) perm) (fun r k' => g.mapped (pageNum va) = false ∧
      (Placed g k (pageNum va) (mapPte page perm) r.2 k' ∨ r.2 = g ∧ k'.freelist = [])) (fun _ => True) k := by
  by_cases hm : g.mapped (pageNum va) = true
  · have ht := hm
    rw [mapped_pageNum, Bool.and_eq_true] at ht
    refine mappages_wp ha (fun hno => ?_) (fun _ => trivial) fun g' t hg _ hm' => ?_
    · rw [ht.1] at hno
      cases hno
    · rw [(hg.mapped _).2 (.inl hm)] at hm'
      cases hm'
  · have hm := Bool.eq_false_iff.2 hm
    by_cases hroom : (g.pde (dirIx (pageNum va))).isSome = true ∨ k.freelist ≠ []
    · exact (mappages_placed ha hm hroom).mono (fun r k' hr => ⟨hm, .inl hr.2⟩) fun _ _ => trivial
    · rw [not_or, not_not, dirIx_pageNum] at hroom
      obtain ⟨n, hn⟩ : ∃ n, maxPages = n + 1 := ⟨maxPages - 1, by unfold maxPages; omega⟩
      unfold mappages
      rw [pgRoundDown_last ha, ha, hn]
      unfold mappagesLoop walkpgdirAlloc
      rw [Prog.wp_bind, Prog.wp_bind, Prog.wp_emit, if_neg (c := g.hasTable va = true) hroom.1, Prog.wp_bind]
      refine Prog.wp_of_run (kalloc_run k) ?_
      rw [hroom.2]
      exact ⟨hm, .inr ⟨rfl, rfl⟩⟩

/-! ## The pages of an anonymous area -/

/-- The directory entries of the pages `l` without a page table. -/
def Space.missing (g : Space) (l : List Frame) : Finset (BitVec 10) :=
  (l.map dirIx).toFinset.filter fun d => (g.pde d).isSome = false

/-- The pages `l` are not there, and there is memory for them and for their page tables. -/
def Supplied (s : Sys) (p : Fin nproc) (l : List Frame) : Prop :=
  ∃ g, s.pgdir p = some g ∧ (∀ n ∈ l, g.mapped n = false) ∧ l.length + (g.missing l).card ≤ s.phys.freelist.length

/-- The pages `done` of an area are there and filled with zeros, and what is needed for the pages `rest` is. -/
structure Zeroed (p : Fin nproc) (a : Area) (done rest : List Nat) (s : Sys) : Prop where
  nodup : s.phys.freelist.Nodup
  rest  : Supplied s p (rest.map fun n => pageNum (a.page n))
  pages : ∀ g, s.pgdir p = some g → ∀ n ∈ done, g.mapped (pageNum (a.page n)) = true ∧
    ∃ f, g.pte (pageNum (a.page n)) = mapPte f a.perm ∧ f ∉ s.phys.freelist ∧ s.phys.mem f = zeroPage

theorem missing_head {n : Frame} {l : List Frame} (h : ¬ (g.pde (dirIx n)).isSome = true) :
    dirIx n ∈ g.missing (n :: l) := by
  refine Finset.mem_filter.2 ⟨?_, Bool.eq_false_iff.2 h⟩
  rw [List.map_cons, List.toFinset_cons]
  exact Finset.mem_insert_self _ _

theorem missing_placed {n : Frame} {e : Pte} {l : List Frame} (h : Placed g k n e g' k') :
    (g'.missing l).card + (if (g.pde (dirIx n)).isSome then 0 else 1) ≤ (g.missing (n :: l)).card := by
  have hsub : ∀ d, d ∈ g'.missing l → d ∈ g.missing (n :: l) ∧ d ≠ dirIx n := by
    intro d hd
    obtain ⟨hl, hd⟩ := Finset.mem_filter.1 hd
    have hnot := fun hor => Bool.false_ne_true (hd.symm.trans ((h.tables d).2 hor))
    refine ⟨Finset.mem_filter.2 ⟨?_, Bool.eq_false_iff.2 fun hs => hnot (.inl hs)⟩, fun hdn => hnot (.inr hdn)⟩
    rw [List.map_cons, List.toFinset_cons]
    exact Finset.mem_insert_of_mem hl
  split
  · exact Finset.card_le_card fun d hd => (hsub d hd).1
  · rename_i hn
    have hin : dirIx n ∈ g.missing (n :: l) := missing_head hn
    have hcard := Finset.card_le_card (s := g'.missing l) (t := (g.missing (n :: l)).erase (dirIx n))
      fun d hd => Finset.mem_erase.2 ⟨(hsub d hd).2, (hsub d hd).1⟩
    rw [Finset.card_erase_of_mem hin] at hcard
    have := Finset.card_pos.2 ⟨_, hin⟩
    omega

theorem Zeroed.turn {a : Area} {perm : Pte} {done rest : List Nat} {n : Nat} (h : Zeroed p a done (n :: rest) s)
    (hp : a.perm = perm) (ha : pgRoundDown (a.page n) = a.page n)
    (hne : ∀ m ∈ done ++ rest, pageNum (a.page m) ≠ pageNum (a.page n)) :
    wp (do
      let page ← zeroedPage
      mapPage p (a.page n) page perm : M Unit)
      (fun _ t => Zeroed p a (done ++ [n]) rest t ∧ t.file = s.file ∧ t.maps = s.maps) (fun _ => False) s := by
  subst hp
  obtain ⟨g, hg, hno, hroom⟩ := h.rest
  rw [List.map_cons, List.length_cons] at hroom
  rw [List.map_cons] at hno
  have hm := hno _ List.mem_cons_self
  have hnd := h.nodup
  rw [Prog.wp_bind]
  refine zeroedPage_takes (fun hl => ?_) fun f l hl => ?_
  · rw [hl, List.length_nil] at hroom
    omega
  rw [hl, List.nodup_cons] at hnd
  generalize hk₁ : ({ s.phys.setPage f (fun _ => 0) with freelist := l, freemems := s.phys.freemems - 1 } : Phys) = k₁
  have hfree : k₁.freelist = l := by rw [← hk₁]
  have hz : k₁.mem f = zeroPage := by rw [← hk₁]; exact if_pos rfl
  have hother : ∀ f', f' ≠ f → k₁.mem f' = s.phys.mem f' := fun f' hf' => by rw [← hk₁]; exact if_neg hf'
  have hlen : s.phys.freelist.length = k₁.freelist.length + 1 := by rw [hl, hfree, List.length_cons]
  unfold mapPage
  rw [Prog.wp_bind]
  refine Prog.wp_of_run (follow_run (s := { s with phys := k₁ }) hg) ?_
  rw [Prog.wp_bind, mm_wp]
  have htable : (g.pde (dirIx (pageNum (a.page n)))).isSome = true ∨ k₁.freelist ≠ [] := by
    by_cases hd : (g.pde (dirIx (pageNum (a.page n)))).isSome = true
    · exact .inl hd
    · refine .inr fun hnil => ?_
      have hpos := Finset.card_pos.2 ⟨_, missing_head (l := rest.map fun n => pageNum (a.page n)) hd⟩
      rw [hnil, List.length_nil] at hlen
      omega
  refine (mappages_placed (k := k₁) ha hm htable).imp fun r k₂ hr => ?_
  obtain ⟨_, g'⟩ := r
  obtain ⟨-, hr⟩ := hr
  rw [Prog.wp_modify]
  have hcount := missing_placed (l := rest.map fun n => pageNum (a.page n)) hr
  have hfree₂ := hr.free
  dsimp only at hcount hr hfree₂
  refine ⟨⟨hr.drawn.nodup (hfree ▸ hnd.2), ⟨g', if_pos rfl, fun m hm' => ?_, ?_⟩, fun g₁ hg₁ m hm' => ?_⟩, rfl, rfl⟩
  · obtain ⟨j, hj, rfl⟩ := List.mem_map.1 hm'
    rw [(hr.other _ (hne j (List.mem_append_right _ hj))).1]
    exact hno _ (List.mem_cons_of_mem _ hm')
  · show _ ≤ k₂.freelist.length
    omega
  · obtain rfl : g' = g₁ := Option.some.inj ((if_pos rfl).symm.trans hg₁)
    rcases List.mem_append.1 hm' with hm' | hm'
    · obtain ⟨hmap, f', hpte, hnot, hmem⟩ := h.pages g hg m hm'
      obtain ⟨hmap', hpte'⟩ := hr.other _ (hne m (List.mem_append_left _ hm'))
      rw [hl, List.mem_cons, not_or, ← hfree] at hnot
      exact ⟨hmap'.trans hmap, f', (hpte' hmap).trans hpte, fun hin => hnot.2 (hr.drawn.subset hin),
        (hr.drawn.kept hnot.2).trans ((hother f' hnot.1).trans hmem)⟩
    · rw [List.mem_singleton.1 hm']
      have hf : f ∉ k₁.freelist := hfree ▸ hnd.1
      exact ⟨hr.mapped, f, hr.pte, fun hin => hf (hr.drawn.subset hin), (hr.drawn.kept hf).trans hz⟩

theorem pages_zeroed {a : Area} {perm : Pte} (hp : a.perm = perm) (ha : a.addr.toNat % 4096 = 0) :
    ∀ (rest done : List Nat) (s : Sys), Zeroed p a done rest s →
      ((done ++ rest).map fun n => pageNum (a.page n)).Nodup → wp (Prog.forEach rest fun n => do
        let page ← zeroedPage
        mapPage p (a.page n) page perm) (fun _ t => Zeroed p a (done ++ rest) [] t ∧ t.file = s.file ∧ t.maps = s.maps)
        (fun _ => False) s
  | [], done, s, h, _         => by
    rw [List.append_nil]
    exact ⟨h, rfl, rfl⟩
  | n :: rest, done, s, h, hnd => by
    have hne : ∀ m ∈ done ++ rest, pageNum (a.page m) ≠ pageNum (a.page n) := by
      intro m hm he
      have hperm : (n :: (done ++ rest)).Perm (done ++ n :: rest) := List.perm_middle.symm
      have hcons := ((hperm.map fun n => pageNum (a.page n)).nodup_iff.2 hnd)
      rw [List.map_cons, List.nodup_cons] at hcons
      exact hcons.1 (List.mem_map.2 ⟨m, hm, he⟩)
    rw [Prog.forEach_cons, Prog.wp_bind]
    refine (h.turn hp (aligned_page ha n) hne).imp fun _ t ht => ?_
    have hassoc : done ++ [n] ++ rest = done ++ n :: rest := by rw [List.append_assoc, List.singleton_append]
    rw [← hassoc, ← ht.2.1, ← ht.2.2]
    exact pages_zeroed hp ha rest (done ++ [n]) t ht.1 (by rwa [hassoc])

theorem missing_cons {n : Frame} {e : Pte} {l : List Frame} (h : Placed g k n e g' k') :
    (g.missing (n :: l)).card ≤ (g'.missing l).card + if (g.pde (dirIx n)).isSome then 0 else 1 := by
  have hsub : ∀ d ∈ g.missing (n :: l), d ≠ dirIx n → d ∈ g'.missing l := by
    intro d hd hne
    obtain ⟨hl, hd⟩ := Finset.mem_filter.1 hd
    rw [List.map_cons, List.toFinset_cons, Finset.mem_insert] at hl
    refine Finset.mem_filter.2 ⟨hl.resolve_left hne, Bool.eq_false_iff.2 fun hs => ?_⟩
    exact Bool.false_ne_true (hd.symm.trans (((h.tables d).1 hs).resolve_right hne))
  split
  · rename_i hn
    refine Finset.card_le_card fun d hd => hsub d hd ?_
    rintro rfl
    exact Bool.false_ne_true ((Finset.mem_filter.1 hd).2.symm.trans hn)
  · refine Nat.le_trans (Finset.card_le_card fun d hd => ?_) (Finset.card_insert_le (dirIx n) (g'.missing l))
    by_cases hne : d = dirIx n
    · exact hne ▸ Finset.mem_insert_self _ _
    · exact Finset.mem_insert_of_mem (hsub d hd hne)

theorem turn_supplied {a : Area} {perm : Pte} {n : Nat} (l : List Frame) (ha : pgRoundDown (a.page n) = a.page n) :
    wp (do
      let page ← zeroedPage
      mapPage p (a.page n) page perm : M Unit)
      (fun _ t => (Supplied t p l → Supplied s p (pageNum (a.page n) :: l)) ∨
        t.phys.freelist = [] ∧ ∀ g, t.pgdir p = some g → g.mapped (pageNum (a.page n)) = false) (fun _ => True) s := by
  rw [Prog.wp_bind]
  refine zeroedPage_takes (fun _ => trivial) fun f fs hl => ?_
  generalize hk₁ : ({ s.phys.setPage f (fun _ => 0) with freelist := fs, freemems := s.phys.freemems - 1 } : Phys) = k₁
  have hlen : s.phys.freelist.length = k₁.freelist.length + 1 := by rw [hl, ← hk₁, List.length_cons]
  unfold mapPage
  rw [Prog.wp_bind]
  refine follow_wp trivial fun g hg => ?_
  rw [Prog.wp_bind, mm_wp]
  refine (mappages_placed_or (k := k₁) ha).imp fun r k₂ ⟨hm, hr⟩ => ?_
  obtain ⟨b, g'⟩ := r
  rw [Prog.wp_modify]
  rcases hr with hr | ⟨rfl, hnil⟩
  · refine .inl fun ⟨g₁, hg₁, hno, hroom⟩ => ⟨g, hg, fun m hm' => ?_, ?_⟩
    · obtain rfl : g' = g₁ := Option.some.inj ((if_pos rfl).symm.trans hg₁)
      rcases List.mem_cons.1 hm' with rfl | hm'
      · exact hm
      · have hne : m ≠ pageNum (a.page n) := by
          rintro rfl
          exact Bool.false_ne_true ((hno _ hm').symm.trans hr.mapped)
        exact (hr.other m hne).1.symm.trans (hno m hm')
    · obtain rfl : g' = g₁ := Option.some.inj ((if_pos rfl).symm.trans hg₁)
      have hcount := missing_cons (l := l) hr
      have hfree := hr.free
      have hroom : l.length + (g'.missing l).card ≤ k₂.freelist.length := hroom
      rw [List.length_cons]
      dsimp only at hcount hfree
      omega
  · refine .inr ⟨hnil, fun g₁ hg₁ => ?_⟩
    obtain rfl : g' = g₁ := Option.some.inj ((if_pos rfl).symm.trans hg₁)
    exact hm

/-- **The pages are there after the loop only if there was memory for them**, and none of them was there before. -/
theorem pages_supplied {a : Area} {perm : Pte} (ha : a.addr.toNat % 4096 = 0) : ∀ (rest : List Nat) (s : Sys),
    wp (Prog.forEach rest fun n => do
      let page ← zeroedPage
      mapPage p (a.page n) page perm)
      (fun _ t => (∃ g, t.pgdir p = some g ∧ ∀ n ∈ rest, g.mapped (pageNum (a.page n)) = true) →
        Supplied s p (rest.map fun n => pageNum (a.page n))) (fun _ => True) s
  | [], s => fun ⟨g, hg, _⟩ => ⟨g, hg, fun _ h => absurd h List.not_mem_nil, Nat.zero_le _⟩
  | n :: rest, s => by
    rw [Prog.forEach_cons, Prog.wp_bind]
    refine (turn_supplied (rest.map fun n => pageNum (a.page n)) (aligned_page ha n)).imp fun _ t ht => ?_
    rcases ht with hsup | ⟨hnil, hno⟩
    · refine (pages_supplied ha rest t).imp fun _ u hu ⟨g, hg, hall⟩ => ?_
      exact hsup (hu ⟨g, hg, fun m hm => hall m (List.mem_cons_of_mem _ hm)⟩)
    · -- without memory there is no further turn
      cases rest with
      | nil =>
        rintro ⟨g, hg, hall⟩
        exact absurd (hall n List.mem_cons_self) (ne_true_of_eq_false (hno g hg))
      | cons m rest =>
        rw [Prog.forEach_cons, Prog.wp_bind, Prog.wp_bind]
        refine zeroedPage_takes (fun _ => trivial) fun f fs hl => ?_
        rw [hnil] at hl
        cases hl

theorem page_inj {a : Area} (ha : a.addr.toNat % 4096 = 0) {m n : Nat} (hm : m < 1048576) (hn : n < 1048576)
    (h : pageNum (a.page m) = pageNum (a.page n)) : m = n := by
  have hnum := congrArg BitVec.toNat h
  unfold Area.page pgsize at hnum
  rw [pageNum_toNat, pageNum_toNat, BitVec.toNat_add, BitVec.toNat_add, BitVec.toNat_mul, BitVec.toNat_mul] at hnum
  simp only [BitVec.toNat_ofNat] at hnum
  omega

/-! ## What is asked of mmap -/

/-- Step 4 of `mmap` with `o` in place of the lines from `mmap->f = mmap->p->ofile[fd]` on. -/
def mapAreaWith (o : M Bool) (p : Fin nproc) (i : Fin nmaps) (addr flags : Word) : M Addr := do
  if flags &&& mapPopulate ≠ 0 then
    if flags &&& mapAnonymous ≠ 0 then
      mapPopulateAnonymous p i
      pure (addr + mmapBase)
    else if ← o then
      mapPopulateFile p i
      pure (addr + mmapBase)
    else pure 0
  else if ← o then pure (addr + mmapBase)
  else pure 0

/-- `mmap` so. -/
def mmapWith (o : Fin nmaps → M Bool) (p : Fin nproc) (addr length prot flags fd offset : Word) : M Addr := do
  if !validArgs addr length prot flags fd offset then pure 0
  else
    acquire
    let clash ← Prog.read (·.findArea (fun a => a.covers (addr + mmapBase) && a.ownedBy p))
    release
    if clash.isSome then pure 0
    else
      match ← mallock with
      | none   => Prog.stop .wild
      | some i =>
        Prog.modify (fun s => s.setArea i ((s.maps i).init p addr length prot flags))
        Prog.emit (.made p i)
        mapAreaWith (o i) p i addr flags

theorem mmapWith_openArea : mmapWith (fun i => openArea p i fd offset) p addr length prot flags fd offset =
    mmap p addr length prot flags fd offset := rfl

/-- The call comes to read `ofile[fd]`: what these lines do, it does. -/
def ReadsFd (s : Sys) (p : Fin nproc) (addr length prot flags fd offset : Word) : Prop :=
  ∃ o, mmapWith o p addr length prot flags fd offset s ≠ mmap p addr length prot flags fd offset s

/-- `0 <= fd < NOFILE`, and `ofile[fd]` is an open file. -/
def FdOpen (s : Sys) (p : Fin nproc) (fd : Word) : Prop := ∃ n : Fin 16, fd.toNat = n ∧ (s.ofile p n).isSome = true

/-- The page numbers of `length` bytes from `r` on. -/
def pageNums (r : Addr) (length : Word) : List Frame :=
  (List.range (length.toNat / 4096)).map fun n => pageNum (r + BitVec.ofNat 32 n * pgsize)

/-- An anonymous area has been made: it has no file, no file is touched, and every byte is 0. -/
structure ZeroArea (s : Sys) (p : Fin nproc) (r : Addr) (length : Word) (t : Sys) : Prop where
  area  : ∃ i, Made p i r length t ∧ (t.maps i).f = .null
  files : t.file = s.file
  zero  : ∀ k < length.toNat, t.userByte p (r + BitVec.ofNat 32 k) = some 0

/-- **What is asked of `mmap`**, for each use of the descriptor. -/
structure Proper (s : Sys) (p : Fin nproc) (addr length prot flags fd offset : Word) : Prop where
  reads     : ReadsFd s p addr length prot flags fd offset → FdOpen s p fd
  anonymous : flags &&& mapAnonymous ≠ 0 → validArgs addr length prot flags fd offset = true → s.clash p addr = false →
    (mmap p addr length prot flags fd offset s).res = .ok (addr + mmapBase) ∧
      ZeroArea s p (addr + mmapBase) length (mmap p addr length prot flags fd offset s).st
  refused   : flags &&& mapAnonymous = 0 → ¬ FdOpen s p fd → (mmap p addr length prot flags fd offset s).res = .ok 0

/-- A populated area has an entry to go to, and its pages memory. -/
structure Served (s : Sys) (p : Fin nproc) (addr length flags : Word) : Prop where
  populate : flags &&& mapPopulate ≠ 0
  free     : s.free.isSome = true
  supplied : length = 0 ∨ Supplied s p (pageNums (addr + mmapBase) length)

/-- **The condition**: the call is refused before, or the descriptor is an open one, or none is read. -/
def Sound (s : Sys) (p : Fin nproc) (addr length prot flags fd offset : Word) : Prop :=
  validArgs addr length prot flags fd offset = true → s.clash p addr = false →
    if flags &&& mapAnonymous = 0 then FdOpen s p fd else Served s p addr length flags

theorem Zeroed.area {a : Area} (h : Zeroed p a (List.range a.npages) [] t) (hi : t.maps i = a) (hf : a.f = .null)
    (ho : a.ownedBy p = true) (ha : a.addr.toNat % 4096 = 0) (hn : a.npages = a.length.toNat / 4096)
    (hw : a.length.toNat % 4096 = 0) (hfile : t.file = s.file) : ZeroArea s p a.addr a.length t := by
  subst hi
  refine ⟨⟨i, ⟨ho, rfl, rfl⟩, hf⟩, hfile, fun k hk => ?_⟩
  -- the byte `k % 4096` of the page `k / 4096`
  obtain ⟨g, hg, -, -⟩ := h.rest
  have hk' : k / 4096 * 4096 + k % 4096 = k := by omega
  obtain ⟨hnum, -⟩ := page_byte (n := k / 4096) ha (Nat.mod_lt k (by decide : 0 < 4096))
  obtain ⟨hmap, f, hpte, -, hmem⟩ := h.pages g hg (k / 4096) (by rw [List.mem_range]; omega)
  rw [← hnum] at hmap hpte
  have hbyte := entry_byte hg hmap hpte
  rw [hmem, hk'] at hbyte
  exact hbyte

theorem userByte_mapped {va : Addr} {b : Byte} (h : t.userByte p va = some b) :
    ∃ g, t.pgdir p = some g ∧ g.mapped (pageNum va) = true := by
  unfold Sys.userByte at h
  split at h
  · cases h
  · rename_i g hg
    refine ⟨g, hg, ?_⟩
    unfold Space.user at h
    split at h
    · cases h
    · rename_i f hf
      split_ifs at hf with hc
      simp only [Bool.and_eq_true] at hc
      rw [mapped_pageNum, hc.1.1.1, hc.1.1.2]
      rfl

section Descriptor

variable (hl : s.locked = false)

include hl

theorem mmapWith_made (o : Fin nmaps → M Bool) (hv : validArgs addr length prot flags fd offset = true)
    (hc : s.clash p addr = false) (hi : s.free = some i) : mmapWith o p addr length prot flags fd offset s =
      (do Prog.emit (.made p i); mapAreaWith (o i) p i addr flags : M Addr)
        (s.setArea i ((s.maps i).init p addr length prot flags)) := by
  unfold mmapWith
  rw [if_neg (by rw [hv]; decide), Prog.bind_run_nil (acquire_run hl), Prog.read_bind_run,
    Prog.bind_run_nil (release_run rfl), unlock_lock hl, if_neg (ne_true_of_eq_false (clash_lock.trans hc)),
    Prog.bind_run_nil (mallock_run hl), hi]
  rfl

theorem mmapWith_unmade (o o' : Fin nmaps → M Bool) (h : ¬ (validArgs addr length prot flags fd offset = true ∧
    s.clash p addr = false ∧ s.free.isSome = true)) :
    mmapWith o p addr length prot flags fd offset s = mmapWith o' p addr length prot flags fd offset s := by
  unfold mmapWith
  cases hv : validArgs addr length prot flags fd offset with
  | false => rfl
  | true =>
    rw [if_neg (by decide), if_neg (by decide), Prog.bind_run_nil (acquire_run hl), Prog.bind_run_nil (acquire_run hl),
      Prog.read_bind_run, Prog.read_bind_run, Prog.bind_run_nil (release_run rfl), Prog.bind_run_nil (release_run rfl),
      unlock_lock hl]
    cases hc : s.clash p addr with
    | true => rw [if_pos (clash_lock.trans hc), if_pos (clash_lock.trans hc)]
    | false =>
      have hnot := ne_true_of_eq_false (clash_lock.trans hc)
      have hi : s.free = none := Option.not_isSome_iff_eq_none.1 fun hi => h ⟨hv, hc, hi⟩
      rw [if_neg hnot, if_neg hnot, Prog.bind_run_nil (mallock_run hl), Prog.bind_run_nil (mallock_run hl), hi]

theorem readsFd_iff : ReadsFd s p addr length prot flags fd offset ↔
    validArgs addr length prot flags fd offset = true ∧ s.clash p addr = false ∧ s.free.isSome = true ∧ opensFile flags := by
  unfold ReadsFd opensFile
  rw [← mmapWith_openArea]
  constructor
  · rintro ⟨o, ho⟩
    by_contra hno
    refine ho ?_
    by_cases hmade : validArgs addr length prot flags fd offset = true ∧ s.clash p addr = false ∧ s.free.isSome = true
    · obtain ⟨hv, hc, hi⟩ := hmade
      obtain ⟨i, hi⟩ := Option.isSome_iff_exists.1 hi
      have hnot : ¬ (flags &&& mapPopulate = 0 ∨ flags &&& mapAnonymous = 0) := fun h => hno ⟨hv, hc, by rw [hi]; rfl, h⟩
      rw [not_or] at hnot
      rw [mmapWith_made hl o hv hc hi, mmapWith_made hl _ hv hc hi]
      unfold mapAreaWith
      rw [if_pos hnot.1, if_pos hnot.2, if_pos hnot.1, if_pos hnot.2]
    · exact mmapWith_unmade hl o _ hmade
  · rintro ⟨hv, hc, hi, ho⟩
    obtain ⟨i, hi⟩ := Option.isSome_iff_exists.1 hi
    -- two ways to stop there, of which one is not the code's
    have hstop : ∀ e, (mmapWith (fun _ => Prog.stop e) p addr length prot flags fd offset s).res = .error e := by
      intro e
      rw [mmapWith_made hl _ hv hc hi, Prog.emit_bind_run]
      unfold mapAreaWith
      by_cases hpop : flags &&& mapPopulate = 0
      · rw [if_neg (not_not.2 hpop)]
        rfl
      · rw [if_pos hpop, if_neg (not_not.2 (ho.resolve_left hpop))]
        rfl
    by_contra hno
    have hsame := fun o => not_not.1 (not_exists.1 hno o)
    have hwild := (hstop .wild).symm.trans (congrArg Outcome.res ((hsame _).trans (hsame fun _ => Prog.stop .diverge).symm))
    rw [hstop .diverge] at hwild
    cases hwild

/-- **An anonymous area that is populated** takes no descriptor. -/
theorem mmap_zeroed (hnd : s.phys.freelist.Nodup) (hpop : flags &&& mapPopulate ≠ 0) (hanon : flags &&& mapAnonymous ≠ 0)
    (hv : validArgs addr length prot flags fd offset = true) (hc : s.clash p addr = false) (hi : s.free = some i)
    (hs : length = 0 ∨ Supplied s p (pageNums (addr + mmapBase) length)) :
    (mmap p addr length prot flags fd offset s).res = .ok (addr + mmapBase) ∧
      ZeroArea s p (addr + mmapBase) length (mmap p addr length prot flags fd offset s).st := by
  obtain ⟨a, ha⟩ : ∃ a, a = (s.maps i).init p addr length prot flags := ⟨_, rfl⟩
  have hvalid := validArgs_valid hv
  have hsmall := validArgs_small hv
  have halign : a.addr.toNat % 4096 = 0 := by
    have hal := hvalid.aligned
    rw [ha]
    show (addr + mmapBase).toNat % 4096 = 0
    rw [BitVec.toNat_add]
    show (addr.toNat + 1073741824) % 4294967296 % 4096 = 0
    omega
  have hnpages : a.npages = length.toNat / 4096 := by
    rw [npages_eq (by rw [ha]; exact hsmall), ha]
    rfl
  have hwp : wp (mapArea p i addr flags fd offset) (fun r t => r = addr + mmapBase ∧ ZeroArea s p (addr + mmapBase) length t)
      (fun _ => False) (s.setArea i a) := by
    unfold mapArea mapPopulateAnonymous
    rw [if_pos hpop, if_pos hanon, Prog.wp_bind, Prog.wp_bind, Prog.wp_read, setArea_maps]
    dsimp only
    rcases hs with hz | hs
    · -- no page is asked for
      have hmade := (setArea_maps s i a).trans ha
      rw [hnpages, hz]
      change _ ∧ ZeroArea s p (addr + mmapBase) 0 (s.setArea i a)
      refine ⟨rfl, ⟨i, ⟨?_, ?_, ?_⟩, ?_⟩, rfl, fun k hk => absurd hk (Nat.not_lt_zero k)⟩
      · rw [hmade]
        exact ownedBy_iff.2 ⟨rfl, rfl⟩
      · rw [hmade]
        rfl
      · rw [hmade, hz]
        rfl
      · rw [hmade]
        rfl
    have hrest : Zeroed p a [] (List.range a.npages) (s.setArea i a) := by
      refine ⟨hnd, ?_, fun _ _ n hn => by cases hn⟩
      rw [hnpages, ha]
      exact hs
    refine (pages_zeroed rfl halign (List.range a.npages) [] _ hrest ?_).imp fun _ t ht => ?_
    · rw [List.nil_append]
      refine List.nodup_range.map_on fun m hm n hn => ?_
      rw [List.mem_range, hnpages] at hm hn
      exact page_inj halign (by omega) (by omega)
    · obtain ⟨ht, hfile, hmaps⟩ := ht
      have hti : t.maps i = a := (congrFun hmaps i).trans (setArea_maps s i a)
      have harea : ZeroArea s p a.addr a.length t := by
        refine ht.area hti (by rw [ha]; rfl) ?_ halign ?_ ?_ hfile
        · rw [ha]
          exact ownedBy_iff.2 ⟨rfl, rfl⟩
        · rw [hnpages, ha]
          rfl
        · rw [ha]
          exact hvalid.whole
      rw [ha] at harea
      exact ⟨rfl, harea⟩
  obtain ⟨r, hr, hra, hu⟩ := hwp.returns
  rw [mmap_made hv hl hc hi, Prog.emit_bind_run, ← ha]
  exact ⟨hr.trans (congrArg _ hra), hu⟩

theorem zeroed_supplied (hpop : flags &&& mapPopulate ≠ 0) (hanon : flags &&& mapAnonymous ≠ 0)
    (hv : validArgs addr length prot flags fd offset = true) (hc : s.clash p addr = false) (hi : s.free = some i)
    (hok : (mmap p addr length prot flags fd offset s).res = .ok (addr + mmapBase))
    (hz : ZeroArea s p (addr + mmapBase) length (mmap p addr length prot flags fd offset s).st) :
    length = 0 ∨ Supplied s p (pageNums (addr + mmapBase) length) := by
  refine or_iff_not_imp_left.2 fun hne => ?_
  obtain ⟨a, ha⟩ : ∃ a, a = (s.maps i).init p addr length prot flags := ⟨_, rfl⟩
  have hvalid := validArgs_valid hv
  have halign : a.addr.toNat % 4096 = 0 := by
    have hal := hvalid.aligned
    rw [ha]
    show (addr + mmapBase).toNat % 4096 = 0
    rw [BitVec.toNat_add]
    show (addr.toNat + 1073741824) % 4294967296 % 4096 = 0
    omega
  have hnpages : a.npages = length.toNat / 4096 := by
    rw [npages_eq (by rw [ha]; exact validArgs_small hv), ha]
    rfl
  have hlen : 0 < length.toNat := Nat.pos_of_ne_zero fun h => hne (BitVec.eq_of_toNat_eq h)
  have hwhole := hvalid.whole
  rw [mmap_made hv hl hc hi, Prog.emit_bind_run, ← ha] at hok hz
  have hwp : wp (mapArea p i addr flags fd offset)
      (fun _ t => (∃ g, t.pgdir p = some g ∧ ∀ n ∈ List.range a.npages, g.mapped (pageNum (a.page n)) = true) →
        Supplied s p (pageNums (addr + mmapBase) length)) (fun _ => True) (s.setArea i a) := by
    unfold mapArea mapPopulateAnonymous
    rw [if_pos hpop, if_pos hanon, Prog.wp_bind, Prog.wp_bind, Prog.wp_read, setArea_maps]
    dsimp only
    refine (pages_supplied halign (List.range a.npages) (s.setArea i a)).imp fun _ t ht hall => ?_
    have hsup := ht hall
    rw [hnpages, ha] at hsup
    exact hsup
  refine (hwp.ok hok) ?_
  -- a byte that is read is on a page that is there
  have hbyte : ∀ n < length.toNat / 4096, ∃ g, (mapArea p i addr flags fd offset (s.setArea i a)).st.pgdir p = some g ∧
      g.mapped (pageNum (a.page n)) = true := by
    intro n hn
    have hb := hz.zero (n * 4096 + 0) (by omega)
    have hnum := (page_byte (a := a) (n := n) halign (by decide : 0 < 4096)).1
    have haddr : a.addr = addr + mmapBase := by rw [ha]; rfl
    rw [haddr] at hnum
    rw [← hnum]
    exact userByte_mapped hb
  obtain ⟨g, hg, -⟩ := hbyte 0 (by omega)
  refine ⟨g, hg, fun n hn => ?_⟩
  rw [List.mem_range, hnpages] at hn
  obtain ⟨g', hg', hm⟩ := hbyte n hn
  obtain rfl : g = g' := Option.some.inj (hg.symm.trans hg')
  exact hm

/-- **mmap and its descriptor.** -/
theorem mmap_proper (hnd : s.phys.freelist.Nodup) :
    Proper s p addr length prot flags fd offset ↔ Sound s p addr length prot flags fd offset := by
  constructor
  · intro h hv hc
    have hread := fun hi ho => h.reads ((readsFd_iff hl).2 ⟨hv, hc, hi, ho⟩)
    split
    · rename_i hanon
      by_contra hfd
      have hres := h.refused hanon hfd
      cases hi : s.free with
      | none =>
        rw [mmap_full hv hl hc hi] at hres
        cases hres
      | some i => exact hfd (hread (by rw [hi]; rfl) (.inr hanon))
    · rename_i hanon
      obtain ⟨hok, hz⟩ := h.anonymous hanon hv hc
      obtain ⟨i, hi⟩ : ∃ i, s.free = some i := by
        refine Option.ne_none_iff_exists'.1 fun hi => ?_
        rw [mmap_full hv hl hc hi] at hok
        cases hok
      have hfree : s.free.isSome = true := Option.isSome_iff_exists.2 ⟨i, hi⟩
      have hpop : flags &&& mapPopulate ≠ 0 := by
        intro hno
        -- the descriptor of an anonymous area is -1
        obtain ⟨n, hn, -⟩ := hread hfree (.inl hno)
        have hfd : fd = -1 := by
          unfold validArgs at hv
          rw [if_pos hanon] at hv
          simp only [Bool.and_eq_true, decide_eq_true_eq] at hv
          exact hv.2.1
        rw [hfd] at hn
        have := n.isLt
        have hbig : (-1 : Word).toNat = 4294967295 := by decide
        omega
      exact ⟨hpop, hfree, zeroed_supplied hl hpop hanon hv hc hi hok hz⟩
  · intro h
    refine ⟨fun hr => ?_, fun hanon hv hc => ?_, fun hanon hfd => ?_⟩
    · obtain ⟨hv, hc, -, ho⟩ := (readsFd_iff hl).1 hr
      have hcond := h hv hc
      split at hcond
      · exact hcond
      · rename_i hanon
        exact absurd (ho.resolve_right hanon) hcond.populate
    · have hcond := h hv hc
      rw [if_neg hanon] at hcond
      obtain ⟨i, hi⟩ := Option.isSome_iff_exists.1 hcond.free
      exact mmap_zeroed hl hnd hcond.populate hanon hv hc hi hcond.supplied
    · cases hv : validArgs addr length prot flags fd offset with
      | false => rw [mmap_invalid hv]
      | true =>
        cases hc : s.clash p addr with
        | true => rw [mmap_clash hv hl hc]
        | false =>
          have hcond := h hv hc
          rw [if_pos hanon] at hcond
          exact absurd hcond hfd

end Descriptor

/-- A populated anonymous area of two pages. -/
theorem mapZeros_proper : Proper sample 0 0 8192 protRead (mapPopulate ||| mapAnonymous) (-1) 0 :=
  (mmap_proper rfl (by decide)).2 fun _ _ => by
    rw [if_neg (by decide)]
    have hno : ¬ present 0 := by decide
    refine ⟨by decide, by decide, .inr ⟨sampleSpace, rfl, fun n _ => ?_, by decide⟩⟩
    exact (congrArg _ (decide_eq_false hno)).trans (Bool.and_false _)

/-- One that is not populated reads `ofile[-1]`. -/
theorem mapLazily_reads : ReadsFd sample 0 0 4096 protRead mapAnonymous (-1) 0 ∧ ¬ FdOpen sample 0 (-1) ∧
    (mmap 0 0 4096 protRead mapAnonymous (-1) 0 sample).res = .error .wild := by
  refine ⟨(readsFd_iff rfl).2 ⟨by decide, by decide, by decide, .inl (by decide)⟩, ?_, by decide +kernel⟩
  rintro ⟨n, hn, -⟩
  have := n.isLt
  have hbig : (-1 : Word).toNat = 4294967295 := by decide
  omega

end Vm
end Xv6
