import Xv6.Swap.Faults
import Xv6.Swap.Spaces
/-!
# Swap.Kvm — an address space is made from free frames

What `kalloc`, `walkpgdir` with allocation and `mappages` do to a new page directory while the free list lasts, and that
`setupkvm` then succeeds.
-/
namespace Xv6
namespace Swap

open Mem

variable {s t : Kern} {d f : Frame}

def Taken (s t : Kern) (f : Frame) : Prop := f ∈ s.freelist ∧ f ∉ t.freelist

/-- Page `(i, j)` of an address space is mapped. -/
def Has (s : Kern) (d : Frame) (i j : BitVec 10) : Prop :=
  present (s.pte (d, i)) ∧ present (s.pte (pteFrame (s.pte (d, i)), j))

/-- **A directory `d` and its tables are made of frames that were free at `s`**, and nothing else has been written. -/
structure Making (s : Kern) (d : Frame) (t : Kern) : Prop where
  suffix : t.freelist <:+ s.freelist
  frozen : ∀ f ∉ s.freelist, t.mem f = s.mem f
  dir    : Taken s t d
  tab    : ∀ i, present (t.pte (d, i)) → Taken s t (pteFrame (t.pte (d, i))) ∧ pteFrame (t.pte (d, i)) ≠ d
  inj    : ∀ i k, present (t.pte (d, i)) → present (t.pte (d, k)) → pteFrame (t.pte (d, i)) = pteFrame (t.pte (d, k)) →
    i = k

theorem Taken.pop {l : List Frame} {g : Frame} (h : Taken s t g) (hl : t.freelist = f :: l) :
    Taken s { t with freelist := l } g :=
  ⟨h.1, fun hg => h.2 (by rw [hl]; exact List.mem_cons_of_mem f hg)⟩

theorem Making.mem_free (h : Making s d t) (hf : f ∈ t.freelist) : f ∈ s.freelist := h.suffix.mem hf

theorem Making.ne_tab (h : Making s d t) {i : BitVec 10} (hp : present (t.pte (d, i))) (hf : f ∈ t.freelist) :
    pteFrame (t.pte (d, i)) ≠ f := fun he => (h.tab i hp).1.2 (he ▸ hf)

theorem Making.ne_dir (h : Making s d t) (hf : f ∈ t.freelist) : d ≠ f := fun he => h.dir.2 (he ▸ hf)

theorem Making.take (h : Making s d t) (hnd : s.freelist.Nodup) {l : List Frame} (hl : t.freelist = f :: l) (p : Page) :
    Making s d { t.setPage f p with freelist := l } ∧ Taken s { t.setPage f p with freelist := l } f := by
  have hf : f ∈ t.freelist := by rw [hl]; exact List.mem_cons_self
  have hpte : ∀ i, ({ t.setPage f p with freelist := l } : Kern).pte (d, i) = t.pte (d, i) := fun i =>
    (setPage_pte t f p (d, i)).trans (if_neg (h.ne_dir hf))
  have hnot : f ∉ l := (List.nodup_cons.1 (hl ▸ hnd.sublist h.suffix.sublist)).1
  refine ⟨⟨?_, fun g hg => ?_, h.dir.pop hl, fun i hp => ?_, fun i k hp hp' he => ?_⟩, h.mem_free hf, hnot⟩
  · exact (List.suffix_cons f l).trans (hl ▸ h.suffix)
  · have hne : g ≠ f := fun he => hg (he ▸ h.mem_free hf)
    exact (if_neg hne).trans (h.frozen g hg)
  · rw [hpte] at hp ⊢
    exact ⟨(h.tab i hp).1.pop hl, (h.tab i hp).2⟩
  · rw [hpte] at hp hp' he
    rw [hpte] at he
    exact h.inj i k hp hp' he

theorem Making.newTable (h : Making s d t) {i : BitVec 10} {v : Pte}
    (hf : Taken s t (pteFrame v)) (hd : pteFrame v ≠ d)
    (hnew : ∀ k, present (t.pte (d, k)) → pteFrame (t.pte (d, k)) ≠ pteFrame v) : Making s d (t.setPte (d, i) v) := by
  have hpte : ∀ k, (t.setPte (d, i) v).pte (d, k) = if k = i then v else t.pte (d, k) := fun k => by
    rw [setPte_pte]
    exact if_congr ⟨fun he => (Prod.mk.inj he).2, fun he => by rw [he]⟩ rfl rfl
  refine ⟨h.suffix, fun g hg => ?_, h.dir, fun k hk => ?_, fun k k' hk hk' he => ?_⟩
  · have hne : g ≠ d := fun he => hg (he ▸ h.dir.1)
    exact (if_neg hne).trans (h.frozen g hg)
  · rw [hpte] at hk ⊢
    split_ifs at hk ⊢
    · exact ⟨hf, hd⟩
    · exact h.tab k hk
  · rw [hpte] at hk hk' he
    rw [hpte] at he
    split_ifs at hk hk' he with h1 h2 h2
    · rw [h1, h2]
    · exact absurd he.symm (hnew k' hk')
    · exact absurd he (hnew k hk)
    · exact h.inj k k' hk hk' he

theorem Making.store (h : Making s d t) {i : BitVec 10} (hi : present (t.pte (d, i))) (j : BitVec 10) (v : Pte) :
    Making s d (t.setPte (pteFrame (t.pte (d, i)), j) v) := by
  obtain ⟨hT, hTd⟩ := h.tab i hi
  have hpte : ∀ k, (t.setPte (pteFrame (t.pte (d, i)), j) v).pte (d, k) = t.pte (d, k) := fun k => by
    rw [setPte_pte, if_neg fun he => hTd (Prod.mk.inj he).1.symm]
  refine ⟨h.suffix, fun g hg => ?_, h.dir, fun k hk => ?_, fun k k' hk hk' he => ?_⟩
  · have hne : g ≠ pteFrame (t.pte (d, i)) := fun he => hg (he ▸ hT.1)
    exact (if_neg hne).trans (h.frozen g hg)
  · rw [hpte] at hk ⊢
    exact h.tab k hk
  · rw [hpte] at hk hk' he
    rw [hpte] at he
    exact h.inj k k' hk hk' he

/-! ## What is mapped -/

theorem Making.has_store (h : Making s d t) {i : BitVec 10} (hi : present (t.pte (d, i))) (j : BitVec 10) {v : Pte}
    (hv : present v) (k n : BitVec 10) :
    Has (t.setPte (pteFrame (t.pte (d, i)), j) v) d k n ↔ Has t d k n ∨ k = i ∧ n = j := by
  obtain ⟨-, hTd⟩ := h.tab i hi
  have hpte : ∀ k, (t.setPte (pteFrame (t.pte (d, i)), j) v).pte (d, k) = t.pte (d, k) := fun k => by
    rw [setPte_pte, if_neg fun he => hTd (Prod.mk.inj he).1.symm]
  unfold Has
  rw [hpte, setPte_pte]
  by_cases hk : present (t.pte (d, k))
  · split_ifs with he
    · obtain ⟨h1, h2⟩ := Prod.mk.inj he
      have hki := h.inj k i hk hi h1
      exact ⟨fun _ => .inr ⟨hki, h2⟩, fun _ => ⟨hk, hv⟩⟩
    · refine ⟨.inl, fun hor => hor.resolve_right ?_⟩
      rintro ⟨rfl, rfl⟩
      exact he rfl
  · refine ⟨fun hh => absurd hh.1 hk, fun hor => ?_⟩
    rcases hor with hh | ⟨rfl, -⟩
    · exact absurd hh.1 hk
    · exact absurd hi hk

theorem Making.has_newTable (h : Making s d t) {i : BitVec 10} {v : Pte} (hi : ¬ present (t.pte (d, i)))
    (hd : pteFrame v ≠ d) (hzero : t.mem (pteFrame v) = zeroPage) (k n : BitVec 10) :
    Has (t.setPte (d, i) v) d k n ↔ Has t d k n := by
  have hpte : ∀ k, (t.setPte (d, i) v).pte (d, k) = if k = i then v else t.pte (d, k) := fun k => by
    rw [setPte_pte]
    exact if_congr ⟨fun he => (Prod.mk.inj he).2, fun he => by rw [he]⟩ rfl rfl
  unfold Has
  rw [hpte]
  by_cases hk : k = i
  · subst hk
    rw [if_pos rfl, setPte_pte, if_neg fun he => hd (Prod.mk.inj he).1]
    unfold Kern.pte
    rw [hzero, wordAt_zeroPage]
    exact ⟨fun hh => absurd hh.2 not_present_zero, fun hh => absurd hh.1 hi⟩
  · rw [if_neg hk, setPte_pte]
    refine and_congr_right fun hp => ?_
    rw [if_neg fun he => (h.tab k hp).2 (Prod.mk.inj he).1]

/-! ## Runs with memory to spare -/

def tables (s : Kern) (d : Frame) : Finset (BitVec 10) := Finset.univ.filter fun i => present (s.pte (d, i))

theorem mem_tables {i : BitVec 10} : i ∈ tables s d ↔ present (s.pte (d, i)) := by
  unfold tables
  rw [Finset.mem_filter]
  exact and_iff_right (Finset.mem_univ i)

def SameRest (s t : Kern) : Prop := t = { s with mem := t.mem, freelist := t.freelist }

theorem SameRest.trans {u : Kern} (h : SameRest s t) (h' : SameRest t u) : SameRest s u := by
  unfold SameRest at *
  rw [h']
  rw [h]

theorem kalloc_run {l : List Frame} (hl : t.freelist = f :: l) :
    kalloc t = ⟨.ok (some f), { t with freelist := l }, []⟩ := by
  unfold kalloc kallocLoop
  rw [Prog.read_bind_run, hl]
  rfl

/-- `u` is `t` with the page table for `a` and, if it had to be made, a free page less. -/
structure Tabled (s : Kern) (d : Frame) (t : Kern) (a : Addr) (u : Kern) : Prop where
  making  : Making s d u
  present : present (u.pte (d, pdx a))
  has     : ∀ k n, Has u d k n ↔ Has t d k n
  tables  : tables u d = insert (pdx a) (tables t d)
  count   : u.freelist.length + (Swap.tables u d).card = t.freelist.length + (Swap.tables t d).card
  rest    : SameRest t u
  /-- The tables there were are kept, and a new one was free. -/
  pde     : ∀ k, Mem.present (t.pte (d, k)) → u.pte (d, k) = t.pte (d, k)
  new     : ¬ Mem.present (t.pte (d, pdx a)) → pteFrame (u.pte (d, pdx a)) ∈ t.freelist
  mem     : ∀ g, g ≠ d → g ∉ t.freelist → u.mem g = t.mem g
  sub     : u.freelist ⊆ t.freelist

theorem walkpgdirAlloc_run (h : Making s d t) (hnd : s.freelist.Nodup) (a : Addr)
    (hfree : pdx a ∉ tables t d → t.freelist ≠ []) :
    ∃ u, walkpgdirAlloc d a t = ⟨.ok (some (pteFrame (u.pte (d, pdx a)), ptx a)), u, []⟩ ∧ Tabled s d t a u := by
  unfold walkpgdirAlloc
  rw [Prog.read_bind_run]
  by_cases hp : present (t.pte (d, pdx a))
  · have hw : walkpgdir t d a = some (pteFrame (t.pte (d, pdx a)), ptx a) := if_pos hp
    rw [hw]
    exact ⟨t, rfl, h, hp, fun _ _ => Iff.rfl, (Finset.insert_eq_of_mem (mem_tables.2 hp)).symm, rfl, rfl,
      fun _ _ => rfl, fun hnp => absurd hp hnp, fun _ _ _ => rfl, List.Subset.refl _⟩
  · have hw : walkpgdir t d a = none := if_neg hp
    obtain ⟨f, l, hl⟩ := List.exists_cons_of_ne_nil (hfree fun hm => hp (mem_tables.1 hm))
    have hf : f ∈ t.freelist := by rw [hl]; exact List.mem_cons_self
    obtain ⟨hm, htaken⟩ := h.take hnd hl zeroPage
    let v := mapPte f (pteW ||| pteU)
    let w : Kern := { t.setPage f zeroPage with freelist := l }
    have hv : pteFrame v = f := pteFrame_mapPte (by decide)
    have hvp : present v := present_mapPte f _
    have hpte : ∀ k, w.pte (d, k) = t.pte (d, k) := fun k =>
      (setPage_pte t f zeroPage (d, k)).trans (if_neg (h.ne_dir hf))
    have hwp : ¬ present (w.pte (d, pdx a)) := by rwa [hpte]
    have hhas : ∀ k n, Has w d k n ↔ Has t d k n := by
      intro k n
      unfold Has
      rw [hpte]
      refine and_congr_right fun hk => ?_
      rw [show w.pte (pteFrame (t.pte (d, k)), n) = t.pte (pteFrame (t.pte (d, k)), n) from
        (setPage_pte t f zeroPage _).trans (if_neg (h.ne_tab hk hf))]
    have hzero : w.mem (pteFrame v) = zeroPage := by
      rw [hv]
      exact if_pos rfl
    have hnew : ∀ k, present (w.pte (d, k)) → pteFrame (w.pte (d, k)) ≠ pteFrame v := by
      intro k hk
      rw [hpte] at hk ⊢
      rw [hv]
      exact h.ne_tab hk hf
    have hd : pteFrame v ≠ d := by
      rw [hv]
      exact (h.ne_dir hf).symm
    have htab : Swap.tables (w.setPte (d, pdx a) v) d = insert (pdx a) (Swap.tables t d) := by
      ext k
      rw [mem_tables, Finset.mem_insert, mem_tables, setPte_pte, ← hpte k]
      by_cases hk : k = pdx a
      · rw [if_pos (by rw [hk])]
        exact ⟨fun _ => .inl hk, fun _ => hvp⟩
      · rw [if_neg fun he => hk (Prod.mk.inj he).2]
        exact ⟨.inr, fun hor => hor.resolve_left hk⟩
    have hself : (w.setPte (d, pdx a) v).pte (d, pdx a) = v := by rw [setPte_pte, if_pos rfl]
    rw [hw]
    dsimp only
    rw [Prog.bind_run_nil (kalloc_run hl)]
    refine ⟨w.setPte (d, pdx a) v, ?_, ?_⟩
    · rw [hself, hv]
      rfl
    · refine ⟨hm.newTable (hv.symm ▸ htaken) hd hnew, ?_, fun k n => ?_, htab, ?_, rfl, fun k hk => ?_, fun _ => ?_,
        fun g hg hgl => ?_, ?_⟩
      · rw [hself]
        exact hvp
      · rw [hm.has_newTable hwp hd hzero k n]
        exact hhas k n
      · rw [htab, Finset.card_insert_of_notMem fun hmem => hp (mem_tables.1 hmem), hl]
        change l.length + _ = _
        rw [List.length_cons]
        omega
      · have hne : k ≠ pdx a := fun he => hp (he ▸ hk)
        rw [setPte_pte, if_neg fun he => hne (Prod.mk.inj he).2, hpte]
      · rw [hself, hv]
        exact hf
      · have hne : g ≠ f := fun he => hgl (he ▸ hf)
        exact (if_neg hg).trans (if_neg hne)
      · rw [hl]
        exact List.subset_cons_self f l

theorem pageNo_inj {i j k n : BitVec 10} : pageNo i j = pageNo k n ↔ i = k ∧ j = n := by
  unfold pageNo
  have hj := j.isLt
  have hn := n.isLt
  constructor
  · intro h
    exact ⟨BitVec.eq_of_toNat_eq (by omega), BitVec.eq_of_toNat_eq (by omega)⟩
  · rintro ⟨rfl, rfl⟩
    rfl

/-- There are free pages for the tables of the entries `S`. -/
structure Roomy (s : Kern) (d : Frame) (S : Finset (BitVec 10)) (t : Kern) : Prop where
  making : Making s d t
  sub    : tables t d ⊆ S
  room   : S.card ≤ t.freelist.length + (tables t d).card

/-- `u` is `t` with the pages from `lo` to `hi` mapped. -/
structure Ranged (s : Kern) (d : Frame) (S : Finset (BitVec 10)) (t : Kern) (lo hi : Nat) (u : Kern) : Prop where
  roomy : Roomy s d S u
  has   : ∀ i j, Has u d i j ↔ Has t d i j ∨ lo ≤ pageNo i j ∧ pageNo i j ≤ hi
  count : u.freelist.length + (tables u d).card = t.freelist.length + (tables t d).card
  rest  : SameRest t u

variable {S : Finset (BitVec 10)}

theorem Roomy.free (h : Roomy s d S t) {i : BitVec 10} (hS : i ∈ S) (hi : i ∉ tables t d) : t.freelist ≠ [] := by
  intro hnil
  have hlt := Finset.card_lt_card (Finset.ssubset_iff_of_subset h.sub |>.2 ⟨i, hS, hi⟩)
  have hroom := h.room
  rw [hnil, List.length_nil] at hroom
  omega

theorem mapPage_run (h : Roomy s d S t) (hnd : s.freelist.Nodup) {a : Addr} (hS : pdx a ∈ S)
    (hno : ¬ Has t d (pdx a) (ptx a)) (v : Pte) (hv : present v) : ∃ q w,
      walkpgdirAlloc d a t = ⟨.ok (some q), w, []⟩ ∧ ¬ present (w.pte q) ∧
        Ranged s d S t (a.toNat / 4096) (a.toNat / 4096) (w.setPte q v) := by
  obtain ⟨w, hrun, hw⟩ := walkpgdirAlloc_run h.making hnd a fun hi => h.free hS hi
  have hno' : ¬ Has w d (pdx a) (ptx a) := fun hh => hno ((hw.has _ _).1 hh)
  have htab : tables (w.setPte (pteFrame (w.pte (d, pdx a)), ptx a) v) d = tables w d := by
    ext k
    rw [mem_tables, mem_tables, setPte_pte, if_neg fun he => (hw.making.tab _ hw.present).2 (Prod.mk.inj he).1.symm]
  refine ⟨_, w, hrun, fun hp => hno' ⟨hw.present, hp⟩, ⟨hw.making.store hw.present _ v, ?_, ?_⟩, fun i j => ?_, ?_, ?_⟩
  · rw [htab, hw.tables]
    exact Finset.insert_subset hS h.sub
  · rw [htab]
    change S.card ≤ w.freelist.length + _
    rw [hw.count]
    exact h.room
  · rw [hw.making.has_store hw.present _ hv, hw.has, ← pageNo_inj, pageNo_pdx_ptx]
    exact or_congr_right ⟨fun he => ⟨he.ge, he.le⟩, fun he => le_antisymm he.2 he.1⟩
  · rw [htab]
    exact hw.count
  · exact hw.rest.trans rfl

/-- **A range of pages that are not mapped is mapped**, if there are free pages for its tables. -/
theorem mappagesLoop_run (hnd : s.freelist.Nodup) (last : Addr) (perm : Pte) : ∀ (m n : Nat) (a pa : Addr) (t : Kern),
    m < n → Roomy s d S t → last.toNat = a.toNat + 4096 * m →
    (∀ i j, a.toNat / 4096 ≤ pageNo i j → pageNo i j ≤ last.toNat / 4096 → i ∈ S ∧ ¬ Has t d i j) →
    ∃ u, mappagesLoop n d a last pa perm t = ⟨.ok true, u, []⟩ ∧
      Ranged s d S t (a.toNat / 4096) (last.toNat / 4096) u
  | _, 0, _, _, _, hm, _, _, _ => absurd hm (Nat.not_lt_zero _)
  | m, n + 1, a, pa, t, hm, h, hlast, hfree => by
    have hpage : pageNo (pdx a) (ptx a) = a.toNat / 4096 := pageNo_pdx_ptx a
    obtain ⟨hS, hno⟩ := hfree (pdx a) (ptx a) hpage.ge (by rw [hpage]; omega)
    obtain ⟨q, w, hrun, hnp, hone⟩ := mapPage_run h hnd hS hno (pa ||| perm ||| pteP) (present_or_pteP (pa ||| perm))
    unfold mappagesLoop
    rw [Prog.bind_run_nil hrun]
    dsimp only
    rw [Prog.read_bind_run, if_neg hnp, Prog.modify_bind_run]
    cases m with
    | zero =>
      have ha : a = last := BitVec.eq_of_toNat_eq (by omega)
      rw [if_pos ha, ← ha]
      exact ⟨_, rfl, hone⟩
    | succ m =>
      have hlt := last.isLt
      have hnext : (a + pgsize).toNat = a.toNat + 4096 := by
        rw [BitVec.toNat_add, pgsize]
        simp only [BitVec.toNat_ofNat]
        omega
      have ha : a ≠ last := fun he => by
        rw [he] at hlast
        omega
      rw [if_neg ha]
      have hfree' : ∀ i j, (a + pgsize).toNat / 4096 ≤ pageNo i j → pageNo i j ≤ last.toNat / 4096 →
          i ∈ S ∧ ¬ Has (w.setPte q (pa ||| perm ||| pteP)) d i j := by
        intro i j h1 h2
        obtain ⟨hi, hn⟩ := hfree i j (by omega) h2
        refine ⟨hi, fun hh => ?_⟩
        rcases (hone.has i j).1 hh with hh | hh
        · exact hn hh
        · omega
      obtain ⟨u, hu, hrest⟩ := mappagesLoop_run hnd last perm m n (a + pgsize) (pa + pgsize) _ (Nat.lt_of_succ_lt_succ hm)
        hone.roomy (by omega) hfree'
      refine ⟨u, hu, hrest.roomy, fun i j => ?_, hrest.count.trans hone.count, hone.rest.trans hrest.rest⟩
      rw [hrest.has, hone.has, hnext, or_assoc]
      refine or_congr_right ?_
      omega

theorem mappages_run (h : Roomy s d S t) (hnd : s.freelist.Nodup) {va size : Addr} (pa : Addr) (perm : Pte) {m : Nat}
    (hva : va.toNat % 4096 = 0) (hm : m < 1048576) (hsize : (va + size - 1#32).toNat / 4096 = va.toNat / 4096 + m)
    (hfree : ∀ i j, va.toNat / 4096 ≤ pageNo i j → pageNo i j ≤ va.toNat / 4096 + m → i ∈ S ∧ ¬ Has t d i j) :
    ∃ u, mappages d va size pa perm t = ⟨.ok true, u, []⟩ ∧
      Ranged s d S t (va.toNat / 4096) (va.toNat / 4096 + m) u := by
  have hround : pgRoundDown va = va := pgRoundDown_eq_self.2 hva
  have hlast : (pgRoundDown (va + size - 1#32)).toNat = va.toNat + 4096 * m := by
    rw [toNat_pgRoundDown, hsize]
    omega
  unfold mappages
  rw [hround]
  have hpages : (pgRoundDown (va + size - 1#32)).toNat / 4096 = va.toNat / 4096 + m := by omega
  rw [← hpages] at hfree ⊢
  exact mappagesLoop_run hnd _ perm m maxPages va pa t (by unfold maxPages; omega) h hlast hfree

theorem mapOne_run (h : Making s d t) (hnd : s.freelist.Nodup) {va : Addr} (pa : Addr) (perm : Pte)
    (hva : va.toNat % 4096 = 0)
    (hno : ¬ Has t d (pdx va) (ptx va)) (hfree : pdx va ∉ tables t d → t.freelist ≠ []) :
    ∃ w, Tabled s d t va w ∧ mappages d va pgsize pa perm t =
      ⟨.ok true, w.setPte (pteFrame (w.pte (d, pdx va)), ptx va) (pa ||| perm ||| pteP), []⟩ := by
  obtain ⟨w, hrun, hw⟩ := walkpgdirAlloc_run h hnd va hfree
  have hround : pgRoundDown va = va := pgRoundDown_eq_self.2 hva
  refine ⟨w, hw, ?_⟩
  unfold mappages maxPages mappagesLoop
  rw [pgRoundDown_last hround, hround, Prog.bind_run_nil hrun]
  dsimp only
  rw [Prog.read_bind_run, if_neg fun hp => hno ((hw.has _ _).1 ⟨hw.present, hp⟩), Prog.modify_bind_run, if_pos rfl]
  rfl

/-! ## The kernel's half -/

/-- The linker's `data` is at a page of the kernel's. -/
structure LinkedPages (s : Kern) : Prop extends Linked s where
  aligned : s.kdata.toNat % 4096 = 0

/-- The entries that `kmap` fills. -/
def kmapEntries : Finset (BitVec 10) :=
  Finset.univ.filter fun i => 512 ≤ i.toNat ∧ i.toNat < 568 ∨ 1016 ≤ i.toNat

/-- The pages that `kmap` maps. -/
def inKmap (n : Nat) : Prop := 524288 ≤ n ∧ n < 581632 ∨ 1040384 ≤ n

theorem card_kmapEntries : kmapEntries.card = 64 := by decide +kernel

theorem mem_kmapEntries {i j : BitVec 10} (h : inKmap (pageNo i j)) : i ∈ kmapEntries := by
  unfold kmapEntries inKmap pageNo at *
  have hj := j.isLt
  rw [Finset.mem_filter]
  exact ⟨Finset.mem_univ i, by omega⟩

theorem Making.init (hnd : s.freelist.Nodup) {l : List Frame} (hl : s.freelist = d :: l) :
    Making s d { s.setPage d zeroPage with freelist := l } ∧
      ∀ i, ¬ present (({ s.setPage d zeroPage with freelist := l } : Kern).pte (d, i)) := by
  have hd : d ∈ s.freelist := by rw [hl]; exact List.mem_cons_self
  have hpte : ∀ i, ¬ present (({ s.setPage d zeroPage with freelist := l } : Kern).pte (d, i)) := by
    intro i
    rw [show ({ s.setPage d zeroPage with freelist := l } : Kern).pte (d, i) = 0 from
      (setPage_pte s d zeroPage (d, i)).trans ((if_pos rfl).trans (wordAt_zeroPage i))]
    exact not_present_zero
  refine ⟨⟨?_, fun f hf => ?_, ⟨hd, (List.nodup_cons.1 (hl ▸ hnd)).1⟩, fun i hi => absurd hi (hpte i),
    fun i _ hi => absurd hi (hpte i)⟩, hpte⟩
  · rw [hl]
    exact List.suffix_cons d l
  · have hne : f ≠ d := fun he => hf (he ▸ hd)
    exact if_neg hne

theorem pageNo_lt (i j : BitVec 10) : pageNo i j < 1048576 := by
  unfold pageNo
  have hi := i.isLt
  have hj := j.isLt
  omega

theorem kmap_ends {data : Addr} (hlo : 2148532224 < data.toNat) (hhi : data.toNat < 2382364672)
    (ha : data.toNat % 4096 = 0) :
    (kernbase + (extmem - 0) - 1#32).toNat / 4096 = kernbase.toNat / 4096 + 255 ∧
    (kernlink + (data - kernbase - (kernlink - kernbase)) - 1#32).toNat / 4096 =
      kernlink.toNat / 4096 + (data.toNat / 4096 - 524545) ∧
    (data + (phystop - (data - kernbase)) - 1#32).toNat / 4096 = data.toNat / 4096 + (581631 - data.toNat / 4096) ∧
    (devspace + (0 - devspace) - 1#32).toNat / 4096 = devspace.toNat / 4096 + 8191 := by
  have hlink : kernlink + (data - kernbase - (kernlink - kernbase)) - 1#32 = data - 1#32 := by ring
  have htop : data + (phystop - (data - kernbase)) - 1#32 = phystop + kernbase - 1#32 := by ring
  have hpred : (data - 1#32).toNat = data.toNat - 1 := by
    rw [BitVec.toNat_sub]
    simp only [BitVec.toNat_ofNat]
    omega
  have hkernlink : kernlink.toNat / 4096 = 524544 := by decide
  have hend : (phystop + kernbase - 1#32).toNat / 4096 = 581631 := by decide
  rw [hlink, htop, hpred, hkernlink, hend]
  refine ⟨by decide, by omega, by omega, by decide⟩

theorem mapKernel_run (hk : LinkedPages s) (hnd : s.freelist.Nodup) (h : Roomy s d kmapEntries t)
    (hhas : ∀ i j, ¬ Has t d i j) : ∃ u, mapKernel d (kmap s) t = ⟨.ok true, u, []⟩ ∧ Roomy s d kmapEntries u ∧
      (∀ i j, Has u d i j ↔ inKmap (pageNo i j)) ∧
      u.freelist.length + (tables u d).card = t.freelist.length + (tables t d).card ∧ SameRest t u := by
  have ha := hk.aligned
  have hlo := hk.data
  have hhi : s.kdata.toNat < 2382364672 := by
    have h1 := hk.kend
    have h2 := hk.top
    rw [BitVec.lt_def] at h1
    rw [BitVec.le_def] at h2
    exact h1.trans_le h2
  rw [BitVec.lt_def] at hlo
  change 2148532224 < s.kdata.toNat at hlo
  obtain ⟨hend1, hend2, hend3, hend4⟩ := kmap_ends hlo hhi ha
  have hv1 : kernbase.toNat / 4096 = 524288 := by decide
  have hv2 : kernlink.toNat / 4096 = 524544 := by decide
  have hv4 : devspace.toNat / 4096 = 1040384 := by decide
  have hin : ∀ i j, inKmap (pageNo i j) → i ∈ kmapEntries := fun _ _ => mem_kmapEntries
  unfold inKmap at *
  obtain ⟨u1, hrun1, h1⟩ := mappages_run h hnd 0 pteW (by decide) (by decide) hend1 fun i j ha hb =>
    ⟨hin i j (by omega), hhas i j⟩
  obtain ⟨u2, hrun2, h2⟩ := mappages_run h1.roomy hnd (kernlink - kernbase) 0 (by decide) (by omega) hend2 fun i j ha hb =>
    ⟨hin i j (by omega), fun hh => ((h1.has i j).1 hh).elim (hhas i j) fun _ => by omega⟩
  obtain ⟨u3, hrun3, h3⟩ := mappages_run h2.roomy hnd (s.kdata - kernbase) pteW ha (by omega) hend3 fun i j ha hb =>
    ⟨hin i j (by omega), fun hh => ((h2.has i j).1 hh).elim
      (fun hh => ((h1.has i j).1 hh).elim (hhas i j) fun _ => by omega) fun _ => by omega⟩
  obtain ⟨u4, hrun4, h4⟩ := mappages_run h3.roomy hnd devspace pteW (by decide) (by decide) hend4 fun i j ha hb =>
    ⟨hin i j (by omega), fun hh => ((h3.has i j).1 hh).elim (fun hh => ((h2.has i j).1 hh).elim
      (fun hh => ((h1.has i j).1 hh).elim (hhas i j) fun _ => by omega) fun _ => by omega) fun _ => by omega⟩
  refine ⟨u4, ?_, h4.roomy, fun i j => ?_, ?_, ((h1.rest.trans h2.rest).trans h3.rest).trans h4.rest⟩
  · unfold kmap mapKernel
    rw [Prog.bind_run_nil hrun1, if_pos rfl]
    unfold mapKernel
    rw [Prog.bind_run_nil hrun2, if_pos rfl]
    unfold mapKernel
    rw [Prog.bind_run_nil hrun3, if_pos rfl]
    unfold mapKernel
    rw [Prog.bind_run_nil hrun4, if_pos rfl]
    rfl
  · rw [h4.has, h3.has, h2.has, h1.has]
    constructor
    · rintro ((((hh | hh) | hh) | hh) | hh)
      · exact absurd hh (hhas i j)
      all_goals omega
    · rintro (hh | hh)
      · by_cases h255 : pageNo i j ≤ 524543
        · exact .inl (.inl (.inl (.inr (by omega))))
        · by_cases hdata : pageNo i j < s.kdata.toNat / 4096
          · exact .inl (.inl (.inr (by omega)))
          · exact .inl (.inr (by omega))
      · have hlt := pageNo_lt i j
        exact .inr (by omega)
  · rw [h4.count, h3.count, h2.count, h1.count]

/-- **`setupkvm` succeeds with 65 free pages**, and takes that many. -/
theorem setupkvm_run (hk : LinkedPages s) (hnd : s.freelist.Nodup) {l : List Frame} (hl : s.freelist = d :: l)
    (hlen : 64 ≤ l.length) : ∃ u, setupkvm s = ⟨.ok (some d), u, []⟩ ∧ Making s d u ∧
      (∀ i j, Has u d i j ↔ inKmap (pageNo i j)) ∧ u.freelist.length + 64 = l.length ∧ SameRest s u := by
  obtain ⟨hmake, hnone⟩ := Making.init hnd hl
  have htab : tables ({ s.setPage d zeroPage with freelist := l } : Kern) d = ∅ :=
    Finset.eq_empty_of_forall_notMem fun i hi => hnone i (mem_tables.1 hi)
  have hroomy : Roomy s d kmapEntries { s.setPage d zeroPage with freelist := l } := by
    refine ⟨hmake, by rw [htab]; exact Finset.empty_subset _, ?_⟩
    rw [card_kmapEntries, htab]
    exact hlen
  obtain ⟨u, hrun, hu, hhas, hcount, hrest⟩ := mapKernel_run hk hnd hroomy fun i j hh => hnone i hh.1
  refine ⟨u, ?_, hu.making, hhas, ?_, SameRest.trans (t := { s.setPage d zeroPage with freelist := l }) rfl hrest⟩
  · unfold setupkvm
    rw [Prog.bind_run_nil (kalloc_run hl)]
    dsimp only
    unfold memset0
    rw [Prog.modify_bind_run, Prog.read_bind_run]
    exact (Prog.bind_run_nil hrun).trans rfl
  · -- every entry of `kmap` has a page, so it has a table
    have hall : tables u d = kmapEntries := by
      refine Finset.Subset.antisymm hu.sub fun i hi => mem_tables.2 ?_
      have hi' := (Finset.mem_filter.1 hi).2
      have hpage : inKmap (pageNo i 0) := by
        have h0 : (0 : BitVec 10).toNat = 0 := rfl
        unfold inKmap pageNo
        omega
      exact ((hhas i 0).2 hpage).1
    rw [hall, htab, card_kmapEntries] at hcount
    exact hcount

end Swap
end Xv6
