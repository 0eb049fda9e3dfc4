import Xv6.Vm.Clone
/-!
# Vm.Image — the address space that exec makes

exec.c up to the arguments: `setupkvm`, `allocuvm` for each segment, and two pages more, of which `clearpteu` takes the
first from the user.  `Built` says which pages there are then, whose they are, and that every page table has a page.
-/
namespace Xv6
namespace Vm

open Mem
open Prog (wp)

variable {g g' : Space} {s t : Phys} {k : Nat} {E : Stop → Prop}

def clearpteu (g : Space) (uva : Addr) : V Space := do
  match ← walkpgdir g uva with
  | none   => Prog.stop (.panic "clearpteu")
  | some q => pure (g.setPte q (g.pte q &&& ~~~pteU))

/-- The segments of the program by their ends `ph.vaddr + ph.memsz`; what `loaduvm` reads goes into the frames. -/
def loadSegments : List Addr → Space → Addr → V (Option (Space × Addr))
  | [], g, sz       => pure (some (g, sz))
  | e :: segs, g, sz => do
    let (sz, g) ← allocuvm g sz e
    if sz = 0 then pure none else loadSegments segs g sz

/-- The new page directory and the new size, or `goto bad`. -/
def buildImage (segs : List Addr) : V (Option (Space × Addr)) := do
  match ← setupkvm with
  | none   => pure none
  | some g =>
    match ← loadSegments segs g 0 with
    | none         => pure none
    | some (g, sz) =>
      let sz := pgRoundUp sz
      let (sz, g) ← allocuvm g sz (sz + 2 * pgsize)
      if sz = 0 then pure none
      else
        let g ← clearpteu g (sz - 2 * pgsize)
        pure (some (g, sz))

/-! ## Page tables with pages -/

def Space.Tight (g : Space) : Prop := ∀ d, (g.pde d).isSome = true → ∃ m, dirIx m = d ∧ g.mapped m = true

theorem walkpgdirAlloc_tables {va : Addr} : wp (walkpgdirAlloc g va) (fun o _ => ∀ g', o = some g' →
    (g'.pde (pdx va)).isSome = true ∧ (∀ d, (g'.pde d).isSome = true → (g.pde d).isSome = true ∨ d = pdx va) ∧
      ∀ m, g'.mapped m = g.mapped m) E s := by
  unfold walkpgdirAlloc
  rw [Prog.wp_bind, Prog.wp_emit]
  refine Prog.wp_ite (fun ht g' hg' => ?_) fun ht => ?_
  · obtain rfl := Option.some.inj hg'
    exact ⟨ht, fun d hd => .inl hd, fun m => rfl⟩
  · have hd : g.pde (pdx va) = none := Option.not_isSome_iff_eq_none.1 ht
    rw [Prog.wp_bind]
    refine Prog.wp_of_run (kalloc_run s) ?_
    cases s.freelist with
    | nil => exact fun g' hg' => by cases hg'
    | cons f l =>
      intro g' hg'
      obtain rfl := Option.some.inj hg'
      refine ⟨?_, fun d hd' => ?_, mapped_setPde hd⟩
      · show (if pdx va = pdx va then some f else g.pde (pdx va)).isSome = true
        rw [if_pos rfl]
        rfl
      · by_cases hda : d = pdx va
        · exact .inr hda
        · exact .inl (by rwa [show (g.setPde (pdx va) f).pde d = g.pde d from if_neg hda] at hd')

/-- `mappages` puts a page into each page table it makes. -/
theorem mappagesLoop_tight {last : Addr} {perm : Pte} : ∀ (n : Nat) (g : Space) (s : Phys) (a pa : Addr), g.Tight →
    wp (mappagesLoop n g a last pa perm) (fun r _ => r.1 = true → r.2.Tight) (fun _ => True) s := by
  intro n
  induction n with
  | zero => exact fun _ _ _ _ _ => trivial
  | succ n ih =>
    intro g s a pa hg
    unfold mappagesLoop
    rw [Prog.wp_bind]
    refine walkpgdirAlloc_tables.imp fun o t ho => ?_
    cases o with
    | none => exact fun h => by cases h
    | some g' =>
      obtain ⟨htab, honly, hmap⟩ := ho g' rfl
      refine Prog.wp_ite (fun _ => trivial) fun _ => ?_
      have hpresent : present (pa ||| perm ||| pteP) := by
        simp only [present_iff, BitVec.getLsbD_or, getLsbD_pteP, decide_true, Bool.or_true]
      have htight : (g'.setPte (pageNum a) (pa ||| perm ||| pteP)).Tight := by
        intro d hd
        by_cases hda : d = pdx a
        · refine ⟨pageNum a, (dirIx_pageNum a).trans hda.symm, ?_⟩
          rw [mapped_setPte, if_pos rfl, dirIx_pageNum, htab, decide_eq_true hpresent]
          rfl
        · obtain ⟨m, hm, hmm⟩ := hg d ((honly d hd).resolve_right hda)
          refine ⟨m, hm, ?_⟩
          have hne : m ≠ pageNum a := fun he => hda (by rw [← hm, he, dirIx_pageNum])
          rw [mapped_setPte, if_neg hne, hmap, hmm]
      exact Prog.wp_ite (fun _ _ => htight) fun _ => ih _ t _ _ htight

theorem mapKernel_tight : ∀ (l : List (Addr × Addr × Addr × Pte)) (g : Space) (s : Phys), g.Tight →
    wp (mapKernel g l) (fun r _ => r.1 = true → r.2.Tight) (fun _ => True) s
  | [], g, s, hg     => fun _ => hg
  | _ :: l, g, s, hg => by
    unfold mapKernel
    rw [Prog.wp_bind]
    refine (mappagesLoop_tight maxPages g s _ _ hg).imp fun r t hr => ?_
    exact Prog.wp_ite (fun hok => mapKernel_tight l r.2 t (hr hok)) fun _ h => by cases h

theorem setupkvm_tight : wp setupkvm (fun o _ => ∀ d, o = some d → d.Tight) (fun _ => True) s := by
  unfold setupkvm
  rw [Prog.wp_bind]
  refine Prog.wp_of_run (kalloc_run s) ?_
  cases s.freelist with
  | nil => exact fun d hd => by cases hd
  | cons f l =>
    dsimp only [List.head?_cons, List.tail_cons]
    rw [Prog.wp_bind, memset_wp, Prog.wp_bind, Prog.wp_read, Prog.wp_bind]
    refine (mapKernel_tight _ _ _ fun d hd => by cases hd).imp fun r t hr => ?_
    refine Prog.wp_ite (fun hok d hd => ?_) fun _ => ?_
    · obtain rfl := Option.some.inj hd
      exact hr hok
    · exact Prog.wp_bind_any fun _ _ d hd => by cases hd

/-! ## The image -/

/-- The user's pages are those below `k`, and the kernel's those up to `PHYSTOP` and from `DEVSPACE` on. -/
structure Built (g : Space) (k : Nat) : Prop where
  user   : ∀ m : Frame, m.toNat < 524288 → (g.mapped m = true ↔ m.toNat * 4096 < k)
  own    : ∀ m : Frame, m.toNat * 4096 < k → m.toNat < 524288 → (g.pte m).getLsbD 2 = true
  kernel : ∀ m : Frame, 524288 ≤ m.toNat → (g.mapped m = true ↔ m.toNat * 4096 < 2382364672 ∨ 4261412864 ≤ m.toNat * 4096)
  closed : ∀ m : Frame, 524288 ≤ m.toNat → g.mapped m = true → (g.pte m).getLsbD 2 = false
  tight  : g.Tight

theorem frameAddr_toNat (m : Frame) : (frameAddr m).toNat = m.toNat * 4096 := by
  have hal : (frameAddr m).toNat % 4096 = 0 := by
    rw [← pgRoundDown_eq_self]
    refine BitVec.eq_of_getLsbD_eq fun i hi => ?_
    rw [pgRoundDown_eq_pteAddr, getLsbD_pteAddr, getLsbD_frameAddr]
    simp
  have hnum := pageNum_toNat (frameAddr m)
  rw [pageNum_frameAddr] at hnum
  omega

theorem kmapPte_closed {kdata : Addr} (hd : kdata.toNat % 4096 = 0) {e : Addr × Addr × Addr × Pte} (he : e ∈ kmap kdata)
    (m : Frame) : (kmapPte e m).getLsbD 2 = false := by
  have hentry : e.1.toNat % 4096 = 0 ∧ e.2.1.toNat % 4096 = 0 ∧ e.2.2.2.getLsbD 2 = false := by
    unfold kmap at he
    simp only [List.mem_cons, List.not_mem_nil, or_false] at he
    rcases he with rfl | rfl | rfl | rfl
    · refine ⟨?_, ?_, ?_⟩ <;> decide
    · exact ⟨show kernlink.toNat % 4096 = 0 by decide, show (kernlink - kernbase).toNat % 4096 = 0 by decide,
        show (0 : Pte).getLsbD 2 = false by decide⟩
    · refine ⟨hd, ?_, show pteW.getLsbD 2 = false by decide⟩
      show (kdata - kernbase).toNat % 4096 = 0
      rw [BitVec.toNat_sub]
      show (4294967296 - 2147483648 + kdata.toNat) % 4294967296 % 4096 = 0
      omega
    · refine ⟨?_, ?_, ?_⟩ <;> decide
  obtain ⟨h1, h2, h3⟩ := hentry
  have hsum : (e.2.1 + (frameAddr m - e.1)).toNat % 4096 = 0 := by
    rw [BitVec.toNat_add, BitVec.toNat_sub, frameAddr_toNat]
    omega
  have hbit : (e.2.1 + (frameAddr m - e.1)).getLsbD 2 = false := by
    rw [← pgRoundDown_eq_self.2 hsum, pgRoundDown_eq_pteAddr, getLsbD_pteAddr]
    rfl
  unfold kmapPte
  rw [BitVec.getLsbD_or, BitVec.getLsbD_or, hbit, h3, getLsbD_pteP]
  rfl

theorem NewSpace.built (hlink : s.Linked) (hdata : s.kdata.toNat % 4096 = 0) (h : NewSpace s g t) (ht : g.Tight) :
    Built g 0 := by
  have hlo : 2148532224 < s.kdata.toNat := hlink.1
  have hhi : s.kdata.toNat < 2382364672 := hlink.2
  obtain ⟨hcode, hrest⟩ := kmap_sizes hlink
  have hin : ∀ m : Frame, 524288 ≤ m.toNat →
      ((∃ e ∈ kmap s.kdata, inKmap e m) ↔ m.toNat * 4096 < 2382364672 ∨ 4261412864 ≤ m.toNat * 4096) := by
    intro m hm
    have hlt := m.isLt
    unfold kmap inKmap kmapSize
    simp only [List.mem_cons, List.not_mem_nil, or_false, exists_eq_or_imp, exists_eq_left, hcode, hrest]
    rw [show (extmem - 0).toNat = 1048576 from rfl, show kernbase.toNat = 2147483648 from rfl,
      show kernlink.toNat = 2148532224 from rfl, show devspace.toNat = 4261412864 from rfl,
      show (0 - devspace).toNat = 33554432 from rfl]
    omega
  refine ⟨fun m hm => ?_, fun m hm => by simp at hm, fun m hm => ?_, fun m hm hmap => ?_, ht⟩
  · rw [h.none m hm]
    simp
  · rw [← hin m hm]
    exact ⟨fun hmap => h.kernel.only m hm hmap, fun ⟨e, he, hem⟩ => (h.kernel.pages e he m hem).1⟩
  · obtain ⟨e, he, hem⟩ := h.kernel.only m hm hmap
    rw [(h.kernel.pages e he m hem).2]
    exact kmapPte_closed hdata he m

/-! ## allocuvm -/

theorem Built.page {a : Addr} {f : Frame} {N : Frame → Prop} (h : Built g k) (hk : k = a.toNat) (ha : a.toNat % 4096 = 0)
    (hlt : a.toNat < 2147483648) (hg : Grown g s N g' t) (hN : ∀ m, ¬ N m) (htab : g'.hasTable a = true)
    (ht : (g'.setPte (pageNum a) (frameAddr f ||| (pteW ||| pteU) ||| pteP)).Tight) :
    Built (g'.setPte (pageNum a) (frameAddr f ||| (pteW ||| pteU) ||| pteP)) (a.toNat + 4096) := by
  subst hk
  have hnum := pageNum_toNat a
  have hpg : ∀ m : Frame, m.toNat * 4096 < a.toNat + 4096 ↔ m.toNat * 4096 < a.toNat ∨ m = pageNum a := fun m => by
    rw [← BitVec.toNat_inj, hnum]
    omega
  have hpresent : present (frameAddr f ||| (pteW ||| pteU) ||| pteP) := present_mapPte f (pteW ||| pteU)
  have hsame : ∀ m, g'.mapped m = true ↔ g.mapped m = true := fun m =>
    (hg.mapped m).trans ⟨fun h => h.resolve_right (hN m), .inl⟩
  refine ⟨fun m hm => ?_, fun m hm hmu => ?_, fun m hm => ?_, fun m hm hmap => ?_, ht⟩
  · rw [mapped_setPte, hpg]
    by_cases hma : m = pageNum a
    · rw [if_pos hma, dirIx_pageNum, decide_eq_true hpresent]
      exact iff_of_true (by rw [Bool.and_true]; exact htab) (.inr hma)
    · rw [if_neg hma, hsame, h.user m hm]
      exact ⟨.inl, fun h => h.resolve_right hma⟩
  · by_cases hma : m = pageNum a
    · rw [hma, show (g'.setPte (pageNum a) _).pte (pageNum a) = _ from if_pos rfl]
      simp only [BitVec.getLsbD_or, getLsbD_pteU, decide_true, Bool.or_true, Bool.true_or]
    · have hlow := ((hpg m).1 hm).resolve_right hma
      rw [pte_setPte hma, hg.pte m ((h.user m hmu).2 hlow)]
      exact h.own m hlow hmu
  · have hma : m ≠ pageNum a := fun he => by rw [he, hnum] at hm; omega
    rw [mapped_setPte, if_neg hma, hsame]
    exact h.kernel m hm
  · have hma : m ≠ pageNum a := fun he => by rw [he, hnum] at hm; omega
    rw [mapped_setPte, if_neg hma, hsame] at hmap
    rw [pte_setPte hma, hg.pte m hmap]
    exact h.closed m hm hmap

theorem allocuvmLoop_built {oldsz newsz : Addr} (hk : newsz < kernbase) : ∀ (n : Nat) (g : Space) (s : Phys) (a : Addr),
    a.toNat % 4096 = 0 → a.toNat < newsz.toNat + 4096 → Built g a.toNat →
      wp (allocuvmLoop n g a oldsz newsz)
        (fun r _ => r.1 ≠ 0 → r.1 = newsz ∧ Built r.2 (if a.toNat < newsz.toNat then (pgRoundUp newsz).toNat else a.toNat))
        (fun _ => True) s := by
  have hk' : newsz.toNat < 2147483648 := hk
  have hup := toNat_pgRoundUp (a := newsz) (by omega)
  intro n
  induction n with
  | zero => exact fun _ _ _ _ _ _ => trivial
  | succ n ih =>
    intro g s a ha hle h
    refine Prog.wp_ite (fun hlt => ?_) fun hge => ?_
    · have hlt' : a.toNat < newsz.toNat := hlt
      have hnext : (a + pgsize).toNat = a.toNat + 4096 := toNat_nextPage (by omega)
      rw [if_pos hlt', Prog.wp_bind]
      refine kalloc_wp (fun _ t _ _ => ?_) fun f t _ _ => ?_
      · exact Prog.wp_bind_any fun r u hne => absurd rfl hne
      · dsimp only
        rw [Prog.wp_bind, memset_wp, Prog.wp_bind]
        have hmaps : wp (mappages g a pgsize (frameAddr f) (pteW ||| pteU)) (fun r u => r.1 = true →
            ∃ g' k' u', r.2 = g'.setPte (pageNum a) (frameAddr f ||| (pteW ||| pteU) ||| pteP) ∧
              Grown g k' (fun _ => False) g' u' ∧ g'.hasTable a = true) (fun _ => True) (t.setPage f fun _ => 0) :=
          mappages_wp (pgRoundDown_eq_self.2 ha) (fun _ _ _ _ _ h => by cases h) (fun _ => trivial)
            fun g' u hg' ht _ _ => ⟨g', _, u, rfl, hg', ht⟩
        refine (hmaps.and (mappagesLoop_tight maxPages g _ _ _ h.tight)).imp fun r u hr => ?_
        obtain ⟨hr, htight⟩ := hr
        refine Prog.wp_ite (fun hok => ?_) fun _ => ?_
        · obtain ⟨g', k', u', hr2, hg', htab⟩ := hr hok
          have hbuilt : Built r.2 (a + pgsize).toNat := by
            have ht := htight hok
            rw [hnext]
            rw [hr2] at ht ⊢
            exact h.page rfl ha (by omega) hg' (fun _ => id) htab ht
          refine (ih r.2 u (a + pgsize) (by omega) (by omega) hbuilt).imp fun r' v hr' hne => ?_
          obtain ⟨h1, h2⟩ := hr' hne
          refine ⟨h1, ?_⟩
          have hend : (if (a + pgsize).toNat < newsz.toNat then (pgRoundUp newsz).toNat else (a + pgsize).toNat) =
              (pgRoundUp newsz).toNat := by
            split <;> omega
          rwa [hend] at h2
        · exact Prog.wp_bind_any fun _ _ => Prog.wp_bind_any fun _ _ hne => absurd rfl hne
    · have hge' : ¬ a.toNat < newsz.toNat := hge
      rw [if_neg hge']
      exact fun _ => ⟨rfl, h⟩

theorem allocuvm_built {oldsz newsz : Addr} (ho : oldsz.toNat ≤ 2147483648) (h : Built g (pgRoundUp oldsz).toNat) :
    wp (allocuvm g oldsz newsz) (fun r _ => r.1 ≠ 0 → Built r.2 (pgRoundUp r.1).toNat ∧
      (newsz < oldsz ∧ r.1 = oldsz ∨ newsz < kernbase ∧ r.1 = newsz)) (fun _ => True) s := by
  have hup := toNat_pgRoundUp ho
  refine Prog.wp_ite (fun _ hne => absurd rfl hne) fun hk => Prog.wp_ite (fun hlt _ => ⟨h, .inl ⟨hlt, rfl⟩⟩) fun hge => ?_
  have hk' : newsz < kernbase := BitVec.not_le.1 hk
  have hnew : newsz.toNat < 2147483648 := hk'
  have hge' : oldsz.toNat ≤ newsz.toNat := Nat.not_lt.1 hge
  have hupn := toNat_pgRoundUp (a := newsz) (by omega)
  refine (allocuvmLoop_built hk' maxPages g s (pgRoundUp oldsz) (pgRoundUp_aligned _) (by omega) h).imp fun r t hr hne => ?_
  obtain ⟨h1, h2⟩ := hr hne
  have hend : (if (pgRoundUp oldsz).toNat < newsz.toNat then (pgRoundUp newsz).toNat else (pgRoundUp oldsz).toNat) =
      (pgRoundUp newsz).toNat := by
    split <;> omega
  rw [hend] at h2
  rw [h1]
  exact ⟨h2, .inr ⟨hk', rfl⟩⟩

theorem loadSegments_built : ∀ (segs : List Addr) (g : Space) (sz : Addr) (s : Phys), sz.toNat ≤ 2147483648 →
    Built g (pgRoundUp sz).toNat → wp (loadSegments segs g sz) (fun o _ => ∀ r, o = some r →
      r.2.toNat ≤ 2147483648 ∧ Built r.1 (pgRoundUp r.2).toNat) (fun _ => True) s
  | [], g, sz, s, hsz, h        => fun r hr => by
    obtain rfl := Option.some.inj hr
    exact ⟨hsz, h⟩
  | e :: segs, g, sz, s, hsz, h => by
    unfold loadSegments
    rw [Prog.wp_bind]
    refine (allocuvm_built hsz h).imp fun r t hr => ?_
    refine Prog.wp_ite (fun _ _ h => by cases h) fun hne => ?_
    obtain ⟨hb, hlim⟩ := hr hne
    refine loadSegments_built segs r.2 r.1 t ?_ hb
    obtain ⟨-, he⟩ | ⟨hlt, he⟩ := hlim
    · rw [he]
      exact hsz
    · have hlt' : e.toNat < 2147483648 := hlt
      rw [he]
      omega

/-- **A new image**: the pages below the size are the user's, but for the guard page below the last; the kernel has its
own, from `KERNBASE` to `PHYSTOP` and from `DEVSPACE` on; and no page table is there for nothing. -/
structure NewImage (g : Space) (sz : Addr) : Prop where
  low     : 8192 ≤ sz.toNat
  high    : sz.toNat < 2147483648
  aligned : sz.toNat % 4096 = 0
  user    : ∀ m : Frame, m.toNat < 524288 → (g.mapped m = true ↔ m.toNat * 4096 < sz.toNat)
  own     : ∀ m : Frame, m.toNat * 4096 < sz.toNat → ((g.pte m).getLsbD 2 = true ↔ m.toNat * 4096 + 8192 ≠ sz.toNat)
  kernel  : ∀ m : Frame, 524288 ≤ m.toNat → (g.mapped m = true ↔ m.toNat * 4096 < 2382364672 ∨ 4261412864 ≤ m.toNat * 4096)
  closed  : ∀ m : Frame, 524288 ≤ m.toNat → g.mapped m = true → (g.pte m).getLsbD 2 = false
  tight   : g.Tight

theorem present_clearU (e : Pte) : present (e &&& ~~~pteU) ↔ present e := by
  rw [present_iff, present_iff, BitVec.getLsbD_and, BitVec.getLsbD_not, getLsbD_pteU]
  simp

theorem getLsbD_clearU (e : Pte) : (e &&& ~~~pteU).getLsbD 2 = false := by
  rw [BitVec.getLsbD_and, BitVec.getLsbD_not, getLsbD_pteU]
  simp

theorem Built.guard {sz : Addr} (h : Built g sz.toNat) (hlo : 8192 ≤ sz.toNat) (hhi : sz.toNat < 2147483648)
    (hal : sz.toNat % 4096 = 0) {q : Frame} (hq : q.toNat * 4096 + 8192 = sz.toNat) :
    NewImage (g.setPte q (g.pte q &&& ~~~pteU)) sz := by
  have hsame : ∀ m, (g.setPte q (g.pte q &&& ~~~pteU)).mapped m = g.mapped m := fun m => by
    rw [mapped_setPte]
    by_cases hm : m = q
    · rw [if_pos hm, hm]
      unfold Space.mapped
      rw [decide_eq_decide.2 (present_clearU (g.pte q))]
    · rw [if_neg hm]
  refine ⟨hlo, hhi, hal, fun m hm => ?_, fun m hm => ?_, fun m hm => ?_, fun m hm hmap => ?_, fun d hd => ?_⟩
  · rw [hsame]
    exact h.user m hm
  · by_cases hmq : m = q
    · rw [hmq, show (g.setPte q (g.pte q &&& ~~~pteU)).pte q = _ from if_pos rfl, getLsbD_clearU]
      exact iff_of_false (by decide) fun hne => hne hq
    · rw [pte_setPte hmq]
      refine iff_of_true (h.own m hm (by omega)) fun he => hmq (BitVec.eq_of_toNat_eq (by omega))
  · rw [hsame]
    exact h.kernel m hm
  · have hmq : m ≠ q := fun he => by rw [he] at hm; omega
    rw [hsame] at hmap
    rw [pte_setPte hmq]
    exact h.closed m hm hmap
  · obtain ⟨m, hm, hmap⟩ := h.tight d hd
    exact ⟨m, hm, (hsame m).trans hmap⟩

/-- **What exec makes** is a new image. -/
theorem buildImage_image (segs : List Addr) (hlink : s.Linked) (hdata : s.kdata.toNat % 4096 = 0)
    (hgood : ∀ f ∈ s.freelist, s.good f) :
    wp (buildImage segs) (fun o _ => ∀ r, o = some r → NewImage r.1 r.2) (fun _ => True) s := by
  unfold buildImage
  rw [Prog.wp_bind]
  refine ((setupkvm_wp (E := fun _ => True) hlink hdata hgood).and setupkvm_tight).imp fun o t ho => ?_
  obtain ⟨hnew, htight⟩ := ho
  cases o with
  | none => exact fun _ h => by cases h
  | some g =>
    dsimp only
    rw [Prog.wp_bind]
    refine (loadSegments_built segs g 0 t (by decide) (NewSpace.built hlink hdata hnew (htight g rfl))).imp fun o t ho => ?_
    cases o with
    | none => exact fun _ h => by cases h
    | some r =>
      have hsz := (ho r rfl).1
      have hb := (ho r rfl).2
      have hup := toNat_pgRoundUp hsz
      dsimp only
      rw [Prog.wp_bind]
      have hal := pgRoundUp_aligned r.2
      generalize pgRoundUp r.2 = sz at hb hup hal ⊢
      have hszle : sz.toNat ≤ 2147483648 := by omega
      have hself : (pgRoundUp sz).toNat = sz.toNat := by
        rw [toNat_pgRoundUp hszle]
        omega
      have htwo : (sz + 2 * pgsize).toNat = sz.toNat + 8192 := by
        rw [BitVec.toNat_add]
        show (_ + 8192) % 4294967296 = _
        omega
      have hguard : sz + 2 * pgsize - 2 * pgsize = sz := BitVec.add_sub_cancel _ _
      generalize sz + 2 * pgsize = newsz at htwo hguard ⊢
      refine (allocuvm_built hszle (by rwa [hself])).imp fun r' u hr => ?_
      refine Prog.wp_ite (fun _ _ h => by cases h) fun hne => ?_
      obtain ⟨hb', hlim⟩ := hr hne
      obtain ⟨hlt, -⟩ | ⟨hlt, he⟩ := hlim
      · have hlt' : newsz.toNat < sz.toNat := hlt
        omega
      · have hlt' : newsz.toNat < 2147483648 := hlt
        rw [he] at hb' ⊢
        have hfull : (pgRoundUp newsz).toNat = newsz.toNat := by
          rw [toNat_pgRoundUp (by omega)]
          omega
        rw [hfull] at hb'
        unfold clearpteu
        rw [hguard, Prog.wp_bind, Prog.wp_bind, walkpgdir_wp]
        have hnum := pageNum_toNat sz
        have hmap := (hb'.user (pageNum sz) (by omega)).2 (by omega)
        rw [mapped_pageNum, Bool.and_eq_true] at hmap
        rw [if_pos hmap.1]
        intro r hr
        obtain rfl := Option.some.inj hr
        exact hb'.guard (by omega) hlt' (by omega) (by omega)

end Vm
end Xv6
