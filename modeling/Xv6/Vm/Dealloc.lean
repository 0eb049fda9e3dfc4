import Xv6.Vm.Heap
import Xv6.Vm.Unmap
/-!
# Vm.Dealloc — the frames that deallocuvm and freevm give back

Which pages `deallocuvm` empties and which frames it gives to `kfree`, one call for each; and with them the frames that
`freevm` gives back, those of the page tables and the directory.
-/
namespace Xv6
namespace Vm

open Mem

variable {g : Space} {s t u : Phys} {oldsz newsz : Addr} {f : Frame} {fs : List Frame} {tr : List PhysEvent}

/-- The frames given to `kfree`, in this order. -/
def kfreed (tr : List PhysEvent) : List Frame := tr.filterMap fun e => match e with | .kfree f => some f | .walk _ => none

theorem kfreed_append (tr tr' : List PhysEvent) : kfreed (tr ++ tr') = kfreed tr ++ kfreed tr' := List.filterMap_append

/-- From `s` to `t` the frames `fs` have been given to `kfree`, and no other. -/
structure Freed (s : Phys) (fs : List Frame) (t : Phys) (tr : List PhysEvent) : Prop where
  calls : kfreed tr = fs
  list  : t.freelist = fs.reverse ++ s.freelist
  kend  : t.kend = s.kend
  mem   : ∀ f, f ∉ fs → t.mem f = s.mem f

theorem Freed.refl (s : Phys) : Freed s [] s [] := ⟨rfl, rfl, rfl, fun _ _ => rfl⟩

theorem Freed.trans {fs' : List Frame} {tr' : List PhysEvent} (h : Freed s fs t tr) (h' : Freed t fs' u tr') :
    Freed s (fs ++ fs') u (tr ++ tr') := by
  refine ⟨by rw [kfreed_append, h.calls, h'.calls], ?_, h'.kend.trans h.kend, fun f hf => ?_⟩
  · rw [h'.list, h.list, List.reverse_append, List.append_assoc]
  · rw [List.mem_append, not_or] at hf
    exact (h'.mem f hf.2).trans (h.mem f hf.1)

theorem Freed.walk {va : Addr} (h : Freed s fs t tr) : Freed s fs t (.walk va :: tr) := ⟨h.calls, h.list, h.kend, h.mem⟩

theorem kfree_freed (hk : s.kfrees f = true) : ∃ t, kfree f s = ⟨.ok (), t, [.kfree f]⟩ ∧ Freed s [f] t [.kfree f] :=
  ⟨_, (kfree_run f s).trans (if_pos hk), rfl, rfl, rfl, fun _ hg => if_neg fun he => hg (List.mem_singleton.2 he)⟩

/-! ## deallocuvm -/

theorem setPte_drop (g : Space) (n : Frame) : g.setPte n 0 = g.drop [n] := by
  unfold Space.setPte Space.drop
  congr 1
  funext m
  by_cases hm : m = n <;> simp [hm]

theorem deallocuvmLoop_run (ho : oldsz ≤ kernbase) : ∀ (n : Nat) (g : Space) (s : Phys) (a : Addr),
    a.toNat % 4096 = 0 → a.toNat ≤ 2147483648 → 524288 < n + a.toNat / 4096 → Freeable g s a.toNat oldsz.toNat →
      ∃ l t tr, deallocuvmLoop n g a oldsz s = ⟨.ok (g.drop l), t, tr⟩ ∧ l.Nodup ∧
        (∀ m, m ∈ l ↔ within a.toNat oldsz.toNat m ∧ g.mapped m = true) ∧ Freed s (l.map g.frame) t tr := by
  have hob : oldsz.toNat ≤ 2147483648 := ho
  intro n
  induction n with
  | zero => intro g s a _ ha hn; omega
  | succ n ih =>
    intro g s a ha0 ha hn hf
    unfold deallocuvmLoop
    by_cases hlt : a < oldsz
    · have hlt' : a.toNat < oldsz.toNat := hlt
      have hnext := toNat_nextPage (a := a) (by omega)
      have hpage := fun m => within_next (m := m) ha0 hlt' hob
      have hwalk : walkpgdir g a s = ⟨.ok (if g.hasTable a then some (pageNum a) else none), s, [.walk a]⟩ := rfl
      rw [if_pos hlt, Prog.bind_run_ok hwalk]
      cases ht : g.hasTable a with
      | false =>
        have hskip := toNat_nextDir (a := a) (by omega)
        have hnone := fun m => within_skip (m := m) ha0 hlt' hob ht
        obtain ⟨l, t, tr, hrun, hnd, hmem, hfreed⟩ := ih g s _ (by omega) (by omega) (by omega)
          fun m hw hm => hf m ((hnone m hm).2 hw) hm
        refine ⟨l, t, .walk a :: tr, ?_, hnd, fun m => (hmem m).trans (and_congr_left fun hm => (hnone m hm).symm),
          hfreed.walk⟩
        rw [if_neg (by decide)]
        dsimp only
        rw [hrun]
        rfl
      | true =>
        have hm := mapped_pageNum g a
        rw [ht, Bool.true_and] at hm
        rw [if_pos rfl]
        dsimp only
        by_cases hp : present (g.pte (pageNum a))
        · -- a page: its frame is freed and the entry emptied
          rw [decide_eq_true hp] at hm
          have hgood := hf _ ((hpage _).2 (.inl rfl)) hm
          have hne : ¬ pteAddr (g.pte (pageNum a)) = 0 := fun h0 => hgood.2 (pteAddr_eq_zero h0)
          obtain ⟨t₁, hkfree, hfreed₁⟩ := kfree_freed hgood.1
          have hgone : (g.drop [pageNum a]).mapped (pageNum a) = false := mapped_drop List.mem_cons_self
          have hother : ∀ m, (g.drop [pageNum a]).mapped m = true → m ≠ pageNum a := by
            rintro m hm' rfl
            rw [hgone] at hm'
            cases hm'
          have hsame : ∀ m, m ≠ pageNum a → (g.drop [pageNum a]).mapped m = g.mapped m ∧
              (g.drop [pageNum a]).frame m = g.frame m := by
            intro m hne
            have hnot : m ∉ [pageNum a] := fun h => hne (List.mem_singleton.1 h)
            refine ⟨mapped_drop_not hnot, ?_⟩
            unfold Space.frame
            rw [drop_not_mem hnot]
          obtain ⟨l, t, tr, hrun, hnd, hmem, hfreed⟩ := ih (g.drop [pageNum a]) t₁ (a + pgsize) (by omega) (by omega)
            (by omega) (by
              intro m hw hm'
              obtain ⟨h1, h2⟩ := hsame m (hother m hm')
              have hg := hf m ((hpage m).2 (.inr hw)) (h1 ▸ hm')
              rw [h2]
              exact ⟨(kfrees_congr hfreed₁.kend _).trans hg.1, hg.2⟩)
          have hnot : pageNum a ∉ l := fun hin => hother _ ((hmem _).1 hin).2 rfl
          have hframes : l.map (g.drop [pageNum a]).frame = l.map g.frame :=
            List.map_congr_left fun m hm' => (hsame m (hother m ((hmem m).1 hm').2)).2
          rw [hframes] at hfreed
          have hall : Freed s ((pageNum a :: l).map g.frame) t (.walk a :: ([.kfree (g.frame (pageNum a))] ++ tr)) :=
            (hfreed₁.trans hfreed).walk
          refine ⟨pageNum a :: l, t, _, ?_, List.nodup_cons.2 ⟨hnot, hnd⟩, fun m => ?_, hall⟩
          · rw [if_pos hp, if_neg hne, Prog.bind_run_ok (show kfree (pteFrame (g.pte (pageNum a))) s = _ from hkfree),
              setPte_drop, hrun, drop_drop]
            rfl
          · rw [List.mem_cons, hmem, hpage]
            by_cases hma : m = pageNum a
            · simp [hma, hm]
            · simp [hma, (hsame m hma).1]
        · rw [decide_eq_false hp] at hm
          obtain ⟨l, t, tr, hrun, hnd, hmem, hfreed⟩ := ih g s (a + pgsize) (by omega) (by omega) (by omega)
            fun m hw hm => hf m ((hpage m).2 (.inr hw)) hm
          refine ⟨l, t, .walk a :: tr, by rw [if_neg hp, hrun]; rfl, hnd, fun m => (hmem m).trans ?_, hfreed.walk⟩
          rw [hpage]
          refine and_congr_left fun hm' => ⟨.inr, fun h => h.resolve_left ?_⟩
          rintro rfl
          rw [hm] at hm'
          cases hm'
    · have hge : oldsz.toNat ≤ a.toNat := Nat.not_lt.1 hlt
      refine ⟨[], s, [], by rw [if_neg hlt, drop_nil]; rfl, List.nodup_nil, fun m => ?_, .refl s⟩
      unfold within
      simp only [List.not_mem_nil, false_iff]
      omega

theorem deallocuvm_run (ho : oldsz ≤ kernbase) (hlt : newsz < oldsz)
    (hf : Freeable g s (pgRoundUp newsz).toNat oldsz.toNat) :
    ∃ l t tr, deallocuvm g oldsz newsz s = ⟨.ok (newsz, g.drop l), t, tr⟩ ∧ l.Nodup ∧
      (∀ m, m ∈ l ↔ within (pgRoundUp newsz).toNat oldsz.toNat m ∧ g.mapped m = true) ∧ Freed s (l.map g.frame) t tr := by
  have h1 : newsz.toNat < oldsz.toNat := hlt
  have h2 : oldsz.toNat ≤ 2147483648 := ho
  have hup := toNat_pgRoundUp (a := newsz) (by omega)
  have hle : ¬ oldsz ≤ newsz := fun h => absurd (show oldsz.toNat ≤ newsz.toNat from h) (by omega)
  obtain ⟨l, t, tr, hrun, hnd, hmem, hfreed⟩ := deallocuvmLoop_run ho maxPages g s (pgRoundUp newsz) (by omega) (by omega)
    (by unfold maxPages; omega) hf
  refine ⟨l, t, tr, ?_, hnd, hmem, hfreed⟩
  unfold deallocuvm
  rw [if_neg hle, Prog.bind_run_ok hrun]
  simp

/-! ## freevm -/

def Space.blank (dir : Frame) : Space := ⟨dir, fun _ => none, fun _ => 0⟩

theorem mapped_blank (dir n : Frame) : (Space.blank dir).mapped n = false := rfl

theorem pages_blank (dir : Frame) : (Space.blank dir).pages = 0 := by
  refine Multiset.eq_zero_of_forall_notMem fun f hf => ?_
  obtain ⟨n, hn⟩ := mem_held.1 hf
  rw [mapped_blank, Bool.and_false] at hn
  cases hn

theorem tables_blank (dir : Frame) : (Space.blank dir).tables = 0 := by
  refine Multiset.eq_zero_of_forall_notMem fun f hf => ?_
  obtain ⟨d, hd⟩ := mem_held.1 hf
  cases hd

theorem freeTables_run (g : Space) : ∀ (l : List (BitVec 10)) (s : Phys),
    (∀ d ∈ l, ∀ f, g.pde d = some f → s.kfrees f = true) →
    ∃ t tr, Prog.forEach l (fun i => match g.pde i with | none => pure () | some t => kfree t) s = ⟨.ok (), t, tr⟩ ∧
      Freed s (l.filterMap g.pde) t tr
  | [], s, _     => ⟨s, [], rfl, .refl s⟩
  | d :: l, s, h => by
    rw [Prog.forEach_cons, List.filterMap_cons]
    cases hd : g.pde d with
    | none =>
      obtain ⟨t, tr, hrun, hfreed⟩ := freeTables_run g l s fun c hc => h c (List.mem_cons_of_mem d hc)
      have hskip : (pure () : V Unit) s = ⟨.ok (), s, []⟩ := rfl
      exact ⟨t, tr, (Prog.bind_run_nil hskip).trans hrun, hfreed⟩
    | some f =>
      obtain ⟨t₁, hkfree, hfreed₁⟩ := kfree_freed (h d List.mem_cons_self f hd)
      obtain ⟨t, tr, hrun, hfreed⟩ := freeTables_run g l t₁ fun c hc f' hf' =>
        (kfrees_congr hfreed₁.kend _).trans (h c (List.mem_cons_of_mem d hc) f' hf')
      exact ⟨t, _, (Prog.bind_run_ok hkfree).trans (by rw [hrun]), hfreed₁.trans hfreed⟩

theorem coe_pdes : (pdes : Multiset (BitVec 10)) = Finset.univ.val := by
  have hnd : pdes.Nodup := (List.nodup_finRange 1024).map fun i j h => by simpa using congrArg BitVec.toFin h
  refine (Multiset.Nodup.ext (Multiset.coe_nodup.2 hnd) Finset.univ.nodup).2 fun d => ?_
  have hd : d ∈ pdes := List.mem_map.2 ⟨d.toFin, List.mem_finRange _, rfl⟩
  exact iff_of_true (Multiset.mem_coe.2 hd) (Finset.mem_univ d)

theorem tables_eq (g : Space) : (pdes.filterMap g.pde : Multiset Frame) = g.tables := by
  rw [← Multiset.filterMap_coe, coe_pdes]
  rfl

theorem pages_eq {l : List Frame} (hnd : l.Nodup) (h : ∀ m, m ∈ l ↔ m.toNat < 524288 ∧ g.mapped m = true) :
    (l.map g.frame : Multiset Frame) = g.pages := by
  have hl : (l : Multiset Frame) = Finset.univ.val.filter fun m : Frame => m.toNat < 524288 ∧ g.mapped m = true := by
    refine (Multiset.Nodup.ext (Multiset.coe_nodup.2 hnd) (Finset.univ.nodup.filter _)).2 fun m => ?_
    rw [Multiset.mem_coe, h, Multiset.mem_filter]
    simp
  rw [← Multiset.map_coe, hl]
  rw [← Multiset.filterMap_eq_map, Multiset.filterMap_filter]
  refine filterMap_congr _ fun m _ => ?_
  by_cases hm : m.toNat < 524288 <;> by_cases hmap : g.mapped m = true <;> simp [hm, hmap]

/-- The frames that `freevm` gives back. -/
def Space.frames (g : Space) : Multiset Frame := g.dir ::ₘ (g.tables + g.pages)

/-- **`freevm`** gives each frame of an address space to `kfree`. -/
theorem freevm_run (hpages : ∀ f ∈ g.pages, s.good f) (hrest : ∀ f ∈ g.dir ::ₘ g.tables, s.kfrees f = true) :
    ∃ (fs : List Frame) (t : Phys) (tr : List PhysEvent), freevm g s = ⟨.ok (), t, tr⟩ ∧
      (fs : Multiset Frame) = g.frames ∧ Freed s fs t tr := by
  have hrange : ∀ m : Frame, within (pgRoundUp 0).toNat kernbase.toNat m ↔ m.toNat < 524288 := by
    intro m
    unfold within
    rw [show (pgRoundUp 0).toNat = 0 from rfl, show kernbase.toNat = 2147483648 from rfl]
    omega
  obtain ⟨l, t₁, tr₁, hrun₁, hnd, hmem, hfreed₁⟩ := deallocuvm_run (g := g) (s := s)
    (show kernbase ≤ kernbase by decide) (show 0 < kernbase by decide) fun m hw hm =>
      hpages _ (mem_held.2 ⟨m, by simp [(hrange m).1 hw, hm]⟩)
  have hk₁ := fun f (hf : f ∈ g.dir ::ₘ g.tables) => (kfrees_congr hfreed₁.kend f).trans (hrest f hf)
  obtain ⟨t₂, tr₂, hrun₂, hfreed₂⟩ := freeTables_run (g.drop l) pdes t₁ fun d _ f hd =>
    hk₁ f (Multiset.mem_cons_of_mem (mem_held.2 ⟨d, hd⟩))
  obtain ⟨t₃, hrun₃, hfreed₃⟩ := kfree_freed (f := g.dir)
    ((kfrees_congr hfreed₂.kend _).trans (hk₁ _ (Multiset.mem_cons_self _ _)))
  have hall := (hfreed₁.trans hfreed₂).trans hfreed₃
  refine ⟨_, t₃, _, ?_, ?_, hall⟩
  · have htail := Prog.bind_run_ok (f := fun _ => kfree (g.drop l).dir) hrun₂
    rw [show kfree (g.drop l).dir t₂ = _ from hrun₃] at htail
    unfold freevm
    refine (Prog.bind_run_ok hrun₁).trans ?_
    refine (congrArg (fun o : Outcome Stop Phys PhysEvent Unit => (⟨o.res, o.st, tr₁ ++ o.tr⟩ : Outcome _ _ _ _))
      htail).trans ?_
    rw [List.append_assoc]
  · have hpages := pages_eq (g := g) hnd fun m => (hmem m).trans (and_congr_left fun _ => hrange m)
    rw [← Multiset.coe_add, ← Multiset.coe_add, hpages, show (g.drop l).pde = g.pde from rfl, tables_eq]
    unfold Space.frames
    rw [Multiset.coe_singleton, Multiset.add_comm g.pages, Multiset.add_comm, Multiset.singleton_add]

/-! ## Exactly the range -/

/-- The pages from `lo` to `hi` have been emptied, each frame of theirs given to `kfree` once, and nothing else touched. -/
structure Emptied (g : Space) (lo hi : Nat) (g' : Space) (tr : List PhysEvent) : Prop where
  emptied : ∀ m, within lo hi m → g.mapped m = true → g'.pte m = 0
  others  : ∀ m, ¬ (within lo hi m ∧ g.mapped m = true) → g'.pte m = g.pte m
  tables  : g'.dir = g.dir ∧ g'.pde = g.pde
  once    : ∀ m, within lo hi m → g.mapped m = true → (kfreed tr).count (g.frame m) = 1
  only    : ∀ f ∈ kfreed tr, ∃ m, within lo hi m ∧ g.mapped m = true ∧ g.frame m = f

/-- The frames `F` are allocated: `kfree` takes them, each is there once, and none is free. -/
structure Busy (s : Phys) (F : Multiset Frame) : Prop where
  good  : ∀ f ∈ F, s.good f
  nodup : F.Nodup
  busy  : ∀ f ∈ F, f ∉ s.freelist

theorem frames_nodup (hnd : g.pages.Nodup) {l : List Frame} (hl : l.Nodup)
    (h : ∀ m ∈ l, m.toNat < 524288 ∧ g.mapped m = true) : (l.map g.frame).Nodup := by
  obtain ⟨L, hL⟩ : ∃ L : List Frame, (L : Multiset Frame) =
      Finset.univ.val.filter fun m : Frame => m.toNat < 524288 ∧ g.mapped m = true := ⟨_, Multiset.coe_toList _⟩
  have hLnd : L.Nodup := by
    rw [← Multiset.coe_nodup, hL]
    exact Finset.univ.nodup.filter _
  have hmem : ∀ m, m ∈ L ↔ m.toNat < 524288 ∧ g.mapped m = true := by
    intro m
    rw [← Multiset.mem_coe, hL, Multiset.mem_filter]
    simp
  rw [← pages_eq hLnd hmem, Multiset.coe_nodup] at hnd
  exact hl.map_on fun a ha b hb he =>
    List.inj_on_of_nodup_map hnd ((hmem a).2 (h a ha)) ((hmem b).2 (h b hb)) he

/-- **`deallocuvm` frees exactly the range**, and `freevm` everything. -/
theorem deallocuvm_exact (g : Space) (s : Phys) (oldsz newsz : Addr) (ho : oldsz ≤ kernbase) (hlt : newsz < oldsz)
    (hb : Busy s g.pages) :
    (∃ g' t tr, deallocuvm g oldsz newsz s = ⟨.ok (newsz, g'), t, tr⟩ ∧
      Emptied g (pgRoundUp newsz).toNat oldsz.toNat g' tr ∧ t.freelist = (kfreed tr).reverse ++ s.freelist) ∧
    (Busy s g.frames → ∃ t tr, freevm g s = ⟨.ok (), t, tr⟩ ∧ t.freelist = (kfreed tr).reverse ++ s.freelist ∧
      (kfreed tr : Multiset Frame) = g.frames ∧ ∀ f ∈ g.frames, t.freelist.count f = 1) := by
  have h2 : oldsz.toNat ≤ 2147483648 := ho
  have hlow : ∀ m, within (pgRoundUp newsz).toNat oldsz.toNat m → m.toNat < 524288 := fun m hm => by
    unfold within at hm
    omega
  constructor
  · obtain ⟨l, t, tr, hrun, hnd, hmem, hfreed⟩ := deallocuvm_run (g := g) (s := s) ho hlt fun m hw hm =>
      hb.good _ (mem_held.2 ⟨m, by simp [hlow m hw, hm]⟩)
    have hframes := frames_nodup hb.nodup hnd fun m hm => ⟨hlow m ((hmem m).1 hm).1, ((hmem m).1 hm).2⟩
    refine ⟨_, t, tr, hrun, ⟨fun m hw hm => drop_mem ((hmem m).2 ⟨hw, hm⟩),
      fun m hm => drop_not_mem fun h => hm ((hmem m).1 h),
      ⟨rfl, rfl⟩, fun m hw hm => ?_, fun f hf => ?_⟩, by rw [hfreed.calls]; exact hfreed.list⟩
    · rw [hfreed.calls]
      exact List.count_eq_one_of_mem hframes (List.mem_map_of_mem ((hmem m).2 ⟨hw, hm⟩))
    · rw [hfreed.calls] at hf
      obtain ⟨m, hm, rfl⟩ := List.mem_map.1 hf
      exact ⟨m, ((hmem m).1 hm).1, ((hmem m).1 hm).2, rfl⟩
  · intro hall
    have hsub : ∀ f ∈ g.dir ::ₘ g.tables, f ∈ g.frames := fun f hf => by
      unfold Space.frames
      rw [← Multiset.cons_add]
      exact Multiset.mem_add.2 (.inl hf)
    obtain ⟨fs, t, tr, hrun, hfs, hfreed⟩ := freevm_run hb.good fun f hf => (hall.good f (hsub f hf)).1
    have hlist : t.freelist = (kfreed tr).reverse ++ s.freelist := by
      rw [hfreed.calls]
      exact hfreed.list
    refine ⟨t, tr, hrun, hlist, by rw [hfreed.calls]; exact hfs, fun f hf => ?_⟩
    have hnd : fs.Nodup := by
      rw [← Multiset.coe_nodup, hfs]
      exact hall.nodup
    have hin : f ∈ fs := by
      rw [← Multiset.mem_coe, hfs]
      exact hf
    rw [hfreed.list, List.count_append, List.count_reverse, List.count_eq_one_of_mem hnd hin,
      List.count_eq_zero.2 (hall.busy f hf)]

def lonePage : Space := ((Space.blank 400#20).setPde 256#10 401#20).setPte 0x40000#20 (mapPte 402#20 7#32)

def twoFree : Phys := ⟨fun _ => zeroPage, [300#20, 301#20], 2, 0x80100000#32, 0x80100000#32⟩

theorem lonePage_frames : lonePage.pages = {402#20} ∧ lonePage.frames = {400#20, 401#20, 402#20} := by
  have hpages : lonePage.pages = {402#20} := by
    refine (pages_setPte (by decide) (by decide) (present_mapPte _ _) (by decide)).trans ?_
    rw [pages_setPde rfl, pages_blank, pteFrame_mapPte (by decide)]
    rfl
  have htables : lonePage.tables = {401#20} := by
    refine (tables_setPde (g := Space.blank 400#20) rfl).trans ?_
    rw [tables_blank]
    rfl
  refine ⟨hpages, ?_⟩
  unfold Space.frames
  rw [hpages, htables]
  rfl

theorem lonePage_exact : (∃ g' t tr, deallocuvm lonePage 0x40001000#32 0x3FFFFFFF#32 twoFree =
      ⟨.ok (0x3FFFFFFF#32, g'), t, tr⟩ ∧ Emptied lonePage 0x40000000 0x40001000 g' tr ∧
        t.freelist = (kfreed tr).reverse ++ twoFree.freelist) ∧
    ∃ t tr, freevm lonePage twoFree = ⟨.ok (), t, tr⟩ ∧ t.freelist = (kfreed tr).reverse ++ twoFree.freelist ∧
      (kfreed tr : Multiset Frame) = lonePage.frames ∧ ∀ f ∈ lonePage.frames, t.freelist.count f = 1 := by
  have hpages : Busy twoFree lonePage.pages := by
    rw [lonePage_frames.1]
    exact ⟨fun f hf => by rw [Multiset.mem_singleton.1 hf]; exact ⟨by decide, by decide⟩, Multiset.nodup_singleton _,
      fun f hf => by rw [Multiset.mem_singleton.1 hf]; decide⟩
  obtain ⟨h1, h2⟩ := deallocuvm_exact lonePage twoFree 0x40001000#32 0x3FFFFFFF#32 (by decide) (by decide) hpages
  refine ⟨h1, h2 ?_⟩
  rw [lonePage_frames.2]
  refine ⟨fun f hf => ?_, by decide, fun f hf => ?_⟩
  · simp only [Multiset.insert_eq_cons, Multiset.mem_cons, Multiset.mem_singleton] at hf
    rcases hf with rfl | rfl | rfl <;> exact ⟨by decide, by decide⟩
  · simp only [Multiset.insert_eq_cons, Multiset.mem_cons, Multiset.mem_singleton] at hf
    rcases hf with rfl | rfl | rfl <;> decide

end Vm
end Xv6
