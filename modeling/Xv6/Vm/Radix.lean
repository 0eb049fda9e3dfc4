import Xv6.Vm.Drawn
/-!
# Vm.Radix — page tables in memory

`walkpgdir` and `mappages` as they read and write the words of physical memory: a page directory is a page of entries, and
so is each of its page tables.  A directory whose page tables lie apart is a map from page numbers to entries, its `view`,
and `mappages` in memory is `mappages` of the view.
-/
namespace Xv6
namespace Vm

open Mem
open Prog (wp)

/-- A `pte_t *`: the page table and the index. -/
abbrev PtePtr := Frame × BitVec 10

def Phys.pte (s : Phys) (q : PtePtr) : Pte := wordAt (s.mem q.1) q.2

def Phys.setPte (s : Phys) (q : PtePtr) (e : Pte) : Phys := s.setPage q.1 (setWord (s.mem q.1) q.2 e)

def Space.entry (g : Space) (n : Frame) : Option Pte := if g.mapped n then some (g.pte n) else none

namespace Radix

def walkpgdir (pgdir : Frame) (va : Addr) (alloc : Bool) : V (Option PtePtr) := do
  Prog.emit (.walk va)
  let pde ← Prog.read (·.pte (pgdir, pdx va))
  if present pde then pure (some (pteFrame pde, ptx va))
  else if alloc then
    match ← kalloc with
    | none       => pure none
    | some pgtab =>
      memset pgtab 0
      Prog.modify (·.setPte (pgdir, pdx va) (frameAddr pgtab ||| pteP ||| pteW ||| pteU))
      pure (some (pgtab, ptx va))
  else pure none

def mappagesLoop : Nat → Frame → Addr → Addr → Addr → Pte → V Bool
  | 0, _, _, _, _, _ => Prog.stop .diverge
  | n + 1, pgdir, a, last, pa, perm => do
    match ← walkpgdir pgdir a true with
    | none     => pure false
    | some pte =>
      if present (← Prog.read (·.pte pte)) then Prog.stop (.panic "remap")
      else
        Prog.modify (·.setPte pte (pa ||| perm ||| pteP))
        if a = last then pure true else mappagesLoop n pgdir (a + pgsize) last (pa + pgsize) perm

/-- `true` is the return value 0. -/
def mappages (pgdir : Frame) (va size pa : Addr) (perm : Pte) : V Bool :=
  mappagesLoop maxPages pgdir (pgRoundDown va) (pgRoundDown (va + size - 1#32)) pa perm

def tableOf (pgdir : Frame) (s : Phys) (d : BitVec 10) : Option Frame :=
  if present (s.pte (pgdir, d)) then some (pteFrame (s.pte (pgdir, d))) else none

def translate (pgdir : Frame) (s : Phys) (va : Addr) : Option Pte :=
  match tableOf pgdir s (pdx va) with
  | none   => none
  | some t => if present (s.pte (t, ptx va)) then some (s.pte (t, ptx va)) else none

/-- The page tables of a directory lie apart from each other and from it, and none of them is free. -/
structure Tree (pgdir : Frame) (s : Phys) : Prop where
  apart : ∀ d d' t, tableOf pgdir s d = some t → tableOf pgdir s d' = some t → d = d'
  root  : ∀ d, tableOf pgdir s d ≠ some pgdir
  used  : pgdir ∉ s.freelist
  taken : ∀ d t, tableOf pgdir s d = some t → t ∉ s.freelist
  nodup : s.freelist.Nodup

def tabIx (n : Frame) : BitVec 10 := n.extractLsb' 0 10

def view (pgdir : Frame) (s : Phys) : Space where
  dir := pgdir
  pde := tableOf pgdir s
  pte n := match tableOf pgdir s (dirIx n) with
    | none   => 0
    | some t => s.pte (t, tabIx n)

variable {pgdir f t : Frame} {s k : Phys} {d : BitVec 10} {n m : Frame} {va size pa : Addr} {e perm : Pte}

/-! ## Two indexes -/

theorem tabIx_pageNum (va : Addr) : tabIx (pageNum va) = ptx va := by
  refine BitVec.eq_of_getLsbD_eq fun i hi => ?_
  simp only [tabIx, BitVec.getLsbD_extractLsb', getLsbD_pageNum, getLsbD_ptx, hi, decide_true, Bool.true_and, Nat.zero_add]
  simp only [show i < 20 by omega, decide_true, Bool.true_and]

theorem eq_of_dirIx_tabIx (hd : dirIx n = dirIx m) (ht : tabIx n = tabIx m) : n = m := by
  refine BitVec.eq_of_getLsbD_eq fun i hi => ?_
  by_cases h : i < 10
  · have hb := congrArg (fun x => x.getLsbD i) ht
    simpa only [tabIx, BitVec.getLsbD_extractLsb', h, decide_true, Bool.true_and, Nat.zero_add] using hb
  · have hb := congrArg (fun x => x.getLsbD (i - 10)) hd
    simpa only [dirIx, BitVec.getLsbD_extractLsb', show i - 10 < 10 by omega, decide_true, Bool.true_and,
      show 10 + (i - 10) = i by omega] using hb

/-! ## Words -/

@[simp] theorem pte_setPte (s : Phys) (q q' : PtePtr) (e : Pte) : (s.setPte q e).pte q' =
    if q' = q then e else s.pte q' := by
  obtain ⟨f, i⟩ := q
  obtain ⟨f', i'⟩ := q'
  simp only [Phys.pte, Phys.setPte, Phys.setPage]
  by_cases hf : f' = f
  · simp [hf]
  · simp [hf]

@[simp] theorem freelist_setPte (s : Phys) (q : PtePtr) (e : Pte) : (s.setPte q e).freelist = s.freelist := rfl

theorem tableOf_setPte_other (h : f ≠ pgdir) (i : BitVec 10) : tableOf pgdir (s.setPte (f, i) e) = tableOf pgdir s := by
  funext d
  have hq : (pgdir, d) ≠ (f, i) := by
    intro he
    exact h (congrArg Prod.fst he).symm
  simp [tableOf, hq]

theorem tableOf_congr (h : ∀ d, k.pte (pgdir, d) = s.pte (pgdir, d)) : tableOf pgdir k = tableOf pgdir s := by
  funext d
  simp [tableOf, h]

/-! ## The view -/

theorem translate_view (pgdir : Frame) (s : Phys) (va : Addr) :
    translate pgdir s va = (view pgdir s).entry (pageNum va) := by
  simp only [translate, Space.entry, Space.mapped, view, dirIx_pageNum, tabIx_pageNum]
  cases tableOf pgdir s (pdx va) with
  | none => simp
  | some t => simp

theorem view_setPte (h : Tree pgdir s) (ht : tableOf pgdir s (dirIx n) = some t) (e : Pte) :
    view pgdir (s.setPte (t, tabIx n) e) = (view pgdir s).setPte n e := by
  have hroot : t ≠ pgdir := by
    rintro rfl
    exact h.root _ ht
  have htab := tableOf_setPte_other (s := s) (e := e) hroot (tabIx n)
  unfold view Space.setPte
  rw [htab]
  congr 1
  funext m
  by_cases hm : m = n
  · simp [hm, ht]
  · simp only [hm, if_false]
    cases hd : tableOf pgdir s (dirIx m) with
    | none => rfl
    | some t' =>
      have hq : (t', tabIx m) ≠ (t, tabIx n) := by
        intro he
        obtain ⟨rfl, hi⟩ := Prod.mk.inj he
        exact hm (eq_of_dirIx_tabIx (h.apart _ _ _ hd ht) hi)
      simp [hq]

theorem Tree.setPte (h : Tree pgdir s) (ht : tableOf pgdir s d = some t) (i : BitVec 10) (e : Pte) :
    Tree pgdir (s.setPte (t, i) e) := by
  have hroot : t ≠ pgdir := by
    rintro rfl
    exact h.root _ ht
  obtain ⟨h1, h2, h3, h4, h5⟩ := h
  rw [← tableOf_setPte_other (e := e) hroot i] at h1 h2 h4
  exact ⟨h1, h2, h3, h4, h5⟩

/-! ## A new page table -/

/-- The state with a frame of the free list as a page table. -/
def addTable (pgdir : Frame) (d : BitVec 10) (f : Frame) (k : Phys) : Phys :=
  (k.setPage f (fun _ => 0)).setPte (pgdir, d) (frameAddr f ||| pteP ||| pteW ||| pteU)

theorem table_entry (f : Frame) : frameAddr f ||| pteP ||| pteW ||| pteU = mapPte f (pteW ||| pteU) := by
  unfold mapPte
  rw [BitVec.or_assoc, BitVec.or_assoc, BitVec.or_assoc, BitVec.or_comm pteP, BitVec.or_assoc]

@[simp] theorem pte_clear (k : Phys) (f : Frame) (q : PtePtr) :
    (k.setPage f (fun _ => 0#8)).pte q = if q.1 = f then 0#32 else k.pte q := by
  unfold Phys.pte Phys.setPage
  dsimp only
  split
  · exact wordAt_zeroPage q.2
  · rfl

theorem addTable_pte_root (hf : f ≠ pgdir) (c : BitVec 10) : (addTable pgdir d f k).pte (pgdir, c) =
    if c = d then mapPte f (pteW ||| pteU) else k.pte (pgdir, c) := by
  simp [addTable, table_entry, hf.symm]

theorem addTable_tableOf (hf : f ≠ pgdir) : tableOf pgdir (addTable pgdir d f k) = fun c =>
    if c = d then some f else tableOf pgdir k c := by
  funext c
  simp only [tableOf, addTable_pte_root hf]
  split
  · simp [pteFrame_mapPte (f := f) (show pteFlags (pteW ||| pteU) = pteW ||| pteU by decide)]
  · rfl

theorem addTable_pte (hf : t ≠ pgdir) (i : BitVec 10) : (addTable pgdir d f k).pte (t, i) =
    if t = f then 0 else k.pte (t, i) := by
  simp [addTable, hf]

/-- **A new table** is one in the view, all of its pages without an entry. -/
theorem view_addTable (h : Tree pgdir s) (hk : k.mem = s.mem) (hl : s.freelist = f :: k.freelist)
    (hd : tableOf pgdir s d = none) : view pgdir (addTable pgdir d f k) = (view pgdir s).setPde d f := by
  have hpte : ∀ q, k.pte q = s.pte q := fun q => by simp [Phys.pte, hk]
  have hf : f ≠ pgdir := by
    rintro rfl
    exact h.used (by simp [hl])
  unfold view Space.setPde
  rw [addTable_tableOf hf, tableOf_congr (k := k) (s := s) fun c => hpte _]
  congr 1
  funext n
  by_cases hn : dirIx n = d
  · simp [hn, addTable_pte hf]
  · simp only [hn, if_false]
    cases ht : tableOf pgdir s (dirIx n) with
    | none => rfl
    | some t =>
      have htf : t ≠ f := by
        rintro rfl
        exact h.taken _ _ ht (by simp [hl])
      have htr : t ≠ pgdir := by
        rintro rfl
        exact h.root _ ht
      simp [addTable_pte htr, htf, hpte]

theorem Tree.addTable (h : Tree pgdir s) (hk : k.mem = s.mem) (hl : s.freelist = f :: k.freelist)
    (hd : tableOf pgdir s d = none) : Tree pgdir (addTable pgdir d f k) := by
  have hf : f ≠ pgdir := by
    rintro rfl
    exact h.used (by simp [hl])
  have hpte : tableOf pgdir k = tableOf pgdir s := tableOf_congr fun c => by simp [Phys.pte, hk]
  have htab : ∀ c t, tableOf pgdir (Radix.addTable pgdir d f k) c = some t ↔
      c = d ∧ t = f ∨ c ≠ d ∧ tableOf pgdir s c = some t := by
    intro c t
    rw [addTable_tableOf hf, hpte]
    by_cases hc : c = d
    · simp [hc, eq_comm]
    · simp [hc]
  have hnew : ∀ c, tableOf pgdir s c ≠ some f := fun c hc => h.taken _ _ hc (by simp [hl])
  have hnodup := h.nodup
  rw [hl, List.nodup_cons] at hnodup
  refine ⟨fun c c' t hc hc' => ?_, fun c hc => ?_, fun hin => h.used ?_, fun c t hc hin => ?_, hnodup.2⟩
  · rcases (htab _ _).1 hc with ⟨rfl, rfl⟩ | ⟨-, h1⟩
    · rcases (htab _ _).1 hc' with ⟨rfl, -⟩ | ⟨-, h2⟩
      · rfl
      · exact absurd h2 (hnew _)
    · rcases (htab _ _).1 hc' with ⟨-, rfl⟩ | ⟨-, h2⟩
      · exact absurd h1 (hnew _)
      · exact h.apart _ _ _ h1 h2
  · rcases (htab _ _).1 hc with ⟨-, he⟩ | ⟨-, h1⟩
    · exact hf he.symm
    · exact h.root _ h1
  · rw [hl]
    exact List.mem_cons_of_mem _ hin
  · rcases (htab _ _).1 hc with ⟨-, rfl⟩ | ⟨-, h1⟩
    · exact hnodup.1 hin
    · refine h.taken _ _ h1 ?_
      rw [hl]
      exact List.mem_cons_of_mem _ hin

/-! ## The runs -/

theorem Tree.congr (h : Tree pgdir s) (hm : k.mem = s.mem) (hl : k.freelist = s.freelist) : Tree pgdir k := by
  have ht : tableOf pgdir k = tableOf pgdir s := tableOf_congr fun c => by simp [Phys.pte, hm]
  obtain ⟨h1, h2, h3, h4, h5⟩ := h
  rw [← ht] at h1 h2 h4
  rw [← hl] at h3 h4 h5
  exact ⟨h1, h2, h3, h4, h5⟩

/-- **`walkpgdir` in memory is `walkpgdir` of the view.** -/
theorem walkpgdir_view (h : Tree pgdir s) (hfree : k.freelist = s.freelist) (va : Addr) :
    ∃ o s' k', walkpgdir pgdir va true s = ⟨.ok o, s', [.walk va]⟩ ∧
      walkpgdirAlloc (view pgdir s) va k = ⟨.ok (o.map fun _ => view pgdir s'), k', [.walk va]⟩ ∧
      Tree pgdir s' ∧ k'.freelist = s'.freelist ∧ (o = none → view pgdir s' = view pgdir s) ∧
      ∀ q, o = some q → tableOf pgdir s' (pdx va) = some q.1 ∧ q.2 = ptx va := by
  have hhas : (view pgdir s).hasTable va = decide (present (s.pte (pgdir, pdx va))) := by
    unfold Space.hasTable view tableOf
    dsimp only
    split <;> simp [*]
  by_cases hp : present (s.pte (pgdir, pdx va))
  · have htab : tableOf pgdir s (pdx va) = some (pteFrame (s.pte (pgdir, pdx va))) := if_pos hp
    refine ⟨some (pteFrame (s.pte (pgdir, pdx va)), ptx va), s, k, ?_, ?_, h, hfree, by simp, by simp [htab]⟩
    · simp [walkpgdir, Prog.emit_bind_run, hp]
    · simp [walkpgdirAlloc, Prog.emit_bind_run, hhas, hp]
  · have htab : tableOf pgdir s (pdx va) = none := if_neg hp
    cases hl : s.freelist with
    | nil =>
      refine ⟨none, { s with freelist := [], freemems := s.freemems - 1 },
        { k with freelist := [], freemems := k.freemems - 1 }, ?_, ?_, h.congr rfl hl.symm, rfl, fun _ => rfl, by simp⟩
      · simp [walkpgdir, Prog.emit_bind_run, hp, Prog.bind_run_nil (kalloc_run s), hl]
      · rw [hl] at hfree
        simp [walkpgdirAlloc, Prog.emit_bind_run, hhas, hp, Prog.bind_run_nil (kalloc_run k), hfree]
    | cons f l =>
      have hview := view_addTable (k := { s with freelist := l, freemems := s.freemems - 1 }) h rfl hl htab
      refine ⟨some (f, ptx va), addTable pgdir (pdx va) f { s with freelist := l, freemems := s.freemems - 1 },
        { k with freelist := l, freemems := k.freemems - 1 }.setPage f (fun _ => 0), ?_, ?_,
        h.addTable rfl hl htab, rfl, by simp, fun q hq => ?_⟩
      · simp [walkpgdir, Prog.emit_bind_run, hp, Prog.bind_run_nil (kalloc_run s), hl, memset, addTable]
      · rw [hl] at hfree
        simp [walkpgdirAlloc, Prog.emit_bind_run, hhas, hp, Prog.bind_run_nil (kalloc_run k), hfree, memset, hview]
      · obtain rfl := Option.some.inj hq
        have hf : f ≠ pgdir := by
          rintro rfl
          exact h.used (by simp [hl])
        simp [addTable_tableOf hf]

/-- **`mappages` in memory is `mappages` of the view**, step by step. -/
theorem mappagesLoop_view {last : Addr} : ∀ (n : Nat) (s k : Phys) (a pa : Addr), Tree pgdir s → k.freelist = s.freelist →
    (Vm.mappagesLoop n (view pgdir s) a last pa perm k).res =
      (mappagesLoop n pgdir a last pa perm s).res.map (fun ok => (ok,
        view pgdir (mappagesLoop n pgdir a last pa perm s).st)) ∧
    Tree pgdir (mappagesLoop n pgdir a last pa perm s).st := by
  intro n
  induction n with
  | zero => exact fun s k a pa h _ => ⟨rfl, h⟩
  | succ n ih =>
    intro s k a pa h hfree
    obtain ⟨o, s', k', hrun, hrun', h', hfree', hnone, hsome⟩ := walkpgdir_view h hfree a
    unfold mappagesLoop Vm.mappagesLoop
    rw [Prog.bind_run_ok hrun, Prog.bind_run_ok hrun']
    cases o with
    | none => exact ⟨by simp [Except.map, hnone rfl], h'⟩
    | some q =>
      obtain ⟨t, i⟩ := q
      obtain ⟨htab, rfl⟩ := hsome _ rfl
      dsimp only at htab
      have hpte : (view pgdir s').pte (pageNum a) = s'.pte (t, ptx a) := by
        simp [view, dirIx_pageNum, htab, tabIx_pageNum]
      rw [← dirIx_pageNum] at htab
      have hstore := view_setPte h' htab (pa ||| perm ||| pteP)
      rw [tabIx_pageNum] at hstore
      have hkeep := h'.setPte htab (ptx a) (pa ||| perm ||| pteP)
      simp only [Option.map_some, Prog.read_bind_run, hpte]
      by_cases hp : present (s'.pte (t, ptx a))
      · simp [hp, Except.map, h']
      · simp only [hp, if_false, Prog.modify_bind_run]
        by_cases hlast : a = last
        · simp only [hlast, if_true, Prog.pure_run, Except.map] at hstore hkeep ⊢
          exact ⟨by rw [hstore], hkeep⟩
        · simp only [hlast, if_false]
          rw [← hstore]
          exact ih _ k' _ _ hkeep hfree'

theorem mappages_wp {Q : Bool → Space → Prop} {E : Stop → Prop} (h : Tree pgdir s)
    (hq : wp (Vm.mappages (view pgdir s) va size pa perm) (fun r _ => Q r.1 r.2) E s) :
    wp (mappages pgdir va size pa perm) (fun ok k => Tree pgdir k ∧ Q ok (view pgdir k)) E s := by
  obtain ⟨hres, htree⟩ : (Vm.mappagesLoop maxPages (view pgdir s) (pgRoundDown va) (pgRoundDown (va + size - 1#32)) pa
        perm s).res =
      _ ∧ _ := mappagesLoop_view maxPages s s (pgRoundDown va) pa h rfl
  unfold wp at hq ⊢
  unfold Vm.mappages at hq
  unfold mappages
  rw [hres] at hq
  split
  · rename_i ok hok
    rw [hok] at hq
    exact ⟨htree, hq⟩
  · rename_i e he
    rw [he] at hq
    exact hq

/-! ## The map -/

theorem entry_setPte {g : Space} (hd : (g.pde (dirIx n)).isSome = true) (he : present e) :
    (g.setPte n e).entry = fun m => if m = n then some e else g.entry m := by
  funext m
  unfold Space.entry
  rw [mapped_setPte]
  by_cases hm : m = n
  · simp [hm, hd, he, Space.setPte]
  · simp [hm, Vm.pte_setPte hm]

theorem walkpgdirAlloc_entry {g : Space} {E : Stop → Prop} : wp (walkpgdirAlloc g va)
    (fun o _ => ∀ g', o = some g' → g'.hasTable va = true ∧ g'.entry = g.entry) E k := by
  refine walkpgdirAlloc_wp (fun _ _ _ _ _ => by simp) fun g' t hg ht g'' he => ?_
  obtain rfl := Option.some.inj he
  refine ⟨ht, funext fun m => ?_⟩
  have hm : g'.mapped m = g.mapped m := Bool.eq_iff_iff.2 ((hg.mapped m).trans (or_iff_left id))
  unfold Space.entry
  rw [hm]
  split
  · rename_i hgm
    rw [hg.pte m hgm]
  · rfl

/-- The entry of page number `i` of a range. -/
def entryAt (pa : Addr) (perm : Pte) (i : Nat) : Pte := (pa + BitVec.ofNat 32 (i * 4096)) ||| perm ||| pteP

theorem entryAt_succ (pa : Addr) (perm : Pte) (i : Nat) : entryAt (pa + pgsize) perm i = entryAt pa perm (i + 1) := by
  have h : BitVec.ofNat 32 ((i + 1) * 4096) = pgsize + BitVec.ofNat 32 (i * 4096) := by
    rw [Nat.succ_mul, Nat.add_comm, BitVec.ofNat_add]
    rfl
  unfold entryAt
  rw [h, BitVec.add_assoc]

theorem present_entryAt (pa : Addr) (perm : Pte) (i : Nat) : present (entryAt pa perm i) := by
  simp [present_iff, entryAt]

/-- The pages `lo` to `hi` of `g'` are the range's, and the others those of `g`. -/
structure Filled (g : Space) (lo hi : Nat) (pa : Addr) (perm : Pte) (g' : Space) : Prop where
  page  : ∀ i m, lo + i ≤ hi → m.toNat = lo + i → g'.entry m = some (entryAt pa perm i)
  other : ∀ m, ¬ (lo ≤ m.toNat ∧ m.toNat ≤ hi) → g'.entry m = g.entry m

/-- **The loop fills the range** from an address on, or stops for want of a page table with all old pages in place. -/
theorem mappagesLoop_filled {last : Addr} (hl : last.toNat % 4096 = 0) : ∀ (n : Nat) (g : Space) (k : Phys) (a pa : Addr),
    a.toNat % 4096 = 0 → a.toNat ≤ last.toNat → (last.toNat - a.toNat) / 4096 < n →
    (∀ m : Frame, a.toNat / 4096 ≤ m.toNat → m.toNat ≤ last.toNat / 4096 → g.entry m = none) →
    wp (Vm.mappagesLoop n g a last pa perm) (fun r _ =>
      (r.1 = true → Filled g (a.toNat / 4096) (last.toNat / 4096) pa perm r.2) ∧
      (r.1 = false → ∀ m e, g.entry m = some e → r.2.entry m = some e)) (fun _ => False) k := by
  intro n
  induction n with
  | zero => intro _ _ _ _ _ _ h; omega
  | succ n ih =>
    intro g k a pa ha0 ha hn hfree
    have hnum := pageNum_toNat a
    have hpage : ∀ m : Frame, m.toNat = a.toNat / 4096 ↔ m = pageNum a := fun m => by
      rw [← BitVec.toNat_inj, hnum]
    unfold Vm.mappagesLoop
    rw [Prog.wp_bind]
    refine walkpgdirAlloc_entry.imp fun o t ho => ?_
    cases o with
    | none => exact ⟨by simp, fun _ m e he => he⟩
    | some g' =>
      obtain ⟨htab, hentry⟩ := ho g' rfl
      -- the page has no entry yet, so this is no remap
      have hnone : g'.entry (pageNum a) = none := by rw [hentry]; exact hfree _ hnum.ge (by omega)
      have hpres : ¬ present (g'.pte (pageNum a)) := by
        intro hp
        simp [Space.entry, mapped_pageNum, htab, hp] at hnone
      have hd : (g'.pde (dirIx (pageNum a))).isSome = true := by
        rw [dirIx_pageNum]
        exact htab
      have hset : (g'.setPte (pageNum a) (pa ||| perm ||| pteP)).entry =
          fun m => if m = pageNum a then some (entryAt pa perm 0) else g.entry m := by
        have he0 : pa ||| perm ||| pteP = entryAt pa perm 0 := by simp [entryAt]
        rw [he0, entry_setPte hd (present_entryAt _ _ _), hentry]
      simp only [hpres, if_false]
      refine Prog.wp_ite (fun hal => ?_) fun hne => ?_
      · refine ⟨fun _ => ⟨fun i m hi hm => ?_, fun m hm => ?_⟩, by simp⟩
        · obtain rfl : i = 0 := by rw [hal] at hi; omega
          simp [hset, (hpage m).1 hm]
        · have hma : m ≠ pageNum a := by
            rw [← hal] at hm
            intro he
            have := (hpage m).2 he
            omega
          simp [hset, hma]
      · have hlt : a.toNat ≠ last.toNat := fun he => hne (BitVec.eq_of_toNat_eq he)
        have hlast := last.isLt
        have hnext : (a + pgsize).toNat = a.toNat + 4096 := toNat_nextPage (by omega)
        have hother : ∀ m, m ≠ pageNum a → (g'.setPte (pageNum a) (pa ||| perm ||| pteP)).entry m = g.entry m := by
          intro m hm
          simp [hset, hm]
        refine (ih _ t (a + pgsize) (pa + pgsize) (by omega) (by omega) (by omega) fun m hlo hhi => ?_).imp fun r u hr => ?_
        · have hma : m ≠ pageNum a := by
            intro he
            have := (hpage m).2 he
            omega
          rw [hother m hma]
          exact hfree m (by omega) hhi
        · refine ⟨fun htrue => ⟨fun i m hi hm => ?_, fun m hm => ?_⟩, fun hfalse m e he => hr.2 hfalse m e ?_⟩
          · cases i with
            | zero =>
              -- the page of this step is below the rest of the range
              rw [(hr.1 htrue).other m (by omega)]
              simp [hset, (hpage m).1 hm]
            | succ i =>
              rw [(hr.1 htrue).page i m (by omega) (by omega), entryAt_succ]
          · rw [(hr.1 htrue).other m (by omega)]
            refine hother m fun hma => ?_
            have := (hpage m).2 hma
            omega
          · have hma : m ≠ pageNum a := by
              rintro rfl
              rw [hfree _ hnum.ge (by omega)] at he
              cases he
            rw [hother m hma]
            exact he

theorem tableOf_cleared (hmem : s.mem pgdir = zeroPage) (d : BitVec 10) : tableOf pgdir s d = none := by
  have h0 : s.pte (pgdir, d) = 0 := by
    unfold Phys.pte
    rw [hmem]
    exact wordAt_zeroPage d
  unfold tableOf
  rw [h0, if_neg not_present_zero]

theorem tree_cleared (hmem : s.mem pgdir = zeroPage) (hused : pgdir ∉ s.freelist) (hnodup : s.freelist.Nodup) :
    Tree pgdir s := by
  have htab := tableOf_cleared hmem
  exact ⟨by simp [htab], by simp [htab], hused, by simp [htab], hnodup⟩

/-- The page of `b` overlaps the range. -/
def Covers (va size b : Addr) : Prop :=
  ∃ x : Addr, va.toNat ≤ x.toNat ∧ x.toNat < va.toNat + size.toNat ∧ pageNum x = pageNum b

theorem covers_iff {b : Addr} (hsize : 0 < size.toNat) : Covers va size b ↔
    va.toNat / 4096 ≤ (pageNum b).toNat ∧ (pageNum b).toNat ≤ (va.toNat + size.toNat - 1) / 4096 := by
  constructor
  · rintro ⟨x, h1, h2, h3⟩
    rw [← h3, pageNum_toNat]
    omega
  · rintro ⟨h1, h2⟩
    -- the first address of the range on the page of `b`
    have hb := pageNum_toNat b
    have hlt := b.isLt
    have hx : (BitVec.ofNat 32 (max va.toNat (b.toNat / 4096 * 4096))).toNat = max va.toNat (b.toNat / 4096 * 4096) := by
      rw [BitVec.toNat_ofNat]
      omega
    refine ⟨BitVec.ofNat 32 (max va.toNat (b.toNat / 4096 * 4096)), by omega, by omega, ?_⟩
    rw [← BitVec.toNat_inj, pageNum_toNat, pageNum_toNat, hx]
    omega

theorem entryAt_parts (hpa : pa.toNat % 4096 = 0) (hperm : pteFlags perm = perm) (i : Nat) :
    pteAddr (entryAt pa perm i) = pa + BitVec.ofNat 32 (i * 4096) ∧ pteFlags (entryAt pa perm i) = perm ||| pteP := by
  have hal : (pa + BitVec.ofNat 32 (i * 4096)).toNat % 4096 = 0 := by
    rw [BitVec.toNat_add, BitVec.toNat_ofNat]
    omega
  have hlow : ∀ j, j < 12 → (pa + BitVec.ofNat 32 (i * 4096)).getLsbD j = false := by
    intro j hj
    rw [← frameAddr_pageNum hal, getLsbD_frameAddr]
    simp [hj]
  have hhigh : ∀ j, 12 ≤ j → perm.getLsbD j = false := by
    intro j hj
    have := getLsbD_of_flags hperm (j - 12)
    rwa [Nat.add_sub_cancel' hj] at this
  unfold entryAt
  generalize pa + BitVec.ofNat 32 (i * 4096) = x at hlow
  constructor
  · refine BitVec.eq_of_getLsbD_eq fun j hj => ?_
    simp only [getLsbD_pteAddr, BitVec.getLsbD_or, getLsbD_pteP]
    by_cases h : 12 ≤ j
    · simp [h, hhigh j h, show j ≠ 0 by omega]
    · simp [h, hlow j (by omega)]
  · refine BitVec.eq_of_getLsbD_eq fun j hj => ?_
    simp only [getLsbD_pteFlags, BitVec.getLsbD_or, getLsbD_pteP]
    by_cases h : j < 12
    · simp [h, hlow j h]
    · simp [h, hhigh j (by omega), show j ≠ 0 by omega]

/-- **`mappages` and `walkpgdir` are a finite map from pages to entries.** -/
theorem mappages_maps (h : Tree pgdir s) (hsize : 0 < size.toNat) (hwrap : va.toNat + size.toNat ≤ 4294967296)
    (hfree : ∀ b, Covers va size b → translate pgdir s b = none) :
    wp (mappages pgdir va size pa perm) (fun ok t => Tree pgdir t ∧
      (ok = true →
        (∀ i b, Covers va size b → b.toNat / 4096 = va.toNat / 4096 + i → translate pgdir t b = some (entryAt pa perm i) ∧
          (pa.toNat % 4096 = 0 → pteFlags perm = perm →
            pteAddr (entryAt pa perm i) = pa + BitVec.ofNat 32 (i * 4096) ∧ pteFlags (entryAt pa perm i) = perm ||| pteP)) ∧
        ∀ b, ¬ Covers va size b → translate pgdir t b = translate pgdir s b) ∧
      (ok = false → ∀ b e, translate pgdir s b = some e → translate pgdir t b = some e)) (fun _ => False) s := by
  have hlast : (va + size - 1#32).toNat = va.toNat + size.toNat - 1 := toNat_last hsize hwrap
  have hlo := toNat_pgRoundDown va
  have hhi := toNat_pgRoundDown (va + size - 1#32)
  have hpage : ∀ m : Frame, pageNum (frameAddr m) = m := pageNum_frameAddr
  have hcov : ∀ b, Covers va size b ↔ _ := fun b => covers_iff hsize
  have hloop : wp (Vm.mappagesLoop maxPages (view pgdir s) (pgRoundDown va) (pgRoundDown (va + size - 1#32))
        pa perm) _ _ s :=
    mappagesLoop_filled (by omega) maxPages _ s _ pa (by omega) (by omega) (by unfold maxPages; omega) fun m h1 h2 => by
      have hm := hfree (frameAddr m) ((hcov _).2 (by rw [hpage]; omega))
      rwa [translate_view, hpage] at hm
  have hlo' : (pgRoundDown va).toNat / 4096 = va.toNat / 4096 := by omega
  have hhi' : (pgRoundDown (va + size - 1#32)).toNat / 4096 = (va.toNat + size.toNat - 1) / 4096 := by omega
  rw [hlo', hhi'] at hloop
  refine (mappages_wp h (Q := fun ok g =>
    (ok = true → Filled (view pgdir s) (va.toNat / 4096) ((va.toNat + size.toNat - 1) / 4096) pa perm g) ∧
    (ok = false → ∀ m e, (view pgdir s).entry m = some e → g.entry m = some e)) hloop).imp fun ok t ⟨htree, hok, hfail⟩ => ?_
  refine ⟨htree, fun htrue => ⟨fun i b hb hi => ?_, fun b hb => ?_⟩, fun hfalse b e he => ?_⟩
  · rw [translate_view]
    rw [hcov] at hb
    have hb' := pageNum_toNat b
    exact ⟨(hok htrue).page i _ (by omega) (by omega), fun hpa hperm => entryAt_parts hpa hperm i⟩
  · rw [translate_view, translate_view]
    rw [hcov] at hb
    exact (hok htrue).other _ hb
  · rw [translate_view] at he ⊢
    exact hfail hfalse _ _ he

/-- A cleared directory in frame 2, and one page that is free. -/
def bare : Phys := ⟨fun _ => zeroPage, [3], 1, kernlink, kernlink⟩

/-- Two bytes on two pages. -/
theorem bare_maps : wp (mappages 2 0x1FFF 2 0x5000 6) (fun ok t => Tree 2 t ∧
    (ok = true →
      (∀ i b, Covers 0x1FFF 2 b → b.toNat / 4096 = (0x1FFF#32).toNat / 4096 + i →
        translate 2 t b = some (entryAt 0x5000 6 i) ∧ ((0x5000#32).toNat % 4096 = 0 → pteFlags 6 = 6 →
          pteAddr (entryAt 0x5000 6 i) = 0x5000 + BitVec.ofNat 32 (i * 4096) ∧ pteFlags (entryAt 0x5000 6 i) = 6 ||| pteP)) ∧
      ∀ b, ¬ Covers 0x1FFF 2 b → translate 2 t b = translate 2 bare b) ∧
    (ok = false → ∀ b e, translate 2 bare b = some e → translate 2 t b = some e)) (fun _ => False) bare :=
  mappages_maps (tree_cleared rfl (by decide) (by decide)) (by decide) (by decide) fun b _ => by
    unfold translate
    rw [tableOf_cleared rfl]

end Radix
end Vm
end Xv6
