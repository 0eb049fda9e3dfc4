import Xv6.Swap.Reclaim
/-!
# Swap.Remove — a page leaves the LRU list

`pop_lru` of the head leaves the list without a head, and the head's entry as it was.  The scan of `deallocuvm` goes on
from the entry it popped.
-/
namespace Xv6
namespace Swap

open Mem
open Prog (wp Quiet)

/-- What is left is the list without `f`, entered anywhere. -/
def Without (t : Kern) (l : List Frame) (f : Frame) : Prop := ∃ l', l'.IsRotated (l.erase f) ∧ LruList t l'

/-- `pop_lru` takes page `f` off the list, and no other. -/
def PopsRight (s : Kern) (l : List Frame) (f : Frame) : Prop :=
  wp (popLru f) (fun _ t => Without t l f) (fun _ => False) s

/-- So does `deallocuvm` of the one page at `a`, and it takes it off once. -/
def WalksRight (s : Kern) (l : List Frame) (pgdir : Frame) (a : Addr) (f : Frame) : Prop :=
  wp (deallocuvm pgdir (a + pgsize) a) (fun _ t => Without t l f) (fun _ => False) s ∧
    (deallocuvm pgdir (a + pgsize) a s).tr.count (.popLru f f) ≤ 1

/-- The user page at `a` is in frame `f`, and its entry is the one of that frame. -/
structure OnPage (s : Kern) (l : List Frame) (pgdir : Frame) (a : Addr) (f : Frame) : Prop where
  walk    : ∃ q, walkpgdir s pgdir a = some q ∧ pteFrame (s.pte q) = f
  key     : ∀ g ∈ l, Matches s pgdir a g ↔ g = f
  aligned : pgRoundDown a = a
  user    : a < kernbase
  link    : Linked s
  ram     : s.kend ≤ p2v f ∧ frameAddr f < phystop

variable {s t : Kern} {pgdir f g h : Frame} {a : Addr} {l l₁ l₂ : List Frame}

/-! ## `pop_lru` -/

theorem erase_middle (hf : f ∉ h :: l₁) : (h :: (l₁ ++ f :: l₂)).erase f = h :: (l₁ ++ l₂) := by
  rw [← List.cons_append, List.erase_append_right _ hf, List.erase_cons_head, List.cons_append]

theorem without_headless (hh : t.pageLruHead = none) : Without t l f ↔ l.erase f = [] ∧ t.numLruPages = 0 := by
  constructor
  · rintro ⟨l', hrot, hl'⟩
    cases l' with
    | nil => exact ⟨(List.isRotated_nil_iff'.1 hrot).symm, hl'.2⟩
    | cons h' l' =>
      have hnone : none = some h' := hh.symm.trans hl'.1
      cases hnone
  · rintro ⟨hnil, hnum⟩
    exact ⟨[], by rw [hnil], hh, hnum⟩

theorem erase_head : (f :: l).erase f = [] ↔ (f :: l).length = 1 := by
  rw [List.erase_cons_head, List.length_cons, Nat.add_eq_right, List.length_eq_zero_iff]

theorem popLru_without (hl : LruList s (h :: (l₁ ++ f :: l₂))) (hf : f.toNat < npages) :
    ∃ t, popLru f s = ⟨.ok (), t, []⟩ ∧ t.pageLruHead = some h ∧ (t.pages f).next = none ∧
      LruOnly s t ∧ Without t (h :: (l₁ ++ f :: l₂)) f := by
  obtain ⟨hh, hring, hnum⟩ := hl
  obtain ⟨t, hrun, honly, hh', hring', hcount, hnone, -⟩ := popLru_run hring hh hf
  refine ⟨t, hrun, hh', hnone, honly, h :: (l₁ ++ l₂), ?_, hh', hring', ?_⟩
  · have hnd : ((h :: l₁) ++ f :: l₂).Nodup := hring.nodup
    rw [erase_middle fun hm => (List.nodup_append.1 hnd).2.2 f hm f List.mem_cons_self rfl]
  · rw [hcount, hnum]
    simp only [List.length_cons, List.length_append]
    omega

theorem popsRight_head (hl : LruList s (f :: l)) (hf : f.toNat < npages) : PopsRight s (f :: l) f ↔ (f :: l).length = 1 := by
  unfold PopsRight wp
  rw [popLru_head hl.1 hf]
  change Without _ _ _ ↔ _
  rw [without_headless rfl, erase_head]
  refine and_iff_left_of_imp fun hone => ?_
  change s.numLruPages - 1 = 0
  rw [hl.2.2, hone]
  rfl

/-! ## The scan of `deallocuvm` -/

theorem scanLru_pass (hm : ¬ Matches s pgdir a g) {g' : Frame} (hn : (s.pages g).next = some g')
    (hh : s.pageLruHead ≠ some g') (n : Nat) :
    scanLru (n + 1) pgdir a f (some g) s = scanLru n pgdir a f (some g') s := by
  have hm' : ¬ ((s.pages g).vaddr = a ∧ (s.pages g).pgdir = some pgdir) := hm
  conv_lhs => unfold scanLru
  rw [Prog.read_bind_run, Prog.when_neg hm', Prog.pure_bind_run, Prog.read_bind_run, Prog.read_bind_run, hn,
    if_neg (Ne.symm hh)]

theorem scanLru_pop {u : Kern} {o : Option Frame} {tr : List Event} {n : Nat} (hm : Matches s pgdir a f)
    (hpop : popLru f s = ⟨.ok (), t, []⟩) (ho : (t.pages f).next = o)
    (hrest : (if o = t.pageLruHead then pure () else scanLru n pgdir a f o : K Unit) t = ⟨.ok (), u, tr⟩) :
    scanLru (n + 1) pgdir a f (some f) s = ⟨.ok (), u, .popLru f f :: tr⟩ := by
  have hm' : (s.pages f).vaddr = a ∧ (s.pages f).pgdir = some pgdir := hm
  have hbody : (Prog.emit (Event.popLru f f) >>= fun _ => popLru f) s = ⟨.ok (), t, [.popLru f f]⟩ := by
    rw [Prog.emit_bind_run, hpop]
  conv_lhs => unfold scanLru
  rw [Prog.read_bind_run, Prog.when_pos hm', Prog.bind_run_ok hbody, Prog.read_bind_run, Prog.read_bind_run, ho, hrest]
  rfl

theorem scanLru_reach (n : Nat) : ∀ (mid : List Frame) (g : Frame),
    (g :: (mid ++ [f])).IsChain (fun x y => (s.pages x).next = some y) → (∀ x ∈ g :: mid, ¬ Matches s pgdir a x) →
    (∀ x ∈ mid ++ [f], s.pageLruHead ≠ some x) →
    scanLru (n + mid.length + 1) pgdir a f (some g) s = scanLru n pgdir a f (some f) s
  | [], g, hch, hm, hh => by
    have hn : (s.pages g).next = some f := (List.isChain_cons_cons.1 hch).1
    exact scanLru_pass (hm g List.mem_cons_self) hn (hh f List.mem_cons_self) n
  | g' :: mid, g, hch, hm, hh => by
    rw [List.cons_append, List.isChain_cons_cons] at hch
    rw [scanLru_pass (hm g List.mem_cons_self) hch.1 (hh g' List.mem_cons_self)]
    exact scanLru_reach n mid g' hch.2 (fun x hx => hm x (List.mem_cons_of_mem g hx))
      fun x hx => hh x (List.mem_cons_of_mem g' hx)

theorem OnRing.around (hr : OnRing s h l) : (h :: (l ++ [h])).IsChain (fun x y => (s.pages x).next = some y) :=
  hr.chain.imp fun _ _ hlink => hlink.1

/-- **Behind the head**: the page is popped, and the scan ends at the popped entry, which leads nowhere. -/
theorem scanLru_middle (hl : LruList s (h :: (l₁ ++ f :: l₂))) (hf : f.toNat < npages)
    (hkey : ∀ g ∈ h :: (l₁ ++ f :: l₂), Matches s pgdir a g ↔ g = f) {n : Nat} (hn : l₁.length + 3 ≤ n) :
    ∃ t, scanLru n pgdir a f (some h) s = ⟨.ok (), t, [.popLru f f]⟩ ∧ LruOnly s t ∧
      Without t (h :: (l₁ ++ f :: l₂)) f := by
  obtain ⟨k, rfl⟩ : ∃ k, n = (k + 1) + 1 + l₁.length + 1 := ⟨n - (l₁.length + 3), by omega⟩
  have hnd : ((h :: l₁) ++ f :: l₂).Nodup := hl.2.1.nodup
  have hne : ∀ x ∈ h :: l₁, x ≠ f := fun x hx => (List.nodup_append.1 hnd).2.2 x hx f List.mem_cons_self
  have hch : (h :: (l₁ ++ [f])).IsChain (fun x y => (s.pages x).next = some y) := by
    have hround := hl.2.1.around
    rw [show h :: (l₁ ++ f :: l₂ ++ [h]) = (h :: (l₁ ++ [f])) ++ (l₂ ++ [h]) by simp] at hround
    exact hround.left_of_append
  obtain ⟨t, hpop, hh, hnone, honly, hwithout⟩ := popLru_without hl hf
  refine ⟨t, ?_, honly, hwithout⟩
  have hfar : ∀ x ∈ l₁ ++ [f], s.pageLruHead ≠ some x := by
    rintro x hx hhx
    obtain rfl : h = x := Option.some.inj (hl.1.symm.trans hhx)
    refine (List.nodup_cons.1 hl.2.1.nodup).1 ?_
    simp only [List.mem_append, List.mem_cons] at hx ⊢
    tauto
  have hother : ∀ x ∈ h :: l₁, ¬ Matches s pgdir a x := fun x hx hmx =>
    hne x hx ((hkey x (List.mem_append_left (f :: l₂) hx)).1 hmx)
  have hself : Matches s pgdir a f := (hkey f (List.mem_append_right (h :: l₁) List.mem_cons_self)).2 rfl
  rw [scanLru_reach (k + 1 + 1) l₁ h hch hother hfar]
  refine scanLru_pop hself hpop hnone ?_
  rw [hh, if_neg (Option.some_ne_none h).symm]
  rfl

/-- **At the head**: the list loses its head, the scan comes around to the page, and pops it once more. -/
theorem scanLru_head (hl : LruList s (f :: l)) (hf : f.toNat < npages)
    (hkey : ∀ g ∈ f :: l, Matches s pgdir a g ↔ g = f) {n : Nat} (hn : l.length + 3 ≤ n) :
    ∃ t, scanLru n pgdir a f (some f) s = ⟨.ok (), t, [.popLru f f, .popLru f f]⟩ ∧ LruOnly s t ∧
      t.pageLruHead = none ∧ t.numLruPages = s.numLruPages - 2 := by
  obtain ⟨k, rfl⟩ : ∃ k, n = (k + 1 + 1 + l.length) + 1 := ⟨n - (l.length + 3), by omega⟩
  obtain ⟨hh, hring, -⟩ := hl
  have hself : Matches s pgdir a f := (hkey f List.mem_cons_self).2 rfl
  let u : Kern := { s with pageLruHead := none, numLruPages := s.numLruPages - 1 }
  obtain ⟨z, hz⟩ : ∃ z, (f :: l).getLast? = some z := ⟨_, List.getLast?_eq_some_getLast (List.cons_ne_nil f l)⟩
  have hprev : (u.pages f).prev = some z := (hring.link_last hz).2
  obtain ⟨y, hnext, hback⟩ : ∃ y, (u.pages f).next = some y ∧
      scanLru (k + 1 + 1 + l.length) pgdir a f (some y) u = scanLru (k + 1 + 1) pgdir a f (some f) u := by
    cases l with
    | nil => exact ⟨f, (hring.link_last rfl).1, rfl⟩
    | cons y l =>
      have hround := hring.around
      rw [List.cons_append, List.isChain_cons_cons] at hround
      refine ⟨y, hround.1, ?_⟩
      rw [List.length_cons, ← Nat.add_assoc]
      refine scanLru_reach (k + 1 + 1) l y hround.2 (fun x hx hmx => ?_) fun x _ he => by cases he
      have hxf : x = f := (hkey x (List.mem_cons_of_mem f hx)).1 hmx
      exact (List.nodup_cons.1 hring.nodup).1 (hxf ▸ hx)
  let v : Kern := { unlinked u f z y with numLruPages := u.numLruPages - 1 }
  have hagain : popLru f u = ⟨.ok (), v, []⟩ := popLru_linked (Option.some_ne_none f).symm hf hprev hnext
  have hgone : (v.pages f).next = none := congrArg PageInfo.next (if_pos rfl)
  refine ⟨v, ?_, ⟨_, _, _, rfl⟩, rfl, ?_⟩
  · refine scanLru_pop hself (popLru_head hh hf) hnext ?_
    rw [if_neg (Option.some_ne_none y), hback]
    have hend : (none : Option Frame) = v.pageLruHead := rfl
    exact scanLru_pop (s := u) hself hagain hgone (by rw [if_pos hend]; rfl)
  · change s.numLruPages - 1 - 1 = _
    omega

/-! ## `deallocuvm` -/

theorem kfree_run (hr : s.kend ≤ p2v f ∧ frameAddr f < phystop) : kfree f s =
    ⟨.ok (), { s.setPage f (freePage s.freelist.head?) with freelist := f :: s.freelist }, [.kfree f]⟩ := by
  have hin : ¬ (p2v f < s.kend ∨ phystop ≤ frameAddr f) := by
    rintro (h | h)
    · exact absurd hr.1 (BitVec.not_le.2 h)
    · exact absurd hr.2 (BitVec.not_lt.2 h)
  unfold kfree
  rw [Prog.emit_bind_run, Prog.read_bind_run, decide_eq_false hin]
  rfl

theorem OnPage.ne_zero (h : OnPage s l pgdir a f) : f ≠ 0 := by
  rintro rfl
  have hkend : s.kend ≤ kernbase := h.ram.1
  exact absurd (BitVec.lt_trans h.link.data h.link.kend) (BitVec.not_lt.2 (BitVec.le_trans hkend (by decide)))

theorem deallocPage_run (h : OnPage s l pgdir a f) {q : PtePtr} (hq : pteFrame (s.pte q) = f) {tr : List Event}
    (hscan : scanLru (2 * npages + 2) pgdir a f s.pageLruHead s = ⟨.ok (), t, tr⟩) (ht : LruOnly s t) :
    ∃ u, deallocPage pgdir a q s = ⟨.ok (), u, .dealloc (s.pte q) :: (tr ++ [.kfree f])⟩ ∧ lruView u = lruView t := by
  have h0 : pteAddr (s.pte q) ≠ 0 := fun he => h.ne_zero (by rw [← hq]; unfold pteFrame; rw [he]; rfl)
  have hkend : t.kend = s.kend := by
    obtain ⟨_, _, _, rfl⟩ := ht
    rfl
  obtain ⟨v, hfree, hview⟩ : ∃ v, kfree f t = ⟨.ok (), v, [.kfree f]⟩ ∧ lruView v = lruView t :=
    ⟨_, kfree_run ⟨hkend ▸ h.ram.1, h.ram.2⟩, rfl⟩
  have hrelease : releasePage pgdir a (s.pte q) s = ⟨.ok (), v, tr ++ [.kfree f]⟩ := by
    unfold releasePage
    rw [if_neg h0, hq, Prog.read_bind_run, Prog.bind_run_ok hscan, hfree]
  refine ⟨v.setPte q 0, ?_, hview⟩
  unfold deallocPage
  rw [Prog.read_bind_run, Prog.emit_bind_run, Prog.bind_run_ok hrelease]
  simp

theorem deallocuvm_run (h : OnPage s l pgdir a f) {q : PtePtr} (hw : walkpgdir s pgdir a = some q)
    (hq : pteFrame (s.pte q) = f) {tr : List Event} (hrun : deallocPage pgdir a q s = ⟨.ok (), t, tr⟩) :
    deallocuvm pgdir (a + pgsize) a s = ⟨.ok a, t, tr⟩ := by
  have hpage : a.toNat % 4096 = 0 := pgRoundDown_eq_self.1 h.aligned
  have huser : a.toNat < 2147483648 := BitVec.lt_def.1 h.user
  have hlt : a < a + pgsize := by
    rw [BitVec.lt_def, BitVec.toNat_add, show pgsize.toNat = 4096 from rfl]
    omega
  have hup : pgRoundUp a = a := BitVec.eq_of_toNat_eq (by rw [toNat_pgRoundUp (by omega)]; omega)
  have h0 : s.pte q ≠ 0 := fun he => h.ne_zero (by rw [← hq, he]; decide)
  have hbody : (do Prog.when ((← Prog.read (fun s => s.pte q)) ≠ 0) (deallocPage pgdir a q) : K Unit) s =
      ⟨.ok (), t, tr⟩ := by
    rw [Prog.read_bind_run, Prog.when_pos h0, hrun]
  have hend : ∀ n, deallocuvmLoop (n + 1) pgdir (a + pgsize) (a + pgsize) = pure () := fun n => by
    unfold deallocuvmLoop
    rw [if_neg (BitVec.lt_irrefl _)]
  have hloop : deallocuvmLoop maxPages pgdir (pgRoundUp a) (a + pgsize) s = ⟨.ok (), t, tr⟩ := by
    rw [show maxPages = 1048575 + 1 + 1 from rfl, hup]
    unfold deallocuvmLoop
    rw [if_pos hlt, Prog.read_bind_run, hw]
    change ((do Prog.when ((← Prog.read (fun s => s.pte q)) ≠ 0) (deallocPage pgdir a q)) >>= fun _ =>
      deallocuvmLoop (1048575 + 1) pgdir (a + pgsize) (a + pgsize)) s = _
    rw [Prog.bind_run_ok hbody, hend]
    simp
  unfold deallocuvm
  rw [if_neg (BitVec.not_le.2 hlt), Prog.bind_run_ok hloop]
  simp

theorem Without.congr {u : Kern} (h : Without t l f) (hu : lruView u = lruView t) : Without u l f := by
  obtain ⟨l', hrot, hl'⟩ := h
  refine ⟨l', hrot, lruList_iff.2 ⟨?_, ?_⟩⟩
  · exact (lruList_iff.1 hl').1.congr (congrArg (fun v => v.1) hu) (congrArg (fun v => v.2.1) hu)
  · exact (congrArg (fun v => v.2.2) hu).trans (lruList_iff.1 hl').2

theorem walksRight_scan (h : OnPage s l pgdir a f) {tr : List Event}
    (hscan : scanLru (2 * npages + 2) pgdir a f s.pageLruHead s = ⟨.ok (), t, tr⟩) (ht : LruOnly s t) :
    WalksRight s l pgdir a f ↔ Without t l f ∧ tr.count (.popLru f f) ≤ 1 := by
  obtain ⟨q, hw, hq⟩ := h.walk
  obtain ⟨u, hrun, hview⟩ := deallocPage_run h hq hscan ht
  unfold WalksRight Prog.wp
  rw [deallocuvm_run h hw hq hrun]
  refine and_congr ⟨fun hu => hu.congr hview.symm, fun hu => hu.congr hview⟩ ?_
  rw [List.count_cons_of_ne (by simp), List.count_append, List.count_singleton]
  simp

theorem walksRight_head (hl : LruList s (f :: l)) (hp : ∀ g ∈ f :: l, g.toNat < npages)
    (h : OnPage s (f :: l) pgdir a f) : ¬ WalksRight s (f :: l) pgdir a f := by
  have hlen := length_le_npages hl.2.1.nodup hp
  obtain ⟨t, hscan, honly, -, -⟩ := scanLru_head (n := 2 * npages + 2) hl (hp f List.mem_cons_self) h.key (by
    rw [List.length_cons] at hlen
    omega)
  rw [← hl.1] at hscan
  rw [walksRight_scan h hscan honly]
  exact fun hw => absurd hw.2 (by simp)

theorem walksRight_middle (hl : LruList s (h :: (l₁ ++ f :: l₂))) (hp : ∀ g ∈ h :: (l₁ ++ f :: l₂), g.toNat < npages)
    (hpage : OnPage s (h :: (l₁ ++ f :: l₂)) pgdir a f) : WalksRight s (h :: (l₁ ++ f :: l₂)) pgdir a f := by
  have hlen := length_le_npages hl.2.1.nodup hp
  have hf : f.toNat < npages := hp f (List.mem_cons_of_mem h (List.mem_append_right l₁ List.mem_cons_self))
  obtain ⟨t, hscan, honly, hwithout⟩ := scanLru_middle (n := 2 * npages + 2) hl hf hpage.key (by
    rw [List.length_cons, List.length_append, List.length_cons] at hlen
    omega)
  rw [← hl.1] at hscan
  rw [walksRight_scan hpage hscan honly]
  exact ⟨hwithout, by simp⟩

theorem sample_onPage (n : Nat) : OnPage (sample n).kern [302#20] 300#20 0 302#20 := by
  refine ⟨⟨(301#20, 0), sample_walk n, ?_⟩, fun g hg => ?_, by decide, by decide, ⟨?_, ?_, ?_⟩, ⟨?_, by decide⟩⟩
  · rw [sample_pte, if_pos rfl, pteFrame_mapPte (by decide)]
  · exact iff_of_true ⟨rfl, rfl⟩ (List.mem_singleton.1 hg)
  · exact show kernlink < 0x80101000#32 by decide
  · exact show 0x80101000#32 < 0x80102000#32 by decide
  · exact show 0x80102000#32 ≤ kernbase + phystop by decide
  · exact show 0x80102000#32 ≤ p2v 302#20 by decide

theorem sample_entries (g : Frame) (hg : g ∈ [302#20]) : g.toNat < npages := by
  rw [List.mem_singleton.1 hg]
  decide

/-- **Removing a page keeps the rest of the list where the page is not its head**; `pop_lru` alone also where it is the
only page. -/
theorem removes_right (s : Kern) (l : List Frame) (f : Frame) (hl : LruList s l) (hp : ∀ g ∈ l, g.toNat < npages)
    (hf : f ∈ l) : (PopsRight s l f ↔ l.head? ≠ some f ∨ l.length = 1) ∧
      ∀ pgdir a, OnPage s l pgdir a f → (WalksRight s l pgdir a f ↔ l.head? ≠ some f) := by
  cases l with
  | nil => cases hf
  | cons h l =>
    by_cases hhf : h = f
    · subst hhf
      refine ⟨?_, fun pgdir a hpage => iff_of_false (walksRight_head hl hp hpage) (fun hne => hne rfl)⟩
      rw [popsRight_head hl (hp h hf)]
      exact (or_iff_right fun hne => hne rfl).symm
    · have hne : (h :: l).head? ≠ some f := fun he => hhf (Option.some.inj he)
      obtain ⟨l₁, l₂, rfl⟩ := List.append_of_mem ((List.mem_cons.1 hf).resolve_left (Ne.symm hhf))
      obtain ⟨t, hpop, -, -, -, hwithout⟩ := popLru_without hl (hp f hf)
      exact ⟨iff_of_true (Prog.wp_of_run hpop hwithout) (.inl hne),
        fun pgdir a hpage => iff_of_true (walksRight_middle hl hp hpage) hne⟩

theorem trio_onPage : OnPage (trio fun _ => true) [302#20, 303#20, 304#20] 300#20 0x1000 303#20 := by
  refine ⟨⟨(301#20, 1), trio_walk _ (by decide), by decide +kernel⟩, fun f hf => ?_, by decide, by decide, ⟨?_, ?_, ?_⟩,
    ⟨?_, by decide⟩⟩
  · rcases trio_entries hf with rfl | rfl | rfl <;> decide +kernel
  · exact show kernlink < 0x80101000#32 by decide
  · exact show 0x80101000#32 < 0x80102000#32 by decide
  · exact show 0x80102000#32 ≤ kernbase + phystop by decide
  · exact show 0x80102000#32 ≤ p2v 303#20 by decide

/-- The page between the two others leaves them on the list. -/
theorem trio_removes : PopsRight (trio fun _ => true) [302#20, 303#20, 304#20] 303#20 ∧
    WalksRight (trio fun _ => true) [302#20, 303#20, 304#20] 300#20 0x1000 303#20 := by
  obtain ⟨hpop, hwalk⟩ := removes_right (trio fun _ => true) [302#20, 303#20, 304#20] 303#20 (trio_list _)
    (trio_tracked fun _ => true).pages (by decide)
  exact ⟨hpop.2 (.inl (by decide)), (hwalk 300#20 0x1000 trio_onPage).2 (by decide)⟩

/-- `pop_lru` of the first of two pages loses the other, and `deallocuvm` pops the only page of a list twice. -/
theorem pair_loses : (LruList pair [1#20, 2#20] ∧ ¬ PopsRight pair [1#20, 2#20] 1#20) ∧
    (LruList (sample 0).kern [302#20] ∧ ¬ WalksRight (sample 0).kern [302#20] 300#20 0 302#20) := by
  refine ⟨⟨pair_list, ?_⟩, (sample_tracked 0).list,
    walksRight_head (sample_tracked 0).list sample_entries (sample_onPage 0)⟩
  rw [popsRight_head pair_list (by decide)]
  decide

end Swap
end Xv6
