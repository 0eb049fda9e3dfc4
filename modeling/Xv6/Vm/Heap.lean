import Xv6.Vm.Pages
/-!
# Vm.Heap — growing and shrinking an address space

The loops of `deallocuvm` and `allocuvm`.  A stop is accounted for: `deallocuvm` stops at a frame that `kfree` does not
take, `allocuvm` also at a page that is there already.
-/
namespace Xv6
namespace Vm

open Mem
open Prog (wp)

variable {g : Space} {s t : Phys} {oldsz newsz : Addr}

theorem frame_mem_owned {n : Frame} (hn : n.toNat < 524288) (hm : g.mapped n = true) : g.frame n ∈ owned g s := by
  refine Multiset.mem_add.2 (.inr (mem_held.2 ⟨n, ?_⟩))
  simp [hn, hm]

/-! ## deallocuvm -/

/-- Every page of the range has a frame that can be freed. -/
def Freeable (g : Space) (s : Phys) (lo hi : Nat) : Prop :=
  ∀ m, within lo hi m → g.mapped m = true → s.good (g.frame m)

section Range

variable {a : Addr} {m : Frame} {hi : Nat}

theorem within_next (ha : a.toNat % 4096 = 0) (hlt : a.toNat < hi) (hhi : hi ≤ 2147483648) :
    within a.toNat hi m ↔ m = pageNum a ∨ within (a + pgsize).toNat hi m := by
  have hn := pageNum_toNat a
  rw [← BitVec.toNat_inj, hn]
  unfold within
  rw [toNat_nextPage (by omega)]
  omega

theorem within_skip (ha : a.toNat % 4096 = 0) (hlt : a.toNat < hi) (hhi : hi ≤ 2147483648) (ht : g.hasTable a = false)
    (hm : g.mapped m = true) : within a.toNat hi m ↔
      within (pgAddr ((pdx a).setWidth 32 + 1) 0 0 - pgsize + pgsize).toNat hi m := by
  rw [toNat_nextDir (a := a) (by omega)]
  rw [mapped_iff] at hm
  have hd : dirIx m ≠ pdx a := by
    intro he
    unfold Space.hasTable at ht
    rw [he, ht] at hm
    cases hm.1
  rw [← BitVec.toNat_ne_iff_ne, dirIx_toNat, toNat_pdx] at hd
  unfold within
  omega

end Range

theorem deallocuvmLoop_wp (ho : oldsz ≤ kernbase) : ∀ (n : Nat) (g : Space) (s : Phys) (a : Addr),
    a.toNat % 4096 = 0 → a.toNat ≤ 2147483648 → wp (deallocuvmLoop n g a oldsz)
      (fun g' t => Shrunk g s (within a.toNat oldsz.toNat) g' t)
      (fun _ => ¬ (524288 < n + a.toNat / 4096 ∧ Freeable g s a.toNat oldsz.toNat)) s := by
  have hob : oldsz.toNat ≤ 2147483648 := ho
  intro n
  induction n with
  | zero => exact fun g s a _ ha hf => by omega
  | succ n ih =>
    intro g s a ha0 ha
    refine Prog.wp_ite (fun hlt => ?_) fun hge => ?_
    · have hlt' : a.toNat < oldsz.toNat := hlt
      have hnext := toNat_nextPage (a := a) (by omega)
      have hpage : ∀ m, within a.toNat oldsz.toNat m ↔ m = pageNum a ∨ within (a + pgsize).toNat oldsz.toNat m :=
        fun m => within_next ha0 hlt' hob
      have hu : (pageNum a).toNat < 524288 := by
        rw [pageNum_toNat]
        omega
      rw [Prog.wp_bind]
      unfold walkpgdir
      rw [Prog.wp_bind, Prog.wp_emit, Prog.wp_pure]
      cases ht : g.hasTable a with
      | false =>
        have hskip := toNat_nextDir (a := a) (by omega)
        have hnone := fun m => within_skip (m := m) ha0 hlt' hob ht
        refine (ih g s _ (by omega) (by omega)).mono (fun g' t h => h.congr fun m hm => (hnone m hm).symm) fun e he hf => ?_
        exact he ⟨by omega, fun m hw hm => hf.2 m ((hnone m hm).2 hw) hm⟩
      | true =>
        have hm := mapped_pageNum g a
        rw [ht, Bool.true_and] at hm
        simp only [if_true]
        refine Prog.wp_ite (fun hp => ?_) fun hp => ?_
        · rw [decide_eq_true hp] at hm
          have hgood : Freeable g s a.toNat oldsz.toNat → s.good (g.frame (pageNum a)) :=
            fun hf => hf _ ((hpage _).2 (.inl rfl)) hm
          refine Prog.wp_ite (fun h0 => ?_) fun h0 => ?_
          · exact fun hf => (hgood hf.2).2 (pteAddr_eq_zero h0)
          · rw [Prog.wp_bind]
            refine kfree_wp (fun hk t hl hkend => ?_) fun hk hf => ?_
            · have hshr : Shrunk g s (fun m => m = pageNum a) (g.setPte (pageNum a) 0) t := Shrunk.page hu hm hl hkend
              refine (ih _ t _ (by omega) (by omega)).mono (fun g' u h => ?_) fun e he hf => he ⟨by omega, ?_⟩
              · exact (hshr.trans h).congr fun m _ => (hpage m).symm
              · intro m hw hgm
                have hgm' := ((hshr.mapped m).1 hgm).1
                have hgood' := hf.2 m ((hpage m).2 (.inr hw)) hgm'
                unfold Space.frame at hgood' ⊢
                rw [hshr.pte m hgm]
                exact ⟨(kfrees_congr hkend _).trans hgood'.1, hgood'.2⟩
            · have := (hgood hf.2).1
              rw [show s.kfrees (g.frame (pageNum a)) = false from hk] at this
              cases this
        · rw [decide_eq_false hp] at hm
          have hiff : ∀ m, g.mapped m = true → (within (a + pgsize).toNat oldsz.toNat m ↔ within a.toNat oldsz.toNat m) := by
            intro m hgm
            rw [hpage m]
            refine ⟨.inr, fun h => h.resolve_left ?_⟩
            rintro rfl
            rw [hm] at hgm
            cases hgm
          refine (ih g s _ (by omega) (by omega)).mono (fun g' t h => h.congr hiff) fun e he hf => ?_
          exact he ⟨by omega, fun m hw hgm => hf.2 m ((hiff m hgm).1 hw) hgm⟩
    · have hge' : oldsz.toNat ≤ a.toNat := Nat.not_lt.1 hge
      exact Shrunk.refl fun m _ hw => by unfold within at hw; omega

theorem deallocuvm_wp (ho : oldsz ≤ kernbase) (hlt : newsz < oldsz) : wp (deallocuvm g oldsz newsz)
    (fun r t => r.1 = newsz ∧ Shrunk g s (within (pgRoundUp newsz).toNat oldsz.toNat) r.2 t)
    (fun _ => ¬ Freeable g s (pgRoundUp newsz).toNat oldsz.toNat) s := by
  have h1 : newsz.toNat < oldsz.toNat := hlt
  have h2 : oldsz.toNat ≤ 2147483648 := ho
  have hup := toNat_pgRoundUp (a := newsz) (by omega)
  have hle : ¬ oldsz ≤ newsz := fun h => absurd (show oldsz.toNat ≤ newsz.toNat from h) (by omega)
  unfold deallocuvm
  rw [if_neg hle, Prog.wp_bind]
  refine (deallocuvmLoop_wp ho maxPages g s _ (by omega) (by omega)).mono (fun g' t h => ⟨rfl, h⟩) fun e he hf => ?_
  exact he ⟨by unfold maxPages; omega, hf⟩

/-! ## allocuvm -/

/-- What `allocuvm` leaves, from the address `lo` on: all the pages up to `newsz`, or 0 and, of what it had mapped and of
what was there before, nothing. -/
def Allocated (g : Space) (s : Phys) (lo : Nat) (newsz : Addr) (r : Addr × Space) (t : Phys) : Prop :=
  (r.1 = newsz ∧ Grown g s (within lo newsz.toNat) r.2 t) ∨
    (r.1 = 0 ∧ lo < newsz.toNat ∧ ∃ b g₁ t₁, b < newsz.toNat ∧ Grown g s (within lo b) g₁ t₁ ∧
      Shrunk g₁ t₁ (within lo newsz.toNat) r.2 t)

/-- No page is in the way, and the frames held can be freed. -/
def Vacant (g : Space) (s : Phys) (lo hi : Nat) : Prop :=
  (∀ m, within lo hi m → g.mapped m = false) ∧ ∀ f ∈ owned g s, s.good f

theorem Grown.freeable {g' : Space} {lo b hi : Nat} (hhi : hi ≤ 2147483648) (h : Grown g s (within lo b) g' t)
    (hv : Vacant g s lo hi) : Freeable g' t lo hi := by
  intro m hw hm
  have hu : m.toNat < 524288 := by
    unfold within at hw
    omega
  have hmem : g'.frame m ∈ Vm.owned g' t := frame_mem_owned hu hm
  rw [h.owned] at hmem
  have hgood := hv.2 _ hmem
  exact ⟨(kfrees_congr h.kend _).trans hgood.1, hgood.2⟩

theorem Grown.memory {N : Frame → Prop} {g' : Space} {u : Phys} (h : Grown g s N g' t) (hl : u.freelist = t.freelist)
    (hk : u.kend = t.kend) : Grown g s N g' u where
  mapped := h.mapped
  pte    := h.pte
  fresh  := h.fresh
  owned  := by
    rw [← h.owned]
    unfold Vm.owned
    rw [hl]
  dir    := h.dir
  kend   := hk.trans h.kend
  free   := by rw [hl]; exact h.free

theorem allocuvmLoop_wp (hn : newsz < kernbase) (hon : oldsz ≤ newsz) : ∀ (n : Nat) (g₁ : Space) (s₁ : Phys) (a : Addr),
    a.toNat % 4096 = 0 → a.toNat < newsz.toNat + 4096 → (pgRoundUp oldsz).toNat ≤ a.toNat →
    Grown g s (within (pgRoundUp oldsz).toNat a.toNat) g₁ s₁ → wp (allocuvmLoop n g₁ a oldsz newsz)
      (Allocated g s (pgRoundUp oldsz).toNat newsz)
      (fun _ => ¬ (524288 < n + a.toNat / 4096 ∧ Vacant g s (pgRoundUp oldsz).toNat newsz.toNat)) s₁ := by
  have hnb : newsz.toNat < 2147483648 := hn
  have honb : oldsz.toNat ≤ newsz.toNat := hon
  have hup := toNat_pgRoundUp (a := oldsz) (by omega)
  intro n
  induction n with
  | zero => exact fun g₁ s₁ a ha0 ha _ _ hf => by omega
  | succ n ih =>
    intro g₁ s₁ a ha0 ha hlo hg
    refine Prog.wp_ite (fun hlt => ?_) fun hge => ?_
    · have hlt' : a.toNat < newsz.toNat := hlt
      have holt : oldsz < newsz := by
        rw [BitVec.lt_def]
        omega
      have hpa : pgRoundDown a = a := pgRoundDown_eq_self.2 ha0
      have hnext : (a + pgsize).toNat = a.toNat + 4096 := toNat_nextPage (by omega)
      have hu : (pageNum a).toNat < 524288 := by
        rw [pageNum_toNat]
        omega
      have hpage : ∀ m, within (pgRoundUp oldsz).toNat a.toNat m ∨ m = pageNum a ↔
          within (pgRoundUp oldsz).toNat (a + pgsize).toNat m := by
        intro m
        have hm := pageNum_toNat a
        rw [← BitVec.toNat_inj, hm]
        unfold within
        omega
      have hle : newsz ≤ kernbase := Nat.le_of_lt hn
      rw [Prog.wp_bind]
      refine kalloc_wp (fun hl t ht hk => ?_) fun mem t hl hk => ?_
      · -- no page is left: what has been mapped is taken back
        have hgt : Grown g s (within (pgRoundUp oldsz).toNat a.toNat) g₁ t := hg.memory (ht.trans hl.symm) hk
        show wp (do let r ← deallocuvm g₁ newsz oldsz; pure (0, r.2) : V (Addr × Space)) _ _ t
        rw [Prog.wp_bind]
        refine (deallocuvm_wp hle holt).mono (fun r u hr => ?_) fun e he hf => he (hgt.freeable (by omega) hf.2)
        exact .inr ⟨rfl, by omega, a.toNat, g₁, t, hlt', hgt, hr.2⟩
      · dsimp only
        rw [Prog.wp_bind, memset_wp, Prog.wp_bind]
        have hnew : ∀ m, within (pgRoundUp oldsz).toNat newsz.toNat m → g.mapped m = false →
            g₁.mapped m = true → within (pgRoundUp oldsz).toNat a.toNat m := by
          intro m _ hgm hm
          refine ((hg.mapped m).1 hm).resolve_left fun h => ?_
          rw [hgm] at h
          cases h
        refine mappages_wp hpa (fun _ hnil u hu' hku => ?_) (fun hm hf => ?_) fun g' u hg' ht hm => ?_
        · -- no page table is left: likewise, and the page goes back too
          have hmem : mem ∈ Vm.owned g s := by
            rw [← hg.owned]
            exact Multiset.mem_add.2 (.inl (Multiset.mem_add.2 (.inl (by rw [hl]; simp))))
          simp only [Bool.false_eq_true, if_false]
          rw [Prog.wp_bind]
          have hfree : Vacant g s (pgRoundUp oldsz).toNat newsz.toNat →
              Freeable g₁ u (pgRoundUp oldsz).toNat newsz.toNat := by
            intro hv m hw hm
            have hgood := hg.freeable (by omega) hv m hw hm
            exact ⟨(kfrees_congr (hku.trans hk) _).trans hgood.1, hgood.2⟩
          refine (deallocuvm_wp hle holt).mono (fun r v hr => ?_) fun e he hf => he (hfree hf.2)
          rw [Prog.wp_bind]
          refine kfree_wp (fun _ w hw hkw => ?_) fun hkf hf => ?_
          · rw [Prog.wp_pure]
            refine .inr ⟨rfl, by omega, a.toNat, g₁, s₁, hlt', hg, hr.2.mapped, hr.2.pte, ?_, hr.2.dir, ?_⟩
            · have ho := hr.2.owned
              unfold Vm.owned at ho ⊢
              rw [hu'] at ho
              rw [hw, hl, show t.freelist = [] from hnil, ← Multiset.cons_coe, ← Multiset.cons_coe]
              simp only [Multiset.cons_add]
              rw [ho]
            · rw [hkw, hr.2.kend, hku]
              exact hk
          · have hgood := hf.2.2 mem hmem
            have hkend : v.kend = s.kend := hr.2.kend.trans (hku.trans (hk.trans hg.kend))
            rw [kfrees_congr hkend, hgood.1] at hkf
            cases hkf
        · have hw : within (pgRoundUp oldsz).toNat newsz.toNat (pageNum a) := by
            have hn' := pageNum_toNat a
            unfold within
            omega
          have hwa := hnew _ hw (hf.2.1 _ hw) hm
          have hn' := pageNum_toNat a
          unfold within at hwa
          omega
        · have hd : (g'.pde (dirIx (pageNum a))).isSome = true := by
            rw [dirIx_pageNum]
            exact ht
          have hflags : pteFlags (pteW ||| pteU) = pteW ||| pteU := by decide
          have hgp := Grown.page hg' hl hk hu hd hm (present_mapPte mem (pteW ||| pteU)) (pteFrame_mapPte hflags)
          simp only [if_true]
          refine (ih _ u _ (by omega) (by omega) (by omega) ((hg.trans hgp).congr hpage)).mono (fun _ _ h => h) ?_
          exact fun e he hf => he ⟨by omega, hf.2⟩
    · have hge' : newsz.toNat ≤ a.toNat := Nat.not_lt.1 hge
      refine .inl ⟨rfl, hg.congr fun m => ?_⟩
      unfold within
      omega

/-- **`allocuvm`** of a size that is not refused at once. -/
theorem allocuvm_wp (hn : newsz < kernbase) (hon : oldsz ≤ newsz) : wp (allocuvm g oldsz newsz)
    (Allocated g s (pgRoundUp oldsz).toNat newsz) (fun _ => ¬ Vacant g s (pgRoundUp oldsz).toNat newsz.toNat) s := by
  have hnb : newsz.toNat < 2147483648 := hn
  have honb : oldsz.toNat ≤ newsz.toNat := hon
  have hup := toNat_pgRoundUp (a := oldsz) (by omega)
  have h1 : ¬ kernbase ≤ newsz := fun h => absurd (show 2147483648 ≤ newsz.toNat from h) (by omega)
  have h2 : ¬ newsz < oldsz := fun h => absurd (show newsz.toNat < oldsz.toNat from h) (by omega)
  have hg : Grown g s (within (pgRoundUp oldsz).toNat (pgRoundUp oldsz).toNat) g s :=
    (Grown.refl g s).congr fun m => ⟨False.elim, fun h => by unfold within at h; omega⟩
  unfold allocuvm
  rw [if_neg h1, if_neg h2]
  refine (allocuvmLoop_wp hn hon maxPages g s _ (pgRoundUp_aligned oldsz) (by omega) (by omega) hg).mono (fun _ _ h => h) ?_
  exact fun e he hv => he ⟨by unfold maxPages; omega, hv⟩

theorem Grown.undone {g₁ g' : Space} {t₁ : Phys} {lo b hi : Nat} (hg : Grown g s (within lo b) g₁ t₁)
    (hd : Shrunk g₁ t₁ (within lo hi) g' t) (hb : b < hi) (hv : ∀ m, within lo hi m → g.mapped m = false) :
    (∀ m, g'.mapped m = true ↔ g.mapped m = true) ∧ ∀ m, g.mapped m = true → g'.pte m = g.pte m := by
  have hm : ∀ m, g'.mapped m = true ↔ g.mapped m = true := by
    intro m
    rw [hd.mapped, hg.mapped]
    constructor
    · rintro ⟨hm | hw, hnw⟩
      · exact hm
      · unfold within at hw hnw
        omega
    · refine fun hm => ⟨.inl hm, fun hw => ?_⟩
      rw [hv m hw] at hm
      cases hm
  exact ⟨hm, fun m hgm => (hd.pte m ((hm m).2 hgm)).trans (hg.pte m hgm)⟩

/-! ## A growth that fails -/

/-- The pages of the process are as they were, and every frame is back that has not become a page table. -/
structure Untouched (g : Space) (s : Phys) (g' : Space) (t : Phys) : Prop where
  kept   : ∀ n, g.mapped n = true → g'.mapped n = true ∧ g'.pte n = g.pte n
  none   : ∀ n, n.toNat < 524288 → g'.mapped n = true → g.mapped n = true
  frames : (s.freelist : Multiset Frame) + g.tables = t.freelist + g'.tables

theorem Untouched.of_owned {g' : Space} (ho : owned g' t = owned g s) (hm : ∀ n, g'.mapped n = true ↔ g.mapped n = true)
    (hp : ∀ n, g.mapped n = true → g'.pte n = g.pte n) : Untouched g s g' t := by
  have hpages : g'.pages = g.pages := by
    unfold Space.pages
    congr 1
    funext n
    rw [Bool.eq_iff_iff.2 (hm n)]
    cases hgm : g.mapped n with
    | false => simp
    | true =>
      unfold Space.frame
      rw [hp n hgm]
  refine ⟨fun n h => ⟨(hm n).2 h, hp n h⟩, fun n _ h => (hm n).1 h, ?_⟩
  unfold Vm.owned at ho
  rw [hpages] at ho
  exact (Multiset.add_left_inj.1 ho).symm

/-- **A growth that fails** leaves the process as it was exactly when it is refused at once, or no page stood in the
range it was to fill. -/
theorem allocuvm_undone (g : Space) (oldsz newsz : Addr) (s : Phys) (g' : Space)
    (h : (allocuvm g oldsz newsz s).res = .ok (0, g')) : Untouched g s g' (allocuvm g oldsz newsz s).st ↔
      kernbase ≤ newsz ∨ ∀ n, within (pgRoundUp oldsz).toNat newsz.toNat n → g.mapped n = false := by
  by_cases h1 : kernbase ≤ newsz
  · have hrun : allocuvm g oldsz newsz s = ⟨.ok (0, g), s, []⟩ := by
      unfold allocuvm
      rw [if_pos h1]
      rfl
    rw [hrun] at h ⊢
    cases h
    exact iff_of_true (.of_owned rfl (fun _ => Iff.rfl) fun _ _ => rfl) (.inl h1)
  have hn : newsz < kernbase := BitVec.not_le.1 h1
  by_cases h2 : newsz < oldsz
  · have hrun : allocuvm g oldsz newsz s = ⟨.ok (oldsz, g), s, []⟩ := by
      unfold allocuvm
      rw [if_neg h1, if_pos h2]
      rfl
    rw [hrun] at h
    cases h
    exact absurd h2 (by simp)
  have hno : ∀ {P : Prop}, (kernbase ≤ newsz ∨ P) ↔ P := fun {_} => or_iff_right h1
  rw [hno]
  rcases (allocuvm_wp hn (BitVec.not_lt.1 h2)).ok h with ⟨h0, hg⟩ | ⟨-, -, b, g₁, t₁, hb, hg, hd⟩
  · -- the size 0, which is no failure
    have hempty : ∀ m, ¬ within (pgRoundUp oldsz).toNat newsz.toNat m := by
      intro m hw
      rw [← h0] at hw
      unfold within at hw
      simp at hw
    exact iff_of_true (.of_owned hg.owned (fun n => (hg.mapped n).trans (or_iff_left (hempty n))) hg.pte)
      fun n hw => absurd hw (hempty n)
  · constructor
    · intro hu n hw
      cases hm : g.mapped n with
      | false => rfl
      | true => exact absurd hw ((hd.mapped n).1 (hu.kept n hm).1).2
    · intro hv
      obtain ⟨hm, hp⟩ := hg.undone hd hb hv
      exact .of_owned (hd.owned.trans hg.owned) hm hp

/-- A process of one page that has also mapped a page of a file, and one free frame. -/
def mapped2 : Space where
  dir := 200#20
  pde := fun d => if d = 0 then some 201#20 else if d = 256#10 then some 202#20 else none
  pte := fun n => if n = 0 then mapPte 300#20 (pteW ||| pteU) else if n = 262144#20 then mapPte 301#20 (pteW ||| pteU) else 0

def oneFree : Phys := ⟨fun _ => zeroPage, [302#20], 1, 0x80100000#32, 0x80100000#32⟩

/-- It fails to grow by two pages, and is as it was. -/
theorem growTwo_undone : ∃ g', (allocuvm mapped2 4096#32 12288#32 oneFree).res = .ok (0, g') ∧
    Untouched mapped2 oneFree g' (allocuvm mapped2 4096#32 12288#32 oneFree).st := by
  have hres : (allocuvm mapped2 4096#32 12288#32 oneFree).res.toOption.map Prod.fst = some 0 := by decide +kernel
  cases hr : (allocuvm mapped2 4096#32 12288#32 oneFree).res with
  | error e =>
    rw [hr] at hres
    cases hres
  | ok r =>
    rw [hr] at hres
    obtain ⟨r0, g'⟩ := r
    obtain rfl : r0 = 0 := Option.some.inj hres
    refine ⟨g', rfl, (allocuvm_undone mapped2 4096#32 12288#32 oneFree g' hr).2 (.inr fun n hn => ?_)⟩
    have hn' : n.toNat = 1 ∨ n.toNat = 2 := by
      have h1 : (pgRoundUp 4096#32).toNat = 4096 := by decide
      unfold within at hn
      rw [h1] at hn
      simp only [BitVec.toNat_ofNat] at hn
      omega
    rcases hn' with h | h
    · rw [show n = 1#20 from BitVec.eq_of_toNat_eq h]
      decide
    · rw [show n = 2#20 from BitVec.eq_of_toNat_eq h]
      decide

/-- It fails to grow by a gigabyte, and has lost the page of the file. -/
theorem growGiga_loses : (allocuvm mapped2 4096#32 0x40001000#32 oneFree).res.toOption.map
    (fun r => (r.1, mapped2.mapped 262144#20, r.2.mapped 262144#20)) = some (0, true, false) := by
  decide +kernel

end Vm
end Xv6
