import Xv6.Vm.Machine
import Xv6.Vm.Heap
/-!
# Vm.Sbrk — the size of a process and its pages

`growproc` (proc.c) takes the new size 0, which `deallocuvm` returns, for a failure, and a size below zero, which wraps
around, for one that is there already.  Between these, and where no mapped page stands in the way, it keeps the size and
the pages in step; then `copyuvm` finds the pages it expects, and the system calls those behind their arguments.
-/
namespace Xv6
namespace Vm

open Mem
open Prog (wp Stops)
open Sched (nproc)

/-- The pages of the heap range, up to `MMAPBASE` or the size, are those below the size. -/
def Space.Sized (g : Space) (sz : Addr) : Prop := ∀ n : Frame, n.toNat < 524288 →
  (n.toNat * 4096 < sz.toNat → g.mapped n = true) ∧
    (sz.toNat ≤ n.toNat * 4096 → n.toNat * 4096 < mmapBase.toNat → g.mapped n = false)

/-- A process image: its size and its pages are in step, and the frames are those of the allocator. -/
structure Image (s : Sys) (p : Fin nproc) (g : Space) : Prop where
  dir   : s.pgdir p = some g
  bound : s.sz p < kernbase
  pages : g.Sized (s.sz p)
  good  : ∀ f ∈ owned g s.phys, s.phys.good f

def Space.Same (g g' : Space) : Prop := ∀ n, g'.mapped n = g.mapped n ∧ (g.mapped n = true → g'.pte n = g.pte n)

/-- `growproc(n)` returns 0, with the new size and its pages, or -1 with the old. -/
def InStep (p : Fin nproc) (n : Word) (s : Sys) (o : Outcome Stop Sys Event Int) : Prop :=
  (o.res = .ok 0 ∧ ((o.st.sz p).toNat : Int) = (s.sz p).toNat + n.toInt ∧
    ∃ g', o.st.pgdir p = some g' ∧ g'.Sized (o.st.sz p)) ∨
  (o.res = .ok (-1) ∧ o.st.sz p = s.sz p ∧ ∃ g g', s.pgdir p = some g ∧ o.st.pgdir p = some g' ∧ g.Same g')

/-- The new size is above zero, and no page stands where the heap is to grow. -/
def Moves (s : Sys) (p : Fin nproc) (n : Word) : Prop :=
  (n.toInt < 0 → 0 < ((s.sz p).toNat : Int) + n.toInt ∨ s.sz p = 0) ∧
  (0 < n.toInt → s.sz p + n < kernbase → ∀ g, s.pgdir p = some g →
    ∀ m, within (pgRoundUp (s.sz p)).toNat (s.sz p + n).toNat m → g.mapped m = false)

variable {p : Fin nproc} {n : Word} {s : Sys} {g : Space}

theorem growproc_wp {Q : Int → Sys → Prop} {E : Stop → Prop} (hg : s.pgdir p = some g)
    (h : wp (resize g (s.sz p) n) (fun r t => (n ≠ 0 ∧ r.1 = 0 → Q (-1) (t.setSpace p r.2)) ∧
      (¬ (n ≠ 0 ∧ r.1 = 0) → Q 0 { t.setSpace p r.2 with sz := fun q => if q = p then r.1 else t.sz q })) E s) :
    wp (growproc p n) Q E s := by
  unfold growproc follow
  rw [Prog.wp_bind, Prog.wp_read, Prog.wp_bind, Prog.wp_bind, Prog.wp_read, hg, Prog.wp_pure, Prog.wp_bind]
  refine h.imp fun r t hr => ?_
  rw [Prog.wp_bind, Prog.wp_modify]
  exact Prog.wp_ite hr.1 hr.2

/-! ## The branches -/

theorem slt_zero : n.slt 0 = true ↔ n.toInt < 0 := by
  rw [BitVec.slt_iff_toInt_lt]
  rfl

theorem zero_slt : (0#32).slt n = true ↔ 0 < n.toInt := by
  rw [BitVec.slt_iff_toInt_lt]
  rfl

theorem resize_grow (h : 0 < n.toInt) : resize g (s.sz p) n = vm (allocuvm g (s.sz p) (s.sz p + n)) :=
  if_pos (zero_slt.2 h)

theorem resize_shrink (h : n.toInt < 0) : resize g (s.sz p) n = vm (deallocuvm g (s.sz p) (s.sz p + n)) := by
  unfold resize
  rw [if_neg fun hs => absurd (zero_slt.1 hs) (by omega), if_pos (slt_zero.2 h)]

theorem ne_zero_of_toInt (h : n.toInt ≠ 0) : n ≠ 0 := by
  rintro rfl
  exact h rfl

theorem growproc_grow (hg : s.pgdir p = some g) (h : 0 < n.toInt) (hk : s.sz p + n < kernbase) (hle : s.sz p ≤ s.sz p + n) :
    wp (growproc p n) (fun r t => ∃ sz' g', Allocated g s.phys (pgRoundUp (s.sz p)).toNat (s.sz p + n) (sz', g') t.phys ∧
        t.pgdir p = some g' ∧ (sz' = 0 → r = -1 ∧ t.sz p = s.sz p) ∧ (sz' ≠ 0 → r = 0 ∧ t.sz p = sz'))
      (fun _ => ¬ Vacant g s.phys (pgRoundUp (s.sz p)).toNat (s.sz p + n).toNat) s := by
  refine growproc_wp hg ?_
  rw [resize_grow h]
  refine Prog.wp_zoom.2 ((allocuvm_wp hk hle).imp fun r t hr => ⟨fun h0 => ?_, fun h0 => ?_⟩)
  · exact ⟨r.1, r.2, hr, if_pos rfl, fun _ => ⟨rfl, rfl⟩, fun hne => absurd h0.2 hne⟩
  · have hne : r.1 ≠ 0 := fun he => h0 ⟨ne_zero_of_toInt (by omega), he⟩
    exact ⟨r.1, r.2, hr, if_pos rfl, fun he => absurd he hne, fun _ => ⟨rfl, if_pos rfl⟩⟩

theorem growproc_shrink (hg : s.pgdir p = some g) (h : n.toInt < 0) (hk : s.sz p < kernbase) (hlt : s.sz p + n < s.sz p) :
    wp (growproc p n) (fun r t => ∃ g', Shrunk g s.phys (within (pgRoundUp (s.sz p + n)).toNat (s.sz p).toNat) g' t.phys ∧
        t.pgdir p = some g' ∧ (s.sz p + n = 0 → r = -1 ∧ t.sz p = s.sz p) ∧
        (s.sz p + n ≠ 0 → r = 0 ∧ t.sz p = s.sz p + n))
      (fun _ => ¬ Freeable g s.phys (pgRoundUp (s.sz p + n)).toNat (s.sz p).toNat) s := by
  refine growproc_wp hg ?_
  rw [resize_shrink h]
  refine Prog.wp_zoom.2 ((deallocuvm_wp (Nat.le_of_lt hk) hlt).imp fun r t hr => ?_)
  obtain ⟨hr1, hr⟩ := hr
  refine ⟨fun h0 => ?_, fun h0 => ?_⟩
  · exact ⟨r.2, hr, if_pos rfl, fun _ => ⟨rfl, rfl⟩, fun hne => absurd (hr1.symm.trans h0.2) hne⟩
  · have hne : r.1 ≠ 0 := fun he => h0 ⟨ne_zero_of_toInt (by omega), he⟩
    exact ⟨r.2, hr, if_pos rfl, fun he => absurd (hr1.trans he) hne, fun _ => ⟨rfl, (if_pos rfl).trans hr1⟩⟩

theorem growproc_still {sz' : Addr} (hg : s.pgdir p = some g) (hr : resize g (s.sz p) n s = ⟨.ok (sz', g), s, []⟩) :
    wp (growproc p n) (fun r t => t.pgdir p = some g ∧ t.phys = s.phys ∧ (n ≠ 0 ∧ sz' = 0 → r = -1 ∧ t.sz p = s.sz p) ∧
      (¬ (n ≠ 0 ∧ sz' = 0) → r = 0 ∧ t.sz p = sz')) (fun _ => False) s :=
  growproc_wp hg (Prog.wp_of_run hr ⟨fun h0 => ⟨if_pos rfl, rfl, fun _ => ⟨rfl, rfl⟩, fun h => absurd h0 h⟩,
    fun h0 => ⟨if_pos rfl, rfl, fun h => absurd h h0, fun _ => ⟨rfl, if_pos rfl⟩⟩⟩)

theorem resize_zero : resize g (s.sz p) 0 s = ⟨.ok (s.sz p, g), s, []⟩ := rfl

theorem resize_refused (h : 0 < n.toInt) (hk : kernbase ≤ s.sz p + n) :
    resize g (s.sz p) n s = ⟨.ok (0, g), s, []⟩ := by
  rw [resize_grow h]
  unfold allocuvm
  rw [if_pos hk]
  rfl

theorem resize_wraps (h : n.toInt < 0) (hle : s.sz p ≤ s.sz p + n) :
    resize g (s.sz p) n s = ⟨.ok (s.sz p, g), s, []⟩ := by
  rw [resize_shrink h]
  unfold deallocuvm
  rw [if_pos hle]
  rfl

theorem add_toNat_pos {a : Addr} (ha : a < kernbase) (h : 0 < n.toInt) : ((a + n).toNat : Int) = a.toNat + n.toInt := by
  have hab : a.toNat < 2147483648 := ha
  rw [BitVec.toNat_add]
  rw [BitVec.toInt_eq_toNat_cond] at h ⊢
  have := n.isLt
  split at h <;> split <;> omega

theorem add_toNat_neg {a : Addr} (ha : a < kernbase) (h : n.toInt < 0) :
    ((a + n).toNat : Int) = if 0 ≤ (a.toNat : Int) + n.toInt then a.toNat + n.toInt else a.toNat + n.toInt + 4294967296 := by
  have hab : a.toNat < 2147483648 := ha
  rw [BitVec.toNat_add]
  rw [BitVec.toInt_eq_toNat_cond] at h ⊢
  have := n.isLt
  split at h <;> split <;> split <;> omega

/-! ## In step -/

theorem Space.Same.refl (g : Space) : g.Same g := fun _ => ⟨rfl, fun _ => rfl⟩

theorem Image.freeable (hi : Image s p g) (lo hi' : Nat) (hb : hi' ≤ 2147483648) : Freeable g s.phys lo hi' := by
  intro m hw hm
  refine hi.good _ (frame_mem_owned ?_ hm)
  unfold within at hw
  omega

theorem InStep.cases {o : Outcome Stop Sys Event Int} {g' : Space} (h : InStep p n s o) (hg : s.pgdir p = some g)
    (hg' : o.st.pgdir p = some g') : (o.res = .ok 0 ∧ ((o.st.sz p).toNat : Int) = (s.sz p).toNat + n.toInt) ∨
      (o.res = .ok (-1) ∧ g.Same g') := by
  rcases h with ⟨h0, hsz, -⟩ | ⟨h1, -, g₀, g₁, hg₀, hg₁, hs⟩
  · exact .inl ⟨h0, hsz⟩
  · cases hg.symm.trans hg₀
    cases hg'.symm.trans hg₁
    exact .inr ⟨h1, hs⟩

theorem Image.next {t : Sys} {g' : Space} (hi : Image s p g) (hd : t.pgdir p = some g') (hb : t.sz p < kernbase)
    (hp : g'.Sized (t.sz p)) (ho : owned g' t.phys = owned g s.phys) (hk : t.phys.kend = s.phys.kend) : Image t p g' where
  dir      := hd
  bound    := hb
  pages    := hp
  good f hf := by
    rw [ho] at hf
    exact ⟨(kfrees_congr hk f).trans (hi.good f hf).1, (hi.good f hf).2⟩

theorem Space.Same.sized {g' : Space} {sz : Addr} (h : g.Same g') (hs : g.Sized sz) : g'.Sized sz := by
  intro m hm
  rw [(h m).1]
  exact hs m hm

def Stays (p : Fin nproc) (n : Word) (s : Sys) : Prop :=
  InStep p n s (growproc p n s) ∧ ∃ g', Image (growproc p n s).st p g'

theorem Image.still {sz' : Addr} (hi : Image s p g) (hr : resize g (s.sz p) n s = ⟨.ok (sz', g), s, []⟩)
    (h : n ≠ 0 ∧ sz' = 0 ∨ n = 0 ∧ sz' = s.sz p) : Stays p n s := by
  obtain ⟨r, hres, hd, hph, h1, h0⟩ := (growproc_still hi.dir hr).returns
  rcases h with h | ⟨hn, hs⟩
  · obtain ⟨rfl, hs⟩ := h1 h
    exact ⟨.inr ⟨hres, hs, g, g, hi.dir, hd, .refl g⟩, g, hi.next hd (by rw [hs]; exact hi.bound)
      (by rw [hs]; exact hi.pages) (by rw [hph]) (by rw [hph])⟩
  · obtain ⟨rfl, hs'⟩ := h0 fun hc => hc.1 hn
    rw [hs] at hs'
    have h0' : n.toInt = 0 := by
      rw [hn]
      rfl
    exact ⟨.inl ⟨hres, by rw [hs', h0', Int.add_zero], g, hd, by rw [hs']; exact hi.pages⟩, g,
      hi.next hd (by rw [hs']; exact hi.bound) (by rw [hs']; exact hi.pages) (by rw [hph]) (by rw [hph])⟩

theorem Image.grown (hi : Image s p g) (h : 0 < n.toInt) (hk : s.sz p + n < kernbase)
    (hv : ∀ m, within (pgRoundUp (s.sz p)).toNat (s.sz p + n).toNat m → g.mapped m = false) : Stays p n s := by
  have hsz := add_toNat_pos hi.bound h
  have hnb : (s.sz p + n).toNat < 2147483648 := hk
  have hle : s.sz p ≤ s.sz p + n := by
    rw [BitVec.le_def]
    omega
  have hup := toNat_pgRoundUp (a := s.sz p) (by omega)
  have hwp := growproc_grow hi.dir h hk hle
  obtain ⟨r, hr, sz', g', ha, hg', h0, hne⟩ := (hwp.mono (fun _ _ h => h) fun e he => he ⟨hv, hi.good⟩).returns
  rcases ha with ⟨hz, hgr⟩ | ⟨hz, -, b, g₁, t₁, hb, hgr, hd⟩
  · have hz : sz' = s.sz p + n := hz
    have hpos : sz' ≠ 0 := by
      rintro rfl
      rw [← hz] at hsz
      simp at hsz
      omega
    obtain ⟨rfl, hs⟩ := hne hpos
    have hsized : g'.Sized (s.sz p + n) := by
      intro m hm
      refine ⟨fun hlt => (hgr.mapped m).2 ?_, fun hge hlt => ?_⟩
      · by_cases hold : m.toNat * 4096 < (s.sz p).toNat
        · exact .inl ((hi.pages m hm).1 hold)
        · exact .inr ⟨by omega, hlt⟩
      · cases hgm : g'.mapped m with
        | false => rfl
        | true =>
          rcases (hgr.mapped m).1 hgm with hold | hw
          · rw [(hi.pages m hm).2 (by omega) hlt] at hold
            cases hold
          · unfold within at hw
            omega
    rw [hz] at hs
    exact ⟨.inl ⟨hr, by rw [hs]; exact hsz, g', hg', by rw [hs]; exact hsized⟩, g',
      hi.next hg' (by rw [hs]; exact hk) (by rw [hs]; exact hsized) hgr.owned hgr.kend⟩
  · obtain ⟨rfl, hs⟩ := h0 hz
    obtain ⟨hm, hp⟩ := hgr.undone hd hb hv
    have hsame : g.Same g' := fun m => ⟨Bool.eq_iff_iff.2 (hm m), hp m⟩
    exact ⟨.inr ⟨hr, hs, g, g', hi.dir, hg', hsame⟩, g', hi.next hg' (by rw [hs]; exact hi.bound)
      (by rw [hs]; exact hsame.sized hi.pages) (hd.owned.trans hgr.owned) (hd.kend.trans hgr.kend)⟩

/-- A page in the way is lost or stops the kernel. -/
theorem Image.grow_vacant (hi : Image s p g) (h : 0 < n.toInt) (hk : s.sz p + n < kernbase)
    (hin : InStep p n s (growproc p n s)) : ∀ m, within (pgRoundUp (s.sz p)).toNat (s.sz p + n).toNat m →
      g.mapped m = false := by
  intro m hw
  have hsz := add_toNat_pos hi.bound h
  have hle : s.sz p ≤ s.sz p + n := by
    rw [BitVec.le_def]
    omega
  obtain ⟨r, hr⟩ : ∃ r, (growproc p n s).res = .ok r := by
    rcases hin with ⟨hr, -⟩ | ⟨hr, -⟩
    · exact ⟨_, hr⟩
    · exact ⟨_, hr⟩
  obtain ⟨sz', g', ha, hg', h0, -⟩ := (growproc_grow hi.dir h hk hle).ok hr
  rcases ha with ⟨-, hgr⟩ | ⟨hz, -, b, g₁, t₁, hb, hgr, hd⟩
  · exact hgr.fresh m hw
  · cases hm : g.mapped m with
    | false => rfl
    | true =>
      rcases hin.cases hi.dir hg' with ⟨hr', -⟩ | ⟨-, hs⟩
      · rw [hr, (h0 hz).1] at hr'
        cases hr'
      · exact absurd hw ((hd.mapped m).1 ((hs m).1.trans hm)).2

theorem Image.shrunk (hi : Image s p g) (h : n.toInt < 0) (hpos : 0 < ((s.sz p).toNat : Int) + n.toInt) :
    Stays p n s := by
  have hbound : (s.sz p).toNat < 2147483648 := hi.bound
  have hsz := add_toNat_neg hi.bound h
  rw [if_pos (by omega)] at hsz
  have hlt : s.sz p + n < s.sz p := by
    rw [BitVec.lt_def]
    omega
  have hne : s.sz p + n ≠ 0 := by
    intro he
    rw [he] at hsz
    simp at hsz
    omega
  have hup := toNat_pgRoundUp (a := s.sz p + n) (by omega)
  have hwp := growproc_shrink hi.dir h hi.bound hlt
  obtain ⟨r, hr, g', hd, hg', -, h1⟩ :=
    (hwp.mono (fun _ _ h => h) fun e he => he (hi.freeable _ _ (by omega))).returns
  obtain ⟨rfl, hs⟩ := h1 hne
  have hsized : g'.Sized (s.sz p + n) := by
    intro m hm
    refine ⟨fun hlt' => (hd.mapped m).2 ⟨(hi.pages m hm).1 (by omega), fun hw => ?_⟩, fun hge hlt' => ?_⟩
    · unfold within at hw
      omega
    · cases hgm : g'.mapped m with
      | false => rfl
      | true =>
        obtain ⟨hold, hnw⟩ := (hd.mapped m).1 hgm
        by_cases hb : m.toNat * 4096 < (s.sz p).toNat
        · exact absurd ⟨by omega, hb⟩ hnw
        · rw [(hi.pages m hm).2 (by omega) hlt'] at hold
          cases hold
  exact ⟨.inl ⟨hr, by rw [hs]; exact hsz, g', hg', by rw [hs]; exact hsized⟩, g',
    hi.next hg' (by rw [hs, BitVec.lt_def]; show _ < 2147483648; omega) (by rw [hs]; exact hsized) hd.owned hd.kend⟩

/-- The size zero is taken for a failure, after the pages are gone; a size below it is not noticed. -/
theorem Image.shrink_fails (hi : Image s p g) (h : n.toInt < 0) (hz : s.sz p ≠ 0)
    (hle : ((s.sz p).toNat : Int) + n.toInt ≤ 0) : ¬ InStep p n s (growproc p n s) := by
  intro hin
  have hbound : (s.sz p).toNat < 2147483648 := hi.bound
  have hpos : 0 < (s.sz p).toNat := Nat.pos_of_ne_zero fun he => hz (BitVec.eq_of_toNat_eq he)
  have hsz := add_toNat_neg hi.bound h
  by_cases h0 : ((s.sz p).toNat : Int) + n.toInt = 0
  · rw [if_pos (by omega), h0] at hsz
    have hnew : s.sz p + n = 0 := BitVec.eq_of_toNat_eq (show (s.sz p + n).toNat = 0 by omega)
    have hlt : s.sz p + n < s.sz p := by
      rw [hnew, BitVec.lt_def]
      exact hpos
    have hwp := growproc_shrink hi.dir h hi.bound hlt
    obtain ⟨r, hr, g', hd, hg', h1, -⟩ :=
      (hwp.mono (fun _ _ h => h) fun e he => he (hi.freeable _ _ (by omega))).returns
    rcases hin.cases hi.dir hg' with ⟨hr', -⟩ | ⟨-, hs⟩
    · rw [hr, (h1 hnew).1] at hr'
      cases hr'
    · have hm := (hi.pages 0 (by decide)).1 (by simpa using hpos)
      refine ((hd.mapped 0).1 ((hs 0).1.trans hm)).2 ?_
      rw [hnew]
      exact ⟨by decide, by simpa using hpos⟩
  · rw [if_neg (by omega)] at hsz
    have hle' : s.sz p ≤ s.sz p + n := by
      rw [BitVec.le_def]
      have := n.isLt
      rw [BitVec.toInt_eq_toNat_cond] at hsz h
      split at h <;> split at hsz <;> omega
    obtain ⟨r, hr, -, -, -, h1⟩ := (growproc_still hi.dir (resize_wraps h hle')).returns
    obtain ⟨rfl, hs⟩ := h1 fun hc => hz hc.2
    rcases hin with ⟨-, hs', -⟩ | ⟨hr', -⟩
    · rw [hs] at hs'
      omega
    · rw [hr] at hr'
      cases hr'

theorem growproc_stays (hi : Image s p g) (hm : Moves s p n) : Stays p n s := by
  rcases lt_trichotomy n.toInt 0 with h | h | h
  · by_cases hz : s.sz p = 0
    · refine hi.still (resize_wraps h ?_) (.inl ⟨ne_zero_of_toInt (by omega), hz⟩)
      rw [hz]
      exact Nat.zero_le _
    · exact hi.shrunk h ((hm.1 h).resolve_right hz)
  · obtain rfl : n = 0 := BitVec.eq_of_toInt_eq h
    exact hi.still resize_zero (.inr ⟨rfl, rfl⟩)
  · by_cases hk : s.sz p + n < kernbase
    · exact hi.grown h hk (hm.2 h hk g hi.dir)
    · exact hi.still (resize_refused h (BitVec.not_lt.1 hk)) (.inl ⟨ne_zero_of_toInt (by omega), rfl⟩)

/-- **In step exactly when the size stays above zero and nothing stands in the way.** -/
theorem growproc_inStep (hi : Image s p g) : InStep p n s (growproc p n s) ↔ Moves s p n := by
  refine ⟨fun hin => ⟨fun h => ?_, fun h hk g' hg' => ?_⟩, fun hm => (growproc_stays hi hm).1⟩
  · by_contra hc
    rw [not_or] at hc
    exact hi.shrink_fails h hc.2 (by omega) hin
  · cases hi.dir.symm.trans hg'
    exact hi.grow_vacant h hk hin

/-! ## Runs -/

/-- A call of `sbrk`, and the free list that other processes have left it. -/
structure Sbrk where
  free : List Frame
  n    : Word

def sbrkStep (p : Fin nproc) (c : Sbrk) : M Unit := do
  Prog.modify (fun s => { s with phys := { s.phys with freelist := c.free } })
  let _ ← growproc p c.n

def sbrkRun (p : Fin nproc) (calls : List Sbrk) : M Unit := Prog.forEach calls (sbrkStep p)

/-- The allocator's pages are sound, and the size stays above zero with nothing in the way. -/
def Grants (p : Fin nproc) (s : Sys) (c : Sbrk) : Prop := (∀ f ∈ c.free, s.phys.good f) ∧ Moves s p c.n

theorem sbrkStep_image (hi : Image s p g) {c : Sbrk} (hc : Grants p s c) : ∃ g', Image (sbrkStep p c s).st p g' := by
  obtain ⟨t, ht⟩ : ∃ t : Sys, t = { s with phys := { s.phys with freelist := c.free } } := ⟨_, rfl⟩
  have himg : Image t p g := by
    subst ht
    refine ⟨hi.dir, hi.bound, hi.pages, fun f hf => ?_⟩
    rcases Multiset.mem_add.1 hf with hf | hf
    · rcases Multiset.mem_add.1 hf with hf | hf
      · exact hc.1 f (Multiset.mem_coe.1 hf)
      · exact hi.good f (Multiset.mem_add.2 (.inl (Multiset.mem_add.2 (.inr hf))))
    · exact hi.good f (Multiset.mem_add.2 (.inr hf))
  have hmoves : Moves t p c.n := by
    subst ht
    exact hc.2
  obtain ⟨-, g', hg'⟩ := growproc_stays himg hmoves
  have hst : (sbrkStep p c s).st = (growproc p c.n t).st := by
    unfold sbrkStep
    rw [Prog.modify_bind_run, ← ht, Prog.bind_run]
    rcases growproc p c.n t with ⟨_ | _, u, l⟩ <;> rfl
  exact ⟨g', hst ▸ hg'⟩

/-- What `argint`, `argptr` and `fetchstr` accept of a process of the size `sz`. -/
def fetchint (sz addr : Addr) : Bool := !(decide (sz ≤ addr) || decide (sz < addr + 4#32))
def argptr (sz i size : Word) : Bool := !(size.slt 0 || decide (sz ≤ i) || decide (sz < i + size))
def fetchstr (sz addr : Addr) : Bool := !decide (sz ≤ addr)

theorem fetchint_bound {sz addr : Addr} (hsz : sz.toNat < 2147483648) (h : fetchint sz addr = true) {k : Nat} (hk : k < 4) :
    addr + BitVec.ofNat 32 k < sz := by
  unfold fetchint at h
  simp only [Bool.not_eq_true', Bool.or_eq_false_iff, decide_eq_false_iff_not, BitVec.not_le, BitVec.not_lt] at h
  obtain ⟨h1, h2⟩ := h
  rw [BitVec.lt_def] at h1 ⊢
  rw [BitVec.le_def, BitVec.toNat_add] at h2
  rw [BitVec.toNat_add]
  simp only [BitVec.toNat_ofNat] at h2 ⊢
  omega

theorem argptr_bound {sz i size : Addr} (hsz : sz.toNat < 2147483648) (h : argptr sz i size = true) {k : Nat}
    (hk : k < size.toNat) : i + BitVec.ofNat 32 k < sz := by
  unfold argptr at h
  simp only [Bool.not_eq_true', Bool.or_eq_false_iff, decide_eq_false_iff_not, BitVec.not_le, BitVec.not_lt] at h
  obtain ⟨⟨h0, h1⟩, h2⟩ := h
  have h0' : ¬ size.toInt < 0 := fun hn => by rw [slt_zero.2 hn] at h0; cases h0
  rw [BitVec.toInt_eq_toNat_cond] at h0'
  rw [BitVec.lt_def] at h1 ⊢
  rw [BitVec.le_def, BitVec.toNat_add] at h2
  rw [BitVec.toNat_add]
  simp only [BitVec.toNat_ofNat] at h2 ⊢
  have := size.isLt
  split at h0' <;> omega

def Space.Below (g : Space) (sz : Addr) : Prop := ∀ va : Addr, va < sz → g.mapped (pageNum va) = true

theorem Image.below (hi : Image s p g) : g.Below (s.sz p) := by
  intro va hva
  have hb : (s.sz p).toNat < 2147483648 := hi.bound
  have hv : va.toNat < (s.sz p).toNat := hva
  have hn := pageNum_toNat va
  exact (hi.pages _ (by omega)).1 (by omega)

/-- The reasons for which `copyuvm` stops with all its pages there. -/
def notMissing (e : Stop) : Prop :=
  e ≠ .panic "copyuvm: pte should exist" ∧ e ≠ .panic "copyuvm: page not present"

theorem copyuvmLoop_stops {sz : Addr} (hb : g.Below sz) : ∀ (n : Nat) (d : Space) (i : Addr),
    Stops notMissing (copyuvmLoop n g d i sz) := by
  have hd : notMissing .diverge := by unfold notMissing; decide
  have hr : notMissing (.panic "remap") := by unfold notMissing; decide
  have hp : notMissing (.panic "kfree") := by unfold notMissing; decide
  intro n
  induction n with
  | zero => exact fun d i => Stops.stop hd
  | succ n ih =>
    intro d i
    refine Stops.ite (fun hlt s => ?_) fun _ => Stops.pure _
    have hm := hb i hlt
    rw [mapped_pageNum, Bool.and_eq_true] at hm
    rw [Prog.wp_bind, walkpgdir_wp, hm.1]
    refine Prog.wp_ite (fun _ => Stops.bind kalloc_stops (fun o => ?_) s) fun hn => absurd (of_decide_eq_true hm.2) hn
    cases o with
    | none => exact Stops.bind (freevm_stops hd hp d) fun _ => Stops.pure none
    | some mem =>
      refine Stops.bind (Stops.modify _) fun _ => Stops.bind (mappages_stops hd hr d i pgsize _ _) fun r => ?_
      exact Stops.ite (fun _ => ih r.2 _) fun _ => Stops.bind (kfree_stops hp mem) fun _ =>
        Stops.bind (freevm_stops hd hp r.2) fun _ => Stops.pure none

theorem copyuvm_stops {sz : Addr} (hb : g.Below sz) : Stops notMissing (copyuvm g sz) := by
  have hd : notMissing .diverge := by unfold notMissing; decide
  have hr : notMissing (.panic "remap") := by unfold notMissing; decide
  have hp : notMissing (.panic "kfree") := by unfold notMissing; decide
  refine Stops.bind (setupkvm_stops hd hr hp) fun o => ?_
  cases o with
  | none => exact Stops.pure none
  | some d => exact copyuvmLoop_stops hb maxPages d 0

/-- **The size and the pages.**  `growproc` of an image is in step exactly when the size stays above zero and no mapped
page stands where the heap is to grow; and in every state of a run of such calls, whatever pages the allocator has, every
page below the size is there, `copyuvm` misses none, and the system calls find every byte of the arguments they accept. -/
theorem growproc_spec {s : Sys} {p : Fin nproc} {g : Space} (hi : Image s p g) :
    (∀ n, InStep p n s (growproc p n s) ↔ Moves s p n) ∧
    ∀ calls, Prog.Admits (Grants p) (sbrkStep p) calls s →
      ∃ g', (sbrkRun p calls s).st.pgdir p = some g' ∧ g'.Below ((sbrkRun p calls s).st.sz p) ∧
        Stops notMissing (copyuvm g' ((sbrkRun p calls s).st.sz p)) ∧
        (∀ addr, fetchint ((sbrkRun p calls s).st.sz p) addr = true →
          ∀ k : Nat, k < 4 → g'.mapped (pageNum (addr + BitVec.ofNat 32 k)) = true) ∧
        (∀ i size, argptr ((sbrkRun p calls s).st.sz p) i size = true →
          ∀ k : Nat, k < size.toNat → g'.mapped (pageNum (i + BitVec.ofNat 32 k)) = true) ∧
        ∀ addr, fetchstr ((sbrkRun p calls s).st.sz p) addr = true →
          ∀ va, addr ≤ va → va < (sbrkRun p calls s).st.sz p → g'.mapped (pageNum va) = true := by
  refine ⟨fun n => growproc_inStep hi, fun calls hc => ?_⟩
  have hrun := Prog.forEach_admits (I := fun s => ∃ g', Image s p g') (R := fun _ => True)
    (fun c s h hc => ⟨fun _ _ => trivial, h.elim fun g hg => sbrkStep_image hg hc⟩) calls s ⟨g, hi⟩ hc
  obtain ⟨-, g', hg'⟩ := hrun
  have hbound : ((sbrkRun p calls s).st.sz p).toNat < 2147483648 := hg'.bound
  have hbelow : g'.Below ((sbrkRun p calls s).st.sz p) := hg'.below
  generalize (sbrkRun p calls s).st.sz p = sz at hbound hbelow ⊢
  refine ⟨g', hg'.dir, hbelow, copyuvm_stops hbelow, fun addr ha k hk => ?_, fun i size ha k hk => ?_, ?_⟩
  · exact hbelow _ (fetchint_bound hbound ha hk)
  · exact hbelow _ (argptr_bound hbound ha hk)
  · exact fun addr _ va _ hva => hbelow va hva

def onePageSpace : Space where
  dir := 2000#20
  pde := fun d => if d = 0 then some 2001#20 else none
  pte := fun n => if n = 0 then mapPte 2002#20 (pteW ||| pteU) else 0

def onePageSys : Sys :=
  { boot ⟨fun _ => zeroPage, [2003#20], 1, 0x80100000#32, 0x80100000#32⟩ (fun _ => ⟨.none, 0, false, false, 0⟩) with
    pgdir := fun p => if p = 0 then some onePageSpace else none
    sz := fun p => if p = 0 then 4096#32 else 0 }

theorem onePage_mapped (n : Frame) : onePageSpace.mapped n = true ↔ n = 0 := by
  rw [mapped_iff]
  constructor
  · rintro ⟨-, hp⟩
    by_contra hn
    have hpte : onePageSpace.pte n = 0 := if_neg hn
    rw [hpte] at hp
    exact not_present_zero hp
  · rintro rfl
    exact ⟨by decide, by decide⟩

theorem onePage_image : Image onePageSys 0 onePageSpace where
  dir := rfl
  bound := by decide
  pages := by
    intro n hn
    have hsz : (onePageSys.sz 0).toNat = 4096 := rfl
    have h0 : n = 0 ↔ n.toNat = 0 := by rw [← BitVec.toNat_inj]; rfl
    rw [hsz]
    refine ⟨fun h => (onePage_mapped n).2 (h0.2 (by omega)), fun h _ => ?_⟩
    cases hm : onePageSpace.mapped n with
    | false => rfl
    | true =>
      rw [onePage_mapped, h0] at hm
      omega
  good := by
    intro f hf
    unfold owned at hf
    rcases Multiset.mem_add.1 hf with hf | hf
    · rcases Multiset.mem_add.1 hf with hf | hf
      · rw [List.mem_singleton.1 (Multiset.mem_coe.1 hf)]
        exact ⟨by decide, by decide⟩
      · obtain ⟨d, hd⟩ := mem_held.1 hf
        by_cases h0 : d = 0
        · obtain rfl : 2001#20 = f := by
            rw [h0] at hd
            exact Option.some.inj hd
          exact ⟨by decide, by decide⟩
        · have hnone : onePageSpace.pde d = none := if_neg h0
          rw [hnone] at hd
          cases hd
    · obtain ⟨n, hn⟩ := mem_held.1 hf
      cases hm : onePageSpace.mapped n with
      | false =>
        rw [hm] at hn
        simp at hn
      | true =>
        rw [hm, (onePage_mapped n).1 hm] at hn
        obtain rfl : onePageSpace.frame 0 = f := by simpa using hn
        exact ⟨by decide, by decide⟩

/-- It may grow by a page, and is in step. -/
theorem onePage_grows : InStep 0 4096#32 onePageSys (growproc 0 4096#32 onePageSys) := by
  refine ((growproc_spec onePage_image).1 4096#32).2 ⟨fun h => absurd h (by decide), ?_⟩
  intro _ _ g hg m hm
  obtain rfl : onePageSpace = g := Option.some.inj hg
  cases hmm : onePageSpace.mapped m with
  | false => rfl
  | true =>
    rw [(onePage_mapped m).1 hmm] at hm
    exact absurd hm.1 (by decide)

/-- It gives up its page for the size 0: `growproc` returns -1, the size is as it was, and the page is gone. -/
theorem onePage_vanishes : (growproc 0 (-4096#32) onePageSys).res.toOption = some (-1) ∧
    (growproc 0 (-4096#32) onePageSys).st.sz 0 = 4096#32 ∧
    ((growproc 0 (-4096#32) onePageSys).st.pgdir 0).map (·.mapped 0) = some false := by
  decide +kernel

end Vm
end Xv6
