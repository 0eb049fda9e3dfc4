import Xv6.Vm.Space
import Xv6.Lib.Wp
import Xv6.Lib.Held
/-!
# Vm.Pages — the pages and the frames of an address space

What the functions on page tables do to the pages of a `Space` and to the frames it holds.  A frame of the free list goes
into a page table or a user page and back; `owned` is what these hold together, which no function changes.
-/
namespace Xv6
namespace Vm

open Mem
open Prog (wp)

/-- The frames of the pages below `KERNBASE`, and of the page tables. -/
def Space.pages (g : Space) : Multiset Frame :=
  held (fun n : Frame => if decide (n.toNat < 524288) && g.mapped n then some (g.frame n) else none)

def Space.tables (g : Space) : Multiset Frame := held g.pde

def owned (g : Space) (s : Phys) : Multiset Frame := s.freelist + g.tables + g.pages

/-- A frame that `kfree` takes, and `deallocuvm` too. -/
def Phys.good (s : Phys) (f : Frame) : Prop := s.kfrees f = true ∧ f ≠ 0

/-- The page `n` is in the range. -/
def within (lo hi : Nat) (n : Frame) : Prop := lo ≤ n.toNat * 4096 ∧ n.toNat * 4096 < hi

variable {g g' : Space} {s t : Phys} {n : Frame} {va : Addr}

theorem dirIx_toNat (n : Frame) : (dirIx n).toNat = n.toNat / 1024 := by
  unfold dirIx
  rw [BitVec.extractLsb'_toNat, Nat.shiftRight_eq_div_pow]
  have := n.isLt
  omega

theorem mapped_iff : g.mapped n = true ↔ (g.pde (dirIx n)).isSome = true ∧ present (g.pte n) := by
  unfold Space.mapped
  rw [Bool.and_eq_true, decide_eq_true_eq]

theorem pteAddr_eq_zero {e : Pte} (h : pteAddr e = 0) : pteFrame e = 0 := by
  unfold pteFrame
  rw [h]
  rfl

/-! ## Entries -/

section Entries

variable {d : BitVec 10} {f : Frame} {e : Pte}

theorem mapped_setPde (hd : g.pde d = none) (m : Frame) : (g.setPde d f).mapped m = g.mapped m := by
  unfold Space.mapped Space.setPde
  dsimp only
  by_cases hm : dirIx m = d
  · have hz : ¬ present 0#32 := not_present_zero
    simp [hm, hd, hz]
  · simp [hm]

theorem pte_setPde (hd : g.pde d = none) {m : Frame} (hm : g.mapped m = true) : (g.setPde d f).pte m = g.pte m := by
  refine if_neg fun he => ?_
  rw [mapped_iff, he, hd] at hm
  cases hm.1

theorem pages_setPde (hd : g.pde d = none) : (g.setPde d f).pages = g.pages := by
  unfold Space.pages
  congr 1
  funext m
  rw [mapped_setPde hd]
  cases hm : g.mapped m with
  | false => simp
  | true =>
    unfold Space.frame
    rw [pte_setPde hd hm]

theorem tables_setPde (hd : g.pde d = none) : (g.setPde d f).tables = f ::ₘ g.tables :=
  held_fill hd (if_pos rfl) fun _ hx => if_neg hx

theorem mapped_setPte (m : Frame) : (g.setPte n e).mapped m =
    if m = n then (g.pde (dirIx n)).isSome && decide (present e) else g.mapped m := by
  unfold Space.mapped Space.setPte
  by_cases hm : m = n
  · simp [hm]
  · simp [hm]

theorem pte_setPte {m : Frame} (hm : m ≠ n) : (g.setPte n e).pte m = g.pte m := if_neg hm

theorem pages_setPte (hu : n.toNat < 524288) (hd : (g.pde (dirIx n)).isSome = true) (he : present e)
    (hn : g.mapped n = false) : (g.setPte n e).pages = pteFrame e ::ₘ g.pages := by
  refine held_fill (a := n) ?_ ?_ fun m hm => ?_
  · simp [hn]
  · have hframe : (g.setPte n e).frame n = pteFrame e := congrArg pteFrame (if_pos rfl)
    rw [mapped_setPte, if_pos rfl, hd, hframe]
    simp [hu, he]
  · unfold Space.frame
    rw [mapped_setPte, if_neg hm, pte_setPte hm]

theorem pages_setPte_kernel (hu : 524288 ≤ n.toNat) : (g.setPte n e).pages = g.pages := by
  unfold Space.pages
  congr 1
  funext m
  by_cases hm : m = n
  · simp [hm, Nat.not_lt.2 hu]
  · unfold Space.frame
    rw [mapped_setPte, if_neg hm, pte_setPte hm]

theorem pages_clear (hu : n.toNat < 524288) (hn : g.mapped n = true) :
    g.pages = g.frame n ::ₘ (g.setPte n 0).pages := by
  refine held_clear (a := n) ?_ ?_ fun m hm => ?_
  · simp [hn, hu]
  · have hz : ¬ present 0#32 := not_present_zero
    rw [mapped_setPte, if_pos rfl]
    simp [hz]
  · unfold Space.frame
    rw [mapped_setPte, if_neg hm, pte_setPte hm]

end Entries

/-! ## Pages added, pages taken away -/

/-- The pages of `N` have been added. -/
structure Grown (g : Space) (s : Phys) (N : Frame → Prop) (g' : Space) (t : Phys) : Prop where
  mapped : ∀ m, g'.mapped m = true ↔ g.mapped m = true ∨ N m
  pte    : ∀ m, g.mapped m = true → g'.pte m = g.pte m
  fresh  : ∀ m, N m → g.mapped m = false
  owned  : owned g' t = owned g s
  dir    : g'.dir = g.dir
  kend   : t.kend = s.kend
  free   : t.freelist ⊆ s.freelist

/-- The pages of `N` that were there have been taken away. -/
structure Shrunk (g : Space) (s : Phys) (N : Frame → Prop) (g' : Space) (t : Phys) : Prop where
  mapped : ∀ m, g'.mapped m = true ↔ g.mapped m = true ∧ ¬ N m
  pte    : ∀ m, g'.mapped m = true → g'.pte m = g.pte m
  owned  : owned g' t = owned g s
  dir    : g'.dir = g.dir
  kend   : t.kend = s.kend

theorem Grown.refl (g : Space) (s : Phys) : Grown g s (fun _ => False) g s where
  mapped m := by simp
  pte _ _  := rfl
  fresh _  := False.elim
  owned    := rfl
  dir      := rfl
  kend     := rfl
  free     := List.Subset.refl _

theorem Grown.congr {N N' : Frame → Prop} (h : Grown g s N g' t) (hN : ∀ m, N m ↔ N' m) : Grown g s N' g' t := by
  rwa [show N' = N from funext fun m => propext (hN m).symm]

theorem Grown.trans {g'' : Space} {u : Phys} {N N' : Frame → Prop} (h : Grown g s N g' t) (h' : Grown g' t N' g'' u) :
    Grown g s (fun m => N m ∨ N' m) g'' u where
  mapped m   := by rw [h'.mapped, h.mapped, or_assoc]
  pte m hm   := (h'.pte m ((h.mapped m).2 (.inl hm))).trans (h.pte m hm)
  fresh m hm := by
    rcases hm with hm | hm
    · exact h.fresh m hm
    · have hf := h'.fresh m hm
      cases hg : g.mapped m with
      | false => rfl
      | true => rw [(h.mapped m).2 (.inl hg)] at hf; cases hf
  owned := h'.owned.trans h.owned
  dir   := h'.dir.trans h.dir
  kend  := h'.kend.trans h.kend
  free  := List.Subset.trans h'.free h.free

theorem Shrunk.refl (hN : ∀ m, g.mapped m = true → ¬ N m) : Shrunk g s N g s where
  mapped m := ⟨fun h => ⟨h, hN m h⟩, And.left⟩
  pte _ _  := rfl
  owned    := rfl
  dir      := rfl
  kend     := rfl

theorem Shrunk.trans {g'' : Space} {u : Phys} {N N' : Frame → Prop} (h : Shrunk g s N g' t) (h' : Shrunk g' t N' g'' u) :
    Shrunk g s (fun m => N m ∨ N' m) g'' u where
  mapped m := by rw [h'.mapped, h.mapped, not_or, and_assoc]
  pte m hm := (h'.pte m hm).trans (h.pte m ((h'.mapped m).1 hm).1)
  owned    := h'.owned.trans h.owned
  dir      := h'.dir.trans h.dir
  kend     := h'.kend.trans h.kend

theorem Shrunk.congr {N N' : Frame → Prop} (h : Shrunk g s N g' t)
    (hN : ∀ m, g.mapped m = true → (N m ↔ N' m)) : Shrunk g s N' g' t :=
  { h with mapped := fun m => (h.mapped m).trans (and_congr_right fun hm => not_congr (hN m hm)) }

/-! ## The functions -/

section Functions

variable {α : Type} {E : Stop → Prop}

theorem kalloc_wp {Q : Option Frame → Phys → Prop}
    (hn : s.freelist = [] → ∀ t, t.freelist = [] → t.kend = s.kend → Q none t)
    (hs : ∀ f t, s.freelist = f :: t.freelist → t.kend = s.kend → Q (some f) t) : wp kalloc Q E s := by
  unfold kalloc
  rw [Prog.wp_bind, Prog.wp_read]
  cases hl : s.freelist with
  | nil => exact hn hl _ hl rfl
  | cons f l => exact hs f _ hl rfl

theorem kfree_wp {f : Frame} {Q : Unit → Phys → Prop}
    (hok : s.kfrees f = true → ∀ t, t.freelist = f :: s.freelist → t.kend = s.kend → Q () t)
    (he : s.kfrees f = false → E (.panic "kfree")) : wp (kfree f) Q E s := by
  cases hk : s.kfrees f with
  | true =>
    refine Prog.wp_of_run ((kfree_run f s).trans (if_pos hk)) ?_
    exact hok hk _ rfl rfl
  | false =>
    exact Prog.wp_of_stop ((kfree_run f s).trans (if_neg (ne_true_of_eq_false hk))) (he hk)

theorem memset_wp {f : Frame} {b : BitVec 8} {Q : Unit → Phys → Prop} :
    wp (memset f b) Q E s ↔ Q () (s.setPage f fun _ => b) := Iff.rfl

theorem walkpgdir_wp {Q : Option Frame → Phys → Prop} :
    wp (walkpgdir g va) Q E s ↔ Q (if g.hasTable va then some (pageNum va) else none) s := Iff.rfl

theorem walkpgdirAlloc_wp {Q : Option Space → Phys → Prop}
    (hn : g.hasTable va = false → s.freelist = [] → ∀ t, t.freelist = [] → t.kend = s.kend → Q none t)
    (hs : ∀ g' t, Grown g s (fun _ => False) g' t → g'.hasTable va = true → Q (some g') t) :
    wp (walkpgdirAlloc g va) Q E s := by
  unfold walkpgdirAlloc
  rw [Prog.wp_bind, Prog.wp_emit]
  refine Prog.wp_ite (fun ht => hs g s (.refl g s) ht) fun ht => ?_
  have hd : g.pde (pdx va) = none := by
    unfold Space.hasTable at ht
    cases hd : g.pde (pdx va) with
    | none => rfl
    | some _ => rw [hd] at ht; exact absurd rfl ht
  rw [Prog.wp_bind]
  refine kalloc_wp (fun hl t htl hk => hn (Bool.eq_false_iff.2 ht) hl t htl hk) fun f t hl hk => ?_
  show wp (do memset f 0; pure (some (g.setPde (pdx va) f)) : V (Option Space)) Q E t
  rw [Prog.wp_bind]
  refine hs _ _ ⟨fun m => ?_, fun m hm => pte_setPde hd hm, fun _ => False.elim, ?_, rfl, hk, ?_⟩ ?_
  · rw [mapped_setPde hd]
    simp
  · show (t.freelist : Multiset Frame) + _ + _ = s.freelist + _ + _
    rw [tables_setPde hd, pages_setPde hd, hl, ← Multiset.cons_coe]
    simp only [Multiset.add_cons, Multiset.cons_add]
  · show t.freelist ⊆ s.freelist
    rw [hl]
    exact List.subset_cons_self f _
  · show (if pdx va = pdx va then some f else g.pde (pdx va)).isSome = true
    rw [if_pos rfl]
    rfl

theorem mappages_wp {pa : Addr} {perm : Pte} {Q : Bool × Space → Phys → Prop} (ha : pgRoundDown va = va)
    (hfail : g.hasTable va = false → s.freelist = [] → ∀ t, t.freelist = [] → t.kend = s.kend → Q (false, g) t)
    (hremap : g.mapped (pageNum va) = true → E (.panic "remap"))
    (hok : ∀ g' t, Grown g s (fun _ => False) g' t → g'.hasTable va = true → g'.mapped (pageNum va) = false →
      Q (true, g'.setPte (pageNum va) (pa ||| perm ||| pteP)) t) : wp (mappages g va pgsize pa perm) Q E s := by
  obtain ⟨k, hk⟩ : ∃ k, maxPages = k + 1 := ⟨maxPages - 1, by unfold maxPages; omega⟩
  unfold mappages
  rw [pgRoundDown_last ha, ha, hk]
  unfold mappagesLoop
  rw [Prog.wp_bind]
  refine walkpgdirAlloc_wp hfail fun g' t hg ht => ?_
  have hm := mapped_pageNum g' va
  rw [ht, Bool.true_and] at hm
  dsimp only
  refine Prog.wp_ite (fun hp => ?_) fun hp => ?_
  · rw [Prog.wp_stop]
    refine hremap (((hg.mapped _).1 ?_).resolve_right id)
    rw [hm]
    exact decide_eq_true hp
  · rw [if_pos rfl, Prog.wp_pure]
    exact hok g' t hg ht (hm.trans (decide_eq_false hp))

theorem Grown.page {u : Phys} {f : Frame} {e : Pte} (h : Grown g u (fun _ => False) g' t)
    (hs : s.freelist = f :: u.freelist) (hk : u.kend = s.kend) (hn : n.toNat < 524288)
    (hd : (g'.pde (dirIx n)).isSome = true) (hm : g'.mapped n = false) (he : present e) (hf : pteFrame e = f) :
    Grown g s (fun m => m = n) (g'.setPte n e) t where
  mapped m := by
    rw [mapped_setPte]
    by_cases hmn : m = n
    · simp [hmn, hd, he]
    · simp [hmn, h.mapped]
  pte m hgm := by
    have hmn : m ≠ n := by
      rintro rfl
      rw [(h.mapped m).2 (.inl hgm)] at hm
      cases hm
    exact (pte_setPte hmn).trans (h.pte m hgm)
  fresh m hmn := by
    cases hg : g.mapped m with
    | false => rfl
    | true =>
      rw [hmn] at hg
      rw [(h.mapped n).2 (.inl hg)] at hm
      cases hm
  owned := by
    have ho := h.owned
    unfold Vm.owned at ho ⊢
    show _ + g'.tables + _ = _
    rw [pages_setPte hn hd he hm, hf, Multiset.add_cons, ho, hs, ← Multiset.cons_coe]
    simp only [Multiset.cons_add]
  dir := h.dir
  kend := h.kend.trans hk
  free := fun x hx => by
    rw [hs]
    exact List.mem_cons_of_mem f (h.free hx)

theorem Shrunk.page (hn : n.toNat < 524288) (hm : g.mapped n = true) (hl : t.freelist = g.frame n :: s.freelist)
    (hk : t.kend = s.kend) : Shrunk g s (fun m => m = n) (g.setPte n 0) t where
  mapped m := by
    have hz : ¬ present 0#32 := not_present_zero
    rw [mapped_setPte]
    by_cases hmn : m = n
    · simp [hmn, hz]
    · simp [hmn]
  pte m hgm := by
    refine pte_setPte fun hmn => ?_
    have hz : ¬ present 0#32 := not_present_zero
    rw [hmn, mapped_setPte, if_pos rfl] at hgm
    simp [hz] at hgm
  owned := by
    show (t.freelist : Multiset Frame) + g.tables + _ = s.freelist + g.tables + _
    rw [pages_clear hn hm, hl, ← Multiset.cons_coe]
    simp only [Multiset.cons_add, Multiset.add_cons]
  dir := rfl
  kend := hk

end Functions

/-! ## Stops -/

section Stops

open Prog (Stops)

variable {E : Stop → Prop}

theorem kalloc_stops : Stops E kalloc := fun _ => kalloc_wp (fun _ _ _ _ => trivial) (fun _ _ _ _ => trivial)

theorem kallocPage_stops (hw : E .wild) : Stops E kallocPage := by
  refine Stops.bind kalloc_stops fun o => ?_
  cases o with
  | none => exact Stops.stop hw
  | some f => exact Stops.pure f

theorem kfree_stops (hp : E (.panic "kfree")) (f : Frame) : Stops E (kfree f) :=
  fun _ => kfree_wp (fun _ _ _ _ => trivial) (fun _ => hp)

theorem memset_stops (f : Frame) (b : BitVec 8) : Stops E (memset f b) := Stops.modify _

theorem walkpgdir_stops (g : Space) (va : Addr) : Stops E (walkpgdir g va) :=
  Stops.bind (Stops.emit _) fun _ => Stops.pure _

theorem walkpgdirAlloc_stops (g : Space) (va : Addr) : Stops E (walkpgdirAlloc g va) :=
  fun _ => walkpgdirAlloc_wp (fun _ _ _ _ _ => trivial) (fun _ _ _ _ => trivial)

theorem mappages_stops (hd : E .diverge) (hr : E (.panic "remap")) (g : Space) (va size pa : Addr) (perm : Pte) :
    Stops E (mappages g va size pa perm) := by
  unfold mappages
  generalize maxPages = n
  generalize pgRoundDown va = a
  induction n generalizing g a pa with
  | zero => exact Stops.stop hd
  | succ n ih =>
    refine Stops.bind (walkpgdirAlloc_stops g a) fun o => ?_
    cases o with
    | none => exact Stops.pure _
    | some g => exact Stops.ite (fun _ => Stops.stop hr) fun _ => Stops.ite (fun _ => Stops.pure _) fun _ => ih _ _ _

theorem deallocuvm_stops (hd : E .diverge) (hp : E (.panic "kfree")) (g : Space) (oldsz newsz : Addr) :
    Stops E (deallocuvm g oldsz newsz) := by
  refine Stops.ite (fun _ => Stops.pure _) fun _ => Stops.bind ?_ fun _ => Stops.pure _
  generalize maxPages = n
  generalize pgRoundUp newsz = a
  induction n generalizing g a with
  | zero => exact Stops.stop hd
  | succ n ih =>
    refine Stops.ite (fun _ => Stops.bind (walkpgdir_stops g a) fun o => ?_) fun _ => Stops.pure _
    cases o with
    | none => exact ih _ _
    | some q =>
      exact Stops.ite (fun _ => Stops.ite (fun _ => Stops.stop hp) fun _ =>
        Stops.bind (kfree_stops hp _) fun _ => ih _ _) fun _ => ih _ _

theorem freevm_stops (hd : E .diverge) (hp : E (.panic "kfree")) (g : Space) : Stops E (freevm g) := by
  unfold freevm
  generalize pdes = l
  refine Stops.bind (deallocuvm_stops hd hp g _ _) ?_
  rintro ⟨-, g'⟩
  refine Stops.bind (Stops.forEach l fun i _ => ?_) fun _ => kfree_stops hp _
  cases g'.pde i with
  | none => exact Stops.pure ()
  | some t => exact kfree_stops hp t

theorem mapKernel_stops (hd : E .diverge) (hr : E (.panic "remap")) (l : List (Addr × Addr × Addr × Pte)) :
    ∀ g : Space, Stops E (mapKernel g l) := by
  induction l with
  | nil => exact fun g => Stops.pure _
  | cons k l ih =>
    intro g
    exact Stops.bind (mappages_stops hd hr g _ _ _ _) fun r => Stops.ite (fun _ => ih r.2) fun _ => Stops.pure _

theorem setupkvm_stops (hd : E .diverge) (hr : E (.panic "remap")) (hp : E (.panic "kfree")) : Stops E setupkvm := by
  refine Stops.bind kalloc_stops fun o => ?_
  cases o with
  | none => exact Stops.pure none
  | some d =>
    exact Stops.bind (memset_stops d 0) fun _ => Stops.bind (Stops.read _) fun kdata =>
      Stops.bind (mapKernel_stops hd hr _ _) fun r => Stops.ite (fun _ => Stops.pure _) fun _ =>
        Stops.bind (freevm_stops hd hp r.2) fun _ => Stops.pure none

end Stops

end Vm
end Xv6
