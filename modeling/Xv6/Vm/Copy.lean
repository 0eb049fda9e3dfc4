import Xv6.Vm.Pages
import Xv6.Vm.Frame
/-!
# Vm.Copy — the pages of a copied address space

`setupkvm` maps pages from `KERNBASE` on, and `copyuvm` those below the size as well.  No function changes the symbols
of the linker.
-/
namespace Xv6
namespace Vm

open Mem
open Prog (wp Quiet)

variable {g : Space} {s : Phys} {R : Frame → Prop}

/-- The kernel's data starts behind its first page, and below `PHYSTOP`. -/
def Phys.Linked (k : Phys) : Prop := kernlink < k.kdata ∧ k.kdata < kernbase + phystop

instance (k : Phys) : Decidable k.Linked := inferInstanceAs (Decidable (_ ∧ _))

/-- The pages that `g'` has and `g` has not are in `R`. -/
def Extends (R : Frame → Prop) (g g' : Space) : Prop := ∀ m, g'.mapped m = true → g.mapped m = true ∨ R m

theorem Extends.refl (g : Space) : Extends R g g := fun _ hm => .inl hm

theorem Extends.trans {g' g'' : Space} (h : Extends R g g') (h' : Extends R g' g'') : Extends R g g'' :=
  fun m hm => (h' m hm).elim (h m) .inr

/-! ## mappages -/

theorem mappagesLoop_pages {last : Addr} (hl : last.toNat % 4096 = 0) : ∀ (n : Nat) (g : Space) (a pa : Addr)
    (perm : Pte) (s : Phys), a.toNat % 4096 = 0 → a.toNat ≤ last.toNat →
    (∀ m : Frame, a.toNat ≤ m.toNat * 4096 → m.toNat * 4096 ≤ last.toNat → R m) →
    wp (mappagesLoop n g a last pa perm) (fun r _ => Extends R g r.2) (fun _ => True) s := by
  intro n
  induction n with
  | zero => exact fun _ _ _ _ _ _ _ _ => trivial
  | succ n ih =>
    intro g a pa perm s ha0 ha hR
    have hnum := pageNum_toNat a
    unfold mappagesLoop
    rw [Prog.wp_bind]
    refine walkpgdirAlloc_wp (fun _ _ _ _ _ => Extends.refl g) fun g' t hg' _ => ?_
    refine Prog.wp_ite (fun _ => trivial) fun _ => ?_
    have hpage : Extends R g (g'.setPte (pageNum a) (pa ||| perm ||| pteP)) := by
      intro m hm
      rw [mapped_setPte] at hm
      by_cases hma : m = pageNum a
      · exact .inr (hR m (by rw [hma]; omega) (by rw [hma]; omega))
      · rw [if_neg hma] at hm
        exact ((hg'.mapped m).1 hm).imp_right False.elim
    refine Prog.wp_ite (fun _ => hpage) fun hne => ?_
    have hlt : a.toNat ≠ last.toNat := fun he => hne (BitVec.eq_of_toNat_eq he)
    have hlast := last.isLt
    have hnext : (a + pgsize).toNat = a.toNat + 4096 := toNat_nextPage (by omega)
    refine (ih _ (a + pgsize) _ _ _ (by omega) (by omega) fun m hlo hhi => hR m (by omega) hhi).imp fun r _ hr => ?_
    exact hpage.trans hr

theorem mappages_pages {va size pa : Addr} {perm : Pte} (hpos : 0 < size.toNat)
    (hend : va.toNat + size.toNat ≤ 4294967296)
    (hR : ∀ m : Frame, va.toNat / 4096 ≤ m.toNat → m.toNat * 4096 < va.toNat + size.toNat → R m) :
    wp (mappages g va size pa perm) (fun r _ => Extends R g r.2) (fun _ => True) s := by
  have hlast : (va + size - 1#32).toNat = va.toNat + size.toNat - 1 := toNat_last hpos hend
  have hlo := toNat_pgRoundDown va
  have hhi := toNat_pgRoundDown (va + size - 1#32)
  unfold mappages
  refine mappagesLoop_pages (by omega) maxPages g _ pa perm s (by omega) (by omega) fun m h1 h2 => hR m ?_ ?_
  · omega
  · omega

/-! ## setupkvm -/

/-- The pages from `KERNBASE` on. -/
def kernelPage (m : Frame) : Prop := 524288 ≤ m.toNat

theorem mapKernel_pages : ∀ (l : List (Addr × Addr × Addr × Pte)) (g : Space) (s : Phys),
    (∀ e ∈ l, kernbase ≤ e.1 ∧ 0 < (e.2.2.1 - e.2.1).toNat ∧ e.1.toNat + (e.2.2.1 - e.2.1).toNat ≤ 4294967296) →
    wp (mapKernel g l) (fun r _ => Extends kernelPage g r.2) (fun _ => True) s
  | [], g, s, _ => Extends.refl g
  | (virt, physStart, physEnd, perm) :: l, g, s, hl => by
    obtain ⟨hk, hpos, hend⟩ := hl _ List.mem_cons_self
    have hk' : 2147483648 ≤ virt.toNat := hk
    unfold mapKernel
    rw [Prog.wp_bind]
    refine (mappages_pages (R := kernelPage) hpos hend fun m hm _ => ?_).imp fun r t hr => ?_
    · unfold kernelPage
      dsimp only at hm
      omega
    · refine Prog.wp_ite (fun _ => ?_) fun _ => hr
      exact (mapKernel_pages l r.2 t fun e he => hl e (List.mem_cons_of_mem _ he)).imp fun r' _ hr' => hr.trans hr'

theorem kmap_sizes {kdata : Addr} (h : kernlink < kdata ∧ kdata < kernbase + phystop) :
    (kdata - kernbase - (kernlink - kernbase)).toNat = kdata.toNat - 2148532224 ∧
      (phystop - (kdata - kernbase)).toNat = 2382364672 - kdata.toNat := by
  have hlo : 2148532224 < kdata.toNat := h.1
  have hhi : kdata.toNat < 2382364672 := h.2
  have hbase : (kdata - kernbase).toNat = kdata.toNat - 2147483648 := by
    simp only [BitVec.toNat_sub, kernbase, BitVec.toNat_ofNat]
    omega
  constructor
  · rw [BitVec.toNat_sub, hbase, show (kernlink - kernbase).toNat = 1048576 from rfl]
    omega
  · rw [BitVec.toNat_sub, hbase, show phystop.toNat = 234881024 from rfl]
    omega

theorem kmap_ranges {kdata : Addr} (h : kernlink < kdata ∧ kdata < kernbase + phystop) : ∀ e ∈ kmap kdata,
    kernbase ≤ e.1 ∧ 0 < (e.2.2.1 - e.2.1).toNat ∧ e.1.toNat + (e.2.2.1 - e.2.1).toNat ≤ 4294967296 := by
  have hlo : 2148532224 < kdata.toNat := h.1
  have hhi : kdata.toNat < 2382364672 := h.2
  obtain ⟨hcode, hdata⟩ := kmap_sizes h
  unfold kmap
  simp only [List.forall_mem_cons, List.not_mem_nil, false_imp_iff, implies_true, and_true, hcode, hdata]
  refine ⟨by decide, ⟨by decide, by omega, ?_⟩, ⟨?_, by omega, by omega⟩, by decide⟩
  · rw [show kernlink.toNat = 2148532224 from rfl]
    omega
  · rw [BitVec.le_def, show kernbase.toNat = 2147483648 from rfl]
    omega

/-! ## The symbols -/

section Symbols

abbrev Plain {α : Type} (c : V α) : Prop := Only (fun _ => True) c

theorem deallocuvm_plain (g : Space) (oldsz newsz : Addr) : Plain (deallocuvm g oldsz newsz) := by
  refine Quiet.ite (fun _ => Quiet.pure _) (fun _ => Quiet.bind ?_ (fun _ => Quiet.pure _))
  generalize maxPages = n
  generalize pgRoundUp newsz = a
  induction n generalizing g a with
  | zero => exact Quiet.stop _
  | succ n ih =>
    refine Quiet.ite (fun _ => Quiet.bind (walkpgdir_only trivial) (fun o => ?_)) (fun _ => Quiet.pure _)
    cases o with
    | none => exact ih _ _
    | some q =>
      exact Quiet.ite (fun _ => Quiet.ite (fun _ => Quiet.stop _) (fun _ => Quiet.bind (kfree_only trivial)
        (fun _ => ih _ _)))
        (fun _ => ih _ _)

theorem freevm_plain (g : Space) : Plain (freevm g) := by
  refine Quiet.bind (deallocuvm_plain g _ _) ?_
  rintro ⟨-, g'⟩
  refine Quiet.bind (Quiet.forEach pdes fun i _ => ?_) (fun _ => kfree_only trivial)
  cases g'.pde i with
  | none => exact Quiet.pure ()
  | some t => exact kfree_only trivial

theorem mapKernel_plain : ∀ (l : List (Addr × Addr × Addr × Pte)) (g : Space), Plain (mapKernel g l)
  | [], _     => Quiet.pure _
  | _ :: l, _ => Quiet.bind (mappages_walks fun _ => trivial) (fun r =>
      Quiet.ite (fun _ => mapKernel_plain l r.2) (fun _ => Quiet.pure _))

theorem setupkvm_plain : Plain setupkvm := by
  refine Quiet.bind kalloc_only (fun o => ?_)
  cases o with
  | none => exact Quiet.pure none
  | some d =>
    exact Quiet.bind (memset_only d 0) (fun _ => Quiet.bind (Quiet.read _) (fun kdata =>
      Quiet.bind (mapKernel_plain _ _) (fun r => Quiet.ite (fun _ => Quiet.pure _) (fun _ =>
        Quiet.bind (freevm_plain r.2) (fun _ => Quiet.pure none)))))

theorem copyuvm_plain (g : Space) (sz : Addr) : Plain (copyuvm g sz) := by
  refine Quiet.bind setupkvm_plain (fun o => ?_)
  cases o with
  | none => exact Quiet.pure none
  | some d =>
    generalize maxPages = n
    generalize (0 : Addr) = i
    induction n generalizing d i with
    | zero => exact Quiet.stop _
    | succ n ih =>
      refine Quiet.ite (fun _ => Quiet.bind (walkpgdir_only trivial) (fun o => ?_)) (fun _ => Quiet.pure _)
      cases o with
      | none => exact Quiet.stop _
      | some q =>
        refine Quiet.ite (fun _ => Quiet.bind kalloc_only (fun o => ?_)) (fun _ => Quiet.stop _)
        cases o with
        | none => exact Quiet.bind (freevm_plain d) (fun _ => Quiet.pure none)
        | some mem =>
          refine Quiet.bind (Quiet.modify fun _ => rfl) (fun _ => Quiet.bind (mappages_walks fun _ => trivial) (fun r => ?_))
          exact Quiet.ite (fun _ => ih r.2 _) (fun _ => Quiet.bind (kfree_only trivial) (fun _ =>
            Quiet.bind (freevm_plain r.2) (fun _ => Quiet.pure none)))

end Symbols

/-! ## New page directories -/

theorem setupkvm_pages (h : s.Linked) :
    wp setupkvm (fun o _ => ∀ d, o = some d → ∀ m, d.mapped m = true → kernelPage m) (fun _ => True) s := by
  unfold setupkvm
  rw [Prog.wp_bind]
  refine (Quiet.keeps (kalloc_only (R := fun _ => True)) s).imp fun o t ht => ?_
  cases o with
  | none => exact fun d hd => by cases hd
  | some pgdir =>
    have hkdata : t.kdata = s.kdata := congrArg Prod.snd ht
    dsimp only
    rw [Prog.wp_bind, memset_wp, Prog.wp_bind, Prog.wp_read, Prog.wp_bind]
    refine (mapKernel_pages (kmap t.kdata) _ _ (kmap_ranges (by rw [hkdata]; exact h))).imp fun r u hr => ?_
    refine Prog.wp_ite (fun _ d hd m hm => ?_) fun _ => ?_
    · obtain rfl := Option.some.inj hd
      refine (hr m hm).resolve_left fun hnew => ?_
      rw [mapped_iff] at hnew
      cases hnew.1
    · rw [Prog.wp_bind]
      exact (Quiet.keeps (freevm_plain r.2) u).imp fun _ _ _ d hd => by cases hd

def copiedPage (sz : Addr) (m : Frame) : Prop := kernelPage m ∨ m.toNat * 4096 < sz.toNat

theorem copyuvmLoop_pages {sz : Addr} (hsz : sz.toNat < 4294963200) : ∀ (n : Nat) (d : Space) (i : Addr) (s : Phys),
    i.toNat % 4096 = 0 → (∀ m, d.mapped m = true → copiedPage sz m) →
    wp (copyuvmLoop n g d i sz) (fun o _ => ∀ d', o = some d' → ∀ m, d'.mapped m = true → copiedPage sz m)
      (fun _ => True) s := by
  intro n
  induction n with
  | zero => exact fun _ _ _ _ _ => trivial
  | succ n ih =>
    intro d i s hi hd
    refine Prog.wp_ite (fun hlt => ?_) fun _ => fun d' hd' => ?_
    · have hlt' : i.toNat < sz.toNat := hlt
      have hnum := pageNum_toNat i
      have hnone : ∀ (d : Space) (t : Phys), wp (do freevm d; pure none : V (Option Space))
          (fun o _ => ∀ d', o = some d' → ∀ m, d'.mapped m = true → copiedPage sz m) (fun _ => True) t :=
        fun d t => Prog.wp_bind.2 ((Quiet.keeps (freevm_plain d) t).imp fun _ _ _ d' hd' => by cases hd')
      rw [Prog.wp_bind, walkpgdir_wp]
      cases g.hasTable i with
      | false => exact trivial
      | true =>
        refine Prog.wp_ite (fun _ => ?_) fun _ => trivial
        rw [Prog.wp_bind]
        refine kalloc_wp (fun _ t _ _ => hnone d t) fun mem t _ _ => ?_
        dsimp only
        rw [Prog.wp_bind, Prog.wp_modify, Prog.wp_bind]
        have hpage : pgRoundDown i = i := pgRoundDown_eq_self.2 hi
        refine (mappages_pages (R := fun m => m.toNat * 4096 < sz.toNat) (by decide) ?_ fun m hlo hhi => ?_).imp
          fun r u hr => ?_
        · show i.toNat + 4096 ≤ _
          omega
        · have hhi' : m.toNat * 4096 < i.toNat + 4096 := hhi
          omega
        · have hd' : ∀ m, r.2.mapped m = true → copiedPage sz m := fun m hm => (hr m hm).elim (hd m) .inr
          have hnext : (i + pgsize).toNat = i.toNat + 4096 := toNat_nextPage (by omega)
          refine Prog.wp_ite (fun _ => ih r.2 _ u (by omega) hd') fun _ => ?_
          rw [Prog.wp_bind]
          exact (Quiet.keeps (kfree_only (R := fun _ => True) trivial) u).imp fun _ v _ => hnone r.2 v
    · obtain rfl := Option.some.inj hd'
      exact hd

theorem copyuvm_pages {sz : Addr} (h : s.Linked) (hsz : sz.toNat < 4294963200) :
    wp (copyuvm g sz) (fun o _ => ∀ d, o = some d → ∀ m, d.mapped m = true → copiedPage sz m) (fun _ => True) s := by
  unfold copyuvm
  rw [Prog.wp_bind]
  refine (setupkvm_pages h).imp fun o t ho => ?_
  cases o with
  | none => exact fun d hd => by cases hd
  | some d => exact copyuvmLoop_pages hsz maxPages d 0 t rfl fun m hm => .inl (ho d rfl m hm)

end Vm
end Xv6
