import Xv6.Vm.Calls
import Xv6.Vm.Pages
import Xv6.Lib.Along
/-!
# Vm.Areas — areas, and the pages in them

`Tidy` is what a process that maps memory relies on: its areas lie between `MMAPBASE` and `KERNBASE`, apart from each
other, and a page that is there between these addresses lies in an area and grants what the area grants.  The mapping
calls keep it, and map no page twice, where a new area keeps to these addresses and to itself.
-/
namespace Xv6
namespace Vm

open Mem
open Prog (wp Along Quiet Stops)
open Sched (nproc)

/-- The addresses of an area. -/
def Area.holds (a : Area) (x : Nat) : Prop := a.addr.toNat ≤ x ∧ x < a.addr.toNat + a.length.toNat

instance (a : Area) (x : Nat) : Decidable (a.holds x) := inferInstanceAs (Decidable (_ ∧ _))

/-- An area of whole pages between `MMAPBASE` and `KERNBASE`. -/
structure Area.Shape (a : Area) : Prop where
  aligned : a.addr.toNat % 4096 = 0
  whole   : a.length.toNat % 4096 = 0
  base    : 1073741824 ≤ a.addr.toNat
  top     : a.addr.toNat + a.length.toNat ≤ 2147483648
  prot    : a.prot = protRead ∨ a.prot = protRead ||| protWrite

def Granted (a : Area) (e : Pte) : Prop := e.getLsbD 2 = true ∧ (e.getLsbD 1 = true ↔ a.prot &&& protWrite ≠ 0)

/-- The pages between `MMAPBASE` and `KERNBASE`. -/
def upper (n : Frame) : Prop := within 1073741824 2147483648 n

/-- An entry for the page `m` of `q` that an area of `q` grants. -/
def Settled (maps : Fin nmaps → Area) (q : Fin nproc) (m : Frame) (e : Pte) : Prop :=
  ∃ i, (maps i).ownedBy q = true ∧ (maps i).holds (m.toNat * 4096) ∧ Granted (maps i) e

structure Tidy (s : Sys) : Prop where
  shape : ∀ i, (s.maps i).state = .using → (s.maps i).Shape
  apart : ∀ p i j x, (s.maps i).ownedBy p = true → (s.maps j).ownedBy p = true → (s.maps i).holds x →
    (s.maps j).holds x → i = j
  pages : ∀ p g n, s.pgdir p = some g → upper n → g.mapped n = true → Settled s.maps p n (g.pte n)

/-! ## The pages of an area -/

section Pages

variable {a : Area} {m : Frame}

/-- An area of whole pages that does not wrap around. -/
structure Area.Flat (a : Area) : Prop where
  aligned : a.addr.toNat % 4096 = 0
  whole   : a.length.toNat % 4096 = 0
  fits    : a.addr.toNat + a.length.toNat < 4294967296
  small   : a.length.toNat < 2147483648

theorem Area.Shape.flat (h : a.Shape) : a.Flat :=
  ⟨h.aligned, h.whole, by have := h.top; omega, by have := h.top; have := h.base; omega⟩

theorem Area.Flat.npages (h : a.Flat) : a.npages = a.length.toNat / 4096 := npages_eq h.small

theorem Area.Flat.page_toNat (h : a.Flat) {k : Nat} (hk : k < a.npages) :
    (pageNum (a.page k)).toNat * 4096 = a.addr.toNat + k * 4096 ∧ (a.page k).toNat = a.addr.toNat + k * 4096 := by
  have hfits := h.fits
  have hal := h.aligned
  rw [h.npages] at hk
  have hpage : (a.page k).toNat = a.addr.toNat + k * 4096 := Vm.page_toNat a k (by omega)
  rw [pageNum_toNat, hpage]
  omega

def Area.nums (a : Area) : List Frame := (List.range a.npages).map (fun k => pageNum (a.page k))

theorem Area.Flat.mem_nums (h : a.Flat) : m ∈ a.nums ↔ a.holds (m.toNat * 4096) := by
  have hal := h.aligned
  have hwh := h.whole
  unfold Area.nums Area.holds
  rw [List.mem_map]
  constructor
  · rintro ⟨k, hk, rfl⟩
    have hk' := List.mem_range.1 hk
    have hpage := (h.page_toNat hk').1
    rw [h.npages] at hk'
    omega
  · intro hm
    have hk : (m.toNat * 4096 - a.addr.toNat) / 4096 < a.npages := by
      rw [h.npages]
      omega
    refine ⟨_, List.mem_range.2 hk, ?_⟩
    have hpage := (h.page_toNat hk).1
    rw [← BitVec.toNat_inj]
    omega

theorem Area.Flat.nodup_nums (h : a.Flat) : a.nums.Nodup := by
  refine List.Nodup.map_on (fun j hj k hk he => ?_) List.nodup_range
  have hj' := (h.page_toNat (List.mem_range.1 hj)).1
  have hk' := (h.page_toNat (List.mem_range.1 hk)).1
  rw [he] at hj'
  omega

theorem Area.Shape.upper (h : a.Shape) (hm : a.holds (m.toNat * 4096)) : upper m := by
  have := h.base
  have := h.top
  unfold Area.holds at hm
  unfold Vm.upper within
  omega

theorem granted_mapPte {b : Prop} [Decidable b] (f : Frame) (hb : b ↔ a.prot &&& protWrite ≠ 0) :
    Granted a (mapPte f ((if b then Mem.pteW else 0) ||| pteU)) := by
  have hbit : ∀ (w : Pte) (i : Nat), i < 12 → (mapPte f (w ||| pteU)).getLsbD i =
      (w.getLsbD i || decide (i = 2) || decide (i = 0)) := by
    intro w i hi
    unfold mapPte
    rw [BitVec.getLsbD_or, BitVec.getLsbD_or, BitVec.getLsbD_or, getLsbD_frameAddr, getLsbD_pteU, getLsbD_pteP,
      decide_eq_false (Nat.not_le.2 hi), Bool.false_and, Bool.false_or]
  unfold Granted
  rw [← hb, hbit _ 2 (by omega), hbit _ 1 (by omega)]
  by_cases h : b <;> simp [h, getLsbD_pteW]

end Pages

/-! ## Pages added -/

def Missing (p : Fin nproc) (n : Frame) (s : Sys) : Prop := ∀ g, s.pgdir p = some g → g.mapped n = false

/-- From `s` to `t` the page tables have gained at most pages that `N` admits. -/
structure Adds (N : Fin nproc → Frame → Pte → Prop) (s t : Sys) : Prop where
  maps   : t.maps = s.maps
  tab    : t.tab = s.tab
  ofile  : t.ofile = s.ofile
  sz     : t.sz = s.sz
  mode   : ∀ j, (t.file j).mode = (s.file j).mode
  pages  : ∀ q g', t.pgdir q = some g' → ∃ g, s.pgdir q = some g ∧
    ∀ m, g'.mapped m = true → g.mapped m = true ∧ g'.pte m = g.pte m ∨ N q m (g'.pte m)

section Adds

variable {N N' : Fin nproc → Frame → Pte → Prop} {s t : Sys} {p : Fin nproc} {E : Stop → Prop}

theorem adds_frame : Prog.Frame (Adds N) where
  refl s := ⟨rfl, rfl, rfl, rfl, fun _ => rfl, fun _ g hg => ⟨g, hg, fun _ hm => .inl ⟨hm, rfl⟩⟩⟩
  trans h h' := by
    refine ⟨h'.maps.trans h.maps, h'.tab.trans h.tab, h'.ofile.trans h.ofile, h'.sz.trans h.sz,
      fun j => (h'.mode j).trans (h.mode j), fun q g'' hg'' => ?_⟩
    obtain ⟨g', hg', h2⟩ := h'.pages q g'' hg''
    obtain ⟨g, hg, h1⟩ := h.pages q g' hg'
    refine ⟨g, hg, fun m hm => ?_⟩
    rcases h2 m hm with ⟨hm', hp⟩ | hn
    · rcases h1 m hm' with ⟨hm'', hp'⟩ | hn
      · exact .inl ⟨hm'', hp.trans hp'⟩
      · exact .inr (hp ▸ hn)
    · exact .inr hn

theorem Adds.mono (h : Adds N s t) (hN : ∀ q m e, N q m e → N' q m e) : Adds N' s t where
  maps   := h.maps
  tab    := h.tab
  ofile  := h.ofile
  sz     := h.sz
  mode   := h.mode
  pages  := fun q g' hg' => by
    obtain ⟨g, hg, h1⟩ := h.pages q g' hg'
    exact ⟨g, hg, fun m hm => (h1 m hm).imp_right (hN q m _)⟩

theorem Adds.space {g g' : Space} {k : Phys} (hg : s.pgdir p = some g)
    (h : ∀ m, g'.mapped m = true → g.mapped m = true ∧ g'.pte m = g.pte m ∨ N p m (g'.pte m)) :
    Adds N s ({ s with phys := k }.setSpace p g') := by
  refine ⟨rfl, rfl, rfl, rfl, fun _ => rfl, fun q g'' hq => ?_⟩
  by_cases hqp : q = p
  · subst hqp
    obtain rfl : g' = g'' := Option.some.inj ((if_pos rfl).symm.trans hq)
    exact ⟨g, hg, h⟩
  · exact ⟨g'', (if_neg hqp).symm.trans hq, fun _ hm => .inl ⟨hm, rfl⟩⟩

theorem Tidy.adds (h : Tidy s) (ha : Adds (Settled s.maps) s t) : Tidy t where
  shape := by rw [ha.maps]; exact h.shape
  apart := by rw [ha.maps]; exact h.apart
  pages := fun p g' n hg' hu hm => by
    obtain ⟨g, hg, h1⟩ := ha.pages p g' hg'
    rw [ha.maps]
    rcases h1 n hm with ⟨hm', hp⟩ | hn
    · exact hp ▸ h.pages p g n hg hu hm'
    · exact hn

/-- The view of what `Alike` states share, but for the lock. -/
def Sys.shared (s : Sys) : (Fin nmaps → Area) × Sched.State × (Fin nproc → Fin 16 → Option Nat) ×
    (Fin nproc → Option Space) × (Fin nproc → Addr) × (Nat → Bool × Bool × Int × Bool) :=
  (s.maps, s.tab, s.ofile, s.pgdir, s.sz, fun j => (s.file j).mode)

theorem shared_view : ∀ s t : Sys, Alike s t → s.shared = t.shared := by
  intro s t h
  unfold Sys.shared
  rw [h.maps, h.tab, h.ofile, h.pgdir, h.sz, funext h.mode]

theorem adds_shared (h : t.shared = s.shared) : Adds N s t := by
  unfold Sys.shared at h
  simp only [Prod.mk.injEq] at h
  obtain ⟨h1, h2, h3, h4, h5, h6⟩ := h
  exact ⟨h1, h2, h3, h5, fun j => congrFun h6 j, fun q g' hg' => ⟨g', h4 ▸ hg', fun _ hm => .inl ⟨hm, rfl⟩⟩⟩

theorem Missing.adds {n : Frame} (h : Missing p n s) (ha : Adds N s t) (hn : ∀ e, ¬ N p n e) : Missing p n t := by
  intro g' hg'
  obtain ⟨g, hg, h1⟩ := ha.pages p g' hg'
  cases hm : g'.mapped n with
  | false => rfl
  | true =>
    rcases h1 n hm with ⟨hm', -⟩ | he
    · rw [h g hg] at hm'
      cases hm'
    · exact absurd he (hn _)

end Adds

/-! ## Stops -/

section Stops

variable {α : Type} {E : Stop → Prop} (hw : E .wild) (p : Fin nproc)

include hw

theorem follow_stops (f : Sys → Option α) : Stops E (follow f) := by
  refine Stops.bind (Stops.read f) fun o => ?_
  cases o with
  | none => exact Stops.stop hw
  | some a => exact Stops.pure a

theorem fileReadable_stops (f : FileRef) : Stops E (fileReadable p f) := by
  cases f with
  | null => exact Stops.bind (follow_stops hw _) fun _ => Stops.read _
  | file i => exact Stops.read _
  | wild => exact Stops.stop hw

theorem setOff_stops (f : FileRef) (off : Word) : Stops E (setOff p f off) := by
  cases f with
  | null => exact Stops.bind (follow_stops hw _) fun _ => Stops.modify _
  | file i => exact Stops.modify _
  | wild => exact Stops.stop hw

theorem zeroedPage_stops : Stops E zeroedPage :=
  Stops.bind (Stops.zoom (kallocPage_stops hw)) fun page =>
    Stops.bind (Stops.zoom (memset_stops page 0)) fun _ => Stops.pure _

theorem readPage_stops (hr : E (.panic "fileread")) (f : FileRef) (page : Frame) : Stops E (readPage p f page) := by
  have hread : Stops E (fileread p f pgsize) := by
    cases f with
    | file i =>
      refine Stops.bind (Stops.read _) fun fl => Stops.ite (fun _ => Stops.pure _) fun _ => ?_
      cases fl.kind with
      | none => exact Stops.stop hr
      | pipe q => exact Stops.bind (Stops.modify _) fun _ => Stops.pure _
      | inode data _ => exact Stops.bind (Stops.modify _) fun _ => Stops.pure _
      | dev q => exact Stops.bind (Stops.modify _) fun _ => Stops.pure _
    | _ =>
      exact Stops.bind (fileReadable_stops hw p _) fun _ => Stops.ite (fun _ => Stops.stop hw) fun _ => Stops.pure _
  refine Stops.bind (Stops.read _) fun b => Stops.bind (Stops.emit _) fun _ => Stops.bind hread fun o => ?_
  cases o with
  | none => exact Stops.pure ()
  | some bytes => exact Stops.modify _

end Stops

/-! ## The functions of the mapping calls -/

section Functions

variable {α : Type} {N : Fin nproc → Frame → Pte → Prop} {s : Sys} {p : Fin nproc} {E : Stop → Prop}

theorem shared_wp {c : M α} {Q : α → Sys → Prop} (hc : Quiet Sys.shared (fun _ => True) c) (hE : Stops E c)
    (hQ : ∀ a t, t.shared = s.shared → Q a t) : wp c Q E s := by
  have h := hE s
  have hs := (hc s).1
  unfold wp at h ⊢
  split
  · exact hQ _ _ hs
  · rename_i x hx
    rw [hx] at h
    exact h

theorem mm_wp {c : V α} {Q : α → Sys → Prop} :
    wp (mm c) Q E s ↔ wp c (fun a k => Q a { s with phys := k }) E s.phys := Iff.rfl

theorem follow_wp {f : Sys → Option α} {Q : α → Sys → Prop} (hw : E .wild) (h : ∀ a, f s = some a → Q a s) :
    wp (follow f) Q E s := by
  unfold follow
  rw [Prog.wp_bind, Prog.wp_read]
  cases hf : f s with
  | none => exact hw
  | some a => exact h a hf

theorem mapPage_wp {va : Addr} {page : Frame} {perm : Pte} (hw : E .wild) (ha : pgRoundDown va = va)
    (hn : Missing p (pageNum va) s) : wp (mapPage p va page perm)
      (fun _ t => Adds (fun q m e => q = p ∧ m = pageNum va ∧ e = mapPte page perm) s t) E s := by
  unfold mapPage
  rw [Prog.wp_bind]
  refine follow_wp hw fun g hg => ?_
  rw [Prog.wp_bind, mm_wp]
  refine mappages_wp ha (fun _ _ t _ _ => ?_) (fun hm => ?_) fun g' t hg' _ hm => ?_
  · exact Adds.space hg fun m hm => .inl ⟨hm, rfl⟩
  · rw [hn g hg] at hm
    cases hm
  · refine Adds.space hg fun m hmm => ?_
    by_cases hmn : m = pageNum va
    · refine .inr ⟨rfl, hmn, ?_⟩
      rw [hmn]
      exact if_pos rfl
    · rw [mapped_setPte, if_neg hmn, hg'.mapped, or_false] at hmm
      rw [pte_setPte hmn]
      exact .inl ⟨hmm, hg'.pte m hmm⟩

end Functions

end Vm
end Xv6
