import Xv6.Vm.Pages
import Xv6.Lib.Along
/-!
# Vm.Drawn — frames drawn off the free list

The functions that map pages write to frames that they have taken off the free list, and to no other.
-/
namespace Xv6
namespace Vm

open Mem
open Prog (Along)

/-- From `s` to `t` frames have been drawn off the free list, and no other frame has been written to. -/
def Drawn (s t : Phys) : Prop := ∃ l, s.freelist = l ++ t.freelist ∧ ∀ f, f ∉ l → t.mem f = s.mem f

variable {s t : Phys} {f : Frame}

theorem drawn_frame : Prog.Frame Drawn where
  refl s := ⟨[], rfl, fun _ _ => rfl⟩
  trans := by
    rintro s t u ⟨l, hl, hmem⟩ ⟨l', hl', hmem'⟩
    refine ⟨l ++ l', by rw [hl, hl', List.append_assoc], fun f hf => ?_⟩
    rw [List.mem_append, not_or] at hf
    exact (hmem' f hf.2).trans (hmem f hf.1)

theorem Drawn.subset (h : Drawn s t) : t.freelist ⊆ s.freelist := by
  obtain ⟨l, hl, -⟩ := h
  rw [hl]
  exact List.subset_append_right l _

theorem Drawn.nodup (h : Drawn s t) (hs : s.freelist.Nodup) : t.freelist.Nodup := by
  obtain ⟨l, hl, -⟩ := h
  rw [hl] at hs
  exact hs.of_append_right

theorem Drawn.kept (h : Drawn s t) (hf : f ∉ s.freelist) : t.mem f = s.mem f := by
  obtain ⟨l, hl, hmem⟩ := h
  refine hmem f fun hin => hf ?_
  rw [hl]
  exact List.mem_append_left _ hin

theorem Drawn.write (h : s.freelist = f :: t.freelist) (hm : ∀ g, g ≠ f → t.mem g = s.mem g) : Drawn s t :=
  ⟨[f], h, fun g hg => hm g fun he => hg (List.mem_singleton.2 he)⟩

/-! ## The functions -/

theorem kalloc_run (s : Phys) : kalloc s =
    ⟨.ok s.freelist.head?, { s with freelist := s.freelist.tail, freemems := s.freemems - 1 }, []⟩ := by
  obtain ⟨mem, freelist, freemems, kend, kdata⟩ := s
  cases freelist with
  | nil => rfl
  | cons f l => rfl

theorem walkpgdirAlloc_drawn (g : Space) (va : Addr) : Along Drawn (walkpgdirAlloc g va) := by
  refine Along.bind drawn_frame (Along.emit drawn_frame _) fun _ s => ?_
  split
  · exact drawn_frame.refl s
  · rw [Prog.bind_run_nil (kalloc_run s)]
    cases hl : s.freelist with
    | nil => exact ⟨[], hl, fun _ _ => rfl⟩
    | cons f l => exact .write hl fun g hg => if_neg hg

theorem mappages_drawn (g : Space) (va size pa : Addr) (perm : Pte) : Along Drawn (mappages g va size pa perm) := by
  unfold mappages
  generalize maxPages = n
  generalize pgRoundDown va = a
  induction n generalizing g a pa with
  | zero => exact Along.stop drawn_frame _
  | succ n ih =>
    refine Along.bind drawn_frame (walkpgdirAlloc_drawn g a) fun o => ?_
    cases o with
    | none => exact Along.pure drawn_frame _
    | some g' =>
      exact Along.ite (fun _ => Along.stop drawn_frame _) fun _ => Along.ite (fun _ => Along.pure drawn_frame _)
        fun _ => ih _ _ _

end Vm
end Xv6
