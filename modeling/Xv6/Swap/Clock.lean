import Xv6.Swap.Faults
import Xv6.Swap.Safety
/-!
# Swap.Clock — what `reclaim` does to the LRU list

`reclaim` scans the list from its head, clearing the accessed bit of the pages it passes, and takes the page it stops at
off the list before it looks for a slot.  It does not count that page off.
-/
namespace Xv6
namespace Swap

open Mem
open Prog (wp wp_bind wp_read wp_modify)

/-- The entry of a page leads to the PTE at `q`. -/
def Walks (s : Kern) (f : Frame) (q : PtePtr) : Prop :=
  ∃ D, (s.pages f).pgdir = some D ∧ walkpgdir s D (pgRoundDown (s.pages f).vaddr) = some q

/-- The LRU list `l`, of entries of `pages`, and the PTE of each page, no two the same. -/
structure Tracked (s : Kern) (l : List Frame) (q : Frame → PtePtr) : Prop where
  list  : LruList s l
  pages : ∀ f ∈ l, f.toNat < npages
  walks : ∀ f ∈ l, Walks s f (q f)
  inj   : ∀ f ∈ l, ∀ g ∈ l, q f = q g → f = g

def accessed (s : Kern) (q : Frame → PtePtr) (f : Frame) : Bool := decide (s.pte (q f) &&& pteA ≠ 0)

/-- The pages that the hand passes over, and the one it stops at. -/
def passed (s : Kern) (q : Frame → PtePtr) (l : List Frame) : List Frame := l.takeWhile (accessed s q)

def victim (s : Kern) (q : Frame → PtePtr) (h : Frame) (l : List Frame) : Frame :=
  ((h :: l).find? (fun f => !accessed s q f)).getD h

/-- `t` is `s` with the accessed bit of some pages cleared, and another head. -/
structure Cleared (s : Kern) (q : Frame → PtePtr) (done : List Frame) (t : Kern) : Prop where
  rest : ∃ mem head, t = { s with mem := mem, pageLruHead := head }
  pte  : ∀ r, t.pte r = if r ∈ done.map q then s.pte r &&& ~~~pteA else s.pte r

variable {s t : Kern} {q : Frame → PtePtr} {f h : Frame} {l done : List Frame}

theorem length_le_npages (hnd : l.Nodup) (hp : ∀ f ∈ l, f.toNat < npages) : l.length ≤ npages := by
  have hnat : (l.map BitVec.toNat).Nodup := hnd.map fun _ _ => BitVec.eq_of_toNat_eq
  have hsub : l.map BitVec.toNat ⊆ List.range npages := fun n hn => by
    obtain ⟨f, hf, rfl⟩ := List.mem_map.1 hn
    exact List.mem_range.2 (hp f hf)
  simpa using (List.subperm_of_subset hnat hsub).length_le

theorem victim_mem (s : Kern) (q : Frame → PtePtr) (h : Frame) (l : List Frame) : victim s q h l ∈ h :: l := by
  unfold victim
  cases hv : (h :: l).find? (fun f => !accessed s q f) with
  | none => exact List.mem_cons_self
  | some v => exact List.mem_of_find?_eq_some hv

/-! ## The hand -/

theorem Cleared.refl (s : Kern) (q : Frame → PtePtr) : Cleared s q [] s :=
  ⟨⟨s.mem, s.pageLruHead, rfl⟩, fun _ => (if_neg List.not_mem_nil).symm⟩

theorem Cleared.pages (h : Cleared s q done t) : t.pages = s.pages := by
  obtain ⟨_, _, rfl⟩ := h.rest
  rfl

theorem Cleared.walk (h : Cleared s q done t) (D : Frame) (a : Addr) : walkpgdir t D a = walkpgdir s D a := by
  unfold walkpgdir
  rw [h.pte]
  split
  · rw [pteFrame_clearA]
    exact if_congr (present_clearA _) rfl rfl
  · rfl

theorem Cleared.walks (h : Cleared s q done t) (hw : Walks s f (q f)) : Walks t f (q f) := by
  obtain ⟨D, hD, hq⟩ := hw
  refine ⟨D, ?_, ?_⟩
  · rw [h.pages]
    exact hD
  · rw [h.walk, h.pages]
    exact hq

theorem clockScan_succ (hh : t.pageLruHead = some f) (hw : Walks t f (q f)) (n : Nat) : clockScan (n + 1) t =
    if t.pte (q f) &&& pteA ≠ 0 then
      clockScan n { t.setPte (q f) (t.pte (q f) &&& ~~~pteA) with pageLruHead := (t.pages f).next }
    else ⟨.ok (f, q f), t, []⟩ := by
  obtain ⟨D, hD, hq⟩ := hw
  conv_lhs => unfold clockScan
  rw [follow_bind_run (p := Kern.pageLruHead) hh, follow_bind_run hD, follow_bind_run hq, Prog.read_bind_run]
  split
  · rfl
  · rfl

theorem Cleared.pass (h : Cleared s q done t) (hf : q f ∉ done.map q) :
    Cleared s q (done ++ [f]) { t.setPte (q f) (t.pte (q f) &&& ~~~pteA) with pageLruHead := (t.pages f).next } := by
  refine ⟨?_, fun r => ?_⟩
  · obtain ⟨_, _, rfl⟩ := h.rest
    exact ⟨_, _, rfl⟩
  · change (t.setPte (q f) (t.pte (q f) &&& ~~~pteA)).pte r = _
    rw [setPte_pte, h.pte, h.pte, if_neg hf, List.map_append, List.map_singleton]
    by_cases hr : r = q f
    · subst hr
      rw [if_pos rfl, if_pos (List.mem_append_right _ List.mem_cons_self)]
    · rw [if_neg hr]
      refine if_congr ?_ rfl rfl
      simp [hr]

theorem victim_stop {rest : List Frame} (hl : h :: l = done ++ f :: rest) (hdone : ∀ g ∈ done, accessed s q g = true)
    (hf : accessed s q f = false) : victim s q h l = f ∧ passed s q (h :: l) = done := by
  unfold victim passed
  rw [hl]
  constructor
  · have hnone : done.find? (fun g => !accessed s q g) = none :=
      List.find?_eq_none.2 fun g hg => by rw [hdone g hg]; decide
    rw [List.find?_append, hnone, List.find?_cons_of_pos (by rw [hf]; rfl)]
    rfl
  · rw [List.takeWhile_append_of_pos hdone, List.takeWhile_cons_of_neg (by rw [hf]; decide), List.append_nil]

theorem victim_all (hall : ∀ g ∈ h :: l, accessed s q g = true) : victim s q h l = h ∧ passed s q (h :: l) = h :: l := by
  unfold victim passed
  constructor
  · have hnone : (h :: l).find? (fun g => !accessed s q g) = none :=
      List.find?_eq_none.2 fun g hg => by rw [hall g hg]; decide
    rw [hnone]
    rfl
  · exact List.takeWhile_eq_self_iff.2 hall

theorem clock_turn (hl : Tracked s (h :: l) q) {rest : List Frame} (hsplit : h :: l = done ++ f :: rest)
    (ht : Cleared s q done t) (hh : t.pageLruHead = some f) (k : Nat) :
    (accessed s q f = false → clockScan (k + 1) t = ⟨.ok (f, q f), t, []⟩) ∧
    (accessed s q f = true → ∃ u, clockScan (k + 1) t = clockScan k u ∧ Cleared s q (done ++ [f]) u ∧
      u.pageLruHead = (s.pages f).next) := by
  have hfm : f ∈ h :: l := hsplit ▸ List.mem_append_right done List.mem_cons_self
  have hnew : q f ∉ done.map q := by
    intro hm
    obtain ⟨g, hg, hgq⟩ := List.mem_map.1 hm
    have hgf : g = f := hl.inj g (hsplit ▸ List.mem_append_left _ hg) f hfm hgq
    have hnd : (done ++ f :: rest).Nodup := hsplit ▸ hl.list.2.1.nodup
    exact (List.nodup_append.1 hnd).2.2 g hg f List.mem_cons_self hgf
  have hpte : t.pte (q f) = s.pte (q f) := by rw [ht.pte, if_neg hnew]
  rw [clockScan_succ hh (ht.walks (hl.walks f hfm)) k, hpte]
  unfold accessed
  rw [decide_eq_false_iff_not, decide_eq_true_eq]
  refine ⟨fun hclear => if_neg hclear, fun hset => ⟨_, if_pos hset, ?_, ?_⟩⟩
  · rw [← hpte]
    exact ht.pass hnew
  · change (t.pages f).next = _
    rw [ht.pages]

theorem clockScan_from (hl : Tracked s (h :: l) q) : ∀ (rest : List Frame) (f : Frame) (done : List Frame) (t : Kern)
    (m : Nat), h :: l = done ++ f :: rest → (∀ g ∈ done, accessed s q g = true) → Cleared s q done t →
    t.pageLruHead = some f → rest.length + 2 ≤ m →
    ∃ u, clockScan m t = ⟨.ok (victim s q h l, q (victim s q h l)), u, []⟩ ∧
      Cleared s q (passed s q (h :: l)) u ∧ u.pageLruHead = some (victim s q h l) := by
  have hring : OnRing s h l := hl.list.2.1
  intro rest
  induction rest with
  | nil =>
    intro f done t m hsplit hdone ht hh hm
    obtain ⟨k, rfl⟩ : ∃ k, m = k + 1 + 1 := ⟨m - 2, by simp at hm; omega⟩
    obtain ⟨hstop, hpass⟩ := clock_turn hl hsplit ht hh (k + 1)
    cases hf : accessed s q f with
    | false =>
      obtain ⟨hv, hp⟩ := victim_stop hsplit hdone hf
      rw [hv, hp]
      exact ⟨t, hstop hf, ht, hh⟩
    | true =>
      -- all the bits were set: the hand is back at the head, whose bit it has cleared
      obtain ⟨u, hrun, hu, hhead⟩ := hpass hf
      have hall : ∀ g ∈ h :: l, accessed s q g = true := by
        intro g hg
        rw [hsplit, List.mem_append, List.mem_singleton] at hg
        rcases hg with hg | rfl
        · exact hdone g hg
        · exact hf
      obtain ⟨hv, hp⟩ := victim_all hall
      have hlast : (h :: l).getLast? = some f := by rw [hsplit]; simp
      have hnext : (s.pages f).next = some h := (hring.link_last hlast).1
      have hcleared : u.pte (q h) &&& pteA = 0 := by
        rw [hu.pte, ← hsplit, if_pos (List.mem_map_of_mem List.mem_cons_self)]
        exact clear_accessed _
      rw [hnext] at hhead
      rw [← hsplit] at hu
      rw [hrun, hv, hp, clockScan_succ hhead (hu.walks (hl.walks h List.mem_cons_self)) k,
        if_neg (not_not_intro hcleared)]
      exact ⟨u, rfl, hu, hhead⟩
  | cons g rest ih =>
    intro f done t m hsplit hdone ht hh hm
    obtain ⟨k, rfl⟩ : ∃ k, m = k + 1 := ⟨m - 1, by simp at hm; omega⟩
    obtain ⟨hstop, hpass⟩ := clock_turn hl hsplit ht hh k
    cases hf : accessed s q f with
    | false =>
      obtain ⟨hv, hp⟩ := victim_stop hsplit hdone hf
      rw [hv, hp]
      exact ⟨t, hstop hf, ht, hh⟩
    | true =>
      obtain ⟨u, hrun, hu, hhead⟩ := hpass hf
      have hnext : (s.pages f).next = some g := (hring.link_append hsplit).1
      rw [hnext] at hhead
      rw [hrun]
      refine ih g (done ++ [f]) u k ?_ (fun g' hg' => ?_) hu hhead (by simp at hm ⊢; omega)
      · rw [hsplit, List.append_assoc]
        rfl
      · rcases List.mem_append.1 hg' with hg' | hg'
        · exact hdone g' hg'
        · rw [List.mem_singleton.1 hg']
          exact hf

/-- **The clock hand stops at the first page, from the head, whose accessed bit is clear**, at the head itself where
all are set, after one inspection for each page it passes and one more; it clears the bits of the pages it passed. -/
theorem clockScan_victim (s : Kern) (q : Frame → PtePtr) (h : Frame) (l : List Frame) (hl : Tracked s (h :: l) q) (m : Nat)
    (hm : (h :: l).length + 1 ≤ m) :
    ∃ t, clockScan m s = ⟨.ok (victim s q h l, q (victim s q h l)), t, []⟩ ∧
      Cleared s q (passed s q (h :: l)) t ∧ t.pageLruHead = some (victim s q h l) :=
  clockScan_from hl l h [] s m rfl (fun _ hg => absurd hg List.not_mem_nil) (Cleared.refl s q) hl.list.1
    (by rwa [List.length_cons] at hm)

theorem sample_walk (n : Nat) : walkpgdir (sample n).kern 300#20 0 = some (301#20, 0) := by
  have hpde : (sample n).kern.pte (300#20, pdx 0) = mapPte 301#20 (pteW ||| pteU) := sample_pde n 0
  unfold walkpgdir
  rw [hpde, if_pos (present_mapPte _ _), pteFrame_mapPte (by decide)]
  rfl

theorem sample_tracked (n : Nat) : Tracked (sample n).kern [302#20] (fun _ => (301#20, 0)) := by
  refine ⟨⟨rfl, IsRing.singleton ⟨rfl, rfl⟩, rfl⟩, fun f hf => ?_, fun f _ => ⟨300#20, rfl, ?_⟩, fun f hf g hg _ => ?_⟩
  · rw [List.mem_singleton.1 hf]
    decide
  · change walkpgdir (sample n).kern 300#20 (pgRoundDown 0) = _
    rw [show pgRoundDown 0 = 0 by decide]
    exact sample_walk n
  · rw [List.mem_singleton.1 hf, List.mem_singleton.1 hg]

/-- The page table of `trio`: pages 0, 1 and 2 are there, and some of them have been accessed. -/
def trioTab (bits : BitVec 10 → Bool) : Page := pageOf fun j =>
  if j < 3 then mapPte (302#20 + j.setWidth 20) (if bits j then pteW ||| pteU ||| pteA else pteW ||| pteU) else 0

/-- The process of `sample` with three pages on the LRU list, in frames 302 to 304. -/
def trio (bits : BitVec 10 → Bool) : Kern :=
  { (sample 0).kern with
    mem         := fun f => if f = 300#20 then sampleDir else if f = 301#20 then trioTab bits else zeroPage
    pages       := fun f => if f = 302#20 then ⟨some 303#20, some 304#20, some 300#20, 0⟩
      else if f = 303#20 then ⟨some 304#20, some 302#20, some 300#20, 0x1000⟩
      else ⟨some 302#20, some 303#20, some 300#20, 0x2000⟩
    numLruPages := 3 }

def trioPte (f : Frame) : PtePtr := (301#20, f.setWidth 10 - 302#10)

theorem trio_mem (bits : BitVec 10 → Bool) (f : Frame) :
    (trio bits).mem f = if f = 300#20 then sampleDir else if f = 301#20 then trioTab bits else zeroPage := rfl

theorem trio_list (bits : BitVec 10 → Bool) : LruList (trio bits) [302#20, 303#20, 304#20] := by
  refine ⟨rfl, ⟨by decide, ?_⟩, rfl⟩
  exact .cons_cons ⟨rfl, rfl⟩ (.cons_cons ⟨rfl, rfl⟩ (.cons_cons ⟨rfl, rfl⟩ (.singleton _)))

theorem trio_walk (bits : BitVec 10 → Bool) {a : Addr} (ha : pdx a = 0) :
    walkpgdir (trio bits) 300#20 a = some (301#20, ptx a) := by
  have hpde : (trio bits).pte (300#20, pdx a) = mapPte 301#20 (pteW ||| pteU) := by
    unfold Kern.pte
    rw [ha, trio_mem, if_pos rfl]
    exact wordAt_pageOf _ 0
  unfold walkpgdir
  rw [hpde, if_pos (present_mapPte _ _), pteFrame_mapPte (by decide)]

theorem trio_entries {f : Frame} (hf : f ∈ [302#20, 303#20, 304#20]) : f = 302#20 ∨ f = 303#20 ∨ f = 304#20 := by
  simpa using hf

theorem trio_tracked (bits : BitVec 10 → Bool) : Tracked (trio bits) [302#20, 303#20, 304#20] trioPte := by
  refine ⟨trio_list bits, fun f hf => ?_, fun f hf => ⟨300#20, ?_, ?_⟩, fun f hf g hg => ?_⟩
  · rcases trio_entries hf with rfl | rfl | rfl <;> decide
  · rcases trio_entries hf with rfl | rfl | rfl <;> rfl
  · rcases trio_entries hf with rfl | rfl | rfl
    · exact trio_walk bits (a := pgRoundDown 0) (by decide)
    · exact trio_walk bits (a := pgRoundDown 0x1000) (by decide)
    · exact trio_walk bits (a := pgRoundDown 0x2000) (by decide)
  · rcases trio_entries hf with rfl | rfl | rfl <;> rcases trio_entries hg with rfl | rfl | rfl <;> decide

/-- The hand passes over two accessed pages to the third; where that one is accessed too, it comes around to the first. -/
theorem trio_victim :
    (∃ t, clockScan 4 (trio (· ≠ 2)) = ⟨.ok (304#20, (301#20, 2)), t, []⟩ ∧
      Cleared (trio (· ≠ 2)) trioPte [302#20, 303#20] t ∧ t.pageLruHead = some 304#20) ∧
    ∃ t, clockScan 4 (trio fun _ => true) = ⟨.ok (302#20, (301#20, 0)), t, []⟩ ∧
      Cleared (trio fun _ => true) trioPte [302#20, 303#20, 304#20] t ∧ t.pageLruHead = some 302#20 := by
  have hthird : victim (trio (· ≠ 2)) trioPte 302#20 [303#20, 304#20] = 304#20 ∧
      passed (trio (· ≠ 2)) trioPte [302#20, 303#20, 304#20] = [302#20, 303#20] := by decide +kernel
  have hall : victim (trio fun _ => true) trioPte 302#20 [303#20, 304#20] = 302#20 ∧
      passed (trio fun _ => true) trioPte [302#20, 303#20, 304#20] = [302#20, 303#20, 304#20] := by decide +kernel
  have hstop := clockScan_victim (trio (· ≠ 2)) trioPte 302#20 [303#20, 304#20] (trio_tracked _) 4 (Nat.le_refl 4)
  have hround := clockScan_victim (trio fun _ => true) trioPte 302#20 [303#20, 304#20] (trio_tracked _) 4 (Nat.le_refl 4)
  rw [hthird.1, hthird.2] at hstop
  rw [hall.1, hall.2] at hround
  exact ⟨hstop, hround⟩

end Swap
end Xv6
