import Xv6.Swap.Machine
/-!
# Swap.Safety — no frame is both free and in use, and swap slots are exclusive

What a consistent machine's run comes to, for the frames and for the slots, in the words of page tables alone.  The first
eviction after boot goes to slot 0, and `reclaim` gives frame 0 to `kfree`, which panics.
-/
namespace Xv6
namespace Swap

open Mem
open Prog (Triple)

/-- No free frame is listed twice, is a page table of a live directory, or is mapped by one below `KERNBASE`. -/
def FramesOk (s : Sys) : Prop := s.kern.freelist.Nodup ∧ ∀ D ∈ s.dirs, ∀ i, present (s.kern.pte (D, i)) →
  pteFrame (s.kern.pte (D, i)) ∉ s.kern.freelist ∧ (i < 512#10 → ∀ j,
    present (s.kern.pte (pteFrame (s.kern.pte (D, i)), j)) →
      pteFrame (s.kern.pte (pteFrame (s.kern.pte (D, i)), j)) ∉ s.kern.freelist)

/-- A swapped-out PTE of a live page table holds slot `k`. -/
def HoldsSlot (s : Sys) (q : PtePtr) (k : Nat) : Prop :=
  (∃ D ∈ s.dirs, ∃ i, present (s.kern.pte (D, i)) ∧ pteFrame (s.kern.pte (D, i)) = q.1) ∧
    s.kern.pte q ≠ 0 ∧ ¬ present (s.kern.pte q) ∧ (pteFrame (s.kern.pte q)).toNat = k

/-- The bits set are the slots held, and no slot is held twice. -/
def SlotsExclusive (s : Sys) : Prop :=
  (∀ k, checkBit s.kern k = true ↔ ∃ q, HoldsSlot s q k) ∧ ∀ q q' k, HoldsSlot s q k → HoldsSlot s q' k → q = q'

theorem Consistent.framesOk {sl : Prop} {s : Sys} (h : Consistent sl s) : FramesOk s := by
  obtain ⟨role, hinv, hown⟩ := h
  have hfree : ∀ {f r}, role f = r → r ≠ .free → f ∉ s.kern.freelist :=
    fun hf hr hm => hr (hf.symm.trans ((hinv.mem.free _).2 hm))
  refine ⟨hinv.mem.nodup, fun D hD i hp => ?_⟩
  have hT := hinv.mem.pde D i ((hown.dirs D).2 hD) hp
  exact ⟨hfree hT (by simp), fun hi j hp' => hfree (hinv.mem.user _ D i j hT hi hp') (by simp)⟩

theorem Consistent.slotsExclusive {s : Sys} (h : Consistent True s) : SlotsExclusive s := by
  obtain ⟨role, hinv, hown⟩ := h
  have hiff : ∀ q k, HoldsSlot s q k ↔ Holds role s.kern q k := by
    intro q k
    refine and_congr_left fun _ => ⟨?_, ?_⟩
    · rintro ⟨D, hD, i, hp, hf⟩
      exact ⟨D, i, hf ▸ hinv.mem.pde D i ((hown.dirs D).2 hD) hp⟩
    · rintro ⟨D, i, hT⟩
      obtain ⟨hD, hp, hf⟩ := hinv.mem.tab _ D i hT
      exact ⟨D, (hown.dirs D).1 hD, i, hp, hf⟩
  have hslots := hinv.mem.slots trivial
  refine ⟨fun k => ?_, fun q q' k hq hq' => hslots.inj q q' k ((hiff q k).1 hq) ((hiff q' k).1 hq')⟩
  rw [hslots.bits]
  exact exists_congr fun q => (hiff q k).symm

theorem runOps_ok {sl : Prop} {ops : List Op} (hops : sl → ∀ op ∈ ops, op.grows = false) :
    Triple (Good sl) Fine (Consistent sl) (runOps ops) (fun _ => Consistent sl) :=
  Triple.forEach ops fun op hop => runOp_ok op fun hsl => hops hsl op hop

/-! ## A machine -/

/-- The page directory, frame 300, and the page table, frame 301, of `sample`. -/
def sampleDir : Page := pageOf (fun i => if i = 0 then mapPte 301#20 (pteW ||| pteU) else 0)

def sampleTab (n : Nat) : Page := pageOf (fun j =>
  if j = 0 then mapPte 302#20 (pteW ||| pteU)
  else if j.toNat ≤ n then swapPte (j.toNat - 1) (pteW ||| pteU) else 0)

/-- One process: its page 0 is in frame 302 and on the LRU list, and its pages 1 to `n` are in the slots below `n`. -/
def sample (n : Nat) : Sys where
  kern :=
    { mem         := fun f => if f = 300#20 then sampleDir else if f = 301#20 then sampleTab n else zeroPage
      freelist    := []
      pages       := fun _ => ⟨some 302#20, some 302#20, some 300#20, 0⟩
      pageLruHead := some 302#20
      numLruPages := 1
      bitmap      := fun b => BitVec.ofNat 8 (2 ^ min 8 (n - 8 * b) - 1)
      disk        := fun _ _ => 0
      cur         := 300#20
      kend        := 0x80102000#32
      kdata       := 0x80101000#32 }
  dirs := [300#20]
  held := []

def sampleRole : Roles := fun f =>
  if f = 300#20 then .dir else if f = 301#20 then .tab 300#20 0 else if f = 302#20 then .user 300#20 0 0 else .lost

theorem sample_mem (n : Nat) (f : Frame) :
    (sample n).kern.mem f = if f = 300#20 then sampleDir else if f = 301#20 then sampleTab n else zeroPage := rfl

theorem sample_pde (n : Nat) (i : BitVec 10) :
    (sample n).kern.pte (300#20, i) = if i = 0 then mapPte 301#20 (pteW ||| pteU) else 0 := by
  unfold Kern.pte
  rw [sample_mem, if_pos rfl]
  exact wordAt_pageOf _ i

theorem sample_pte (n : Nat) (j : BitVec 10) : (sample n).kern.pte (301#20, j) =
    if j = 0 then mapPte 302#20 (pteW ||| pteU)
    else if j.toNat ≤ n then swapPte (j.toNat - 1) (pteW ||| pteU) else 0 := by
  unfold Kern.pte
  rw [sample_mem, if_neg (show 301#20 ≠ 300#20 by decide), if_pos rfl]
  exact wordAt_pageOf _ j

theorem sample_bit (n k : Nat) : checkBit (sample n).kern k = decide (k < n) := by
  rw [checkBit_eq]
  show (BitVec.ofNat 8 (2 ^ min 8 (n - 8 * (k / 8)) - 1)).getLsbD (k % 8) = _
  rw [BitVec.getLsbD_ofNat, Nat.testBit_two_pow_sub_one, ← Bool.decide_and]
  exact decide_eq_decide.2 (by omega)

theorem sampleRole_dir (f : Frame) : sampleRole f = .dir ↔ f = 300#20 := by
  unfold sampleRole
  grind

theorem sampleRole_tab (f D : Frame) (i : BitVec 10) :
    sampleRole f = .tab D i ↔ f = 301#20 ∧ D = 300#20 ∧ i = 0 := by
  unfold sampleRole
  grind

theorem sampleRole_free (f : Frame) : sampleRole f ≠ .free := by
  unfold sampleRole
  grind

theorem sample_present (n : Nat) (j : BitVec 10) : present ((sample n).kern.pte (301#20, j)) ↔ j = 0 := by
  rw [sample_pte]
  by_cases hj : j = 0
  · rw [if_pos hj]
    exact iff_of_true (present_mapPte _ _) hj
  · rw [if_neg hj]
    refine iff_of_false ?_ hj
    split
    · exact not_present_swapPte _ _
    · exact not_present_zero

theorem sample_holds {n : Nat} (hn : n < 1024) (q : PtePtr) (k : Nat) :
    Holds sampleRole (sample n).kern q k ↔ q = (301#20, BitVec.ofNat 10 (k + 1)) ∧ k < n := by
  obtain ⟨g, j⟩ := q
  unfold Holds
  simp only [sampleRole_tab, Prod.mk.injEq]
  constructor
  · rintro ⟨⟨D, i, rfl, -, -⟩, h0, hp, hk⟩
    rw [sample_present] at hp
    rw [sample_pte, if_neg hp] at h0 hk
    by_cases hj : j.toNat ≤ n
    · rw [if_pos hj, pteFrame_swapPte _ (by decide), BitVec.toNat_ofNat] at hk
      have hj0 : j.toNat ≠ 0 := fun h => hp (BitVec.eq_of_toNat_eq h)
      have hjl := j.isLt
      refine ⟨⟨rfl, BitVec.eq_of_toNat_eq ?_⟩, by omega⟩
      rw [BitVec.toNat_ofNat]
      omega
    · rw [if_neg hj] at h0
      exact absurd rfl h0
  · rintro ⟨⟨rfl, rfl⟩, hk⟩
    have hj : (BitVec.ofNat 10 (k + 1)).toNat = k + 1 := by
      rw [BitVec.toNat_ofNat]
      omega
    have hj0 : BitVec.ofNat 10 (k + 1) ≠ 0 := by
      intro h
      rw [h] at hj
      simp at hj
    refine ⟨⟨_, _, rfl, rfl, rfl⟩, ?_, ?_, ?_⟩
    · rw [sample_pte, if_neg hj0, if_pos (by omega)]
      exact swapPte_ne_zero (by decide)
    · rw [sample_present]
      exact hj0
    · rw [sample_pte, if_neg hj0, if_pos (by omega), pteFrame_swapPte _ (by decide), BitVec.toNat_ofNat]
      omega

theorem sample_consistent {n : Nat} (hn : n < 1024) : Consistent True (sample n) := by
  have hslots : SlotsOk sampleRole (sample n).kern := by
    refine ⟨fun k => ?_, fun q q' k hq hq' => ?_, fun T D i j hT hi => ?_⟩
    · rw [sample_bit, decide_eq_true_eq]
      exact ⟨fun hk => ⟨_, (sample_holds hn _ k).2 ⟨rfl, hk⟩⟩, fun ⟨q, hq⟩ => ((sample_holds hn q k).1 hq).2⟩
    · rw [((sample_holds hn q k).1 hq).1, ((sample_holds hn q' k).1 hq').1]
    · obtain ⟨-, -, rfl⟩ := (sampleRole_tab T D i).1 hT
      exact absurd (by decide) hi
  have hmem : MemOk True noEmpties sampleRole (sample n).kern := by
    refine ⟨⟨fun D i hD hp => ?_, fun T D i hT => ?_⟩, fun f => ?_, List.nodup_nil, fun T D i j hT hi hp => ?_,
      fun _ _ _ _ _ _ hz => hz.elim, fun _ => hslots, ⟨show kernlink < 0x80101000#32 by decide,
      show 0x80101000#32 < 0x80102000#32 by decide, show 0x80102000#32 ≤ kernbase + phystop by decide⟩⟩
    · obtain rfl := (sampleRole_dir D).1 hD
      rw [sample_pde] at hp ⊢
      by_cases hi : i = 0
      · subst hi
        rw [if_pos rfl, pteFrame_mapPte (by decide)]
        rfl
      · rw [if_neg hi] at hp
        exact absurd hp not_present_zero
    · obtain ⟨rfl, rfl, rfl⟩ := (sampleRole_tab T D i).1 hT
      rw [sample_pde, if_pos rfl]
      exact ⟨rfl, present_mapPte _ _, pteFrame_mapPte (by decide)⟩
    · exact ⟨fun h => absurd h (sampleRole_free f), fun h => by cases h⟩
    · obtain ⟨rfl, rfl, rfl⟩ := (sampleRole_tab T D i).1 hT
      obtain rfl := (sample_present n j).1 hp
      rw [sample_pte, if_pos rfl, pteFrame_mapPte (by decide)]
      rfl
  refine ⟨sampleRole, ⟨hmem, ?_⟩, fun D => ?_, fun f hf => (by cases hf), List.nodup_nil⟩
  · rintro h ⟨⟩
    refine ⟨[], IsRing.singleton ⟨rfl, rfl⟩, fun f hf => ?_, fun f hf g hg _ _ => ?_⟩
    · obtain rfl := List.mem_singleton.1 hf
      refine ⟨300#20, 301#20, ⟨rfl, show (0 : Addr) < kernbase by decide, show pgRoundDown 0 = 0 by decide,
        show sampleRole 301#20 = .tab 300#20 (pdx 0) by decide,
        (sample_present n _).2 (show ptx 0 = 0 by decide)⟩, .inr ?_⟩
      show sampleRole 302#20 = .user 300#20 (pdx 0) (ptx 0)
      decide
    · rw [List.mem_singleton.1 hf, List.mem_singleton.1 hg]
  · rw [sampleRole_dir]
    exact ⟨fun h => h ▸ List.mem_cons_self, fun h => List.mem_singleton.1 h⟩

theorem Consistent.weaken {sl : Prop} {s : Sys} (h : Consistent sl s) : Consistent False s := by
  obtain ⟨role, ⟨hm, hl⟩, hown⟩ := h
  exact ⟨role, ⟨{ hm with slots := False.elim }, hl⟩, hown⟩

/-! ## Frames -/

/-- What the steps of a run have to meet for its frames: no page is evicted. -/
def Resides : Event → Prop
  | .evict _ => False
  | e        => Good False e

theorem Resides.good {e : Event} (h : Resides e) : Good False e := by
  cases e with
  | evict e => exact h.elim
  | _       => exact h

/-- Page 0 is given up, page 1 comes back from its slot and is given up, and a frame is allocated and freed. -/
def residentOps : List Op :=
  [.deallocuvm 300#20 4096 0, .fault 300#20 4096, .deallocuvm 300#20 8192 4096, .kalloc, .kfree 302#20]

/-- **Swap slots are exclusive and never leaked**, in every run that evicts pages to the slots of their own numbers and
gives up swapped-out pages in slot 0 only. -/
theorem run_slots {ops : List Op} {s : Sys} (hs : Consistent True s) (hops : ∀ op ∈ ops, op.grows = false)
    (hg : ∀ e ∈ (runOps ops s).tr, Good True e) (hok : (runOps ops s).res = .ok ()) :
    SlotsExclusive (runOps ops s).st :=
  ((runOps_ok (fun _ => hops) s hs hg).2 () hok).slotsExclusive

end Swap
end Xv6
