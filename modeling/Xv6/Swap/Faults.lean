import Xv6.Swap.Append
import Xv6.Swap.Frames
/-!
# Swap.Faults — which faults are refused

`page_fault_hadler` is to serve the faults of swapped-out pages only.  It looks at whether the PTE is zero.
-/
namespace Xv6
namespace Swap

open Mem
open Prog (wp wp_bind wp_read wp_modify wp_emit wp_pure)

/-- The page tables, the swap bitmap and the free list. -/
def Unchanged (s t : Kern) : Prop := t.mem = s.mem ∧ t.bitmap = s.bitmap ∧ t.freelist = s.freelist

/-- `trap` at a page fault from user mode; `true` if it marks the process killed. -/
def trapFault (pgdir : Frame) (cr2 : Addr) : K Bool := do
  if ← pageFaultHadler pgdir cr2 then pure false else pure true

/-- The handler returns 0 and leaves things alone, and `trap` kills the process. -/
def Refuses (s : Kern) (pgdir : Frame) (a : Addr) : Prop :=
  wp (pageFaultHadler pgdir a) (fun r t => r = false ∧ Unchanged s t) (fun _ => False) s ∧
    wp (trapFault pgdir a) (fun killed t => killed = true ∧ Unchanged s t) (fun _ => False) s

def NotSwapped (s : Kern) (pgdir : Frame) (a : Addr) : Prop :=
  ∀ q, walkpgdir s pgdir (pgRoundDown a) = some q → s.pte q = 0 ∨ present (s.pte q)

/-- The head of the LRU list is linked, and the page it stands for was not accessed. -/
def HeadIdle (s : Kern) : Prop := ∃ h D q, s.pageLruHead = some h ∧ (s.pages h).pgdir = some D ∧
  walkpgdir s D (pgRoundDown (s.pages h).vaddr) = some q ∧ s.pte q &&& pteA = 0 ∧
  (s.pages h).next ≠ none ∧ (s.pages h).prev ≠ none

/-- No page is free, and none can be evicted: none is counted, or the head of the list would go and no slot is free. -/
def OutOfMemory (s : Kern) : Prop :=
  s.freelist = [] ∧ (s.numLruPages = 0 ∨ findFreeSwapIndex s = none ∧ HeadIdle s)

variable {s t : Kern} {pgdir : Frame} {a : Addr}

theorem Unchanged.refl (s : Kern) : Unchanged s s := ⟨rfl, rfl, rfl⟩

theorem LruOnly.unchanged (h : LruOnly s t) : Unchanged s t := by
  obtain ⟨p, hd, n, rfl⟩ := h
  exact ⟨rfl, rfl, rfl⟩

theorem Unchanged.pte (h : Unchanged s t) (q : PtePtr) : t.pte q = s.pte q := by
  unfold Kern.pte
  rw [h.1]

theorem wp_follow {α : Type} {p : Kern → Option α} {Q : α → Kern → Prop} {E : Stop → Prop} :
    wp (follow p) Q E s ↔ match p s with | some a => Q a s | none => E .wild := by
  unfold follow
  rw [wp_bind, wp_read]
  cases p s with
  | none => exact Iff.rfl
  | some a => exact Iff.rfl

/-! ## Serving a fault -/

theorem pageFaultHadler_iff {q : PtePtr} (hq : walkpgdir s pgdir (pgRoundDown a) = some q) (h0 : s.pte q ≠ 0) :
    wp (pageFaultHadler pgdir a) (fun r t => r = false ∧ Unchanged s t) (fun _ => False) s ↔
      wp kalloc (fun r t => r = none ∧ Unchanged s t) (fun _ => False) s := by
  unfold pageFaultHadler
  rw [wp_bind, wp_follow, hq]
  dsimp only
  rw [wp_bind, wp_read, if_neg h0, wp_bind]
  constructor
  · refine fun h => h.imp fun r t ht => ?_
    cases r with
    | none => exact ⟨rfl, ht.2⟩
    | some newPage =>
      rw [wp_bind, wp_read, wp_bind, wp_read, wp_bind, wp_emit, wp_bind] at ht
      obtain ⟨_, _, ht⟩ := ht.returns
      rw [wp_bind] at ht
      obtain ⟨_, _, ht⟩ := ht.returns
      rw [wp_bind, wp_modify, wp_pure] at ht
      exact absurd ht.1 (by decide)
  · refine fun h => h.imp fun r t ht => ?_
    obtain ⟨rfl, ht⟩ := ht
    exact ⟨rfl, ht⟩

theorem refuses_iff : Refuses s pgdir a ↔
    wp (pageFaultHadler pgdir a) (fun r t => r = false ∧ Unchanged s t) (fun _ => False) s := by
  refine ⟨fun h => h.1, fun h => ⟨h, ?_⟩⟩
  unfold trapFault
  rw [wp_bind]
  refine h.imp fun r t ht => ?_
  obtain ⟨rfl, ht⟩ := ht
  exact ⟨rfl, ht⟩

/-! ## `reclaim` -/

theorem wp_true {α : Type} (c : K α) (s : Kern) : wp c (fun _ _ => True) (fun _ => True) s := by
  unfold wp
  split <;> trivial

theorem unlinkHead_only (f : Frame) : wp (unlinkHead f) (fun _ t => LruOnly s t) (fun _ => True) s := by
  unfold unlinkHead
  rw [wp_bind, wp_modify, wp_bind, wp_follow]
  split
  · rw [wp_bind, wp_modify, wp_bind, wp_follow]
    split
    · rw [wp_bind, wp_modify]
      exact Prog.wp_when (fun _ => ⟨_, _, _, rfl⟩) fun _ => ⟨_, _, _, rfl⟩
    · trivial
  · trivial

theorem unlinkHead_iff (f : Frame) : wp (unlinkHead f) (fun _ _ => True) (fun _ => False) s ↔
    (s.pages f).next ≠ none ∧ (s.pages f).prev ≠ none := by
  unfold unlinkHead
  rw [wp_bind, wp_modify, wp_bind, wp_follow]
  cases hn : (s.pages f).next with
  | none => exact ⟨fun h => h.elim, fun h => absurd rfl h.1⟩
  | some n =>
    dsimp only
    rw [wp_bind, wp_modify, wp_bind, wp_follow]
    have hp : (({ s with pageLruHead := some n }.setPrev n (s.pages f).prev).pages f).prev = (s.pages f).prev := by
      rw [setPrev_prev]
      exact ite_self _
    rw [hp]
    cases hprev : (s.pages f).prev with
    | none => exact ⟨fun h => h.elim, fun h => absurd rfl h.2⟩
    | some p =>
      refine ⟨fun _ => ⟨Option.some_ne_none n, Option.some_ne_none p⟩, fun _ => ?_⟩
      dsimp only
      rw [wp_bind, wp_modify]
      exact Prog.wp_when (fun _ => trivial) fun _ => trivial

theorem clear_accessed (e : Pte) : e &&& ~~~pteA &&& pteA = 0 := by
  rw [BitVec.and_assoc, BitVec.and_comm _ pteA, BitVec.and_not_self]
  exact BitVec.and_zero

theorem clockScan_cleared (r : PtePtr) : ∀ (n : Nat) (s : Kern), s.pte r &&& pteA = 0 →
    wp (clockScan n) (fun _ t => t.pte r &&& pteA = 0) (fun _ => True) s
  | 0, _, _     => trivial
  | n + 1, s, h => by
    unfold clockScan
    rw [wp_bind, wp_follow]
    split
    · rw [wp_bind, wp_follow]
      split
      · rw [wp_bind, wp_follow]
        split
        · rw [wp_bind, wp_read]
          refine Prog.wp_ite (fun _ => ?_) fun _ => h
          rw [wp_bind, wp_modify, wp_bind, wp_modify]
          refine clockScan_cleared r n _ ?_
          change (s.setPte _ _).pte r &&& pteA = 0
          rw [setPte_pte]
          split_ifs with hr
          · exact clear_accessed _
          · exact h
        · trivial
      · trivial
    · trivial

theorem reclaim_frees : wp reclaim (fun b t => b = true → t.freelist ≠ []) (fun _ => True) s := by
  unfold reclaim
  rw [wp_bind, wp_read]
  refine Prog.wp_ite (fun _ h => absurd h Bool.false_ne_true) fun _ => ?_
  rw [wp_bind]
  refine (wp_true _ s).imp fun r t _ => ?_
  rw [wp_bind]
  refine (wp_true _ t).imp fun _ u _ => ?_
  rw [wp_bind, wp_read]
  split
  · exact fun h => absurd h Bool.false_ne_true
  · unfold swapOut
    rw [wp_bind, wp_bind, wp_read, wp_bind]
    refine (wp_true _ u).imp fun _ v _ => ?_
    unfold kfree
    rw [wp_bind]
    refine (wp_true _ v).imp fun _ v _ => ?_
    rw [wp_bind, wp_read, wp_bind, wp_modify, wp_bind, wp_read, wp_bind, wp_emit, wp_bind, wp_emit, wp_bind, wp_read]
    exact Prog.wp_ite (fun _ => trivial) fun _ _ => List.cons_ne_nil _ _

theorem findFree_congr (h : t.bitmap = s.bitmap) : findFreeSwapIndex t = findFreeSwapIndex s := by
  have hcheck : ∀ i, checkBit t i = checkBit s i := fun i => by
    unfold checkBit
    rw [h]
  have hfrom : ∀ n i, findFreeFrom t n i = findFreeFrom s n i := fun n => by
    induction n with
    | zero => exact fun _ => rfl
    | succ n ih =>
      intro i
      unfold findFreeFrom
      rw [hcheck, ih]
  exact hfrom bitmapSize 0

theorem reclaim_marks {head : Frame} {q : PtePtr} {n : Nat} (hA : ¬ s.pte q &&& pteA = 0) :
    ¬ wp (if s.pte q &&& pteA ≠ 0 then do
          Prog.modify (fun s => s.setPte q (s.pte q &&& ~~~pteA))
          Prog.modify (fun s => { s with pageLruHead := (s.pages head).next })
          clockScan n
        else pure (head, q)) (fun r t => wp (do
          unlinkHead r.1
          match ← Prog.read findFreeSwapIndex with
          | none      => pure false
          | some slot =>
            swapOut r.1 r.2 slot
            pure true) (fun b u => b = false ∧ Unchanged s u) (fun _ => False) t) (fun _ => False) s := by
  intro h
  rw [if_pos hA, wp_bind, wp_modify, wp_bind, wp_modify] at h
  have hclear : (s.setPte q (s.pte q &&& ~~~pteA)).pte q &&& pteA = 0 := by
    rw [setPte_pte, if_pos rfl]
    exact clear_accessed _
  obtain ⟨r, _, ht, hr⟩ := (h.and (clockScan_cleared q n _ hclear)).returns
  rw [wp_bind] at ht
  obtain ⟨_, _, hu, honly⟩ := (ht.and (unlinkHead_only r.1)).returns
  rw [wp_bind, wp_read] at hu
  split at hu
  · rw [wp_pure] at hu
    rw [← honly.unchanged.pte q, hu.2.pte q] at hr
    exact hA hr
  · rw [wp_bind] at hu
    obtain ⟨_, _, hv⟩ := hu.returns
    exact absurd hv.1 (by decide)

/-- **`reclaim` fails and changes nothing** where it cannot evict the head of the list. -/
theorem reclaim_iff : wp reclaim (fun b t => b = false ∧ Unchanged s t) (fun _ => False) s ↔
    s.numLruPages = 0 ∨ findFreeSwapIndex s = none ∧ HeadIdle s := by
  unfold reclaim
  rw [wp_bind, wp_read]
  by_cases hn : s.numLruPages = 0
  · rw [if_pos hn]
    exact ⟨fun _ => .inl hn, fun _ => ⟨rfl, Unchanged.refl s⟩⟩
  · rw [if_neg hn, wp_bind]
    constructor
    · refine fun h => .inr ?_
      unfold clockScan at h
      rw [wp_bind, wp_follow] at h
      split at h
      · rename_i head hhead
        rw [wp_bind, wp_follow] at h
        split at h
        · rename_i D hD
          rw [wp_bind, wp_follow] at h
          split at h
          · rename_i q hq
            rw [wp_bind, wp_read] at h
            by_cases hA : s.pte q &&& pteA = 0
            · rw [if_neg (not_not.2 hA), wp_pure, wp_bind] at h
              have hlink := (unlinkHead_iff head).1 (h.imp fun _ _ _ => trivial)
              obtain ⟨_, _, ht, honly⟩ := (h.and (unlinkHead_only head)).returns
              have hfind := findFree_congr honly.unchanged.2.1
              rw [wp_bind, wp_read, hfind] at ht
              cases hs : findFreeSwapIndex s with
              | none => exact ⟨rfl, head, D, q, hhead, hD, hq, hA, hlink⟩
              | some slot =>
                rw [hs, wp_bind] at ht
                obtain ⟨_, _, ht⟩ := ht.returns
                exact absurd ht.1 (by decide)
            · exact absurd h (reclaim_marks hA)
          · exact h.elim
        · exact h.elim
      · exact h.elim
    · rintro (h0 | ⟨hs, head, D, q, hhead, hD, hq, hA, hlink⟩)
      · exact absurd h0 hn
      · unfold clockScan
        rw [wp_bind, wp_follow, hhead]
        dsimp only
        rw [wp_bind, wp_follow, hD]
        dsimp only
        rw [wp_bind, wp_follow, hq]
        dsimp only
        rw [wp_bind, wp_read, if_neg (not_not.2 hA), wp_pure, wp_bind]
        refine (((unlinkHead_iff head).2 hlink).and (unlinkHead_only head)).imp fun _ t ht => ?_
        rw [wp_bind, wp_read, findFree_congr ht.2.unchanged.2.1, hs]
        exact ⟨rfl, ht.2.unchanged⟩

theorem kalloc_iff : wp kalloc (fun r t => r = none ∧ Unchanged s t) (fun _ => False) s ↔ OutOfMemory s := by
  unfold kalloc OutOfMemory
  rw [← reclaim_iff]
  unfold kallocLoop
  rw [wp_bind, wp_read]
  cases hfree : s.freelist with
  | cons f l => 
    constructor
    · intro h
      exact absurd h.1 (Option.some_ne_none f)
    · rintro ⟨h, -⟩
      cases h
  | nil =>
    dsimp only
    rw [wp_bind]
    constructor
    · refine fun h => ⟨rfl, (h.and reclaim_frees).imp fun b t ht => ?_⟩
      cases b with
      | false => exact ⟨rfl, ht.1.2⟩
      | true =>
        obtain ⟨hloop, hne⟩ := ht
        unfold kallocLoop at hloop
        rw [if_pos rfl, wp_bind, wp_read] at hloop
        obtain ⟨f, l, hf⟩ := List.exists_cons_of_ne_nil (hne rfl)
        rw [hf] at hloop
        exact absurd hloop.1 (Option.some_ne_none f)
    · refine fun h => h.2.imp fun b t ht => ?_
      obtain ⟨rfl, ht⟩ := ht
      exact ⟨rfl, ht⟩

/-- **A fault is refused** where its PTE is there and zero, or no page can be had to serve it; whether the page was
swapped out makes no difference. -/
theorem refuses_spec (s : Kern) (pgdir : Frame) (a : Addr) : Refuses s pgdir a ↔
    ∃ q, walkpgdir s pgdir (pgRoundDown a) = some q ∧ (s.pte q = 0 ∨ OutOfMemory s) := by
  rw [refuses_iff]
  cases hq : walkpgdir s pgdir (pgRoundDown a) with
  | none =>
    refine ⟨fun hw => ?_, fun ⟨q, he, _⟩ => by cases he⟩
    unfold pageFaultHadler at hw
    rw [wp_bind, wp_follow, hq] at hw
    exact hw.elim
  | some q =>
    by_cases h0 : s.pte q = 0
    · refine ⟨fun _ => ⟨q, rfl, .inl h0⟩, fun _ => ?_⟩
      unfold pageFaultHadler
      rw [wp_bind, wp_follow, hq]
      dsimp only
      rw [wp_bind, wp_read, if_pos h0]
      exact ⟨rfl, Unchanged.refl s⟩
    · rw [pageFaultHadler_iff hq h0, kalloc_iff]
      refine ⟨fun hm => ⟨q, rfl, .inr hm⟩, ?_⟩
      rintro ⟨r, he, hr⟩
      cases he
      exact hr.resolve_left h0

/-- There is no page table for the address. -/
theorem bss_not_refused : NotSwapped bss 0#20 0#32 ∧ ¬ Refuses bss 0#20 0#32 := by
  have hq : walkpgdir bss 0#20 (pgRoundDown 0#32) = none := by
    have hzero : bss.pte (0#20, pdx (pgRoundDown 0#32)) = 0 := wordAt_zeroPage _
    unfold walkpgdir
    rw [hzero, if_neg not_present_zero]
  refine ⟨fun q h => ?_, fun h => ?_⟩
  · rw [hq] at h
    cases h
  · obtain ⟨q, h, -⟩ := (refuses_spec bss 0#20 0#32).1 h
    rw [hq] at h
    cases h

end Swap
end Xv6
