import Xv6.Swap.Clock
/-!
# Swap.Reclaim — the LRU list after `reclaim`

`reclaim` unlinks its victim by hand, does not count it off, and looks for a swap slot afterwards.
-/
namespace Xv6
namespace Swap

open Mem
open Prog (Quiet)

/-- `l` is linked from the head on, whatever is counted. -/
def Threaded (s : Kern) : List Frame → Prop
  | []     => s.pageLruHead = none
  | h :: l => s.pageLruHead = some h ∧ OnRing s h l

/-- The other pages of the list, from the one behind `f` on. -/
def others (l : List Frame) (f : Frame) : List Frame := (l.rotate (l.idxOf f)).tail

variable {s t : Kern} {q : Frame → PtePtr} {f h : Frame} {l l' l₁ l₂ : List Frame}

theorem lruList_iff : LruList s l ↔ Threaded s l ∧ s.numLruPages = l.length := by
  cases l with
  | nil => exact Iff.rfl
  | cons h l => exact and_assoc.symm

theorem others_append (hf : f ∉ l₁) : others (l₁ ++ f :: l₂) f = l₂ ++ l₁ := by
  unfold others
  rw [List.idxOf_append_of_notMem hf, List.idxOf_cons_self, Nat.add_zero, List.rotate_append_length_eq]
  rfl

theorem OnRing.others (hr : OnRing s h l) (hf : f ∈ h :: l) : OnRing s f (others (h :: l) f) := by
  obtain ⟨l₁, l₂, hl⟩ := List.append_of_mem hf
  have hnd : (l₁ ++ f :: l₂).Nodup := hl ▸ hr.nodup
  have hf₁ : f ∉ l₁ := fun hm => (List.nodup_append.1 hnd).2.2 f hm f List.mem_cons_self rfl
  rw [hl, others_append hf₁]
  cases l₁ with
  | nil =>
    obtain ⟨rfl, rfl⟩ := List.cons.inj hl
    rwa [List.append_nil]
  | cons g l₁ =>
    obtain ⟨rfl, rfl⟩ := List.cons.inj hl
    exact hr.rotate

theorem Threaded.mem (hl : Threaded s l) (hl' : Threaded s l') (hf : f ∈ l') : f ∈ l := by
  cases l' with
  | nil => cases hf
  | cons h' l' =>
    cases l with
    | nil =>
      have hnone : none = some h' := (show s.pageLruHead = none from hl).symm.trans hl'.1
      cases hnone
    | cons h l =>
      obtain rfl : h = h' := Option.some.inj (hl.1.symm.trans hl'.1)
      exact hl.2.mem_of_mem hl'.2 hf

theorem Threaded.congr (hl : Threaded s l) (hp : t.pages = s.pages) (hh : t.pageLruHead = s.pageLruHead) : Threaded t l := by
  cases l with
  | nil => exact hh.trans hl
  | cons h l =>
    refine ⟨hh.trans hl.1, hl.2.congr (fun f _ => ?_) (fun f _ => ?_)⟩
    · rw [hp]
    · rw [hp]

/-! ## What the eviction keeps -/

def lruView (s : Kern) : (Frame → PageInfo) × Option Frame × Int := (s.pages, s.pageLruHead, s.numLruPages)

section Keeps

variable {ρ : Type} {π : Kern → ρ}

theorem follow_quiet {α : Type} (p : Kern → Option α) : Quiet π (fun _ => True) (follow p) := by
  refine Quiet.bind (Quiet.read p) fun o => ?_
  cases o with
  | none => exact Quiet.stop _
  | some a => exact Quiet.pure a

theorem lockedFault_quiet (a : Addr) : Quiet π (fun _ => True) (lockedFault a) := by
  intro s
  obtain ⟨e, h⟩ := lockedFault_run a s
  rw [h]
  exact ⟨rfl, fun _ hx => absurd hx List.not_mem_nil⟩

theorem touch_quiet (a : Addr) : Quiet π (fun _ => True) (touch lockedFault a) := by
  refine Quiet.bind (Quiet.read _) fun o => ?_
  cases o with
  | none => exact lockedFault_quiet a
  | some f => exact Quiet.pure ()

theorem copyIn_quiet (a : Addr) : Quiet π (fun _ => True) (copyIn lockedFault a) :=
  Quiet.bind (touch_quiet a) (fun _ => Quiet.bind (Quiet.read _) (fun _ => Quiet.ite (fun _ => Quiet.pure _)
    (fun _ => Quiet.bind (touch_quiet _) (fun _ => Quiet.bind (Quiet.read _) (fun _ => Quiet.pure _)))))

end Keeps

theorem swapwrite_quiet (ptr : Addr) (k : Nat) : Quiet lruView (fun _ => True) (swapwrite lockedFault ptr k) :=
  Quiet.ite (fun _ => Quiet.stop _) (fun _ => Quiet.bind (Quiet.emit trivial) (fun _ => Quiet.forEach blocks
    (fun _ _ => Quiet.bind (copyIn_quiet _) (fun _ => Quiet.modify (fun _ => rfl)))))

theorem kfree_quiet (f : Frame) : Quiet lruView (fun _ => True) (kfree f) :=
  Quiet.bind (Quiet.emit trivial) (fun _ => Quiet.bind (Quiet.read _) (fun _ => Quiet.ite (fun _ => Quiet.stop _)
    (fun _ => Quiet.modify (fun _ => rfl))))

theorem swapOut_quiet (f : Frame) (q : PtePtr) (k : Nat) : Quiet lruView (fun _ => True) (swapOut f q k) :=
  Quiet.bind (Quiet.read _) (fun _ => Quiet.bind (swapwrite_quiet _ _) (fun _ =>
    Quiet.bind (Quiet.modify (fun _ => rfl)) (fun _ => Quiet.bind (Quiet.read _) (fun _ =>
      Quiet.bind (Quiet.modify (fun _ => rfl)) (fun _ => Quiet.bind (Quiet.read _) (fun _ =>
        Quiet.bind (Quiet.emit trivial) (fun _ => kfree_quiet _)))))))

theorem unlinkHead_count (f : Frame) : Quiet Kern.numLruPages (fun _ => True) (unlinkHead f) :=
  Quiet.bind (Quiet.modify (fun _ => rfl)) (fun _ => Quiet.bind (follow_quiet _) (fun _ =>
    Quiet.bind (Quiet.modify (fun _ => rfl)) (fun _ => Quiet.bind (follow_quiet _) (fun _ =>
      Quiet.bind (Quiet.modify (fun _ => rfl)) (fun _ => Quiet.when (fun _ => Quiet.modify (fun _ => rfl)))))))

theorem clockScan_count : ∀ n, Quiet Kern.numLruPages (fun _ => True) (clockScan n)
  | 0     => Quiet.stop _
  | n + 1 => Quiet.bind (follow_quiet _) (fun _ => Quiet.bind (follow_quiet _) (fun _ =>
    Quiet.bind (follow_quiet _) (fun _ => Quiet.bind (Quiet.read _) (fun _ => Quiet.ite
      (fun _ => Quiet.bind (Quiet.modify (fun _ => rfl)) (fun _ => Quiet.bind (Quiet.modify (fun _ => rfl))
        (fun _ => clockScan_count n))) (fun _ => Quiet.pure _)))))

theorem reclaim_count : Quiet Kern.numLruPages (fun _ => True) reclaim := by
  refine Quiet.bind (Quiet.read _) (fun _ => Quiet.ite (fun _ => Quiet.pure _) (fun _ =>
    Quiet.bind (clockScan_count _) (fun r => Quiet.bind (unlinkHead_count r.1) (fun _ =>
      Quiet.bind (Quiet.read _) (fun o => ?_)))))
  cases o with
  | none => exact Quiet.pure _
  | some k =>
    have hout : Quiet Kern.numLruPages (fun _ => True) (swapOut r.1 r.2 k) := (swapOut_quiet r.1 r.2 k).map fun v => v.2.2
    exact Quiet.bind hout (fun _ => Quiet.pure _)

/-! ## One call -/

/-- **Behind the scan**: the victim is off the list, and still counted, when the slot is looked for. -/
theorem reclaim_run (hl : Tracked s (h :: l) q) : ∃ u t, Cleared s q (passed s q (h :: l)) u ∧ LruOnly u t ∧
    Threaded t (others (h :: l) (victim s q h l)) ∧ t.numLruPages = s.numLruPages ∧
    reclaim s = match findFreeSwapIndex s with
      | none      => ⟨.ok false, t, []⟩
      | some slot => (do swapOut (victim s q h l) (q (victim s q h l)) slot; pure true) t := by
  have hnum : s.numLruPages ≠ 0 := by
    rw [hl.list.2.2, List.length_cons]
    omega
  have hlen : (h :: l).length + 1 ≤ npages + 1 := Nat.succ_le_succ (length_le_npages hl.list.2.1.nodup hl.pages)
  obtain ⟨u, hscan, hclear, hhead⟩ := clockScan_victim s q h l hl (npages + 1) hlen
  have hring : OnRing u (victim s q h l) (others (h :: l) (victim s q h l)) := by
    refine (hl.list.2.1.others (victim_mem s q h l)).congr (fun f _ => ?_) (fun f _ => ?_)
    · rw [hclear.pages]
    · rw [hclear.pages]
  obtain ⟨t, hrun, honly, -, hrest⟩ := unlinkHead_run hring
  have hcount : t.numLruPages = u.numLruPages := by
    have hkeep := (unlinkHead_count (victim s q h l) u).1
    rwa [hrun] at hkeep
  have hbits : findFreeSwapIndex t = findFreeSwapIndex s := by
    refine findFree_congr (honly.unchanged.2.1.trans ?_)
    obtain ⟨_, _, rfl⟩ := hclear.rest
    rfl
  refine ⟨u, t, hclear, honly, ?_, ?_, ?_⟩
  · rcases hrest with ⟨hnil, hnone⟩ | ⟨y, l', hcons, hy, hr'⟩
    · rw [hnil]
      exact hnone
    · rw [hcons]
      exact ⟨hy, hr'⟩
  · rw [hcount]
    obtain ⟨_, _, rfl⟩ := hclear.rest
    rfl
  · unfold reclaim
    rw [Prog.read_bind_run, if_neg hnum, Prog.bind_run_nil hscan]
    change (unlinkHead _ >>= _) u = _
    rw [Prog.bind_run_nil hrun, Prog.read_bind_run, hbits]
    cases findFreeSwapIndex s with
    | none => rfl
    | some slot => rfl

theorem reclaim_empty (hl : LruList s []) : reclaim s = ⟨.ok false, s, []⟩ := by
  unfold reclaim
  rw [Prog.read_bind_run, if_pos hl.2]
  rfl

theorem reclaim_headless (hn : s.numLruPages ≠ 0) (hh : s.pageLruHead = none) : (reclaim s).res = .error .wild := by
  have hscan : clockScan (npages + 1) s = ⟨.error .wild, s, []⟩ := by
    unfold clockScan
    exact Prog.bind_run_error (follow_error (p := Kern.pageLruHead) hh)
  unfold reclaim
  rw [Prog.read_bind_run, if_neg hn, Prog.bind_run_error hscan]

/-! ## A failed call -/

/-- As far as the LRU list `l`, the mappings, the bitmap and the free list go, `t` is `s`. -/
structure Intact (s : Kern) (l : List Frame) (t : Kern) : Prop where
  list     : ∃ l', l'.Perm l ∧ LruList t l'
  pte      : ∀ r, t.pte r = s.pte r ∨ t.pte r = s.pte r &&& ~~~pteA
  bitmap   : t.bitmap = s.bitmap
  freelist : t.freelist = s.freelist

/-- A failed `reclaim` loses nothing. -/
def FailsIntact (s : Kern) (l : List Frame) : Prop := (reclaim s).res = .ok false → Intact s l (reclaim s).st

theorem Intact.refl (hl : LruList s l) : Intact s l s := ⟨⟨l, List.Perm.refl l, hl⟩, fun _ => .inl rfl, rfl, rfl⟩

theorem reclaim_slot {slot : Nat} (hl : Tracked s (h :: l) q) (hslot : findFreeSwapIndex s = some slot) :
    (reclaim s).res ≠ .ok false := by
  obtain ⟨_, t, -, -, -, -, hrun⟩ := reclaim_run hl
  rw [hrun, hslot]
  intro hres
  obtain ⟨_, _, hfalse, -⟩ := Prog.bind_ok hres
  cases hfalse

/-- **With none it fails, and the victim is lost.** -/
theorem reclaim_full (hl : Tracked s (h :: l) q) (hfull : findFreeSwapIndex s = none) : ¬ FailsIntact s (h :: l) := by
  obtain ⟨_, t, -, -, hthread, -, hrun⟩ := reclaim_run hl
  rw [hfull] at hrun
  intro hintact
  unfold FailsIntact at hintact
  rw [hrun] at hintact
  obtain ⟨l', hperm, hl'⟩ := (hintact rfl).list
  have hv := victim_mem s q h l
  have hlost : victim s q h l ∉ others (h :: l) (victim s q h l) := (List.nodup_cons.1 (hl.list.2.1.others hv).nodup).1
  exact hlost (hthread.mem (lruList_iff.1 hl').1 (hperm.mem_iff.2 hv))

theorem sample_no_slot : findFreeSwapIndex (sample bitmapSize).kern = none := by
  cases hslot : findFreeSwapIndex (sample bitmapSize).kern with
  | none => rfl
  | some slot =>
    obtain ⟨hlt, hbit⟩ := findFreeSwapIndex_some hslot
    rw [sample_bit, decide_eq_false_iff_not] at hbit
    exact absurd hlt hbit

/-- **A failed `reclaim` loses nothing where the list is empty**, and a page where it is not. -/
theorem reclaim_intact (s : Kern) (l : List Frame) (q : Frame → PtePtr) (hl : Tracked s l q) :
    FailsIntact s l ↔ l = [] ∨ findFreeSwapIndex s ≠ none := by
  cases l with
  | nil =>
    refine iff_of_true (fun _ => ?_) (.inl rfl)
    rw [reclaim_empty hl.list]
    exact Intact.refl hl.list
  | cons h l =>
    cases hslot : findFreeSwapIndex s with
    | none => exact iff_of_false (reclaim_full hl hslot) (by simp)
    | some slot => exact iff_of_true (fun hres => absurd hres (reclaim_slot hl hslot)) (by simp)

theorem sample_intact : FailsIntact (sample bitmapSize).kern [302#20] ↔
    [302#20] = [] ∨ findFreeSwapIndex (sample bitmapSize).kern ≠ none :=
  reclaim_intact (sample bitmapSize).kern [302#20] (fun _ => (301#20, 0)) (sample_tracked bitmapSize)

/-- All the slots are taken, and the one page of the list is lost. -/
theorem sample_loses_page : LruList (sample bitmapSize).kern [302#20] ∧ ¬ FailsIntact (sample bitmapSize).kern [302#20] :=
  ⟨(sample_tracked bitmapSize).list, reclaim_full (sample_tracked bitmapSize) sample_no_slot⟩

/-! ## A call after another -/

/-- `reclaim` returns 1. -/
def Reclaims (s t : Kern) : Prop := (reclaim s).res = .ok true ∧ (reclaim s).st = t

theorem Reclaims.thread (hl : Tracked s (h :: l) q) (hs : Reclaims s t) :
    Threaded t (others (h :: l) (victim s q h l)) ∧ t.numLruPages = s.numLruPages := by
  obtain ⟨hres, rfl⟩ := hs
  refine ⟨?_, (reclaim_count s).1⟩
  obtain ⟨_, u, -, -, hthread, -, hrun⟩ := reclaim_run hl
  cases hslot : findFreeSwapIndex s with
  | none =>
    rw [hrun, hslot] at hres
    cases hres
  | some slot =>
    rw [hslot] at hrun
    have hkeep := (swapOut_quiet (victim s q h l) (q (victim s q h l)) slot u).1
    rw [hrun] at hres ⊢
    obtain ⟨_, _, _, hst, -⟩ := Prog.bind_ok hres
    rw [hst]
    exact hthread.congr (congrArg (fun v => v.1) hkeep) (congrArg (fun v => v.2.1) hkeep)

theorem reclaims_count (h : Relation.ReflTransGen Reclaims s t) : t.numLruPages = s.numLruPages := by
  induction h with
  | refl => rfl
  | tail _ hstep ih =>
    obtain ⟨-, rfl⟩ := hstep
    exact ((reclaim_count _).1).trans ih

theorem sample_reclaims : (reclaim (sample 302).kern).res = .ok true := Prog.res_ok (by decide +kernel)

theorem sample_victim_only (n : Nat) : others [302#20] (victim (sample n).kern (fun _ => (301#20, 0)) 302#20 []) = [] := by
  rw [List.mem_singleton.1 (victim_mem (sample n).kern (fun _ => (301#20, 0)) 302#20 [])]
  rfl

/-- **`reclaim` never leaves a list that is counted right**: the pages linked are those to be, and one more is counted;
and when calls have emptied the list, the next follows its null head. -/
theorem reclaim_miscounts (s : Kern) (q : Frame → PtePtr) (h : Frame) (l : List Frame) (hl : Tracked s (h :: l) q)
    (hres : (reclaim s).res = .ok true) : Threaded (reclaim s).st (others (h :: l) (victim s q h l)) ∧
      ¬ LruList (reclaim s).st (others (h :: l) (victim s q h l)) ∧
      ∀ t, Relation.ReflTransGen Reclaims s t → t.pageLruHead = none → (reclaim t).res = .error .wild := by
  obtain ⟨hthread, hcount⟩ := Reclaims.thread hl ⟨hres, rfl⟩
  have hnum : s.numLruPages = (h :: l).length := hl.list.2.2
  refine ⟨hthread, fun hlist => ?_, fun t hst hh => reclaim_headless ?_ hh⟩
  · have hless : (others (h :: l) (victim s q h l)).length = l.length := by
      unfold others
      rw [List.length_tail, List.length_rotate, List.length_cons, Nat.add_sub_cancel]
    have hright := (lruList_iff.1 hlist).2
    rw [hcount, hnum, hless, List.length_cons] at hright
    omega
  · rw [reclaims_count hst, hnum, List.length_cons]
    omega

theorem sample_emptied : Threaded (reclaim (sample 302).kern).st [] ∧ ¬ LruList (reclaim (sample 302).kern).st [] := by
  obtain ⟨hthread, hlist, -⟩ := reclaim_miscounts (sample 302).kern (fun _ => (301#20, 0)) 302#20 []
    (sample_tracked 302) sample_reclaims
  rw [sample_victim_only] at hthread hlist
  exact ⟨hthread, hlist⟩

/-- One page is evicted: the list is empty, one page is counted, and the next call follows the null head. -/
theorem sample_miscounts : LruList (sample 302).kern [302#20] ∧ (reclaim (sample 302).kern).res = .ok true ∧
    ¬ LruList (reclaim (sample 302).kern).st [] ∧ (reclaim (reclaim (sample 302).kern).st).res = .error .wild := by
  obtain ⟨hthread, hcount⟩ := Reclaims.thread (sample_tracked 302) ⟨sample_reclaims, rfl⟩
  rw [sample_victim_only] at hthread
  have hone : (reclaim (sample 302).kern).st.numLruPages ≠ 0 := by
    rw [hcount]
    decide
  exact ⟨(sample_tracked 302).list, sample_reclaims, fun hl => hone hl.2, reclaim_headless hone hthread⟩

end Swap
end Xv6
