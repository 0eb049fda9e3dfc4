import Xv6.Vm.Space
/-!
# Vm.Freemem — the counter of free pages

`kinit1`, `kinit2` and `freerange` (kalloc.c), and `freemem` (vm.c).  `kfree` counts up with every page it takes; `kalloc`
counts down with every call, also with one that finds no page.  So the counter is exact in the runs whose allocations all
find a page, and whose pages are not freed twice.
-/
namespace Xv6
namespace Vm

open Mem

/-- `V2P` of a page. -/
def v2p (p : Addr) : Frame := pageNum (p - kernbase)

/-- `freerange`'s loop. -/
def freerangeLoop : Nat → Addr → Addr → V Unit
  | 0, _, _ => Prog.stop .diverge
  | n + 1, p, vend => do
    if p + pgsize ≤ vend then
      kfree (v2p p)
      freerangeLoop n (p + pgsize) vend
    else pure ()

def freerange (vstart vend : Addr) : V Unit := freerangeLoop maxPages (pgRoundUp vstart) vend

/-- `kinit1` and `kinit2`, which differ in their use of the lock. -/
def kinit1 (vstart vend : Addr) : V Unit := freerange vstart vend
def kinit2 (vstart vend : Addr) : V Unit := freerange vstart vend

def freemem : V Int := Prog.read (·.freemems)

inductive MemCall where
  | kinit1 (vstart vend : Addr)
  | kinit2 (vstart vend : Addr)
  | kalloc
  | kfree (f : Frame)

def memStep : MemCall → V Unit
  | .kinit1 vstart vend => Vm.kinit1 vstart vend
  | .kinit2 vstart vend => Vm.kinit2 vstart vend
  | .kalloc             => do let _ ← Vm.kalloc
  | .kfree f            => Vm.kfree f

def memRun (calls : List MemCall) : V Unit := Prog.forEach calls memStep

/-- The pages on `kmem.freelist`. -/
def Phys.nfree (s : Phys) : Nat := s.freelist.dedup.length

/-- The page starts in the range from `p` on and ends in it. -/
def inRange (p vend : Addr) (f : Frame) : Prop := p ≤ p2v f ∧ p2v f + pgsize ≤ vend

/-- The call allocates a page that is there, or frees pages that are not free yet. -/
def Fresh (s : Phys) : MemCall → Prop
  | .kinit1 vstart vend => ∀ f ∈ s.freelist, ¬ inRange (pgRoundUp vstart) vend f
  | .kinit2 vstart vend => ∀ f ∈ s.freelist, ¬ inRange (pgRoundUp vstart) vend f
  | .kalloc             => s.freelist ≠ []
  | .kfree f            => s.freelist.contains f = false

instance (p vend : Addr) (f : Frame) : Decidable (inRange p vend f) := inferInstanceAs (Decidable (_ ∧ _))

instance (s : Phys) : ∀ c : MemCall, Decidable (Fresh s c)
  | .kinit1 _ _ => List.decidableBAll _ _
  | .kinit2 _ _ => List.decidableBAll _ _
  | .kalloc     => inferInstanceAs (Decidable (s.freelist ≠ []))
  | .kfree f    => inferInstanceAs (Decidable (s.freelist.contains f = false))

/-- The list has no page twice and as many as the counter says. -/
structure Counted (s : Phys) : Prop where
  nodup : s.freelist.Nodup
  count : s.freemems = s.freelist.length

variable {s : Phys}

theorem Counted.exact (h : Counted s) : s.freemems = s.nfree := by
  unfold Phys.nfree
  rw [h.nodup.dedup, h.count]

theorem p2v_v2p {p : Addr} (hp : p.toNat % 4096 = 0) : p2v (v2p p) = p := by
  have hk : (p - kernbase).toNat % 4096 = 0 := by
    rw [BitVec.toNat_sub]
    show (4294967296 - 2147483648 + p.toNat) % 4294967296 % 4096 = 0
    omega
  have haddr : frameAddr (v2p p) = p - kernbase := frameAddr_pageNum hk
  unfold p2v
  rw [haddr]
  exact BitVec.sub_add_cancel p kernbase

theorem kfrees_toNat {p : Addr} (hp : p.toNat % 4096 = 0) (hk : s.kfrees (v2p p) = true) :
    (p + pgsize).toNat = p.toNat + 4096 := by
  have haddr : frameAddr (v2p p) < phystop := by
    unfold Phys.kfrees at hk
    simp only [Bool.not_eq_true', decide_eq_false_iff_not, not_or, BitVec.not_le] at hk
    exact hk.2
  have hp' := p2v_v2p hp
  unfold p2v at hp'
  generalize frameAddr (v2p p) = a at haddr hp'
  have h1 : a.toNat < 234881024 := haddr
  have h2 : p.toNat = (a.toNat + 2147483648) % 4294967296 := by rw [← hp', BitVec.toNat_add]; rfl
  exact toNat_nextPage (by omega)

/-! ## One call -/

theorem Counted.kfree {f : Frame} (h : Counted s) (hf : f ∉ s.freelist) : Counted (kfree f s).st := by
  rw [kfree_run]
  split
  · exact ⟨List.nodup_cons.2 ⟨hf, h.nodup⟩, by simp [h.count]⟩
  · exact h

theorem Counted.kalloc (h : Counted s) (hs : s.freelist ≠ []) : Counted (kalloc s).st := by
  cases hl : s.freelist with
  | nil => exact absurd hl hs
  | cons f l =>
    have hrun : (Vm.kalloc s).st = { s with freelist := l, freemems := s.freemems - 1 } := by
      unfold Vm.kalloc
      rw [Prog.read_bind_run, hl]
      rfl
    have hn := h.nodup
    rw [hl] at hn
    rw [hrun]
    exact ⟨(List.nodup_cons.1 hn).2, by rw [h.count, hl]; simp⟩

theorem Counted.freerangeLoop (vend : Addr) : ∀ (n : Nat) (p : Addr) (s : Phys), p.toNat % 4096 = 0 → Counted s →
    (∀ f ∈ s.freelist, ¬ inRange p vend f) → Counted (freerangeLoop n p vend s).st := by
  intro n
  induction n with
  | zero => exact fun _ _ _ h _ => h
  | succ n ih =>
    intro p s hp h hfree
    unfold Vm.freerangeLoop
    split
    case isFalse => exact h
    case isTrue hle =>
      have hnot : v2p p ∉ s.freelist := fun hm =>
        hfree _ hm ⟨by rw [p2v_v2p hp]; exact BitVec.le_refl p, by rwa [p2v_v2p hp]⟩
      have hc := h.kfree hnot
      rw [kfree_run] at hc
      cases hk : s.kfrees (v2p p) with
      | false =>
        have hrun := (kfree_run (v2p p) s).trans (if_neg (ne_true_of_eq_false hk))
        rw [Prog.bind_run_error hrun]
        exact h
      | true =>
        have hrun := (kfree_run (v2p p) s).trans (if_pos hk)
        rw [Prog.bind_run_ok hrun]
        rw [if_pos hk] at hc
        have hnext := kfrees_toNat hp hk
        refine ih _ _ (by omega) hc (fun f hf hr => ?_)
        have hpf : p.toNat + 4096 ≤ (p2v f).toNat := hnext ▸ hr.1
        rcases List.mem_cons.1 hf with rfl | hf
        · rw [p2v_v2p hp] at hpf
          omega
        · exact hfree f hf ⟨by rw [BitVec.le_def]; omega, hr.2⟩

theorem Counted.freerange {vstart vend : Addr} (h : Counted s)
    (hfree : ∀ f ∈ s.freelist, ¬ inRange (pgRoundUp vstart) vend f) : Counted (freerange vstart vend s).st :=
  Counted.freerangeLoop vend _ _ s (pgRoundUp_aligned vstart) h hfree

theorem Counted.step {c : MemCall} (h : Counted s) (hc : Fresh s c) : Counted (memStep c s).st := by
  cases c with
  | kinit1 vstart vend =>
    have hstep : memStep (.kinit1 vstart vend) = Vm.freerange vstart vend := rfl
    rw [hstep]
    exact h.freerange hc
  | kinit2 vstart vend =>
    have hstep : memStep (.kinit2 vstart vend) = Vm.freerange vstart vend := rfl
    rw [hstep]
    exact h.freerange hc
  | kalloc =>
    have hk := h.kalloc hc
    have hstep : memStep .kalloc = (Vm.kalloc >>= fun _ => pure ()) := rfl
    rw [hstep, Prog.bind_run]
    rcases hr : Vm.kalloc s with ⟨_ | _, t, tr⟩ <;> rw [hr] at hk <;> exact hk
  | kfree f =>
    refine h.kfree fun hm => ?_
    have hcon := List.contains_iff_mem.2 hm
    rw [hc] at hcon
    cases hcon

/-- **The counter is exact**: in every state of a run whose allocations all find a page and whose pages are not freed
twice, `freemem` returns the number of pages on the list. -/
theorem run_counted (s : Phys) (hs : s.freelist = [] ∧ s.freemems = 0) (calls : List MemCall)
    (hc : Prog.Admits Fresh memStep calls s) :
    (freemem (memRun calls s).st).res = .ok ((memRun calls s).st.nfree : Int) := by
  have h0 : Counted s := ⟨by rw [hs.1]; exact List.nodup_nil, by rw [hs.1, hs.2]; rfl⟩
  have hrun := Prog.forEach_admits (I := Counted) (R := fun _ => True)
    (fun c s h hc => ⟨fun _ _ => trivial, h.step hc⟩) calls s h0 hc
  exact congrArg Except.ok hrun.2.exact

/-- The memory before `kinit1`, with the kernel's end at 0x80100000. -/
def bare : Phys := ⟨fun _ => zeroPage, [], 0, 0x80100000#32, 0x80100000#32⟩

def onePage : List MemCall := [.kinit1 0x80100000#32 0x80101000#32, .kalloc, .kfree 256#20]

theorem onePage_counted : (freemem (memRun onePage bare).st).res = .ok ((memRun onePage bare).st.nfree : Int) :=
  run_counted bare ⟨rfl, rfl⟩ onePage (by decide +kernel)

/-- One page, allocated twice: the second call fails, and the counter says -1. -/
theorem allocTwice_negative : (freemem (memRun [.kinit1 0x80100000#32 0x80101000#32, .kalloc, .kalloc] bare).st).res =
    .ok (-1) ∧ (memRun [.kinit1 0x80100000#32 0x80101000#32, .kalloc, .kalloc] bare).st.nfree = 0 := by
  decide +kernel

end Vm
end Xv6
