import Xv6.Vm.Undo
/-!
# Vm.Pick — the area that munmap takes away

`munmap` takes the first own area that reaches the address, and an area reaches the address at which it ends.  Among
areas that lie apart it takes the one that holds the address, unless one that ends there stands before it.
-/
namespace Xv6
namespace Vm

open Mem
open Sched (nproc)

variable {s t : Sys} {p : Fin nproc} {i j : Fin nmaps} {g : Space} {addr x : Addr}

/-- The own areas of `p` are whole pages and lie apart, and `kfree` takes the frames of their pages. -/
structure Owns (s : Sys) (p : Fin nproc) (g : Space) : Prop where
  locked : s.locked = false
  pgdir  : s.pgdir p = some g
  whole  : ∀ i, (s.maps i).ownedBy p = true → (s.maps i).addr.toNat % 4096 = 0 ∧ (s.maps i).length.toNat % 4096 = 0 ∧
    (s.maps i).length.toNat < 2147483648
  apart  : ∀ i j x, (s.maps i).ownedBy p = true → (s.maps j).ownedBy p = true → (s.maps i).holds x →
    (s.maps j).holds x → i = j
  frames : ∀ i n, (s.maps i).ownedBy p = true → (s.maps i).holds (n.toNat * 4096) → g.mapped n = true →
    s.phys.kfrees (g.frame n) = true

/-- The area `i` is gone, its pages that were there are unmapped and their frames freed, and nothing else is different. -/
structure Removed (p : Fin nproc) (g : Space) (i : Fin nmaps) (s t : Sys) : Prop where
  maps     : t.maps = fun j => if j = i then Area.cleared else s.maps j
  pgdir    : ∃ g', t.pgdir = (fun q => if q = p then some g' else s.pgdir q) ∧ g'.dir = g.dir ∧ g'.pde = g.pde ∧
    (∀ n, (s.maps i).holds (n.toNat * 4096) → g'.mapped n = false) ∧
    ∀ n, ¬ ((s.maps i).holds (n.toNat * 4096) ∧ g.mapped n = true) → g'.pte n = g.pte n
  freelist : t.phys.freelist = (((s.maps i).nums.filter g.mapped).map g.frame).reverse ++ s.phys.freelist
  procs    : t.tab = s.tab ∧ t.sz = s.sz ∧ t.kstack = s.kstack ∧ t.ofile = s.ofile ∧ t.file = s.file
  locked   : t.locked = s.locked

/-- What `munmap` is to do with the address `x`: take away the area that holds it, if there is one. -/
def Removes (s : Sys) (p : Fin nproc) (g : Space) (addr : Addr) : Prop :=
  (∀ i, (s.maps i).ownedBy p = true → (s.maps i).holds (addr + mmapBase).toNat →
    (munmap p addr s).res = .ok 1 ∧ Removed p g i s (munmap p addr s).st) ∧
  ((∀ i, (s.maps i).ownedBy p = true → ¬ (s.maps i).holds (addr + mmapBase).toNat) →
    (munmap p addr s).res = .ok (-1) ∧ (munmap p addr s).st = s)

/-- **The condition**: an area that holds `x` ends below the end of memory, and where an own area ends at `x`, one that
holds `x` stands before it. -/
def Picks (s : Sys) (p : Fin nproc) (x : Addr) : Prop :=
  (∀ i, (s.maps i).ownedBy p = true → (s.maps i).holds x.toNat →
    (s.maps i).addr.toNat + (s.maps i).length.toNat < 4294967296) ∧
  ∀ j, (s.maps j).ownedBy p = true → (s.maps j).addr.toNat + (s.maps j).length.toNat = x.toNat →
    ∃ i < j, (s.maps i).ownedBy p = true ∧ (s.maps i).holds x.toNat

/-! ## The test -/

theorem reaches_iff {a : Area} : a.reaches p x = true ↔ a.ownedBy p = true ∧
    (a.holds x.toNat ∧ a.addr.toNat + a.length.toNat < 4294967296 ∨ a.addr.toNat + a.length.toNat = x.toNat) := by
  have hx := x.isLt
  have ha := a.addr.isLt
  have hl := a.length.isLt
  unfold Area.reaches Area.holds
  rw [Bool.and_eq_true, Bool.and_eq_true, decide_eq_true_eq, decide_eq_true_eq, BitVec.le_def, BitVec.le_def,
    BitVec.toNat_add]
  constructor
  · rintro ⟨h, hown⟩
    exact ⟨hown, by omega⟩
  · rintro ⟨hown, h⟩
    exact ⟨by omega, hown⟩

theorem Owns.found (h : Owns s p g) (hp : Picks s p x) (hi : (s.maps i).ownedBy p = true) (hx : (s.maps i).holds x.toNat) :
    s.findArea (Area.reaches p x) = some i := by
  refine findArea_some.2 ⟨reaches_iff.2 ⟨hi, .inl ⟨hx, hp.1 i hi hx⟩⟩, fun j hj => ?_⟩
  cases hr : (s.maps j).reaches p x with
  | false => rfl
  | true =>
    obtain ⟨hown, ⟨hxj, -⟩ | hend⟩ := reaches_iff.1 hr
    · exact absurd hj (by rw [h.apart j i _ hown hi hxj hx]; exact lt_irrefl i)
    · obtain ⟨k, hk, hkown, hkx⟩ := hp.2 j hown hend
      rw [h.apart k i _ hkown hi hkx hx] at hk
      exact absurd (hk.trans hj) (lt_irrefl i)

/-! ## munmap -/

theorem Owns.flat (h : Owns s p g) (hi : (s.maps i).reaches p x = true) : (s.maps i).Flat :=
  ⟨(h.whole i (reaches_iff.1 hi).1).1, (h.whole i (reaches_iff.1 hi).1).2.1, reaches_fits hi,
    (h.whole i (reaches_iff.1 hi).1).2.2⟩

theorem Owns.removed (h : Owns s p g) (hi : s.findArea (Area.reaches p (addr + mmapBase)) = some i) :
    (munmap p addr s).res = .ok 1 ∧ Removed p g i s (munmap p addr s).st := by
  have hreach := (findArea_some.1 hi).1
  have hown := (reaches_iff.1 hreach).1
  have hflat := h.flat hreach
  obtain ⟨v, hres, hst, hun⟩ := munmap_run h.locked hi h.pgdir hflat fun n hn =>
    h.frames i n hown (hflat.mem_nums.1 (List.mem_filter.1 hn).1) (List.mem_filter.1 hn).2
  refine ⟨hres, ?_⟩
  rw [hst]
  refine ⟨?_, ⟨_, hun.pgdir, rfl, rfl, fun n hn => ?_, fun n hn => drop_not_mem fun hin => hn ?_⟩, hun.freelist, ?_, ?_⟩
  · funext j
    show (if j = i then _ else v.maps j) = _
    rw [hun.maps]
    rfl
  · by_cases hm : g.mapped n = true
    · exact mapped_drop (List.mem_filter.2 ⟨hflat.mem_nums.2 hn, hm⟩)
    · rw [mapped_drop_not fun hin => hm (List.mem_filter.1 hin).2]
      exact Bool.eq_false_iff.2 hm
  · exact ⟨hflat.mem_nums.1 (List.mem_filter.1 hin).1, (List.mem_filter.1 hin).2⟩
  · obtain ⟨h1, h2, h3, h4, h5⟩ := hun.procs
    exact ⟨h1, h2, h3, h4, h5⟩
  · exact h.locked.symm

/-- A process that has mapped two pages, first the one at `a` and then the one at `b`. -/
def mapTwo (a b : Word) : Sys :=
  (Prog.forEach [a, b] (fun addr => do let _ ← mmap 0 addr 4096 protRead 0 3 0) sample).st

theorem sampleSpace_mapped (n : Frame) : sampleSpace.mapped n = false := by
  have hz : ¬ present (sampleSpace.pte n) := not_present_zero
  unfold Space.mapped
  rw [decide_eq_false hz, Bool.and_false]

theorem owns_two {a b : Word} (hl : (mapTwo a b).locked = false) (hg : (mapTwo a b).pgdir 0 = some sampleSpace)
    (h0 : ((mapTwo a b).maps 0).addr = a + mmapBase ∧ ((mapTwo a b).maps 0).length = 4096#32)
    (h1 : ((mapTwo a b).maps 1).addr = b + mmapBase ∧ ((mapTwo a b).maps 1).length = 4096#32)
    (hother : ∀ k : Fin nmaps, ((mapTwo a b).maps k).ownedBy 0 = true → k = 0 ∨ k = 1)
    (ha : (a + mmapBase).toNat % 4096 = 0) (hb : (b + mmapBase).toNat % 4096 = 0) (hab : a + mmapBase ≠ b + mmapBase) :
    Owns (mapTwo a b) 0 sampleSpace where
  locked := hl
  pgdir := hg
  whole i hi := by
    rcases hother i hi with rfl | rfl
    · rw [h0.1, h0.2]
      exact ⟨ha, by decide, by decide⟩
    · rw [h1.1, h1.2]
      exact ⟨hb, by decide, by decide⟩
  apart i j x hi hj hx hy := by
    have hne : (a + mmapBase).toNat ≠ (b + mmapBase).toNat := fun he => hab (BitVec.eq_of_toNat_eq he)
    have hlen : (4096#32).toNat = 4096 := rfl
    unfold Area.holds at hx hy
    rcases hother i hi with rfl | rfl <;> rcases hother j hj with rfl | rfl
    · rfl
    · rw [h0.1, h0.2, hlen] at hx
      rw [h1.1, h1.2, hlen] at hy
      omega
    · rw [h1.1, h1.2, hlen] at hx
      rw [h0.1, h0.2, hlen] at hy
      omega
    · rfl
  frames i n _ _ hm := by
    rw [sampleSpace_mapped] at hm
    cases hm

end Vm
end Xv6
