import Xv6.Lib.Prog
/-!
# Sched.Proc — the process table of the CPU-scheduling kernel

`struct proc` and `ptable` (proc.h, proc.c), cut to what the scheduler, the timer and the process life cycle read.
The 64-bit virtual runtime is two unsigned words, and every update of them below is the machine's, modulo `2 ^ 32`.
-/
namespace Xv6
namespace Sched

abbrev nproc : Nat := 64

instance : NeZero nproc := ⟨by decide⟩

abbrev uint := BitVec 32

inductive ProcState where
  | unused | embryo | sleeping | runnable | running | zombie
  deriving DecidableEq, Repr

/-- A sleep channel: an address, which is the null pointer, a slot of the table (`wait` sleeps on its own process) or
any other object. -/
inductive Chan where
  | null
  | proc (p : Fin nproc)
  | obj (a : Nat)
  deriving DecidableEq, Repr

structure Proc where
  state        : ProcState
  pid          : Int
  parent       : Option (Fin nproc)
  chan         : Chan
  killed       : Bool
  nice         : Int
  weight       : Int
  vruntimeHigh : uint
  vruntimeLow  : uint
  aruntime     : uint
  aruntimePrev : uint
  timeslice    : uint

/-- `weights[nice]`, the weight of each nice value. -/
def weights : List Int :=
  [88761, 71755, 56483, 46273, 36291, 29154, 23254, 18705, 14949, 11916, 9548, 7620, 6100, 4904, 3906, 3121, 2501,
   1991, 1586, 1277, 1024, 820, 655, 526, 423, 335, 272, 215, 172, 137, 110, 87, 70, 56, 45, 36, 29, 23, 18, 15]

/-- The table at an index; outside it C leaves the value undefined. -/
def weightAt (nice : Int) : Int := if 0 ≤ nice then weights.getD nice.toNat 0 else 0

/-- `1` when the virtual runtime of `p1` is the larger, as a truth value. -/
def compareVruntime (p1 p2 : Proc) : Bool :=
  if p2.vruntimeHigh < p1.vruntimeHigh then true
  else if p1.vruntimeHigh < p2.vruntimeHigh then false
  else if p2.vruntimeLow < p1.vruntimeLow then true
  else false

/-- `(uint)(1024000 / p->weight)`: the virtual time of one tick. -/
def tickVruntime (p : Proc) : uint := BitVec.ofInt 32 (Int.tdiv 1024000 p.weight)

/-- The number the two words of a virtual runtime stand for. -/
def Proc.vruntime (p : Proc) : Nat := p.vruntimeHigh.toNat * 1000000000 + p.vruntimeLow.toNat

theorem weightAt_mem {nice : Int} (h0 : 0 ≤ nice) (h1 : nice ≤ 39) : weightAt nice ∈ weights := by
  unfold weightAt
  have hlt : nice.toNat < weights.length := by
    have : weights.length = 40 := by decide
    omega
  rw [if_pos h0, List.getD_eq_getElem?_getD, List.getElem?_eq_getElem hlt, Option.getD_some]
  exact List.getElem_mem hlt

theorem weights_bounds : ∀ w ∈ weights, 15 ≤ w ∧ w ≤ 88761 := by decide

/-- **One tick is a positive virtual time far below a carry**, for every weight of the table. -/
theorem tdiv_weight_bounds {w : Int} (h : w ∈ weights) :
    11 ≤ Int.tdiv 1024000 w ∧ Int.tdiv 1024000 w ≤ 68266 := by
  revert w; decide

theorem tickVruntime_toNat {p : Proc} (h : p.weight ∈ weights) :
    (tickVruntime p).toNat = (Int.tdiv 1024000 p.weight).toNat := by
  obtain ⟨h0, h1⟩ := tdiv_weight_bounds h
  unfold tickVruntime
  rw [BitVec.toNat_ofInt]
  omega

theorem tickVruntime_bounds {p : Proc} (h : p.weight ∈ weights) :
    11 ≤ (tickVruntime p).toNat ∧ (tickVruntime p).toNat ≤ 68266 := by
  obtain ⟨h0, h1⟩ := tdiv_weight_bounds h
  rw [tickVruntime_toNat h]
  omega

/-- **On normalised words the comparison is the comparison of the numbers.** -/
theorem compareVruntime_iff {p1 p2 : Proc} (h1 : p1.vruntimeLow.toNat < 1000000000)
    (h2 : p2.vruntimeLow.toNat < 1000000000) : compareVruntime p1 p2 = true ↔ p2.vruntime < p1.vruntime := by
  unfold compareVruntime Proc.vruntime
  simp only [BitVec.lt_def]
  split
  · simp only [true_iff]; omega
  · split
    · simp only [Bool.false_eq_true, false_iff]; omega
    · split
      · simp only [true_iff]; omega
      · simp only [Bool.false_eq_true, false_iff]; omega

end Sched
end Xv6
