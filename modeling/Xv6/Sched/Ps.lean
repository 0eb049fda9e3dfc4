import Xv6.Io.Printf
import Xv6.Sched.Weights
/-!
# Sched.Ps — what `ps` prints (proc.c)

The lines that `ps` takes from the table are `Sched.ps`; here are their characters.  The names of the processes and
`ticks` are not in the table.
-/
namespace Xv6
namespace Sched

open Printf (cprintf Arg)

structure PsState where
  tab   : State
  name  : Fin nproc → List Char
  ticks : uint

def getDigitCount (num : Int) : Nat := if h : num = 0 then 0 else getDigitCount (num.tdiv 10) + 1
termination_by num.natAbs
decreasing_by
  rw [Int.natAbs_tdiv]
  exact Nat.div_lt_self (Int.natAbs_pos.2 h) (by decide)

theorem toNat_pos {n : uint} : 0 < n.toNat ↔ n ≠ 0 := by
  rw [Nat.pos_iff_ne_zero]
  exact not_congr ⟨fun h => BitVec.eq_of_toNat_eq h, fun h => h ▸ rfl⟩

theorem toNat_sub_one {n : uint} (h : n ≠ 0) : (n - 1).toNat + 1 = n.toNat := by
  have hone : (1 : uint) ≤ n := toNat_pos.2 h
  rw [BitVec.toNat_sub_of_le hone]
  exact Nat.sub_add_cancel (toNat_pos.2 h)

/-- `while (n--) cprintf("0")`: a negative count comes to 0 once it has wrapped. -/
def zeros (n : uint) : List Char := if n = 0 then [] else cprintf "0" [] ++ zeros (n - 1)
termination_by n.toNat
decreasing_by
  rename_i h
  rw [← toNat_sub_one h]
  exact Nat.lt_succ_self _

def ProcState.name : ProcState → List Char
  | .unused   => "UNUSED".toList
  | .embryo   => "EMBRYO".toList
  | .sleeping => "SLEEPING".toList
  | .runnable => "RUNNABLE".toList
  | .running  => "RUNNING".toList
  | .zombie   => "ZOMBIE".toList

def psHeader (ticks : uint) : List Char :=
  cprintf "%20s%20s%20s%20s%20s%20s%20s%5s%d" (["name", "pid", "state", "priority", "runtime/weight", "runtime",
    "vruntime", "tick"].map (fun s => .str (some s.toList)) ++ [.int ticks]) ++ cprintf "000\n" []

/-- `9 - get_digit_count(p->vruntime_low)`. -/
def zeroCount (low : uint) : uint := 9 - BitVec.ofNat 32 (getDigitCount low.toInt)

/-- The last column, the same in the two branches of `ps`. -/
def vruntimeColumn (high low : uint) : List Char :=
  if high ≠ 0 then cprintf "%d" [.int high] ++ zeros (zeroCount low) ++ cprintf "%d\n" [.int low]
  else cprintf "%20d\n" [.int low]

/-- One line; the columns before the last show what `psLine` reads. -/
def psRow (name : List Char) (l : PsLine) : List Char :=
  cprintf "%20s%20d%20s%20d%20d%20d" [.str (some name), .int (BitVec.ofInt 32 l.pid), .str (some l.state.name),
    .int (BitVec.ofInt 32 l.nice), .int l.perWeight, .int l.aruntime] ++ vruntimeColumn l.vruntimeHigh l.vruntimeLow

/-- The header stands above the lines where there is one. -/
def psText (s : PsState) (pid : Int) : List Char :=
  match psSlots s.tab pid with
  | []         => []
  | p :: slots => psHeader s.ticks ++ (p :: slots).flatMap (fun p => psRow (s.name p) (psLine (s.tab.proc p)))

/-! ## The last column -/

theorem getDigitCount_eq (num : Int) : getDigitCount num = (Nat.places 10 num.natAbs).length := by
  induction num using getDigitCount.induct with
  | case1 =>
    rw [getDigitCount, dif_pos rfl, Int.natAbs_zero, Nat.places_zero]
    rfl
  | case2 num h ih =>
    rw [getDigitCount, dif_neg h, ih, Nat.places_length_pos (by decide) (Int.natAbs_pos.2 h), Int.natAbs_tdiv]
    rfl

theorem zeros_eq (n : uint) : zeros n = List.replicate n.toNat '0' := by
  induction n using zeros.induct with
  | case1 =>
    rw [zeros, if_pos rfl]
    rfl
  | case2 n h ih =>
    rw [zeros, if_neg h, ih, ← toNat_sub_one h]
    rfl

theorem zeroCount_le {low : uint} : (zeroCount low).toNat ≤ 9 ↔ low.toInt.natAbs < 10 ^ 9 := by
  have hten : getDigitCount low.toInt ≤ 10 := by
    rw [getDigitCount_eq, Nat.places_length_le (by decide)]
    have := low.toInt_lt
    have := low.le_toInt
    omega
  rw [← Nat.places_length_le (by decide), ← getDigitCount_eq]
  unfold zeroCount
  generalize getDigitCount low.toInt = c at hten
  interval_cases c <;> decide

theorem zeroCount_toNat {low : uint} (h : low.toNat < 10 ^ 9) :
    (zeroCount low).toNat = 9 - (Nat.places 10 low.toNat).length := by
  have hint : low.toInt.natAbs = low.toNat := by
    rw [BitVec.toInt_eq_toNat_of_lt (by omega)]
    rfl
  have hnine : (Nat.places 10 low.toNat).length ≤ 9 := (Nat.places_length_le (by decide)).2 h
  unfold zeroCount
  rw [getDigitCount_eq, hint]
  generalize (Nat.places 10 low.toNat).length = c at hnine
  interval_cases c <;> rfl

theorem cprintf_int (x : uint) : cprintf "%d" [.int x] = Printf.printint x 10 true 0 := List.append_nil _

theorem cprintf_line (x : uint) : cprintf "%d\n" [.int x] = Printf.printint x 10 true 0 ++ ['\n'] := rfl

theorem slt_zero {x : uint} (h : x.toNat < 2 ^ 31) : x.slt 0#32 = false := by
  unfold BitVec.slt
  rw [BitVec.toInt_eq_toNat_of_lt (by omega)]
  exact decide_eq_false (by simp)

theorem vruntimeColumn_eq {high low : uint} (h0 : 0 < high.toNat) (hh : high.toNat < 2 ^ 31) (hl : low.toNat < 10 ^ 9) :
    vruntimeColumn high low =
      Nat.places 10 (high.toNat * 10 ^ 9 + low.toNat) ++ (if low = 0 then ['0', '\n'] else ['\n']) := by
  unfold vruntimeColumn
  rw [if_pos (toNat_pos.1 h0), cprintf_int, cprintf_line, zeros_eq, zeroCount_toNat hl, Printf.printint_nonneg (slt_zero hh),
    Printf.printint_nonneg (slt_zero (by omega)), Nat.places_pad (by decide) h0 hl, Nat.toDigits_eq_places (by decide) h0]
  by_cases hz : low = 0
  · subst hz
    simp
  · rw [if_neg hz, Nat.toDigits_eq_places (by decide) (toNat_pos.2 hz)]
    simp

/-- The last column is the decimal numeral of the virtual runtime. -/
def TellsTrue (high low : uint) : Prop :=
  0 < high.toNat → high.toNat < 2 ^ 31 → low.toNat < 10 ^ 9 →
    vruntimeColumn high low = Nat.toDigits 10 (high.toNat * 10 ^ 9 + low.toNat) ++ ['\n']

/-- The loop that pads makes at most nine turns, each one character. -/
def PadsShort (high low : uint) : Prop := high ≠ 0 → (zeros (zeroCount low)).length ≤ 9

theorem tellsTrue_iff (high low : uint) : TellsTrue high low ↔ (low = 0 → high = 0 ∨ 2 ^ 31 ≤ high.toNat) := by
  constructor
  · intro h hz
    by_contra hnot
    push Not at hnot
    obtain ⟨hne, hlt⟩ := hnot
    have h0 : 0 < high.toNat := toNat_pos.2 hne
    have hl : low.toNat < 10 ^ 9 := by
      rw [hz]
      decide
    have hcol := h h0 hlt hl
    rw [vruntimeColumn_eq h0 hlt hl, if_pos hz, Nat.toDigits_eq_places (by decide) (by omega)] at hcol
    cases List.append_cancel_left hcol
  · intro h h0 hlt hl
    have hne : low ≠ 0 := by
      intro hz
      rcases h hz with hzero | hge
      · exact toNat_pos.1 h0 hzero
      · omega
    rw [vruntimeColumn_eq h0 hlt hl, if_neg hne, Nat.toDigits_eq_places (by decide) (by omega)]

/-- **`ps` prints the true virtual runtime, in at most nine turns of its loop, if and only if** the low word has nine
digits at most as an int and, below a high word in range, is not 0. -/
theorem vruntimeColumn_right (high low : uint) :
    (TellsTrue high low ∧ PadsShort high low) ↔
      (low = 0 → high = 0 ∨ 2 ^ 31 ≤ high.toNat) ∧ (high ≠ 0 → low.toInt.natAbs < 10 ^ 9) := by
  unfold PadsShort
  rw [tellsTrue_iff, zeros_eq, List.length_replicate, zeroCount_le]

/-- A low word of 0 is printed with ten digits. -/
theorem vruntimeColumn_ten : vruntimeColumn 1 0 = "10000000000\n".toList ∧ ¬ TellsTrue 1 0 ∧ ¬ PadsShort 1 1000000000 := by
  refine ⟨?_, fun h => ?_, fun h => ?_⟩
  · rw [vruntimeColumn_eq (by decide) (by decide) (by decide)]
    simp [Nat.places]
  · rcases (tellsTrue_iff 1 0).1 h rfl with h | h <;> exact absurd h (by decide)
  · have hlen := h (by decide)
    rw [zeros_eq, List.length_replicate, zeroCount_le] at hlen
    exact absurd hlen (by decide)

end Sched
end Xv6
