import Xv6.Files.Array
import Xv6.Files.Logged
/-!
# Files.Capacity — a write and the log that it goes to

`log_write` panics where it finds the log full, whatever block it is given (log.c).  The check reads nothing but the blocks
logged before, so it is put beside a run here: `logAll` follows the blocks that a run logs, and `inLog` is the run with it.
-/
namespace Xv6
namespace Files

open Fs (nlog)
open Prog (wpe)

variable {s t : State} {i : Nat} {lh : Finset Nat} {l : List Event}

/-- `log.lh.n >= LOGSIZE || log.lh.n >= log.size - 1`, where the blocks `lh` are logged. -/
def LogFull (lh : Finset Nat) : Prop := Fs.logSize ≤ lh.card ∨ (nlog : Int) - 1 ≤ lh.card

instance (lh : Finset Nat) : Decidable (LogFull lh) := inferInstanceAs (Decidable (_ ∨ _))

/-- `log.lh` after the calls of `log_write` in `l`; `none` where one of them finds it full. -/
def logAll (lh : Finset Nat) : List Event → Option (Finset Nat)
  | []           => some lh
  | .balloc :: l => logAll lh l
  | .log b :: l  => if LogFull lh then none else logAll (insert b lh) l

/-- What a call comes to, the blocks `lh` being logged before. -/
def inLog {α : Type} (lh : Finset Nat) (o : Outcome Stop State Event α) : Except Stop (α × State) :=
  match logAll lh o.tr with
  | none   => .error (.panic "too big a transaction")
  | some _ => o.res.map (fun a => (a, o.st))

theorem logFull_iff : LogFull lh ↔ 29 ≤ lh.card := by
  have hn : (nlog : Int) = 30 := rfl
  have hl : Fs.logSize = 30 := rfl
  unfold LogFull
  omega

theorem logAll_room : ∀ (l : List Event) (lh : Finset Nat), (lh ∪ logged l).card < 29 → (logAll lh l).isSome = true
  | [], _, _           => rfl
  | .balloc :: l, lh, h => logAll_room l lh (by rwa [logged_balloc] at h)
  | .log b :: l, lh, h  => by
    rw [logged_log, Finset.union_insert, ← Finset.insert_union] at h
    have hsub : insert b lh ⊆ insert b lh ∪ logged l := Finset.subset_union_left
    have hle := Finset.card_le_card hsub
    have hlh := Finset.card_le_card (Finset.subset_insert b lh)
    have hroom : ¬ LogFull lh := fun hf => by
      have := logFull_iff.1 hf
      omega
    unfold logAll
    rw [if_neg hroom]
    exact logAll_room l (insert b lh) h

theorem inLog_room {α : Type} {a : α} (h : (logAll lh l).isSome = true) : inLog lh ⟨.ok a, t, l⟩ = .ok (a, t) := by
  obtain ⟨u, hu⟩ := Option.isSome_iff_exists.1 h
  unfold inLog
  rw [hu]
  rfl

theorem inLog_full {α : Type} {o : Outcome Stop State Event α} (h : (logAll lh o.tr).isSome = false) :
    inLog lh o = .error (.panic "too big a transaction") := by
  unfold inLog
  rw [Option.isSome_eq_false_iff, Option.isNone_iff_eq_none] at h
  rw [h]

/-- **The condition**: each `log_write` of the call finds room. -/
def LogRoom (lh : Finset Nat) (s : State) (i : Nat) (src : Nat → Byte) (off n : BitVec 32) : Prop :=
  (logAll lh (writei i src off n s).tr).isSome = true

instance (src : Nat → Byte) (off n : BitVec 32) : Decidable (LogRoom lh s i src off n) := inferInstanceAs (Decidable (_ = _))

theorem logRoom_of_turns (h : InCall s i) (src : Nat → Byte) {off n : BitVec 32}
    (hroom : lh.card + (2 * turns off.toNat n.toNat + 3) < 29) : LogRoom lh s i src off n := by
  have hcard : (logged (writei i src off n s).tr).card ≤ 2 * turns off.toNat n.toNat + 3 :=
    Prog.wpe.events (R := fun l => (logged l).card ≤ 2 * turns off.toNat n.toNat + 3)
      (writei_logs_loop src fun _ => writeLoop_logs _ src off.toNat n.toNat s h.good.boot)
  refine logAll_room _ lh ?_
  have hunion := Finset.card_union_le lh (logged (writei i src off n s).tr)
  omega

/-- **`readi` and `writei` are those of an array of bytes**: a write is refused exactly where it does not fit, and changes
nothing then; else, with room in the log, all of it is made, and read back; and a read returns what there is. -/
theorem file_array (h : InCall s i) (lh : Finset Nat) (src : Nat → Byte) (off n : BitVec 32) :
    (if s.Refuses i off n then inLog lh (writei i src off n s) = .ok (-1, s)
    else if LogRoom lh s i src off n then ∃ t, inLog lh (writei i src off n s) = .ok (n.toNat, t) ∧
      Written s i src off.toNat n.toNat t ∧ readi i off n t = ⟨.ok (some ((List.range n.toNat).map src)), t, []⟩
    else inLog lh (writei i src off n s) = .error (.panic "too big a transaction")) ∧
    (lh.card + (2 * turns off.toNat n.toNat + 3) < 29 → LogRoom lh s i src off n) ∧
    (off.toNat ≤ (s.dinode i).size.toNat → off.toNat + n.toNat < 4294967296 →
      readi i off n s = ⟨.ok (some (((s.contents i).drop off.toNat).take n.toNat)), s, []⟩) := by
  refine ⟨?_, logRoom_of_turns h src, readi_contents h⟩
  split
  · next hc =>
    rw [writei_refused h src hc]
    rfl
  · next hc =>
    obtain ⟨t, l, hrun, hwritten, hread⟩ := writei_read h src hc
    split
    · next hroom =>
      unfold LogRoom at hroom
      rw [hrun] at hroom ⊢
      exact ⟨t, inLog_room hroom, hwritten, hread⟩
    · next hfull => exact inLog_full (Bool.not_eq_true _ ▸ hfull)

/-- Seven hundred bytes, while other operations have logged sixteen blocks. -/
theorem rootLocked_array : ∃ t, inLog (Finset.range 16) (writei rootIno (fun k => BitVec.ofNat 8 k) 0 700 rootLocked) =
    .ok (700, t) ∧ Written rootLocked rootIno (fun k => BitVec.ofNat 8 k) 0 700 t ∧
      readi rootIno 0 700 t = ⟨.ok (some ((List.range 700).map fun k => BitVec.ofNat 8 k)), t, []⟩ := by
  obtain ⟨hwrite, hroom, -⟩ := file_array rootLocked_call (Finset.range 16) (fun k => BitVec.ofNat 8 k) 0#32 700#32
  rw [if_neg (by decide), if_pos (hroom (by decide))] at hwrite
  exact hwrite

/-- Thirty blocks at once find the empty log full. -/
theorem rootLocked_overflows : InCall rootLocked rootIno ∧ ¬ rootLocked.Refuses rootIno 0 15360 ∧
    inLog ∅ (writei rootIno (fun k => BitVec.ofNat 8 k) 0 15360 rootLocked) = .error (.panic "too big a transaction") :=
  ⟨rootLocked_call, by decide, inLog_full (by decide +kernel)⟩

end Files
end Xv6
