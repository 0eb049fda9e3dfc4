import Xv6.Files.Good
import Xv6.Files.Sysfile
import Xv6.Lib.Traced
/-!
# Files.Read — reading leaves no trace

A locked inode without holes is read without an event and without a change of the state, and so are the entries of a
directory.
-/
namespace Xv6
namespace Files

open Fs (Bno)
open Prog (wp wp_bind wp_read wp_modify wp_pure)

variable {α β : Type} {s t : State} {i : Nat}

/-- No panic of `bfree` or of `log_write`. -/
def Harmless (e : Stop) : Prop := e ≠ .panic "freeing free block" ∧ e ≠ .panic "log_write outside of trans"

def Pure (c : F α) (s : State) : Prop := ∃ r, c s = ⟨r, s, []⟩ ∧ ∀ e, r = .error e → Harmless e

theorem Pure.pure (a : α) : Pure (pure a : F α) s := ⟨.ok a, rfl, fun _ h => by cases h⟩

theorem Pure.stop {e : Stop} (h : Harmless e) : Pure (Prog.stop e : F α) s :=
  ⟨.error e, rfl, fun _ he => by cases he; exact h⟩

theorem Pure.of_run {c : F α} {a : α} (h : c s = ⟨.ok a, s, []⟩) : Pure c s := ⟨.ok a, h, fun _ he => by cases he⟩

theorem Pure.bind {c : F α} {f : α → F β} (hc : Pure c s) (hf : ∀ a, Pure (f a) s) : Pure (c >>= f) s := by
  obtain ⟨r, hr, he⟩ := hc
  cases r with
  | error e => exact ⟨.error e, Prog.bind_run_error hr, fun e' h => by cases h; exact he e rfl⟩
  | ok a =>
    obtain ⟨r', hr', he'⟩ := hf a
    exact ⟨r', (Prog.bind_run_nil hr).trans hr', he'⟩

theorem Pure.wp {c : F α} (h : Pure c s) : wp c (fun a t => t = s ∧ c s = ⟨.ok a, s, []⟩) Harmless s := by
  obtain ⟨r, hr, he⟩ := h
  cases r with
  | ok a => exact Prog.wp_of_run hr ⟨rfl, hr⟩
  | error e => exact Prog.wp_of_stop hr (he e rfl)

theorem Pure.get_bind {f : State → F β} (h : Pure (f s) s) : Pure (Prog.get >>= f) s := h

theorem Pure.read_bind {g : State → α} {f : α → F β} (h : Pure (f (g s)) s) : Pure (Prog.read g >>= f) s := h

theorem Pure.ite {b : Prop} [Decidable b] {c d : F α} (hc : b → Pure c s) (hd : ¬ b → Pure d s) :
    Pure (if b then c else d) s := by
  split
  · exact hc ‹_›
  · exact hd ‹_›

/-- Byte `o` of a file. -/
def State.byteAt (s : State) (i o : Nat) : Byte := byteOf (s.data (blockOf s.onDisk i (o / bsize))) (o % bsize)

theorem byteAt_chunk (i off n : Nat) : (List.range n).map (fun j => s.byteAt i (off + j)) =
    (List.range (chunk off n)).map (fun j => byteOf (s.data (blockOf s.onDisk i (off / bsize))) (off % bsize + j)) ++
      (List.range (n - chunk off n)).map (fun j => s.byteAt i (off + chunk off n + j)) := by
  have hn : n = chunk off n + (n - chunk off n) := (Nat.add_sub_of_le (Nat.min_le_left _ _)).symm
  conv_lhs => rw [hn, List.range_add, List.map_append, List.map_map]
  congr 1
  · refine List.map_congr_left fun j hj => ?_
    have hj' : j < bsize - off % bsize := Nat.lt_of_lt_of_le (List.mem_range.1 hj) (Nat.min_le_right _ _)
    have hdiv : (off + j) / bsize = off / bsize := by
      unfold bsize at *
      omega
    have hmod : (off + j) % bsize = off % bsize + j := by
      unfold bsize at *
      omega
    unfold State.byteAt
    rw [hdiv, hmod]
  · refine List.map_congr_left fun j _ => ?_
    rw [Function.comp_apply, Nat.add_assoc]

theorem readLoop_run (hf : (s.ip i).type ≠ .free) (hs : s.addr i = s.onDisk) : ∀ (k off n : Nat), n ≤ k →
    (∀ m, Touches off n m → blockOf s.onDisk i m ≠ 0) →
    readLoop i k off n s = ⟨.ok ((List.range n).map (fun j => s.byteAt i (off + j))), s, []⟩
  | 0, off, n, hk, _ => by
    rw [Nat.le_zero.1 hk]
    rfl
  | k + 1, off, n, hk, h => by
    by_cases hn : n = 0
    · subst hn
      unfold readLoop
      rw [if_pos rfl]
      rfl
    · have hb := bmap_found hf (hs ▸ h _ (touches_first hn))
      rw [hs] at hb
      have hchunk : 0 < chunk off n := chunk_pos hn
      have hrun := readLoop_run hf hs k (off + chunk off n) (n - chunk off n) (by omega)
        (fun m hm => h m (touches_of_step hm))
      unfold readLoop
      rw [if_neg hn, Prog.bind_run_nil hb, Prog.read_bind_run, Prog.bind_run_nil hrun, byteAt_chunk i off n]
      rfl

theorem touches_below {off n size : BitVec 32} (ho : ¬ (size < off ∨ off + n < off)) {m : Nat}
    (hm : Touches off.toNat (if size < off + n then size - off else n).toNat m) : m * bsize < size.toNat := by
  rw [not_or, BitVec.not_lt, BitVec.not_lt] at ho
  obtain ⟨-, -, hm⟩ := hm
  split_ifs at hm with hc <;> bv_omega

/-- The bytes that `readi` reads. -/
def readSize (size off n : BitVec 32) : BitVec 32 := if size < off + n then size - off else n

theorem readi_run (h : Good s) (hl : (s.inode i).locked = true) (hd : (s.ip i).type ≠ .dev) {off n : BitVec 32}
    (ho : ¬ ((s.ip i).size < off ∨ off + n < off)) : readi i off n s =
      ⟨.ok (some ((List.range (readSize (s.ip i).size off n).toNat).map (fun j => s.byteAt i (off.toNat + j)))), s, []⟩ := by
  obtain ⟨hip, hty⟩ := h.ip hl
  have hrun := readLoop_run (hip ▸ hty) (addr_eq_onDisk hip) _ off.toNat _ (Nat.le_refl _) fun m hm =>
    h.filled i hty m (hip ▸ touches_below ho hm)
  unfold readi
  rw [Prog.get_bind_run, if_neg hd, if_neg ho]
  exact Prog.bind_run_nil hrun

/-- **Reading a locked inode never allocates.** -/
theorem readi_pure (h : Good s) (hl : (s.inode i).locked = true) (off n : BitVec 32) : Pure (readi i off n) s := by
  by_cases hd : (s.ip i).type = .dev
  · exact Pure.get_bind (Pure.ite (fun _ => Pure.pure _) fun hn => absurd hd hn)
  · by_cases ho : (s.ip i).size < off ∨ off + n < off
    · exact Pure.get_bind (Pure.ite (fun _ => Pure.pure _) fun _ => Pure.ite (fun _ => Pure.pure _) fun hn => absurd ho hn)
    · exact Pure.of_run (readi_run h hl hd ho)

theorem readDirent_pure (h : Good s) (hl : (s.inode i).locked = true) (off : Nat) {msg : String}
    (hm : Harmless (.panic msg)) : Pure (readDirent i off msg) s := by
  refine (readi_pure h hl _ _).bind fun r => ?_
  cases r with
  | none => exact Pure.stop hm
  | some l => exact Pure.ite (fun _ => Pure.pure _) fun _ => Pure.stop hm

theorem scan_pure (h : Good s) (hl : (s.inode i).locked = true) {msg : String} (hm : Harmless (.panic msg))
    (test : Dirent → Bool) : ∀ l, Pure (scan i msg test l) s
  | []       => Pure.pure _
  | off :: l => (readDirent_pure h hl off hm).bind fun _ =>
      Pure.ite (fun _ => Pure.pure _) fun _ => scan_pure h hl hm test l

theorem isdirempty_pure (h : Good s) (hl : (s.inode i).locked = true) : Pure (isdirempty i) s := by
  refine Pure.read_bind ((scan_pure h hl (by simp [Harmless]) _ _).bind fun r => ?_)
  cases r with
  | none => exact Pure.pure _
  | some r => exact Pure.pure _

theorem removable_pure (h : Good s) (hl : (s.inode i).locked = true) : Pure (removable i) s :=
  Pure.read_bind (Pure.ite (fun _ => isdirempty_pure h hl) fun _ => Pure.pure _)

/-! ## Entries -/

def State.direntAt (s : State) (dp off : Nat) : Dirent :=
  Dirent.ofBytes ((List.range 16).map (fun j => s.byteAt dp (off + j)))

theorem Filled.size_le {f : Place → Bno} {size : BitVec 32} (h : Filled f i size) : size.toNat ≤ maxFile * bsize := by
  by_contra hn
  have hb := h maxFile (Nat.lt_of_not_le hn)
  exact hb (if_neg (Nat.lt_irrefl _))

theorem mem_offsets {size : BitVec 32} {off : Nat} : off ∈ offsets size ↔ off % 16 = 0 ∧ off < size.toNat := by
  unfold offsets
  rw [List.mem_map]
  constructor
  · rintro ⟨k, hk, rfl⟩
    have := List.mem_range.1 hk
    omega
  · rintro ⟨hmod, hlt⟩
    refine ⟨off / 16, List.mem_range.2 ?_, ?_⟩ <;> omega

/-- **`readDirent`** reads the entry, where all of it lies below the size. -/
theorem readDirent_run (h : Good s) (hl : (s.inode i).locked = true) (hd : (s.ip i).type = .dir) {off : Nat}
    (ho : off ∈ offsets (s.ip i).size) (msg : String) : readDirent i off msg s =
      if off + 16 ≤ (s.ip i).size.toNat then ⟨.ok (s.direntAt i off), s, []⟩ else ⟨.error (.panic msg), s, []⟩ := by
  obtain ⟨hip, hty⟩ := h.ip hl
  obtain ⟨hmod, hlt⟩ := mem_offsets.1 ho
  have hsz : (s.ip i).size.toNat ≤ 71680 := hip ▸ (h.filled i hty).size_le
  have hoff : (BitVec.ofNat 32 off).toNat = off := by
    rw [BitVec.toNat_ofNat]
    omega
  have hin : ¬ ((s.ip i).size < BitVec.ofNat 32 off ∨ BitVec.ofNat 32 off + 16 < BitVec.ofNat 32 off) := by
    rw [not_or, BitVec.not_lt, BitVec.not_lt]
    bv_omega
  have hdev : (s.ip i).type ≠ .dev := by simp [hd]
  unfold readDirent
  rw [Prog.bind_run_nil (readi_run h hl hdev hin), hoff]
  have hlen : (readSize (s.ip i).size (BitVec.ofNat 32 off) 16).toNat = 16 ↔ off + 16 ≤ (s.ip i).size.toNat := by
    unfold readSize
    generalize BitVec.ofNat 32 off = o at hoff hin
    subst hoff
    split_ifs with hc
    · bv_omega
    · refine ⟨fun _ => ?_, fun _ => rfl⟩
      bv_omega
  by_cases hle : off + 16 ≤ (s.ip i).size.toNat
  · rw [if_pos hle, hlen.2 hle]
    rfl
  · rw [if_neg hle]
    refine (congrFun (if_neg fun e => hle (hlen.1 ?_)) s).trans rfl
    rwa [List.length_map, List.length_range] at e

end Files
end Xv6
