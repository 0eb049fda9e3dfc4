import Xv6.Files.Inode
import Xv6.Lib.Owned
/-!
# Files.Owner — who owns a block

The places of the file system that hold block numbers, as a table of inodes and the blocks of the disk show them, and what
allocating a block for an inode does to them.
-/
namespace Xv6
namespace Files

open Fs (Bno Block nlog)
open Prog (wp)

@[simp] theorem setBit_bit (s : State) (b : Bno) (v : Bool) : (s.setBit b v).bit = Function.update s.bit b v := by
  funext c
  rw [Function.update_apply]
  rfl

@[simp] theorem setData_data (s : State) (b : Bno) (v : Block) : (s.setData b v).data = Function.update s.data b v := by
  funext c
  rw [Function.update_apply]
  rfl

theorem nmeta_pos : 0 < nmeta := by decide

/-! ## Places -/

inductive Place where
  /-- `ip->addrs[k]`. -/
  | slot (i : Nat) (k : Fin 13)
  /-- Word `j` of the indirect block. -/
  | word (i : Nat) (j : Fin 128)
  deriving DecidableEq

def Place.inum : Place → Nat
  | .slot i _ => i
  | .word i _ => i

def addr (D : Nat → Dinode) (data : Bno → Block) : Place → Bno
  | .slot i k => if (D i).type = .free then 0 else (D i).addrs k
  | .word i j => if (D i).type = .free ∨ (D i).addrs 12 = 0 then 0 else data ((D i).addrs 12) j

/-- The place of block `n` of an inode. -/
def place (i n : Nat) : Place := if n < ndirect then .slot i (Fin.ofNat 13 n) else .word i (Fin.ofNat 128 (n - ndirect))

/-- The address of block `n` of an inode, 0 for none. -/
def blockOf (f : Place → Bno) (i n : Nat) : Bno := if n < maxFile then f (place i n) else 0

/-- No hole: each block below the size has an address. -/
def Filled (f : Place → Bno) (i : Nat) (size : BitVec 32) : Prop := ∀ n, n * bsize < size.toNat → blockOf f i n ≠ 0

def InData (b : Bno) : Prop := nmeta ≤ b.toNat ∧ b.toNat < fsSize

theorem not_inData_zero : ¬ InData 0 := fun h => absurd h.1 (by decide)

/-- The bitmap tells the truth, and no block has two owners. -/
structure Exact (bit : Bno → Bool) (f : Place → Bno) : Prop where
  owned : Owned InData 0 bit f
  low   : ∀ b : Bno, b.toNat < nmeta → bit b = true

/-- The inodes as they are for the holder of inode `i`: his in memory, the others on the disk. -/
def State.table (s : State) (i : Nat) : Nat → Dinode := Function.update s.dinode i (s.ip i)

def State.addr (s : State) (i : Nat) : Place → Bno := Files.addr (s.table i) s.data

theorem table_self (s : State) (i : Nat) : s.table i i = s.ip i := Function.update_self i _ _

theorem table_of_ne {i j : Nat} (h : j ≠ i) (s : State) : s.table i j = s.dinode j := Function.update_of_ne h _ _

theorem place_inum (i n : Nat) : (place i n).inum = i := by
  unfold place
  split <;> rfl

theorem place_ne (i j n : Nat) : place i n ≠ .slot j 12 := by
  unfold place
  split
  · rename_i hn
    intro h
    injection h with _ h
    have := congrArg Fin.val h
    rw [Fin.val_ofNat, Nat.mod_eq_of_lt (Nat.lt_succ_of_lt hn)] at this
    exact absurd this (Nat.ne_of_lt hn)
  · exact fun h => by cases h

theorem place_inj {i m n : Nat} (hm : m < maxFile) (hn : n < maxFile) (h : place i m = place i n) : m = n := by
  unfold maxFile ndirect nindirect at hm hn
  unfold place ndirect at h
  split_ifs at h with h1 h2 h2
  · injection h with _ h
    have := congrArg Fin.val h
    rw [Fin.val_ofNat, Fin.val_ofNat, Nat.mod_eq_of_lt (by omega), Nat.mod_eq_of_lt (by omega)] at this
    exact this
  · injection h with _ h
    have := congrArg Fin.val h
    rw [Fin.val_ofNat, Fin.val_ofNat, Nat.mod_eq_of_lt (by omega), Nat.mod_eq_of_lt (by omega)] at this
    omega

theorem addr_setData {D : Nat → Dinode} {data : Bno → Block} {b : Bno}
    (h : ∀ j, addr D data (.slot j 12) = b → b = 0) (v : Block) : addr D (Function.update data b v) = addr D data := by
  funext p
  cases p with
  | slot j k => rfl
  | word j w =>
    simp only [addr]
    split_ifs with hj
    · rfl
    · rw [Function.update_of_ne]
      intro hb
      have := h j (by rw [addr, if_neg (fun e => hj (.inl e)), hb])
      exact hj (.inr (hb.trans this))

theorem Exact.fresh {bit : Bno → Bool} {f : Place → Bno} (h : Exact bit f) {b : Bno} (hb : bit b = false)
    (hlt : b.toNat < fsSize) : InData b ∧ b ≠ 0 ∧ ∀ p, f p ≠ b := by
  have hA : InData b := by
    refine ⟨Nat.le_of_not_lt fun hm => ?_, hlt⟩
    rw [h.low b hm] at hb
    cases hb
  exact ⟨hA, fun e => not_inData_zero (e ▸ hA), h.owned.fresh hA hb⟩

theorem Exact.put {bit : Bno → Bool} {f : Place → Bno} (h : Exact bit f) {p : Place} {b : Bno} (hp : f p = 0)
    (hb : bit b = false) (hlt : b.toNat < fsSize) : Exact (Function.update bit b true) (Function.update f p b) where
  owned := h.owned.put hp not_inData_zero (h.fresh hb hlt).1 hb
  low c hc := by
    rw [Function.update_apply]
    split
    · rfl
    · exact h.low c hc

theorem Exact.drop {bit : Bno → Bool} {f : Place → Bno} (h : Exact bit f) {p : Place} (hp : f p ≠ 0) :
    Exact (Function.update bit (f p) false) (Function.update f p 0) where
  owned := h.owned.drop not_inData_zero p
  low c hc := by
    rw [Function.update_of_ne]
    · exact h.low c hc
    · rintro rfl
      exact absurd (h.owned.area p hp).1 (Nat.not_le_of_lt hc)

/-! ## Giving an inode a block -/

/-- `d` with another address in a slot. -/
def Dinode.setAddr (d : Dinode) (k : Fin 13) (b : Bno) : Dinode := { d with addrs := Function.update d.addrs k b }

section
variable {D : Nat → Dinode} {data : Bno → Block} {i : Nat} {b : Bno}

theorem addr_slot {k : Fin 13} (hf : (D i).type ≠ .free) (h0 : (D i).addrs k = 0) (hfresh : ∀ p, addr D data p ≠ b) :
    addr (Function.update D i ((D i).setAddr k b)) (Function.update data b (fun _ => 0)) =
      Function.update (addr D data) (.slot i k) b := by
  funext p
  rw [Function.update_apply]
  cases p with
  | slot j l =>
    simp only [addr]
    by_cases hj : j = i
    · rw [hj, Function.update_self, if_neg (show ((D i).setAddr k b).type ≠ .free from hf), if_neg hf]
      by_cases hl : l = k
      · rw [hl, if_pos rfl]
        exact Function.update_self ..
      · rw [if_neg (show Place.slot i l ≠ .slot i k from fun h => hl (by injection h))]
        exact Function.update_of_ne hl ..
    · rw [Function.update_of_ne hj, if_neg (show Place.slot j l ≠ .slot i k from fun h => hj (by injection h))]
  | word j w =>
    rw [if_neg fun h => by cases h]
    simp only [addr]
    by_cases hj : j = i
    · rw [hj, Function.update_self]
      by_cases hk : (12 : Fin 13) = k
      · rw [show ((D i).setAddr k b).addrs 12 = b by rw [hk]; exact Function.update_self .., Function.update_self,
          ite_self, if_pos (.inr (by rw [hk, h0]))]
      · rw [show ((D i).setAddr k b).addrs 12 = (D i).addrs 12 from Function.update_of_ne hk ..,
          show ((D i).setAddr k b).type = (D i).type from rfl]
        split_ifs with h
        · rfl
        · rw [Function.update_of_ne]
          intro e
          exact hfresh (.slot i 12) (by rw [addr, if_neg hf, e])
    · rw [Function.update_of_ne hj]
      split_ifs with h
      · rfl
      · rw [Function.update_of_ne]
        intro e
        exact hfresh (.slot j 12) (by rw [addr, if_neg fun e => h (.inl e), e])

theorem addr_word {w : Fin 128} {bit : Bno → Bool} (h : Exact bit (addr D data)) (hf : (D i).type ≠ .free)
    (ha : (D i).addrs 12 ≠ 0) (hfresh : ∀ p, addr D data p ≠ b) :
    addr D (Function.update (Function.update data b (fun _ => 0)) ((D i).addrs 12)
      (Function.update (data ((D i).addrs 12)) w b)) = Function.update (addr D data) (.word i w) b := by
  have hia : addr D data (.slot i 12) = (D i).addrs 12 := if_neg hf
  funext p
  rw [Function.update_apply]
  cases p with
  | slot j l =>
    rw [if_neg fun h => by cases h]
    rfl
  | word j v =>
    simp only [addr]
    by_cases hj : j = i
    · rw [hj, if_neg (not_or.2 ⟨hf, ha⟩), Function.update_self, if_neg (not_or.2 ⟨hf, ha⟩), Function.update_apply]
      by_cases hv : v = w
      · rw [hv, if_pos rfl, if_pos rfl]
      · rw [if_neg hv, if_neg fun e => hv (by injection e)]
    · rw [if_neg (show Place.word j v ≠ .word i w from fun e => hj (by injection e))]
      split_ifs with hjf
      · rfl
      · have hja : addr D data (.slot j 12) = (D j).addrs 12 := if_neg fun e => hjf (.inl e)
        rw [Function.update_of_ne, Function.update_of_ne]
        · exact fun e => hfresh (.slot j 12) (hja.trans e)
        · intro e
          have := h.owned.once (.slot j 12) (.slot i 12) (by rw [hja]; exact fun e => hjf (.inr e))
            (hja.trans (e.trans hia.symm))
          exact hj (by injection this)

end

end Files
end Xv6
