import Xv6.Files.Path
/-!
# Files.Image — what is on the disk (fs.h)

An image is its sectors.  Sixteen words of an inode block are an inode, a bit of a bitmap block says whether a block is in
use, and the words of the super block say where these are.
-/
namespace Xv6
namespace Files

open Fs (Bno Block nlog)

/-- The sectors of a disk, as words: the integers whose bytes are on the disk with the lowest first, which `xint` and
`xshort` make of those of the host. -/
abbrev Image := Nat → Block

/-! ## Inodes -/

/-- `T_DIR`, `T_FILE` and `T_DEV`. -/
def FileType.short : FileType → BitVec 16
  | .free => 0
  | .dir  => 1
  | .file => 2
  | .dev  => 3

def FileType.ofShort (x : BitVec 16) : FileType :=
  if x = 0 then .free else if x = 1 then .dir else if x = 3 then .dev else .file

/-- Word `k` of `struct dinode`. -/
def Dinode.word (d : Dinode) : Nat → BitVec 32
  | 0     => d.major ++ d.type.short
  | 1     => d.nlink ++ d.minor
  | 2     => d.size
  | k + 3 => d.addrs (Fin.ofNat 13 k)

def Dinode.ofWords (f : Nat → BitVec 32) : Dinode where
  type    := FileType.ofShort ((f 0).extractLsb' 0 16)
  major   := (f 0).extractLsb' 16 16
  minor   := (f 1).extractLsb' 0 16
  nlink   := (f 1).extractLsb' 16 16
  size    := f 2
  addrs k := f (k + 3)

@[simp] theorem ofShort_short (t : FileType) : FileType.ofShort t.short = t := by
  cases t <;> rfl

theorem high_append (x y : BitVec 16) : (x ++ y : BitVec 32).extractLsb' 16 16 = x := by
  refine BitVec.eq_of_getLsbD_eq fun k hk => ?_
  rw [BitVec.getLsbD_extractLsb', decide_eq_true hk, Bool.true_and, BitVec.getLsbD_append, if_neg (by omega),
    show 16 + k - 16 = k by omega]

theorem low_append (x y : BitVec 16) : (x ++ y : BitVec 32).extractLsb' 0 16 = y := by
  refine BitVec.eq_of_getLsbD_eq fun k hk => ?_
  rw [BitVec.getLsbD_extractLsb', decide_eq_true hk, Bool.true_and, BitVec.getLsbD_append, if_pos (by omega), Nat.zero_add]

/-- **An inode is read back.** -/
theorem ofWords_word (d : Dinode) : Dinode.ofWords d.word = d := by
  simp only [Dinode.ofWords, Dinode.word, high_append, low_append, ofShort_short]
  congr
  funext k
  congr
  exact Fin.ext (Nat.mod_eq_of_lt k.isLt)

/-- The words of inode `k` of a block. -/
def inodeOf (b : Block) (k : Nat) : Dinode := Dinode.ofWords fun w => b (Fin.ofNat 128 (16 * k + w))

/-- `*dip = *ip`. -/
def putInode (b : Block) (k : Nat) (d : Dinode) : Block := fun w => if w.val / 16 = k then d.word (w.val % 16) else b w

theorem ofWords_congr {f g : Nat → BitVec 32} (h : ∀ w < 16, f w = g w) : Dinode.ofWords f = Dinode.ofWords g := by
  simp only [Dinode.ofWords, h 0 (by omega), h 1 (by omega), h 2 (by omega)]
  congr
  funext k
  exact h _ (by omega)

theorem inodeOf_putInode (b : Block) {k l : Nat} (hl : l < ipb) (d : Dinode) :
    inodeOf (putInode b k d) l = if l = k then d else inodeOf b l := by
  unfold ipb at hl
  have hval : ∀ w < 16, (Fin.ofNat 128 (16 * l + w)).val = 16 * l + w := fun w hw => Nat.mod_eq_of_lt (by omega)
  split
  · next hlk =>
    refine (ofWords_congr fun w hw => ?_).trans (ofWords_word d)
    have hv := hval w hw
    unfold putInode
    rw [hv, if_pos (by omega)]
    congr 1
    omega
  · next hlk =>
    refine ofWords_congr fun w hw => if_neg ?_
    have hv := hval w hw
    omega

namespace Image

/-- `rinode`. -/
def dinode (img : Image) (i : Nat) : Dinode := inodeOf (img (iblock i)) (i % ipb)

/-- `winode`. -/
def setDinode (img : Image) (i : Nat) (d : Dinode) : Image :=
  Function.update img (iblock i) (putInode (img (iblock i)) (i % ipb) d)

theorem dinode_setDinode (img : Image) (i j : Nat) (d : Dinode) :
    (img.setDinode i d).dinode j = if j = i then d else img.dinode j := by
  have hmod : j % ipb < ipb := Nat.mod_lt j (by decide)
  unfold dinode setDinode
  by_cases hb : iblock j = iblock i
  · rw [hb, Function.update_self, inodeOf_putInode _ hmod]
    refine if_congr ?_ rfl rfl
    unfold iblock ipb at *
    omega
  · rw [Function.update_of_ne hb, if_neg]
    rintro rfl
    exact hb rfl

theorem setDinode_other (img : Image) {i n : Nat} (d : Dinode) (hn : n ≠ iblock i) : img.setDinode i d n = img n :=
  Function.update_of_ne hn _ _

theorem dinode_update (img : Image) {i n : Nat} (b : Block) (hn : iblock i ≠ n) :
    dinode (Function.update img n b) i = img.dinode i := by
  unfold dinode
  rw [Function.update_of_ne hn]

/-! ## The free map -/

/-- The bit of block `b`. -/
def bit (img : Image) (b : Bno) : Bool := (byteOf (img (bblock b)) (b.toNat % bpb / 8)).getLsbD (b.toNat % bpb % 8)

end Image

/-- The block of a bitmap in which the first bits are set: `buf[i/8] = buf[i/8] | (0x1 << (i%8))` for each of them. -/
def mapBits : Nat → Block
  | 0     => fun _ => 0
  | i + 1 => putBytes (mapBits i) (i / 8) (fun _ => byteOf (mapBits i) (i / 8) ||| ((1 : Byte) <<< (i % 8))) 1

theorem byteOf_zero (o : Nat) : byteOf (fun _ => 0) o = 0 := by
  unfold byteOf
  simp

/-- **Exactly the first bits are set.** -/
theorem mapBits_bit : ∀ {used : Nat}, used ≤ bpb → ∀ {j : Nat}, j < bpb →
    (byteOf (mapBits used) (j / 8)).getLsbD (j % 8) = decide (j < used)
  | 0, _, j, _ => by
    rw [mapBits, byteOf_zero]
    simp
  | i + 1, hi, j, hj => by
    have ih := mapBits_bit (Nat.le_of_succ_le hi) hj
    unfold bpb at hi hj
    rw [mapBits, byteOf_putBytes _ _ _ _ (show j / 8 < 512 by omega)]
    by_cases hbyte : j / 8 = i / 8
    · rw [if_pos (by omega), ← hbyte, BitVec.getLsbD_or, ih]
      have hone : ((1 : Byte) <<< (i % 8)).getLsbD (j % 8) = decide (j = i) := by
        rw [BitVec.getLsbD_shiftLeft, Bool.eq_iff_iff]
        simp
        omega
      rw [hone, Bool.eq_iff_iff]
      simp
      omega
    · rw [if_neg (by omega), ih, Bool.eq_iff_iff]
      simp
      omega

/-! ## The super block -/

structure Superblock where
  size       : BitVec 32
  nblocks    : BitVec 32
  ninodes    : BitVec 32
  nlog       : BitVec 32
  logstart   : BitVec 32
  inodestart : BitVec 32
  bmapstart  : BitVec 32

/-- `memmove(buf, &sb, sizeof(sb))` into a block of zeroes. -/
def Superblock.block (sb : Superblock) : Block
  | 0 => sb.size
  | 1 => sb.nblocks
  | 2 => sb.ninodes
  | 3 => sb.nlog
  | 4 => sb.logstart
  | 5 => sb.inodestart
  | 6 => sb.bmapstart
  | _ => 0

def readsb (img : Image) : Superblock := ⟨img 1 0, img 1 1, img 1 2, img 1 3, img 1 4, img 1 5, img 1 6⟩

/-! ## The kernel -/

/-- The kernel's view of an image before it has read any of it: the inodes that there are, and the blocks behind the
bitmap. -/
def Image.boot (img : Image) : State where
  bit         := img.bit
  dinode i    := if i < ninodes then img.dinode i else Dinode.zero
  data b      := if nmeta ≤ b.toNat then img b.toNat else fun _ => 0
  inode _     := ⟨0, false, false, Dinode.zero⟩
  cached      := 0
  outstanding := 0
  devsw       := ⟨fun _ _ => none, fun _ _ _ => none⟩
  file _      := ⟨.none, 0, false, false, 0, 0⟩
  ofile _ _   := none
  cwd _       := rootIno

end Files
end Xv6
