import Mathlib
/-!
# Mem.Mmu — addresses, pages and page-table entries

The macros of mmu.h and memlayout.h on 32-bit words, and physical memory as pages of bytes in which the kernel keeps
little-endian words.  `Frame` is a physical page number, the upper twenty bits of an entry or an address.
-/
namespace Xv6
namespace Mem

abbrev Addr := BitVec 32
abbrev Pte := BitVec 32
abbrev Frame := BitVec 20

def kernbase : Addr := 0x80000000#32
def extmem : Addr := 0x100000#32
def kernlink : Addr := kernbase + extmem
def phystop : Addr := 0xE000000#32
def devspace : Addr := 0xFE000000#32
def pgsize : Addr := 4096#32

def pteP : Pte := 0x001#32
def pteW : Pte := 0x002#32
def pteU : Pte := 0x004#32
def pteA : Pte := 0x020#32

def pteAddr (pte : Pte) : Addr := pte &&& ~~~0xFFF#32
def pteFlags (pte : Pte) : Pte := pte &&& 0xFFF#32

def pdx (va : Addr) : BitVec 10 := va.extractLsb' 22 10
def ptx (va : Addr) : BitVec 10 := va.extractLsb' 12 10
def pgRoundUp (sz : Addr) : Addr := (sz + 4095#32) &&& ~~~4095#32
def pgRoundDown (a : Addr) : Addr := a &&& ~~~4095#32
def pgAddr (d t o : Addr) : Addr := d <<< 22 ||| t <<< 12 ||| o

/-- `a / PGSIZE`, the page of an address. -/
def pageNum (a : Addr) : Frame := a.extractLsb' 12 20

def frameAddr (f : Frame) : Addr := f ++ 0#12

/-- `P2V` of a frame: where the kernel finds it. -/
def p2v (f : Frame) : Addr := frameAddr f + kernbase

def pteFrame (pte : Pte) : Frame := pageNum (pteAddr pte)

/-- `*pte & PTE_P`. -/
def present (pte : Pte) : Prop := pte &&& pteP ≠ 0

instance : DecidablePred present := fun pte => inferInstanceAs (Decidable (pte &&& pteP ≠ 0))

/-! ## Bit by bit -/

theorem getLsbD_fff (i : Nat) : (0xFFF#32).getLsbD i = decide (i < 12) := by
  rw [BitVec.getLsbD_ofNat, show 0xFFF = 2 ^ 12 - 1 from rfl, Nat.testBit_two_pow_sub_one, ← Bool.decide_and]
  exact decide_eq_decide.2 (by omega)

theorem getLsbD_pow {k : Nat} (hk : k < 32) (i : Nat) : (BitVec.ofNat 32 (2 ^ k)).getLsbD i = decide (i = k) := by
  rw [BitVec.getLsbD_ofNat, Nat.testBit_two_pow, ← Bool.decide_and]
  exact decide_eq_decide.2 (by omega)

@[simp] theorem getLsbD_pteP (i : Nat) : pteP.getLsbD i = decide (i = 0) := getLsbD_pow (k := 0) (by decide) i
@[simp] theorem getLsbD_pteW (i : Nat) : pteW.getLsbD i = decide (i = 1) := getLsbD_pow (k := 1) (by decide) i
@[simp] theorem getLsbD_pteU (i : Nat) : pteU.getLsbD i = decide (i = 2) := getLsbD_pow (k := 2) (by decide) i
@[simp] theorem getLsbD_pteA (i : Nat) : pteA.getLsbD i = decide (i = 5) := getLsbD_pow (k := 5) (by decide) i

@[simp] theorem getLsbD_pteFlags (e : Pte) (i : Nat) : (pteFlags e).getLsbD i = (decide (i < 12) && e.getLsbD i) := by
  unfold pteFlags
  rw [BitVec.getLsbD_and, getLsbD_fff, Bool.and_comm]

@[simp] theorem getLsbD_pteAddr (e : Pte) (i : Nat) : (pteAddr e).getLsbD i = (decide (12 ≤ i) && e.getLsbD i) := by
  unfold pteAddr
  rw [BitVec.getLsbD_and, BitVec.getLsbD_not, getLsbD_fff]
  by_cases h : i < 32
  · by_cases h12 : i < 12 <;> simp [h, h12]; omega
  · simp [BitVec.getLsbD_of_ge e i (by omega)]

@[simp] theorem getLsbD_pageNum (a : Addr) (i : Nat) : (pageNum a).getLsbD i = (decide (i < 20) && a.getLsbD (12 + i)) := by
  unfold pageNum
  exact BitVec.getLsbD_extractLsb' 12 20 a i

@[simp] theorem getLsbD_pteFrame (e : Pte) (i : Nat) :
    (pteFrame e).getLsbD i = (decide (i < 20) && e.getLsbD (12 + i)) := by
  unfold pteFrame
  rw [getLsbD_pageNum, getLsbD_pteAddr]
  simp

@[simp] theorem getLsbD_frameAddr (f : Frame) (i : Nat) :
    (frameAddr f).getLsbD i = (decide (12 ≤ i) && f.getLsbD (i - 12)) := by
  unfold frameAddr
  rw [BitVec.getLsbD_append]
  by_cases h : i < 12 <;> simp [h]; omega

/-! ## Entries -/

theorem present_iff (e : Pte) : present e ↔ e.getLsbD 0 = true := by
  unfold present
  constructor
  · intro h
    by_contra hb
    refine h (BitVec.eq_of_getLsbD_eq fun i _ => ?_)
    rw [BitVec.getLsbD_and, getLsbD_pteP]
    by_cases hi : i = 0
    · simpa [hi] using hb
    · simp [hi]
  · intro h he
    have h0 := congrArg (fun x => x.getLsbD 0) he
    simp only [BitVec.getLsbD_and, h, getLsbD_pteP] at h0
    simp at h0

@[simp] theorem not_present_zero : ¬ present 0 := by decide

@[simp] theorem pageNum_frameAddr (f : Frame) : pageNum (frameAddr f) = f := by
  refine BitVec.eq_of_getLsbD_eq fun i hi => ?_
  rw [getLsbD_pageNum, getLsbD_frameAddr, Nat.add_sub_cancel_left]
  simp only [hi, Nat.le_add_right, decide_true, Bool.true_and]

@[simp] theorem pteFrame_clearA (e : Pte) : pteFrame (e &&& ~~~pteA) = pteFrame e := by
  refine BitVec.eq_of_getLsbD_eq fun i hi => ?_
  have h5 : 12 + i ≠ 5 := by omega
  simp only [getLsbD_pteFrame, BitVec.getLsbD_and, BitVec.getLsbD_not, getLsbD_pteA, hi, h5, decide_true, decide_false,
    Bool.true_and, Bool.not_false, Bool.and_true]
  by_cases h : 12 + i < 32
  · simp only [h, decide_true, Bool.and_true]
  · omega

@[simp] theorem present_clearA (e : Pte) : present (e &&& ~~~pteA) ↔ present e := by
  simp only [present_iff, BitVec.getLsbD_and, BitVec.getLsbD_not, getLsbD_pteA]
  simp

/-- The entry `pa | perm | PTE_P` that maps a frame. -/
def mapPte (f : Frame) (perm : Pte) : Pte := frameAddr f ||| perm ||| pteP

@[simp] theorem present_mapPte (f : Frame) (perm : Pte) : present (mapPte f perm) := by
  simp only [present_iff, mapPte, BitVec.getLsbD_or, getLsbD_pteP, decide_true, Bool.or_true]

@[simp] theorem pteFlags_pteFlags (e : Pte) : pteFlags (pteFlags e) = pteFlags e := by
  unfold pteFlags
  rw [BitVec.and_assoc, BitVec.and_self]

theorem getLsbD_of_flags {fl : Pte} (h : pteFlags fl = fl) (i : Nat) : fl.getLsbD (12 + i) = false := by
  have h12 : ¬ 12 + i < 12 := by omega
  rw [← h, getLsbD_pteFlags, decide_eq_false h12, Bool.false_and]

theorem pteFrame_mapPte {f : Frame} {perm : Pte} (h : pteFlags perm = perm) : pteFrame (mapPte f perm) = f := by
  refine BitVec.eq_of_getLsbD_eq fun i hi => ?_
  simp only [getLsbD_pteFrame, mapPte, BitVec.getLsbD_or, getLsbD_frameAddr, getLsbD_of_flags h, getLsbD_pteP,
    Nat.add_sub_cancel_left, hi, Nat.le_add_right, decide_true, Bool.true_and, Bool.or_false]
  simp

/-- The entry a swapped-out page is left with: `(swap_index << 12) | flags`, and `PTE_P` cleared. -/
def swapPte (k : Nat) (flags : Pte) : Pte := ((BitVec.ofNat 32 k <<< 12) ||| flags) &&& ~~~pteP

@[simp] theorem not_present_swapPte (k : Nat) (flags : Pte) : ¬ present (swapPte k flags) := by
  simp only [present_iff, swapPte, BitVec.getLsbD_and, BitVec.getLsbD_not, getLsbD_pteP]
  simp

theorem pteFrame_swapPte (k : Nat) {flags : Pte} (h : pteFlags flags = flags) :
    pteFrame (swapPte k flags) = BitVec.ofNat 20 k := by
  refine BitVec.eq_of_getLsbD_eq fun i hi => ?_
  have h32 : 12 + i < 32 := by omega
  have h32' : i < 32 := by omega
  simp only [getLsbD_pteFrame, swapPte, BitVec.getLsbD_and, BitVec.getLsbD_or, BitVec.getLsbD_not, getLsbD_pteP,
    BitVec.getLsbD_shiftLeft, BitVec.getLsbD_ofNat, getLsbD_of_flags h, Nat.add_sub_cancel_left, hi, h32, h32']
  simp

theorem getLsbD_swapPte_one (k : Nat) (flags : Pte) : (swapPte k flags).getLsbD 1 = flags.getLsbD 1 := by
  simp only [swapPte, BitVec.getLsbD_and, BitVec.getLsbD_or, BitVec.getLsbD_not, getLsbD_pteP,
    BitVec.getLsbD_shiftLeft]
  simp

theorem swapPte_ne_zero {k : Nat} {flags : Pte} (h : flags.getLsbD 1 = true) : swapPte k flags ≠ 0 := by
  intro he
  have h1 := congrArg (fun x => x.getLsbD 1) he
  simp only [getLsbD_swapPte_one, h] at h1
  simp at h1

theorem shiftRight_toNat (e : Pte) : (e >>> 12).toNat = (pteFrame e).toNat := by
  have hlt : (e >>> 12).toNat < 2 ^ 20 := by
    rw [BitVec.toNat_ushiftRight, Nat.shiftRight_eq_div_pow]
    omega
  have : pteFrame e = (e >>> 12).setWidth 20 := by
    refine BitVec.eq_of_getLsbD_eq fun i hi => ?_
    rw [getLsbD_pteFrame, BitVec.getLsbD_setWidth, BitVec.getLsbD_ushiftRight]
  rw [this, BitVec.toNat_setWidth, Nat.mod_eq_of_lt hlt]

/-! ## Addresses -/

@[simp] theorem getLsbD_pdx (a : Addr) (i : Nat) : (pdx a).getLsbD i = (decide (i < 10) && a.getLsbD (22 + i)) :=
  BitVec.getLsbD_extractLsb' 22 10 a i

@[simp] theorem getLsbD_ptx (a : Addr) (i : Nat) : (ptx a).getLsbD i = (decide (i < 10) && a.getLsbD (12 + i)) :=
  BitVec.getLsbD_extractLsb' 12 10 a i

theorem pgRoundDown_eq_pteAddr (a : Addr) : pgRoundDown a = pteAddr a := rfl

@[simp] theorem pdx_pgRoundDown (a : Addr) : pdx (pgRoundDown a) = pdx a := by
  refine BitVec.eq_of_getLsbD_eq fun i hi => ?_
  have h : 12 ≤ 22 + i := by omega
  rw [getLsbD_pdx, getLsbD_pdx, pgRoundDown_eq_pteAddr, getLsbD_pteAddr, decide_eq_true h, Bool.true_and]

@[simp] theorem ptx_pgRoundDown (a : Addr) : ptx (pgRoundDown a) = ptx a := by
  refine BitVec.eq_of_getLsbD_eq fun i hi => ?_
  have h : 12 ≤ 12 + i := by omega
  rw [getLsbD_ptx, getLsbD_ptx, pgRoundDown_eq_pteAddr, getLsbD_pteAddr, decide_eq_true h, Bool.true_and]

theorem toNat_pgRoundDown (a : Addr) : (pgRoundDown a).toNat = a.toNat / 4096 * 4096 := by
  have h : pgRoundDown a = a >>> 12 <<< 12 := by
    refine BitVec.eq_of_getLsbD_eq fun i hi => ?_
    rw [pgRoundDown_eq_pteAddr, getLsbD_pteAddr, BitVec.getLsbD_shiftLeft, BitVec.getLsbD_ushiftRight]
    by_cases h12 : i < 12
    · simp [h12, Nat.not_le.2 h12]
    · have : 12 + (i - 12) = i := by omega
      simp [h12, hi, this, Nat.not_lt.1 h12]
  have ha := a.isLt
  rw [h, BitVec.toNat_shiftLeft, BitVec.toNat_ushiftRight, Nat.shiftRight_eq_div_pow, Nat.shiftLeft_eq]
  omega

theorem pgRoundDown_mono {a b : Addr} (h : a ≤ b) : pgRoundDown a ≤ pgRoundDown b := by
  rw [BitVec.le_def, toNat_pgRoundDown, toNat_pgRoundDown]
  exact Nat.mul_le_mul_right _ (Nat.div_le_div_right h)

theorem pgRoundDown_eq_self {a : Addr} : pgRoundDown a = a ↔ a.toNat % 4096 = 0 := by
  rw [← BitVec.toNat_inj, toNat_pgRoundDown]
  omega

theorem frameAddr_pageNum {a : Addr} (h : a.toNat % 4096 = 0) : frameAddr (pageNum a) = a := by
  rw [← pgRoundDown_eq_self.2 h]
  refine BitVec.eq_of_getLsbD_eq fun i hi => ?_
  rw [pgRoundDown_eq_pteAddr, getLsbD_frameAddr, getLsbD_pteAddr, getLsbD_pageNum]
  by_cases h12 : 12 ≤ i
  · simp [h12, show i - 12 < 20 by omega]
  · simp [h12]

theorem toNat_nextPage {a : Addr} (h : a.toNat + 4096 < 4294967296) : (a + pgsize).toNat = a.toNat + 4096 := by
  rw [BitVec.toNat_add]
  show (_ + 4096) % 4294967296 = _
  omega

theorem toNat_last {a size : Addr} (hpos : 0 < size.toNat) (hfits : a.toNat + size.toNat ≤ 4294967296) :
    (a + size - 1#32).toNat = a.toNat + size.toNat - 1 := by
  rw [BitVec.toNat_sub, BitVec.toNat_add]
  simp only [BitVec.toNat_ofNat]
  omega

theorem pgRoundDown_last {a : Addr} (ha : pgRoundDown a = a) : pgRoundDown (a + pgsize - 1#32) = a := by
  have h := pgRoundDown_eq_self.1 ha
  have hlt := a.isLt
  rw [← BitVec.toNat_inj, toNat_pgRoundDown, BitVec.toNat_sub, BitVec.toNat_add, pgsize]
  simp only [BitVec.toNat_ofNat]
  omega

/-- **A page address is its two indexes.** -/
theorem eq_of_pdx_ptx {a b : Addr} (ha : pgRoundDown a = a) (hb : pgRoundDown b = b) (hd : pdx a = pdx b)
    (ht : ptx a = ptx b) : a = b := by
  refine BitVec.eq_of_getLsbD_eq fun i hi => ?_
  by_cases h12 : i < 12
  · rw [← ha, ← hb, pgRoundDown_eq_pteAddr, pgRoundDown_eq_pteAddr, getLsbD_pteAddr, getLsbD_pteAddr,
      decide_eq_false (Nat.not_le.2 h12), Bool.false_and, Bool.false_and]
  · by_cases h22 : i < 22
    · have := congrArg (fun x => x.getLsbD (i - 12)) ht
      simpa only [getLsbD_ptx, show i - 12 < 10 by omega, show 12 + (i - 12) = i by omega, decide_true,
        Bool.true_and] using this
    · have := congrArg (fun x => x.getLsbD (i - 22)) hd
      simpa only [getLsbD_pdx, show i - 22 < 10 by omega, show 22 + (i - 22) = i by omega, decide_true,
        Bool.true_and] using this

theorem le_sub_one {a b : Addr} (h : a < b) : a ≤ b - 1#32 := by
  rw [BitVec.lt_def] at h
  rw [BitVec.le_def, BitVec.toNat_sub]
  simp only [BitVec.toNat_ofNat]
  omega

theorem pdx_lt_iff (a : Addr) : pdx a < 512#10 ↔ a < kernbase := by
  unfold pdx kernbase
  rw [BitVec.lt_def, BitVec.lt_def, BitVec.extractLsb'_toNat, Nat.shiftRight_eq_div_pow]
  have := a.isLt
  simp only [BitVec.toNat_ofNat]
  omega

theorem toNat_pdx (a : Addr) : (pdx a).toNat = a.toNat / 4194304 := by
  have := a.isLt
  unfold pdx
  rw [BitVec.extractLsb'_toNat, Nat.shiftRight_eq_div_pow]
  omega

theorem toNat_pgRoundUp {a : Addr} (ha : a.toNat ≤ 2147483648) : (pgRoundUp a).toNat = (a.toNat + 4095) / 4096 * 4096 := by
  show (pgRoundDown (a + 4095#32)).toNat = _
  rw [toNat_pgRoundDown, BitVec.toNat_add]
  simp only [BitVec.toNat_ofNat]
  omega

theorem toNat_nextDir {a : Addr} (ha : a.toNat < 2147483648) :
    (pgAddr ((pdx a).setWidth 32 + 1) 0 0 - pgsize + pgsize).toNat = (a.toNat / 4194304 + 1) * 4194304 := by
  have hd : ((pdx a).setWidth 32 + 1).toNat = a.toNat / 4194304 + 1 := by
    show ((pdx a).setWidth 32 + 1#32).toNat = _
    rw [BitVec.toNat_add, BitVec.toNat_setWidth, toNat_pdx]
    simp only [BitVec.toNat_ofNat]
    omega
  have h0 : pgAddr ((pdx a).setWidth 32 + 1) 0 0 = ((pdx a).setWidth 32 + 1) <<< 22 := by
    show _ ||| 0#32 <<< 12 ||| 0#32 = _
    rw [BitVec.zero_shiftLeft, BitVec.or_zero, BitVec.or_zero]
  rw [BitVec.sub_add_cancel, h0, BitVec.toNat_shiftLeft, hd, Nat.shiftLeft_eq]
  omega

theorem pageNum_toNat (va : Addr) : (pageNum va).toNat = va.toNat / 4096 := by
  unfold pageNum
  rw [BitVec.extractLsb'_toNat, Nat.shiftRight_eq_div_pow]
  have := va.isLt
  omega

theorem pgRoundUp_aligned (a : Addr) : (pgRoundUp a).toNat % 4096 = 0 := by
  show (pgRoundDown (a + 4095#32)).toNat % 4096 = 0
  rw [toNat_pgRoundDown]
  omega

/-! ## Pages -/

abbrev Page := BitVec 12 → BitVec 8

/-- The `i`-th 32-bit word of a page. -/
def wordAt (p : Page) (i : BitVec 10) : BitVec 32 := p (i ++ 3#2) ++ p (i ++ 2#2) ++ p (i ++ 1#2) ++ p (i ++ 0#2)

/-- The page with its `i`-th word stored to. -/
def setWord (p : Page) (i : BitVec 10) (v : BitVec 32) : Page := fun o =>
  if o.extractLsb' 2 10 = i then v.extractLsb' (8 * (o.extractLsb' 0 2).toNat) 8 else p o

theorem extract_append_hi (j : BitVec 10) (b : BitVec 2) : (j ++ b).extractLsb' 2 10 = j := by
  refine BitVec.eq_of_getLsbD_eq fun n hn => ?_
  rw [BitVec.getLsbD_extractLsb', BitVec.getLsbD_append, if_neg (show ¬ 2 + n < 2 by omega), Nat.add_sub_cancel_left,
    decide_eq_true hn, Bool.true_and]

theorem extract_append_lo (j : BitVec 10) (b : BitVec 2) : (j ++ b).extractLsb' 0 2 = b := by
  refine BitVec.eq_of_getLsbD_eq fun n hn => ?_
  rw [BitVec.getLsbD_extractLsb', BitVec.getLsbD_append]
  simp [hn]

theorem setWord_append (p : Page) (i j : BitVec 10) (v : BitVec 32) (b : BitVec 2) :
    setWord p i v (j ++ b) = if j = i then v.extractLsb' (8 * b.toNat) 8 else p (j ++ b) := by
  unfold setWord
  rw [extract_append_hi, extract_append_lo]

@[simp] theorem wordAt_setWord (p : Page) (i j : BitVec 10) (v : BitVec 32) :
    wordAt (setWord p i v) j = if j = i then v else wordAt p j := by
  unfold wordAt
  simp only [setWord_append]
  split
  · refine BitVec.eq_of_getLsbD_eq fun n hn => ?_
    simp only [BitVec.getLsbD_append, BitVec.getLsbD_extractLsb']
    by_cases h8 : n < 8
    · simp [h8]
    · by_cases h16 : n < 16
      · have h : n - 8 < 8 := by omega
        have he : 8 + (n - 8) = n := by omega
        simp [h8, h, he]
      · by_cases h24 : n < 24
        · have h : ¬ n - 8 < 8 := by omega
          have h' : n - 8 - 8 < 8 := by omega
          have he : 16 + (n - 8 - 8) = n := by omega
          simp [h8, h, h', he]
        · have h : ¬ n - 8 < 8 := by omega
          have h' : ¬ n - 8 - 8 < 8 := by omega
          have h'' : n - 8 - 8 - 8 < 8 := by omega
          have he : 24 + (n - 8 - 8 - 8) = n := by omega
          simp [h8, h, h', h'', he]
  · rfl

/-- `memset` of a page to zero. -/
def zeroPage : Page := fun _ => 0

def pageOf (w : BitVec 10 → BitVec 32) : Page := fun o =>
  (w (o.extractLsb' 2 10)).extractLsb' (8 * (o.extractLsb' 0 2).toNat) 8

@[simp] theorem wordAt_pageOf (w : BitVec 10 → BitVec 32) (i : BitVec 10) : wordAt (pageOf w) i = w i := by
  have h : ∀ b : BitVec 2, pageOf w (i ++ b) = setWord zeroPage i (w i) (i ++ b) := by
    intro b
    rw [setWord_append, if_pos rfl]
    show (w ((i ++ b).extractLsb' 2 10)).extractLsb' (8 * ((i ++ b).extractLsb' 0 2).toNat) 8 = _
    rw [extract_append_hi, extract_append_lo]
  have hset : wordAt (setWord zeroPage i (w i)) i = w i := by rw [wordAt_setWord, if_pos rfl]
  unfold wordAt at hset ⊢
  rw [h, h, h, h, hset]

@[simp] theorem wordAt_zeroPage (i : BitVec 10) : wordAt zeroPage i = 0 := by
  show (0#8 ++ 0#8 ++ 0#8 ++ 0#8 : BitVec 32) = 0
  decide

end Mem
end Xv6
