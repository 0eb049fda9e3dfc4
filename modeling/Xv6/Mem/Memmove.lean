import Xv6.Lib.Copies
import Xv6.Mem.Mmu
/-!
# Mem.Memmove — the two memmoves (string.c, ulib.c)

The kernel's `memmove` chooses the direction of its copy by where the ranges lie.  The one of the user library always
copies upwards.  Pointers are 32-bit words, and so are their sums.
-/
namespace Xv6
namespace Mem

abbrev Bytes := Addr → BitVec 8

/-! ## The loops -/

/-- `while(n-- > 0) *d++ = *s++`, with the bytes left. -/
def copyUp : Nat → Addr → Addr → Bytes → Bytes
  | 0, _, _, m     => m
  | n + 1, d, s, m => copyUp n (d + 1#32) (s + 1#32) (Function.update m d (m s))

/-- `while(n-- > 0) *--d = *--s`. -/
def copyDown : Nat → Addr → Addr → Bytes → Bytes
  | 0, _, _, m     => m
  | n + 1, d, s, m => copyDown n (d - 1#32) (s - 1#32) (Function.update m (d - 1#32) (m (s - 1#32)))

def Kernel.memmove (dst src n : BitVec 32) (m : Bytes) : Addr × Bytes :=
  if src < dst ∧ dst < src + n then (dst, copyDown n.toNat (dst + n) (src + n) m) else (dst, copyUp n.toNat dst src m)

def Ulib.memmove (vdst vsrc n : BitVec 32) (m : Bytes) : Addr × Bytes := (vdst, copyUp n.toInt.toNat vdst vsrc m)

/-- The bytes of `[src, src + n)` are in `[dst, dst + n)`, and nothing else has changed. -/
def moved (dst src : Addr) (n : Nat) (m : Bytes) : Bytes :=
  fun a => if dst.toNat ≤ a.toNat ∧ a.toNat < dst.toNat + n then m (src + (a - dst)) else m a

/-! ## The loops as assignments -/

theorem copyUp_eq : ∀ (n : Nat) (d s : Addr) (m : Bytes), copyUp n d s m =
    copies ((List.range n).map fun i => (d + BitVec.ofNat 32 i, s + BitVec.ofNat 32 i)) m
  | 0, _, _, _     => rfl
  | n + 1, d, s, m => by
    have hstep : ∀ (a : Addr) (i : Nat), a + 1#32 + BitVec.ofNat 32 i = a + BitVec.ofNat 32 (i + 1) := fun a i => by
      rw [BitVec.add_assoc, ← BitVec.ofNat_add, Nat.add_comm]
    rw [copyUp, copyUp_eq n, List.range_succ_eq_map, List.map_cons, List.map_map, copies.cons]
    simp [Function.comp_def, hstep]

theorem copyDown_eq : ∀ (n : Nat) (d s : Addr) (m : Bytes), copyDown n d s m =
    copies ((List.range n).map fun i => (d - BitVec.ofNat 32 (i + 1), s - BitVec.ofNat 32 (i + 1))) m
  | 0, _, _, _     => rfl
  | n + 1, d, s, m => by
    have hstep : ∀ (a : Addr) (i : Nat), a - 1#32 - BitVec.ofNat 32 (i + 1) = a - BitVec.ofNat 32 (i + 1 + 1) := by
      intro a i
      rw [BitVec.ofNat_add (i + 1) 1]
      bv_omega
    rw [copyDown, copyDown_eq n, List.range_succ_eq_map, List.map_cons, List.map_map, copies.cons]
    simp [Function.comp_def, hstep]

variable {dst src a : Addr} {n : Nat} {m : Bytes}

theorem toNat_offset {i : Nat} (h : a.toNat + i < 4294967296) : (a + BitVec.ofNat 32 i).toNat = a.toNat + i := by
  rw [BitVec.toNat_add, BitVec.toNat_ofNat]
  omega

theorem offset_inj {i j : Nat} (hi : a.toNat + i < 4294967296) (hj : a.toNat + j < 4294967296)
    (h : a + BitVec.ofNat 32 i = a + BitVec.ofNat 32 j) : i = j := by
  have hnat := congrArg BitVec.toNat h
  rw [toNat_offset hi, toNat_offset hj] at hnat
  omega

theorem eq_offset (h : dst.toNat ≤ a.toNat) : a = dst + BitVec.ofNat 32 (a.toNat - dst.toNat) := by
  have := a.isLt
  rw [← BitVec.toNat_inj, toNat_offset (by omega)]
  omega

theorem moved_at (hd : dst.toNat + n ≤ 4294967296) {i : Nat} (hi : i < n) :
    moved dst src n m (dst + BitVec.ofNat 32 i) = m (src + BitVec.ofNat 32 i) := by
  have hnat : (dst + BitVec.ofNat 32 i).toNat = dst.toNat + i := toNat_offset (by omega)
  have hsub : dst + BitVec.ofNat 32 i - dst = BitVec.ofNat 32 i := by
    rw [BitVec.add_comm, BitVec.add_sub_cancel]
  rw [moved, if_pos (by omega), hsub]

theorem moved_other (h : ¬ (dst.toNat ≤ a.toNat ∧ a.toNat < dst.toNat + n)) : moved dst src n m a = m a := if_neg h

theorem eq_moved {m' : Bytes} (hd : dst.toNat + n ≤ 4294967296)
    (hin : ∀ i, i < n → m' (dst + BitVec.ofNat 32 i) = m (src + BitVec.ofNat 32 i))
    (hout : ∀ a : Addr, ¬ (dst.toNat ≤ a.toNat ∧ a.toNat < dst.toNat + n) → m' a = m a) : m' = moved dst src n m := by
  funext a
  by_cases ha : dst.toNat ≤ a.toNat ∧ a.toNat < dst.toNat + n
  · have hoff := eq_offset ha.1
    rw [hoff, moved_at hd (by omega)]
    exact hin _ (by omega)
  · rw [moved_other ha]
    exact hout a ha

theorem copyUp_other (hd : dst.toNat + n ≤ 4294967296) (ha : ¬ (dst.toNat ≤ a.toNat ∧ a.toNat < dst.toNat + n)) :
    copyUp n dst src m a = m a := by
  rw [copyUp_eq, copies.other]
  intro p hp he
  obtain ⟨i, hi, rfl⟩ := List.mem_map.1 hp
  have hlt := List.mem_range.1 hi
  have hnat := congrArg BitVec.toNat he
  rw [toNat_offset (by omega)] at hnat
  omega

/-- **Upwards**, no byte is written before it is read, where the destination is not above the source or beyond it. -/
theorem copyUp_moved (hd : dst.toNat + n ≤ 4294967296) (hs : src.toNat + n ≤ 4294967296)
    (hle : dst.toNat ≤ src.toNat) : copyUp n dst src m = moved dst src n m := by
  refine eq_moved hd (fun i hi => ?_) fun a ha => copyUp_other hd ha
  rw [copyUp_eq]
  refine copies.apart (p := (dst + BitVec.ofNat 32 i, src + BitVec.ofNat 32 i)) ?_ ?_
  · rw [List.pairwise_map]
    refine List.pairwise_lt_range.imp_of_mem fun {j k} hj hk hjk => ?_
    rw [List.mem_range] at hj hk
    refine ⟨fun h => ?_, fun h => ?_⟩
    · have := offset_inj (by omega) (by omega) h
      omega
    · have hnat := congrArg BitVec.toNat h
      rw [toNat_offset (by omega), toNat_offset (by omega)] at hnat
      omega
  · exact List.mem_map.2 ⟨i, List.mem_range.2 hi, rfl⟩

/-- **Downwards**, no byte is written before it is read, where the destination is above the source. -/
theorem copyDown_moved (hd : dst.toNat + n ≤ 4294967296) (hlt : src.toNat < dst.toNat) :
    copyDown n (dst + BitVec.ofNat 32 n) (src + BitVec.ofNat 32 n) m = moved dst src n m := by
  have hback : ∀ (a : Addr) (i : Nat), i < n →
      a + BitVec.ofNat 32 n - BitVec.ofNat 32 (i + 1) = a + BitVec.ofNat 32 (n - 1 - i) := by
    intro a i hi
    have hn : BitVec.ofNat 32 n = BitVec.ofNat 32 (n - 1 - i) + BitVec.ofNat 32 (i + 1) := by
      rw [← BitVec.ofNat_add]
      congr 1
      omega
    rw [hn, ← BitVec.add_assoc, BitVec.add_sub_cancel]
  have hlist : (List.range n).map (fun i => (dst + BitVec.ofNat 32 n - BitVec.ofNat 32 (i + 1),
      src + BitVec.ofNat 32 n - BitVec.ofNat 32 (i + 1))) =
      (List.range n).map fun i => (dst + BitVec.ofNat 32 (n - 1 - i), src + BitVec.ofNat 32 (n - 1 - i)) :=
    List.map_congr_left fun i hi => by rw [hback _ i (List.mem_range.1 hi), hback _ i (List.mem_range.1 hi)]
  rw [copyDown_eq, hlist]
  refine eq_moved hd (fun i hi => ?_) fun a ha => ?_
  · refine copies.apart (p := (dst + BitVec.ofNat 32 i, src + BitVec.ofNat 32 i)) ?_ ?_
    · rw [List.pairwise_map]
      refine List.pairwise_lt_range.imp_of_mem fun {j k} hj hk hjk => ?_
      rw [List.mem_range] at hj hk
      refine ⟨fun h => ?_, fun h => ?_⟩
      · have := offset_inj (by omega) (by omega) h
        omega
      · have hnat := congrArg BitVec.toNat h
        rw [toNat_offset (by omega), toNat_offset (by omega)] at hnat
        omega
    · refine List.mem_map.2 ⟨n - 1 - i, List.mem_range.2 (by omega), ?_⟩
      rw [show n - 1 - (n - 1 - i) = i by omega]
  · refine copies.other fun p hp he => ha ?_
    obtain ⟨i, hi, rfl⟩ := List.mem_map.1 hp
    have hlt' := List.mem_range.1 hi
    have hnat := congrArg BitVec.toNat he
    rw [toNat_offset (by omega)] at hnat
    omega

theorem copyUp_repeats (hd : dst.toNat + n ≤ 4294967296) (hlt : src.toNat < dst.toNat) {i : Nat} (hi : i < n) :
    copyUp n dst src m (dst + BitVec.ofNat 32 i) = m (src + BitVec.ofNat 32 (i % (dst.toNat - src.toNat))) := by
  have hshift : ∀ i, dst + BitVec.ofNat 32 i = src + BitVec.ofNat 32 (i + (dst.toNat - src.toNat)) := by
    intro i
    have hδ : dst = src + BitVec.ofNat 32 (dst.toNat - src.toNat) := eq_offset (Nat.le_of_lt hlt)
    rw [Nat.add_comm i, BitVec.ofNat_add, ← BitVec.add_assoc, ← hδ]
  have hmap : (List.range n).map (fun i => (dst + BitVec.ofNat 32 i, src + BitVec.ofNat 32 i)) =
      (List.range n).map fun i => (src + BitVec.ofNat 32 (i + (dst.toNat - src.toNat)), src + BitVec.ofNat 32 i) :=
    List.map_congr_left fun i _ => by rw [hshift]
  rw [copyUp_eq, hmap, hshift]
  have hrep := copies.shifted (m := m) (c := fun i => src + BitVec.ofNat 32 i) (δ := dst.toNat - src.toNat) (by omega) n
    (fun i j hi hj => offset_inj (by omega) (by omega)) (i + (dst.toNat - src.toNat)) (by omega)
  rw [hrep, Nat.add_mod_right]

/-! ## The functions -/

/-- **The kernel's `memmove` moves**, whatever the overlap. -/
theorem kernel_moved {n : BitVec 32} (hd : dst.toNat + n.toNat ≤ 4294967296) (hs : src.toNat + n.toNat ≤ 4294967296) :
    Kernel.memmove dst src n m = (dst, moved dst src n.toNat m) := by
  unfold Kernel.memmove
  split
  · next hc =>
    have hdown := copyDown_moved (m := m) hd hc.1
    rw [BitVec.ofNat_toNat, BitVec.setWidth_eq] at hdown
    rw [hdown]
  · next hc =>
    by_cases hle : dst.toNat ≤ src.toNat
    · rw [copyUp_moved hd hs hle]
    · have hbeyond : src.toNat + n.toNat ≤ dst.toNat := by
        rw [BitVec.lt_def, BitVec.lt_def, BitVec.toNat_add] at hc
        omega
      refine congrArg (Prod.mk dst) (eq_moved hd (fun i hi => ?_) fun a ha => copyUp_other hd ha)
      rw [copyUp_repeats hd (by omega) hi, Nat.mod_eq_of_lt (by omega)]

/-- The source repeats with the distance to the destination. -/
def Repeats (dst src : Addr) (n : Nat) (m : Bytes) : Prop :=
  ∀ i, i < n → m (src + BitVec.ofNat 32 i) = m (src + BitVec.ofNat 32 (i % (dst.toNat - src.toNat)))

theorem copyUp_moved_iff (hd : dst.toNat + n ≤ 4294967296) (hs : src.toNat + n ≤ 4294967296) :
    copyUp n dst src m = moved dst src n m ↔ dst ≤ src ∨ Repeats dst src n m := by
  by_cases hle : dst ≤ src
  · simp [copyUp_moved hd hs hle, hle]
  · have hlt : src.toNat < dst.toNat := Nat.lt_of_not_le hle
    refine ⟨fun h => .inr fun i hi => ?_, fun h => eq_moved hd (fun i hi => ?_) fun a ha => copyUp_other hd ha⟩
    · have hat : moved dst src n m (dst + BitVec.ofNat 32 i) = m (src + BitVec.ofNat 32 i) := moved_at hd hi
      rw [← hat, ← h, copyUp_repeats hd hlt hi]
    · rw [copyUp_repeats hd hlt hi, ← h.resolve_left hle i hi]

/-- **Both `memmove`s move the bytes** exactly where the user library's copy does not run over its own source, or the source
repeats with the distance of the two. -/
theorem memmoves_move (dst src n : BitVec 32) (m : Bytes) (hn : n.toNat < 2147483648) (hd : dst.toNat + n.toNat ≤ 4294967296)
    (hs : src.toNat + n.toNat ≤ 4294967296) :
    Kernel.memmove dst src n m = (dst, moved dst src n.toNat m) ∧ Ulib.memmove dst src n m = (dst, moved dst src n.toNat m) ↔
      dst ≤ src ∨ Repeats dst src n.toNat m := by
  have hint : n.toInt.toNat = n.toNat := by
    rw [BitVec.toInt_eq_toNat_of_lt (by omega), Int.toNat_natCast]
  rw [and_iff_right (kernel_moved hd hs), Ulib.memmove, hint, Prod.mk.injEq, and_iff_right rfl]
  exact copyUp_moved_iff hd hs

def counting : Bytes := fun a => a.setWidth 8

/-- Two bytes are moved upwards by one. -/
theorem counting_differs : ¬ (Kernel.memmove 1 0 2 counting = (1, moved 1 0 2 counting) ∧
    Ulib.memmove 1 0 2 counting = (1, moved 1 0 2 counting)) := by
  rintro ⟨-, h⟩
  have h2 : copyUp 2 1 0 counting 2 = moved 1 0 2 counting 2 := congrFun (congrArg Prod.snd h) 2
  revert h2
  decide

/-- Eight bytes are moved downwards by three. -/
theorem counting_down : Kernel.memmove 0 3 8 counting = (0, moved 0 3 8 counting) ∧
    Ulib.memmove 0 3 8 counting = (0, moved 0 3 8 counting) :=
  (memmoves_move 0 3 8 counting (by decide) (by decide) (by decide)).2 (.inl (by decide))

end Mem
end Xv6
