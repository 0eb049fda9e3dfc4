import Xv6.Files.Run
/-!
# Files.Array — a file is an array of bytes

`readi` and `writei` on the contents of a file as one list of bytes, whatever blocks it lies in.  A write to a file of a
file system in order never runs out of blocks: the inodes cannot hold as many as there are, so `balloc` finds one.
-/
namespace Xv6
namespace Files

open Fs (Bno Block nlog)
open Prog (wp wp_bind wp_read wp_modify wp_emit wp_stop wp_pure wp_get)

variable {s t u : State} {i : Nat}

/-! ## A free block -/

/-- The places of the first `m` inodes. -/
def placesBelow (m : Nat) : Finset Place :=
  (Finset.range m ×ˢ (Finset.univ : Finset (Fin 13))).image (fun x => Place.slot x.1 x.2) ∪
    (Finset.range m ×ˢ (Finset.univ : Finset (Fin 128))).image fun x => Place.word x.1 x.2

theorem placesBelow_card (m : Nat) : (placesBelow m).card ≤ m * 141 := by
  unfold placesBelow
  refine (Finset.card_union_le _ _).trans ?_
  refine (Nat.add_le_add Finset.card_image_le Finset.card_image_le).trans ?_
  rw [Finset.card_product, Finset.card_product, Finset.card_range, Finset.card_univ, Finset.card_univ, Fintype.card_fin,
    Fintype.card_fin, ← Nat.mul_add]

theorem mem_placesBelow {m : Nat} {p : Place} (h : p.inum < m) : p ∈ placesBelow m := by
  unfold placesBelow
  rw [Finset.mem_union, Finset.mem_image, Finset.mem_image]
  cases p with
  | slot j k => exact .inl ⟨(j, k), Finset.mem_product.2 ⟨Finset.mem_range.2 h, Finset.mem_univ _⟩, rfl⟩
  | word j w => exact .inr ⟨(j, w), Finset.mem_product.2 ⟨Finset.mem_range.2 h, Finset.mem_univ _⟩, rfl⟩

theorem places_bound {f : Place → Bno} {m lo hi : Nat} (h : ∀ n, lo ≤ n → n < hi →
    ∃ p : Place, p.inum < m ∧ (f p).toNat = n) :
    hi - lo ≤ m * 141 := by
  have hsub : Finset.Ico lo hi ⊆ (placesBelow m).image fun p => (f p).toNat := by
    intro n hn
    rw [Finset.mem_Ico] at hn
    obtain ⟨p, hp, hpn⟩ := h n hn.1 hn.2
    exact Finset.mem_image.2 ⟨p, mem_placesBelow hp, hpn⟩
  have hcard := (Finset.card_le_card hsub).trans (Finset.card_image_le.trans (placesBelow_card m))
  rwa [Nat.card_Ico] at hcard

theorem Exact.owner {bit : Bno → Bool} {D : Nat → Dinode} {data : Bno → Block} (h : Exact bit (addr D data))
    {m : Nat} (hD : ∀ j, m ≤ j → (D j).type = .free) {b : Bno} (hb : InData b) (hbit : bit b = true) :
    ∃ p : Place, p.inum < m ∧ addr D data p = b := by
  obtain ⟨p, hp⟩ := (h.owned.bits b hb).1 hbit
  refine ⟨p, ?_, hp⟩
  by_contra hge
  have hfree := hD p.inum (Nat.not_lt.1 hge)
  have hzero : addr D data p = 0 := by
    cases p with
    | slot j k => exact if_pos hfree
    | word j w => exact if_pos (.inl hfree)
  exact not_inData_zero (hzero ▸ hp ▸ hb)

/-- **There is a free block**: more blocks are for data than the inodes have places for. -/
theorem Exact.exists_free {bit : Bno → Bool} {D : Nat → Dinode} {data : Bno → Block} (h : Exact bit (addr D data))
    (hD : ∀ j, ninodes ≤ j → (D j).type = .free) : ∃ n < fsSize, bit (BitVec.ofNat 32 n) = false := by
  by_contra hnone
  have hbound : fsSize - nmeta ≤ ninodes * 141 := by
    refine places_bound (f := addr D data) fun n hlo hhi => ?_
    have hto : (BitVec.ofNat 32 n).toNat = n := Nat.mod_eq_of_lt (hhi.trans (by decide))
    have hbit : bit (BitVec.ofNat 32 n) = true := Bool.not_eq_false _ ▸ fun hb => hnone ⟨n, hhi, hb⟩
    obtain ⟨p, hp, hpb⟩ := h.owner hD ⟨hlo.trans hto.ge, hto.le.trans_lt hhi⟩ hbit
    exact ⟨p, hp, hpb ▸ hto⟩
  exact absurd hbound (by decide)

/-- **Ready for a write**: the inode is allocated, a transaction is open, and the bitmap tells the truth. -/
structure Ready (s : State) (i : Nat) : Prop where
  exact : Exact s.bit (s.addr i)
  inums : ∀ j, ninodes ≤ j → (s.table i j).type = .free
  file  : (s.ip i).type ≠ .free
  op    : 1 ≤ s.outstanding

theorem Ready.grows (h : Ready s i) (hg : Grows i s t) : Ready t i where
  exact := hg.exact
  inums j hj := by
    have hs := h.inums j hj
    by_cases hji : j = i
    · subst hji
      rw [table_self] at hs ⊢
      rw [rest_type hg.rest]
      exact hs
    · rw [table_of_ne hji] at hs ⊢
      rw [hg.disk]
      exact hs
  file := by
    rw [rest_type hg.rest]
    exact h.file
  op := by
    have : t.outstanding = s.outstanding := congrArg (fun u => u.outstanding) hg.rest
    rw [this]
    exact h.op

/-! ## No stop -/

theorem logWrite_returns (ho : 1 ≤ s.outstanding) (n : Nat) : wp (logWrite n) (fun _ t => t = s) (fun _ => False) s := by
  unfold logWrite
  rw [wp_bind, wp_read, if_neg (by omega)]
  rfl

theorem balloc_returns (h : Ready s i) :
    wp balloc (fun b t => s.bit b = false ∧ b.toNat < fsSize ∧ t = s.taken b) (fun _ => False) s := by
  obtain ⟨n, hn, hbit⟩ := h.exact.exists_free h.inums
  have hreturns : wp balloc (fun _ _ => True) (fun _ => False) s := by
    unfold balloc
    rw [wp_bind, wp_emit, wp_bind, wp_read]
    cases hf : s.freeBlock with
    | none =>
      unfold State.freeBlock at hf
      have := List.find?_eq_none.1 hf n (List.mem_range.2 hn)
      rw [hbit] at this
      exact this rfl
    | some m =>
      unfold take bzero
      rw [wp_bind, wp_modify, wp_bind]
      have hop : 1 ≤ (s.setBit (BitVec.ofNat 32 m) true).outstanding := h.op
      refine (logWrite_returns hop _).imp fun _ t ht => ?_
      subst ht
      rw [wp_bind, wp_bind, wp_modify]
      have hop' : 1 ≤ (s.taken (BitVec.ofNat 32 m)).outstanding := h.op
      exact (logWrite_returns hop' _).imp fun _ _ _ => trivial
  exact (hreturns.and balloc_wp).imp fun _ _ hq => hq.2

theorem slotAddr_returns (h : Ready s i) (k : Fin 13) :
    wp (slotAddr i k) (fun b t => Grows i s t ∧ (t.ip i).addrs k = b ∧ b ≠ 0) (fun _ => False) s := by
  have hreturns : wp (slotAddr i k) (fun _ _ => True) (fun _ => False) s := by
    unfold slotAddr
    rw [wp_bind, wp_read]
    refine Prog.wp_ite (fun _ => ?_) fun _ => trivial
    rw [wp_bind]
    exact (balloc_returns h).imp fun _ _ _ => trivial
  exact (hreturns.and (slotAddr_wp h.exact h.file k)).imp fun _ _ hq => hq.2

theorem wordAddr_returns (h : Ready s i) (addr : Bno) (j : Fin 128) :
    wp (wordAddr addr j) (fun _ _ => True) (fun _ => False) s := by
  unfold wordAddr
  rw [wp_bind, wp_read]
  refine Prog.wp_ite (fun _ => ?_) fun _ => trivial
  rw [wp_bind]
  refine (balloc_returns h).imp fun b t ht => ?_
  obtain ⟨-, -, rfl⟩ := ht
  rw [wp_bind, wp_modify, wp_bind]
  have hop : 1 ≤ ((s.taken b).setWord addr j b).outstanding := h.op
  exact (logWrite_returns hop _).imp fun _ _ _ => trivial

theorem bmap_returns (h : Ready s i) {bn : Nat} (hbn : bn < maxFile) :
    wp (bmap i bn) (fun b t => Grows i s t ∧ blockOf (t.addr i) i bn = b ∧ b ≠ 0) (fun _ => False) s := by
  have hreturns : wp (bmap i bn) (fun _ _ => True) (fun _ => False) s := by
    unfold bmap
    refine Prog.wp_ite (fun _ => (slotAddr_returns h _).imp fun _ _ _ => trivial) fun hn => ?_
    rw [if_pos (by unfold maxFile at hbn; omega), wp_bind]
    exact (slotAddr_returns h 12).imp fun a t ht => wordAddr_returns (h.grows ht.1) a _
  exact (hreturns.and (bmap_wp h.exact h.file bn)).imp fun _ _ hq => hq.2

/-! ## The bytes of the blocks -/

theorem extract_word (f : Nat → Byte) {r : Nat} (hr : r < 4) :
    (f 3 ++ f 2 ++ f 1 ++ f 0 : BitVec 32).extractLsb' (8 * r) 8 = f r := by
  refine BitVec.eq_of_getLsbD_eq fun i hi => ?_
  rw [BitVec.getLsbD_extractLsb', decide_eq_true hi, Bool.true_and, BitVec.getLsbD_append, BitVec.getLsbD_append,
    BitVec.getLsbD_append]
  match r, hr with
  | 0, _ => rw [if_pos (by omega), show 8 * 0 + i = i by omega]
  | 1, _ => rw [if_neg (by omega), if_pos (by omega), show 8 * 1 + i - 8 = i by omega]
  | 2, _ => rw [if_neg (by omega), if_neg (by omega), if_pos (by omega), show 8 * 2 + i - 8 - 8 = i by omega]
  | 3, _ => rw [if_neg (by omega), if_neg (by omega), if_neg (by omega), show 8 * 3 + i - 8 - 8 - 8 = i by omega]

theorem byteOf_putBytes (b : Block) (o : Nat) (src : Nat → Byte) (m : Nat) {k : Nat} (hk : k < bsize) :
    byteOf (putBytes b o src m) k = if o ≤ k ∧ k < o + m then src (k - o) else byteOf b k := by
  have hword : (Fin.ofNat 128 (k / 4)).val = k / 4 := by
    rw [Fin.val_ofNat]
    unfold bsize at hk
    omega
  have hextract := extract_word (fun r => if o ≤ 4 * (k / 4) + r ∧ 4 * (k / 4) + r < o + m then src (4 * (k / 4) + r - o)
    else byteOf b (4 * (k / 4) + r)) (Nat.mod_lt k (by decide : 0 < 4))
  rw [Nat.div_add_mod] at hextract
  unfold byteOf putBytes
  dsimp only
  rw [hword]
  exact hextract

/-- Byte `o` of the file as its locked inode has it. -/
def State.memByte (s : State) (i o : Nat) : Byte := byteOf (s.data (blockOf (s.addr i) i (o / bsize))) (o % bsize)

theorem Exact.block_ne {bit : Bno → Bool} {f : Place → Bno} (h : Exact bit f) {n : Nat} (hn : blockOf f i n ≠ 0) :
    blockOf f i n ≠ f (.slot i 12) := by
  have hp := blockOf_place hn
  rw [hp] at hn ⊢
  exact fun he => place_ne i i n (h.owned.once _ _ hn he)

theorem slotAddr_data (h : Exact s.bit (s.addr i)) (k : Fin 13) :
    wp (slotAddr i k) (fun _ t => ∀ p, s.addr i p ≠ 0 → t.data (s.addr i p) = s.data (s.addr i p)) NotFreeing s := by
  unfold slotAddr
  rw [wp_bind, wp_read]
  refine Prog.wp_ite (fun _ => ?_) fun _ _ _ => rfl
  rw [wp_bind]
  refine balloc_wp.imp fun b t ht => ?_
  obtain ⟨hb, hlt, rfl⟩ := ht
  obtain ⟨-, -, hfresh⟩ := h.fresh hb hlt
  exact fun p _ => if_neg (hfresh p)

theorem wordAddr_data (h : Exact s.bit (s.addr i)) (a : Bno) (j : Fin 128) : wp (wordAddr a j)
    (fun _ t => ∀ p, s.addr i p ≠ 0 → s.addr i p ≠ a → t.data (s.addr i p) = s.data (s.addr i p)) NotFreeing s := by
  unfold wordAddr
  rw [wp_bind, wp_read]
  refine Prog.wp_ite (fun _ => ?_) fun _ _ _ _ => rfl
  rw [wp_bind]
  refine balloc_wp.imp fun b t ht => ?_
  obtain ⟨hb, hlt, rfl⟩ := ht
  obtain ⟨-, -, hfresh⟩ := h.fresh hb hlt
  rw [wp_bind, wp_modify, wp_bind]
  refine (logWrite_wp _).imp fun _ u hu => ?_
  subst hu
  exact fun p _ hpa => (if_neg hpa).trans (if_neg (hfresh p))

theorem bmap_data (h : Exact s.bit (s.addr i)) (hf : (s.ip i).type ≠ .free) (bn : Nat) : wp (bmap i bn)
    (fun _ t => ∀ m, blockOf (s.addr i) i m ≠ 0 → t.data (blockOf (s.addr i) i m) = s.data (blockOf (s.addr i) i m))
    NotFreeing s := by
  have hplace : ∀ {t : State}, (∀ p, s.addr i p ≠ 0 → s.addr i p ≠ s.addr i (.slot i 12) →
      t.data (s.addr i p) = s.data (s.addr i p)) → ∀ m, blockOf (s.addr i) i m ≠ 0 →
        t.data (blockOf (s.addr i) i m) = s.data (blockOf (s.addr i) i m) := fun hd m hm => by
    have hne := h.block_ne hm
    have hp := blockOf_place hm
    rw [hp] at hm hne ⊢
    exact hd _ hm hne
  unfold bmap
  refine Prog.wp_ite (fun _ => ?_) fun _ => Prog.wp_ite (fun _ => ?_) fun _ => by simp [NotFreeing]
  · exact (slotAddr_data h _).imp fun _ t ht => hplace fun p hp _ => ht p hp
  · rw [wp_bind]
    refine ((slotAddr_wp h hf 12).and (slotAddr_data h 12)).imp fun a t ht => ?_
    obtain ⟨⟨hg, ha, ha0⟩, hdata⟩ := ht
    have hslot : t.addr i (.slot i 12) = a := by
      rw [addr_slot_self (by rwa [rest_type hg.rest]), ha]
    refine (wordAddr_data hg.exact a _).imp fun _ u hu => hplace fun p hp hne => ?_
    have hkeep := hg.keeps p (.inl hp)
    have hpa : t.addr i p ≠ a := fun he => by
      rw [← hslot] at he
      have := hg.exact.owned.once p _ (by rwa [hkeep]) he
      rw [this] at hne
      exact hne rfl
    have := hu p (by rwa [hkeep]) hpa
    rw [hkeep] at this
    exact this.trans (hdata p hp)

theorem blockOf_lt {f : Place → Bno} {n : Nat} (h : blockOf f i n ≠ 0) : n < maxFile := by
  by_contra hn
  exact h (if_neg hn)

theorem Grows.blockOf_eq (h : Grows i s t) {n : Nat} (hn : blockOf (s.addr i) i n ≠ 0) :
    blockOf (t.addr i) i n = blockOf (s.addr i) i n := by
  have hp := blockOf_place hn
  unfold blockOf at hn ⊢
  split_ifs at hn ⊢
  · exact h.keeps _ (.inl hn)
  · rfl

/-- **`bmap`** finds or allocates the block, and the bytes of the others stay. -/
theorem bmap_bytes (h : Ready s i) {bn : Nat} (hbn : bn < maxFile) : wp (bmap i bn) (fun b t => Grows i s t ∧
    blockOf (t.addr i) i bn = b ∧ b ≠ 0 ∧ ∀ o, blockOf (s.addr i) i (o / bsize) ≠ 0 → t.memByte i o = s.memByte i o)
    (fun _ => False) s := by
  refine ((bmap_returns h hbn).and (bmap_data h.exact h.file bn)).imp fun b t ht => ?_
  obtain ⟨⟨hg, hb, hb0⟩, hdata⟩ := ht
  refine ⟨hg, hb, hb0, fun o ho => ?_⟩
  unfold State.memByte
  rw [hg.blockOf_eq ho, hdata _ ho]

theorem memByte_write (h : Ready s i) {off n : Nat} (src : Nat → Byte)
    (hb : blockOf (s.addr i) i (off / bsize) ≠ 0) (o : Nat) :
    (s.setData (blockOf (s.addr i) i (off / bsize)) (putBytes (s.data (blockOf (s.addr i) i (off / bsize))) (off % bsize) src
      (chunk off n))).memByte i o = if off ≤ o ∧ o < off + chunk off n then src (o - off) else s.memByte i o := by
  obtain ⟨v, hv⟩ : ∃ v, v = putBytes (s.data (blockOf (s.addr i) i (off / bsize))) (off % bsize) src (chunk off n) :=
    ⟨_, rfl⟩
  rw [← hv]
  have hp := blockOf_place hb
  have haddr : (s.setData (blockOf (s.addr i) i (off / bsize)) v).addr i = s.addr i := by
    rw [hp] at hb ⊢
    unfold State.addr
    rw [setData_data]
    exact addr_setData (fun j hj => absurd (h.exact.owned.once _ _ hb hj.symm) (place_ne i j _)) v
  have hchunk : chunk off n ≤ bsize - off % bsize := Nat.min_le_right _ _
  unfold State.memByte
  rw [haddr, setData_data]
  by_cases hblk : o / bsize = off / bsize
  · rw [hblk, Function.update_self, hv, byteOf_putBytes _ _ _ _ (Nat.mod_lt o (by decide))]
    unfold bsize at hblk hchunk ⊢
    refine if_congr (by omega) (congrArg src (by omega)) rfl
  · have hout : ¬ (off ≤ o ∧ o < off + chunk off n) := by
      unfold bsize at hblk hchunk
      omega
    rw [if_neg hout, Function.update_of_ne]
    intro he
    have ho := he.trans_ne hb
    have hlt := blockOf_lt ho
    have hlt' := blockOf_lt hb
    rw [blockOf_place ho] at he ho
    rw [hp] at he
    exact hblk (place_inj hlt hlt' (h.exact.owned.once _ _ ho he))

/-! ## The loop -/

/-- **The loop of `writei`**: the bytes are written, and those of the blocks that were there stay as they are. -/
theorem writeLoop_bytes : ∀ (k : Nat) (src : Nat → Byte) (off n : Nat) (s : State), n ≤ k → off + n ≤ maxFile * bsize →
    Ready s i → wp (writeLoop i k src off n) (fun _ t => Ready t i ∧
      (∀ o, off ≤ o → o < off + n → t.memByte i o = src (o - off)) ∧
      ∀ o, ¬ (off ≤ o ∧ o < off + n) → blockOf (s.addr i) i (o / bsize) ≠ 0 → t.memByte i o = s.memByte i o)
      (fun _ => False) s
  | 0, src, off, n, s, hk, _, h => by
    obtain rfl := Nat.le_zero.1 hk
    exact ⟨h, fun o h1 h2 => by omega, fun _ _ _ => rfl⟩
  | k + 1, src, off, n, s, hk, hmax, h => by
    unfold writeLoop
    refine Prog.wp_ite (fun hn => ?_) (fun hn => ?_)
    · subst hn
      exact ⟨h, fun o h1 h2 => by omega, fun _ _ _ => rfl⟩
    · have hchunk : 0 < chunk off n := chunk_pos hn
      have hle : chunk off n ≤ n := Nat.min_le_left _ _
      have hbn : off / bsize < maxFile := by
        unfold bsize maxFile at *
        omega
      rw [wp_bind]
      refine (bmap_bytes h hbn).imp fun b t ht => ?_
      obtain ⟨hg, rfl, hb0, hkeep⟩ := ht
      have ht := h.grows hg
      rw [wp_bind, wp_modify, wp_bind]
      have hbyte := memByte_write (n := n) ht src hb0
      generalize hu : t.setData (blockOf (t.addr i) i (off / bsize)) (putBytes (t.data (blockOf (t.addr i) i (off / bsize)))
        (off % bsize) src (chunk off n)) = u at hbyte
      have hgu : Grows i t u := hu ▸ Grows.write hg.exact hb0 _
      have hready := ht.grows hgu
      refine (logWrite_returns hready.op _).imp fun _ v hv => ?_
      subst hv
      refine (writeLoop_bytes k _ _ _ v (by omega) (by omega) hready).imp fun _ w hw => ?_
      obtain ⟨hready', hnew, hold⟩ := hw
      refine ⟨hready', fun o h1 h2 => ?_, fun o ho hob => ?_⟩
      · by_cases hfirst : o < off + chunk off n
        · have hblk : o / bsize = off / bsize := by
            have : chunk off n ≤ bsize - off % bsize := Nat.min_le_right _ _
            unfold bsize at *
            omega
          rw [hold o (by omega) (by rw [hblk]; exact hgu.block hb0), hbyte o, if_pos ⟨h1, hfirst⟩]
        · rw [hnew o (by omega) (by omega)]
          exact congrArg src (by omega)
      · rw [hold o (by omega) (hgu.block (hg.block hob)), hbyte o, if_neg (by omega), hkeep o hob]

/-! ## The array -/

def State.contents (s : State) (i : Nat) : List Byte := (List.range (s.dinode i).size.toNat).map (s.byteAt i)

theorem contents_length (s : State) (i : Nat) : (s.contents i).length = (s.dinode i).size.toNat := by
  unfold State.contents
  rw [List.length_map, List.length_range]

/-- `new` over what the list has from `off` on, and beyond its end. -/
def splice (l : List Byte) (off : Nat) (new : List Byte) : List Byte := l.take off ++ new ++ l.drop (off + new.length)

theorem splice_read {l : List Byte} {off : Nat} (new : List Byte) (h : off ≤ l.length) :
    ((splice l off new).drop off).take new.length = new := by
  have hlen : (l.take off).length = off := by
    rw [List.length_take]
    omega
  unfold splice
  rw [List.append_assoc, List.drop_append_of_le_length hlen.ge, List.drop_of_length_le hlen.le, List.nil_append,
    List.take_left']
  rfl

theorem splice_map (f src : Nat → Byte) {a off n : Nat} (h : off ≤ a) :
    splice ((List.range a).map f) off ((List.range n).map src) =
      (List.range (max a (off + n))).map fun o => if off ≤ o ∧ o < off + n then src (o - off) else f o := by
  unfold splice
  refine List.ext_getElem ?_ fun o ho _ => ?_
  · simp only [List.length_append, List.length_take, List.length_drop, List.length_map, List.length_range]
    omega
  · simp only [List.length_append, List.length_take, List.length_drop, List.length_map, List.length_range] at ho
    simp only [List.getElem_append, List.length_append, List.length_take, List.length_map, List.length_range,
      List.getElem_take, List.getElem_drop, List.getElem_map, List.getElem_range]
    by_cases h1 : o < min off a + n
    · by_cases h2 : o < min off a
      · rw [dif_pos h1, dif_pos h2, if_neg (by omega)]
      · rw [dif_pos h1, dif_neg h2, if_pos (by omega)]
        exact congrArg src (by omega)
    · rw [dif_neg h1, if_neg (by omega)]
      exact congrArg f (by omega)

theorem drop_take_map (f : Nat → Byte) (a off n : Nat) : (((List.range a).map f).drop off).take n =
    (List.range (min n (a - off))).map fun j => f (off + j) := by
  refine List.ext_getElem ?_ fun o ho _ => ?_
  · simp only [List.length_take, List.length_drop, List.length_map, List.length_range]
  · simp only [List.getElem_take, List.getElem_drop, List.getElem_map, List.getElem_range]

/-- **A file in a call**: on a file system in order its inode is locked, in a transaction, and it is not a device. -/
structure InCall (s : State) (i : Nat) : Prop where
  good  : Good s
  inums : ∀ j, ninodes ≤ j → (s.dinode j).type = .free
  held  : (s.inode i).locked = true
  file  : (s.dinode i).type ≠ .dev
  op    : 1 ≤ s.outstanding

theorem InCall.ready (h : InCall s i) : Ready s i := by
  obtain ⟨hip, hty⟩ := h.good.ip h.held
  have htab : s.table i = s.dinode := by
    unfold State.table
    rw [hip, Function.update_eq_self]
  refine ⟨?_, fun j hj => ?_, ?_, h.op⟩
  · rw [addr_eq_onDisk hip]
    exact h.good.exact
  · rw [htab]
    exact h.inums j hj
  · rwa [hip]

theorem memByte_eq (hip : s.ip i = s.dinode i) (o : Nat) : s.memByte i o = s.byteAt i o := by
  unfold State.memByte State.byteAt
  rw [addr_eq_onDisk hip]

theorem readi_contents (h : InCall s i) {off n : BitVec 32} (hoff : off.toNat ≤ (s.dinode i).size.toNat)
    (hwrap : off.toNat + n.toNat < 4294967296) :
    readi i off n s = ⟨.ok (some (((s.contents i).drop off.toNat).take n.toNat)), s, []⟩ := by
  obtain ⟨hip, -⟩ := h.good.ip h.held
  have hsum : (off + n).toNat = off.toNat + n.toNat := by
    rw [BitVec.toNat_add]
    omega
  have ho : ¬ ((s.ip i).size < off ∨ off + n < off) := by
    rw [hip, BitVec.lt_def, BitVec.lt_def, hsum]
    omega
  have hsize : (readSize (s.ip i).size off n).toNat = min n.toNat ((s.dinode i).size.toNat - off.toNat) := by
    unfold readSize
    rw [hip]
    split
    · next hc =>
      rw [BitVec.lt_def, hsum] at hc
      rw [BitVec.toNat_sub]
      omega
    · next hc =>
      rw [BitVec.lt_def, hsum] at hc
      omega
  rw [readi_run h.good h.held (by rw [hip]; exact h.file) ho, hsize]
  unfold State.contents
  rw [drop_take_map]

/-- **What a write leaves**: the bytes in their place, a size that holds them, and the other files as they were. -/
structure Written (s : State) (i : Nat) (src : Nat → Byte) (off n : Nat) (t : State) : Prop where
  call     : InCall t i
  size     : (t.dinode i).size.toNat = max (s.dinode i).size.toNat (off + n)
  contents : t.contents i = splice (s.contents i) off ((List.range n).map src)
  inodes   : ∀ j, j ≠ i → t.dinode j = s.dinode j
  others   : ∀ j, j ≠ i → (s.dinode j).type ≠ .free → t.contents j = s.contents j

theorem memByte_resized (n : BitVec 32) (o : Nat) :
    ((s.setIp i { s.ip i with size := n }).setDinode i { s.ip i with size := n }).memByte i o = s.memByte i o := by
  have hip : ((s.setIp i { s.ip i with size := n }).setDinode i { s.ip i with size := n }).ip i =
      ((s.setIp i { s.ip i with size := n }).setDinode i { s.ip i with size := n }).dinode i := by
    rw [setDinode_dinode, Function.update_self]
    exact ip_setIp _
  unfold State.memByte
  rw [addr_eq_onDisk hip, onDisk_resized]
  rfl

theorem grow_bytes (h : 1 ≤ t.outstanding) (off n : BitVec 32) : wp (grow i off n) (fun _ u =>
    (u.ip i).size = (if 0 < n ∧ (t.ip i).size < off then off else (t.ip i).size) ∧ ∀ o, u.memByte i o = t.memByte i o)
    (fun _ => False) t := by
  have hreturns : wp (grow i off n) (fun _ _ => True) (fun _ => False) t := by
    unfold grow iupdate
    rw [wp_bind, wp_read]
    refine Prog.wp_when (fun _ => ?_) fun _ => trivial
    rw [wp_bind, wp_modify, wp_bind, wp_modify]
    refine (logWrite_returns ?_ _).imp fun _ _ _ => trivial
    exact h
  refine (hreturns.and (grow_wp off n)).imp fun _ u hu => ?_
  obtain ⟨-, hu⟩ := hu
  split at hu
  · next hc =>
    rw [hu, if_pos hc]
    refine ⟨?_, memByte_resized off⟩
    exact congrArg Dinode.size (ip_setIp (s := t) { t.ip i with size := off })
  · next hc =>
    rw [hu, if_neg hc]
    exact ⟨rfl, fun _ => rfl⟩

theorem writei_written (h : InCall s i) (src : Nat → Byte) {off n : BitVec 32}
    (hoff : off.toNat ≤ (s.dinode i).size.toNat) (hmax : off.toNat + n.toNat ≤ maxFile * bsize) :
    wp (writei i src off n) (fun r t => r = n.toNat ∧ Written s i src off.toNat n.toNat t) (fun _ => False) s := by
  obtain ⟨hip, hty⟩ := h.good.ip h.held
  have hready := h.ready
  have hlim : maxFile * bsize = 71680 := rfl
  have hsum : (off + n).toNat = off.toNat + n.toNat := by
    rw [BitVec.toNat_add]
    omega
  have hbytes : wp (writei i src off n) (fun r t => r = n.toNat ∧
      (t.ip i).size.toNat = max (s.dinode i).size.toNat (off.toNat + n.toNat) ∧
      ∀ o, o < (t.ip i).size.toNat → t.memByte i o =
        if off.toNat ≤ o ∧ o < off.toNat + n.toNat then src (o - off.toNat) else s.memByte i o) (fun _ => False) s := by
    unfold writei
    rw [wp_bind, wp_get, if_neg (by rw [hip]; exact h.file), if_neg, if_neg, wp_bind]
    · refine ((writeLoop_bytes n.toNat src off.toNat n.toNat s (Nat.le_refl _) hmax hready).and
        (writeLoop_wp n.toNat src off.toNat n.toNat s (Nat.le_refl _) hready.exact hready.file)).imp fun _ t ht => ?_
      obtain ⟨⟨hready', hnew, hold⟩, hg, -, -⟩ := ht
      rw [wp_bind]
      refine (grow_bytes hready'.op (off + n) n).imp fun _ u hu => ?_
      obtain ⟨hsize, hbyte⟩ := hu
      rw [hg.size, hip] at hsize
      have hmaxsize : (u.ip i).size.toNat = max (s.dinode i).size.toNat (off.toNat + n.toNat) := by
        rw [hsize]
        split
        · next hc =>
          rw [BitVec.lt_def, BitVec.lt_def, hsum] at hc
          rw [hsum]
          omega
        · next hc =>
          rw [BitVec.lt_def, BitVec.lt_def, hsum] at hc
          have hzero : (0 : BitVec 32).toNat = 0 := rfl
          omega
      rw [wp_pure]
      refine ⟨rfl, hmaxsize, fun o ho => ?_⟩
      rw [hbyte o]
      by_cases hin : off.toNat ≤ o ∧ o < off.toNat + n.toNat
      · rw [if_pos hin]
        exact hnew o hin.1 hin.2
      · rw [if_neg hin]
        refine hold o hin ?_
        rw [addr_eq_onDisk hip]
        refine h.good.filled i hty _ ?_
        unfold bsize
        omega
    · rw [BitVec.lt_def, hsum]
      show ¬ 71680 < _
      omega
    · rw [hip, BitVec.lt_def, BitVec.lt_def, hsum]
      omega
  refine (hbytes.and (writei_wp h.good h.held src off n)).imp fun r t ht => ?_
  obtain ⟨⟨hr, hsize, hbyte⟩, hgood, hrest, huntouched⟩ := ht
  obtain ⟨-, hheld, -⟩ := rest_self hrest
  rw [h.held] at hheld
  obtain ⟨hipt, -⟩ := hgood.ip hheld
  have hi : i < ninodes := by
    by_contra hge
    exact hty (h.inums i (Nat.not_lt.1 hge))
  have hop : t.outstanding = s.outstanding := congrArg (fun u => u.outstanding) hrest
  refine ⟨hr, ⟨hgood, fun j hj => ?_, hheld, ?_, hop ▸ h.op⟩, ?_, ?_, fun j hj => rest_dinode hrest hj, fun j hj hf => ?_⟩
  · rw [rest_dinode hrest (by omega)]
    exact h.inums j hj
  · rw [← hipt, rest_type hrest, hip]
    exact h.file
  · rw [← hipt]
    exact hsize
  · unfold State.contents
    rw [splice_map _ _ hoff, ← hipt, ← hsize]
    refine List.map_congr_left fun o ho => ?_
    have hlt := List.mem_range.1 ho
    rw [← memByte_eq hipt, hbyte o hlt, memByte_eq hip]
  · have hu := huntouched j hj
    unfold State.contents
    rw [hu.dinode]
    refine List.map_congr_left fun o ho => ?_
    have hb := h.good.filled j hf (o / bsize) (by
      have := List.mem_range.1 ho
      unfold bsize
      omega)
    have hp := blockOf_place hb
    unfold State.byteAt
    rw [blockOf_congr hu.addrs, hp, hu.data _ (place_inum j _) (hp ▸ hb)]

/-- The arguments that `writei` refuses. -/
def State.Refuses (s : State) (i : Nat) (off n : BitVec 32) : Prop :=
  (s.dinode i).size.toNat < off.toNat ∨ 4294967296 ≤ off.toNat + n.toNat ∨ maxFile * bsize < off.toNat + n.toNat

instance (off n : BitVec 32) : Decidable (s.Refuses i off n) := inferInstanceAs (Decidable (_ ∨ _ ∨ _))

theorem writei_refused (h : InCall s i) (src : Nat → Byte) {off n : BitVec 32} (hc : s.Refuses i off n) :
    writei i src off n s = ⟨.ok (-1), s, []⟩ := by
  obtain ⟨hip, -⟩ := h.good.ip h.held
  unfold State.Refuses at hc
  have hsum : off.toNat + n.toNat < 4294967296 → (off + n).toNat = off.toNat + n.toNat := fun hlt => by
    rw [BitVec.toNat_add]
    omega
  unfold writei
  rw [Prog.get_bind_run, if_neg (by rw [hip]; exact h.file)]
  by_cases ho : (s.ip i).size < off ∨ off + n < off
  · rw [if_pos ho]
    rfl
  · rw [if_neg ho, if_pos]
    · rfl
    · rw [hip, BitVec.lt_def, BitVec.lt_def, BitVec.toNat_add] at ho
      have hlt : off.toNat + n.toNat < 4294967296 := by
        by_contra hge
        have := off.isLt
        have := n.isLt
        omega
      rw [BitVec.lt_def, hsum hlt]
      show 71680 < _
      have hlim : maxFile * bsize = 71680 := rfl
      omega

theorem writei_read (h : InCall s i) (src : Nat → Byte) {off n : BitVec 32} (hc : ¬ s.Refuses i off n) :
    ∃ t l, writei i src off n s = ⟨.ok n.toNat, t, l⟩ ∧ Written s i src off.toNat n.toNat t ∧
      readi i off n t = ⟨.ok (some ((List.range n.toNat).map src)), t, []⟩ := by
  unfold State.Refuses at hc
  have hoff : off.toNat ≤ (s.dinode i).size.toNat := by omega
  have hmax : off.toNat + n.toNat ≤ maxFile * bsize := by omega
  rcases hrun : writei i src off n s with ⟨r, t, l⟩
  have hw := writei_written h src hoff hmax
  unfold Prog.wp at hw
  rw [hrun] at hw
  cases r with
  | error e => exact hw.elim
  | ok r =>
    obtain ⟨rfl, hwritten⟩ := hw
    refine ⟨t, l, rfl, hwritten, ?_⟩
    have hlen : (s.contents i).length = (s.dinode i).size.toNat := contents_length s i
    have hsize := hwritten.size
    have hnew : ((List.range n.toNat).map src).length = n.toNat := by simp
    have hread := splice_read ((List.range n.toNat).map src) (hoff.trans hlen.ge)
    rw [hnew] at hread
    rw [readi_contents hwritten.call (by omega) (by omega), hwritten.contents, hread]

/-- The root directory of `bareDisk`, locked, in a transaction. -/
def rootLocked : State :=
  { bareDisk.setInode rootIno ⟨1, true, true, bareDisk.dinode rootIno⟩ with cached := 1, outstanding := 1 }

theorem rootLocked_call : InCall rootLocked rootIno where
  good := Good.counts (bareDisk_good.setInode (n := ⟨1, true, true, bareDisk.dinode rootIno⟩)
    (fun _ _ => ⟨rfl, by decide⟩) fun _ => ⟨by decide, rfl⟩) 1 1
  inums j hj := by
    show (if j = rootIno then _ else Dinode.zero).type = .free
    rw [if_neg]
    · rfl
    · rintro rfl
      exact absurd hj (by decide)
  held := congrArg Inode.locked (setInode_self (s := bareDisk) ⟨1, true, true, bareDisk.dinode rootIno⟩)
  file := by decide
  op := by decide

end Files
end Xv6
