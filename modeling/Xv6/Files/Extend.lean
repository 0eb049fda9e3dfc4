import Xv6.Files.Owner
/-!
# Files.Extend — `bmap` and `writei`

What a call that extends an inode leaves: the inode has the addresses it had and more of them, each a block that was free,
and nothing of another inode is touched.
-/
namespace Xv6
namespace Files

open Fs (Bno Block nlog)
open Prog (wp wp_bind wp_read wp_modify wp_emit wp_stop wp_pure)

/-- Not the panic of `bfree`. -/
def NotFreeing (e : Stop) : Prop := e ≠ .panic "freeing free block"

/-- What no call that reads or writes the contents of inode `i` touches. -/
def State.rest (s : State) (i : Nat) : State :=
  { s with
    bit := fun _ => false
    data := fun _ _ => 0
    dinode := Function.update s.dinode i Dinode.zero
    inode := Function.update s.inode i { s.inode i with d := { s.ip i with size := 0, addrs := fun _ => 0 } } }

/-- Inode `i` has grown, in memory. -/
structure Grows (i : Nat) (s t : State) : Prop where
  exact : Exact t.bit (t.addr i)
  size  : (t.ip i).size = (s.ip i).size
  rest  : t.rest i = s.rest i
  disk  : t.dinode = s.dinode
  keeps : ∀ p, s.addr i p ≠ 0 ∨ p.inum ≠ i → t.addr i p = s.addr i p
  data  : ∀ p, p.inum ≠ i → s.addr i p ≠ 0 → t.data (s.addr i p) = s.data (s.addr i p)

variable {s t u : State} {i : Nat} {b : Bno}

theorem Grows.refl (h : Exact s.bit (s.addr i)) : Grows i s s :=
  ⟨h, rfl, rfl, rfl, fun _ _ => rfl, fun _ _ _ => rfl⟩

theorem Grows.trans (h : Grows i s t) (h' : Grows i t u) : Grows i s u where
  exact := h'.exact
  size := h'.size.trans h.size
  rest := h'.rest.trans h.rest
  disk := h'.disk.trans h.disk
  keeps p hp := by
    have hst := h.keeps p hp
    rw [← hst]
    exact h'.keeps p (hp.imp_left fun e => by rwa [hst])
  data p hp hne := by
    have hst := h.keeps p (.inl hne)
    have htu := h'.data p hp (by rwa [hst])
    rw [hst] at htu
    exact htu.trans (h.data p hp hne)

theorem rest_type (h : t.rest i = s.rest i) : (t.ip i).type = (s.ip i).type := by
  have := congrArg (fun u => (u.inode i).d.type) h
  simpa [State.rest] using this

theorem rest_inode (h : t.rest i = s.rest i) {j : Nat} (hj : j ≠ i) : t.inode j = s.inode j := by
  have := congrArg (fun u => u.inode j) h
  simpa [State.rest, hj] using this

/-! ## Allocation -/

/-- The state after `balloc` has taken a block. -/
def State.taken (s : State) (b : Bno) : State := (s.setBit b true).setData b (fun _ => 0)

theorem logWrite_wp (n : Nat) : wp (logWrite n) (fun _ t => t = s) NotFreeing s := by
  unfold logWrite
  rw [wp_bind, wp_read]
  exact Prog.wp_ite (fun _ => (show NotFreeing _ by simp [NotFreeing])) fun _ => rfl

theorem take_wp (b : Bno) : wp (take b) (fun a t => a = b ∧ t = s.taken b) NotFreeing s := by
  unfold take bzero
  rw [wp_bind, wp_modify, wp_bind]
  refine (logWrite_wp _).imp fun _ t ht => ?_
  rw [wp_bind, wp_bind, wp_modify]
  refine (logWrite_wp _).imp fun _ u hu => ⟨rfl, ?_⟩
  rw [hu, ht]
  rfl

theorem balloc_wp : wp balloc (fun b t => s.bit b = false ∧ b.toNat < fsSize ∧ t = s.taken b) NotFreeing s := by
  unfold balloc
  simp only [wp_bind, wp_emit, wp_read]
  cases hn : s.freeBlock with
  | none => exact (show NotFreeing _ by simp [NotFreeing])
  | some n =>
    unfold State.freeBlock at hn
    have hbit := List.find?_some hn
    have hlt := List.mem_range.1 (List.mem_of_find?_eq_some hn)
    refine (take_wp _).imp fun a t hat => ?_
    obtain ⟨rfl, ht⟩ := hat
    refine ⟨by simpa using hbit, ?_, ht⟩
    have h32 : n < 2 ^ 32 := Nat.lt_trans hlt (by norm_num)
    rw [BitVec.toNat_ofNat, Nat.mod_eq_of_lt h32]
    exact hlt

/-! ## A new address -/

@[simp] theorem ip_setIp (d : Dinode) : (s.setIp i d).ip i = d := by
  simp [State.ip, State.setIp, State.setInode]

theorem table_setIp (d : Dinode) : (s.setIp i d).table i = Function.update (s.table i) i d := by
  rw [State.table, ip_setIp, State.table, Function.update_idem]
  rfl

theorem rest_setIp {d : Dinode} (h : { d with size := 0, addrs := fun _ => 0 } =
    { s.ip i with size := 0, addrs := fun _ => 0 }) : (s.setIp i d).rest i = s.rest i := by
  unfold State.rest
  rw [ip_setIp, h]
  congr 1
  funext j
  rw [Function.update_apply, Function.update_apply]
  split
  · simp [State.setIp, State.setInode]
  · simp [State.setIp, State.setInode, *]

theorem setAddr_eq (k : Fin 13) : s.setAddr i k b = s.setIp i ((s.ip i).setAddr k b) := by
  have : (fun j => if j = k then b else (s.ip i).addrs j) = Function.update (s.ip i).addrs k b := by
    funext j
    rw [Function.update_apply]
  unfold State.setAddr Dinode.setAddr
  rw [this]

theorem Grows.slot {k : Fin 13} (h : Exact s.bit (s.addr i)) (hf : (s.ip i).type ≠ .free) (hk : (s.ip i).addrs k = 0)
    (hb : s.bit b = false) (hlt : b.toNat < fsSize) : Grows i s ((s.taken b).setAddr i k b) := by
  obtain ⟨-, hb0, hfresh⟩ := h.fresh hb hlt
  have haddr : ((s.taken b).setAddr i k b).addr i = Function.update (s.addr i) (.slot i k) b := by
    have := addr_slot (k := k) (by rwa [table_self]) (by rwa [table_self]) hfresh
    unfold State.addr
    rw [setAddr_eq, table_setIp, ← this, table_self]
    unfold State.taken
    rw [← setData_data]
    rfl
  have hp : s.addr i (.slot i k) = 0 := by
    show (if (s.table i i).type = .free then 0 else (s.table i i).addrs k) = 0
    rw [table_self, if_neg hf, hk]
  refine ⟨?_, ?_, ?_, rfl, ?_, ?_⟩
  · rw [haddr]
    exact setBit_bit s b true ▸ h.put hp hb hlt
  · rw [setAddr_eq, ip_setIp]
    rfl
  · rw [setAddr_eq]
    exact rest_setIp rfl
  · intro p hpe
    rw [haddr, Function.update_of_ne]
    rintro rfl
    exact hpe.elim (fun e => e hp) (fun e => e rfl)
  · intro p hpi hne
    exact if_neg (hfresh p)

theorem addr_slot_self (hf : (s.ip i).type ≠ .free) (k : Fin 13) : s.addr i (.slot i k) = (s.ip i).addrs k := by
  show (if (s.table i i).type = .free then 0 else (s.table i i).addrs k) = _
  rw [table_self, if_neg hf]

theorem addr_word_self (hf : (s.ip i).type ≠ .free) (ha : (s.ip i).addrs 12 ≠ 0) (j : Fin 128) :
    s.addr i (.word i j) = s.data ((s.ip i).addrs 12) j := by
  show (if (s.table i i).type = .free ∨ (s.table i i).addrs 12 = 0 then 0 else s.data ((s.table i i).addrs 12) j) = _
  rw [table_self, if_neg (not_or.2 ⟨hf, ha⟩)]

theorem Grows.word {w : Fin 128} (h : Exact s.bit (s.addr i)) (hf : (s.ip i).type ≠ .free)
    (ha : (s.ip i).addrs 12 ≠ 0) (hw : s.data ((s.ip i).addrs 12) w = 0) (hb : s.bit b = false)
    (hlt : b.toNat < fsSize) : Grows i s ((s.taken b).setWord ((s.ip i).addrs 12) w b) := by
  obtain ⟨-, -, hfresh⟩ := h.fresh hb hlt
  have hab : (s.ip i).addrs 12 ≠ b := addr_slot_self hf 12 ▸ hfresh (.slot i 12)
  have hdata : ((s.taken b).setWord ((s.ip i).addrs 12) w b).data =
      Function.update (Function.update s.data b (fun _ => 0)) ((s.ip i).addrs 12)
        (Function.update (s.data ((s.ip i).addrs 12)) w b) := by
    unfold State.setWord
    rw [setData_data]
    congr 1
    · exact setData_data _ _ _
    · funext v
      rw [Function.update_apply]
      split
      · rfl
      · exact congrFun (if_neg hab) v
  have haddr : ((s.taken b).setWord ((s.ip i).addrs 12) w b).addr i = Function.update (s.addr i) (.word i w) b := by
    have := addr_word (w := w) h (D := s.table i) (i := i) (by rwa [table_self]) (by rwa [table_self]) hfresh
    rw [table_self, ← hdata] at this
    exact this
  refine ⟨?_, rfl, rfl, rfl, ?_, ?_⟩
  · rw [haddr]
    exact setBit_bit s b true ▸ h.put (by rw [addr_word_self hf ha, hw]) hb hlt
  · intro p hpe
    rw [haddr, Function.update_of_ne]
    rintro rfl
    exact hpe.elim (fun e => e (by rw [addr_word_self hf ha, hw])) (fun e => e rfl)
  · intro p hpi hne
    rw [hdata, Function.update_of_ne, Function.update_of_ne (hfresh p)]
    rw [← addr_slot_self hf 12]
    intro e
    exact hpi (by rw [h.owned.once p (.slot i 12) hne e]; rfl)

/-! ## `bmap` -/

theorem slotAddr_wp (h : Exact s.bit (s.addr i)) (hf : (s.ip i).type ≠ .free) (k : Fin 13) :
    wp (slotAddr i k) (fun b t => Grows i s t ∧ (t.ip i).addrs k = b ∧ b ≠ 0) NotFreeing s := by
  unfold slotAddr
  rw [wp_bind, wp_read]
  refine Prog.wp_ite (fun hk => ?_) (fun hk => ⟨Grows.refl h, rfl, hk⟩)
  rw [wp_bind]
  refine balloc_wp.imp fun b t ⟨hb, hlt, ht⟩ => ?_
  subst ht
  rw [wp_bind, wp_modify, wp_pure]
  refine ⟨Grows.slot h hf hk hb hlt, ?_, (h.fresh hb hlt).2.1⟩
  rw [setAddr_eq, ip_setIp]
  exact Function.update_self ..

theorem wordAddr_wp (h : Exact s.bit (s.addr i)) (hf : (s.ip i).type ≠ .free) (ha : (s.ip i).addrs 12 ≠ 0)
    (j : Fin 128) : wp (wordAddr ((s.ip i).addrs 12) j)
      (fun b t => Grows i s t ∧ t.addr i (.word i j) = b ∧ b ≠ 0) NotFreeing s := by
  unfold wordAddr
  rw [wp_bind, wp_read]
  refine Prog.wp_ite (fun hj => ?_) (fun hj => ⟨Grows.refl h, addr_word_self hf ha j, hj⟩)
  rw [wp_bind]
  refine balloc_wp.imp fun b t ⟨hb, hlt, ht⟩ => ?_
  subst ht
  rw [wp_bind, wp_modify, wp_bind]
  refine (logWrite_wp _).imp fun _ u hu => ?_
  subst hu
  rw [wp_pure]
  refine ⟨Grows.word h hf ha hj hb hlt, ?_, (h.fresh hb hlt).2.1⟩
  refine (addr_word_self (s := (s.taken b).setWord ((s.ip i).addrs 12) j b) hf ha j).trans ?_
  exact (congrFun (if_pos rfl) j).trans (if_pos rfl)

theorem bmap_wp (h : Exact s.bit (s.addr i)) (hf : (s.ip i).type ≠ .free) (bn : Nat) :
    wp (bmap i bn) (fun b t => Grows i s t ∧ blockOf (t.addr i) i bn = b ∧ b ≠ 0) NotFreeing s := by
  unfold bmap blockOf place
  refine Prog.wp_ite (fun hn => ?_) (fun hn => Prog.wp_ite (fun hn' => ?_) (fun _ => by simp [NotFreeing]))
  · refine (slotAddr_wp h hf _).imp fun b t hbt => ?_
    obtain ⟨hg, ha, hb⟩ := hbt
    refine ⟨hg, ?_, hb⟩
    rw [if_pos (Nat.lt_of_lt_of_le hn (Nat.le_add_right _ _)), if_pos hn, addr_slot_self, ha]
    rwa [rest_type hg.rest]
  · rw [wp_bind]
    refine (slotAddr_wp h hf 12).imp fun a t hat => ?_
    obtain ⟨hg, rfl, ha0⟩ := hat
    refine (wordAddr_wp hg.exact (by rwa [rest_type hg.rest]) ha0 _).imp fun b u hbu => ?_
    obtain ⟨hg', hb, hb0⟩ := hbu
    refine ⟨hg.trans hg', ?_, hb0⟩
    rw [if_pos (by unfold maxFile; omega), if_neg hn, hb]

theorem bmap_found (hf : (s.ip i).type ≠ .free) {bn : Nat} (h : blockOf (s.addr i) i bn ≠ 0) :
    bmap i bn s = ⟨.ok (blockOf (s.addr i) i bn), s, []⟩ := by
  unfold blockOf place at h ⊢
  have hlt : bn < maxFile := by
    by_contra hn
    exact h (if_neg hn)
  rw [if_pos hlt] at h ⊢
  unfold bmap
  split_ifs at h ⊢ with hn hn'
  · rw [addr_slot_self hf] at h ⊢
    unfold slotAddr
    rw [Prog.read_bind_run, if_neg h]
    rfl
  · have h12 : (s.ip i).addrs 12 ≠ 0 := by
      intro h0
      apply h
      show (if (s.table i i).type = .free ∨ (s.table i i).addrs 12 = 0 then 0 else _) = _
      rw [table_self, if_pos (.inr h0)]
    rw [addr_word_self hf h12] at h ⊢
    have hslot : slotAddr i 12 s = ⟨.ok ((s.ip i).addrs 12), s, []⟩ := by
      unfold slotAddr
      rw [Prog.read_bind_run, if_neg h12]
      rfl
    rw [Prog.bind_run_nil hslot]
    unfold wordAddr
    rw [Prog.read_bind_run, if_neg h]
    rfl
  · unfold maxFile at hlt
    omega

/-- **`bmap`**: the block has an address, and a block that has one costs nothing. -/
theorem bmap_spec (h : Exact s.bit (s.addr i)) (hf : (s.ip i).type ≠ .free) (bn : Nat) :
    wp (bmap i bn) (fun b t => Grows i s t ∧ blockOf (t.addr i) i bn = b ∧ b ≠ 0 ∧
      (blockOf (s.addr i) i bn ≠ 0 → t = s)) NotFreeing s := by
  by_cases hb : blockOf (s.addr i) i bn = 0
  · exact (bmap_wp h hf bn).imp fun b t ⟨hg, ha, hb0⟩ => ⟨hg, ha, hb0, fun e => absurd hb e⟩
  · exact Prog.wp_of_run (bmap_found hf hb) ⟨Grows.refl h, rfl, hb, fun _ => rfl⟩

/-! ## The loop of `writei` -/

theorem blockOf_place {f : Place → Bno} {n : Nat} (h : blockOf f i n ≠ 0) : blockOf f i n = f (place i n) := by
  unfold blockOf at h ⊢
  split_ifs at h ⊢
  · rfl
  · exact absurd rfl h

theorem Grows.write (h : Exact s.bit (s.addr i)) {n : Nat} (hn : blockOf (s.addr i) i n ≠ 0) (v : Block) :
    Grows i s (s.setData (blockOf (s.addr i) i n) v) := by
  have hp := blockOf_place hn
  rw [hp] at hn ⊢
  have haddr : (s.setData (s.addr i (place i n)) v).addr i = s.addr i := by
    unfold State.addr
    rw [setData_data]
    exact addr_setData (fun j hj => absurd (h.owned.once _ _ hn hj.symm) (place_ne i j n)) v
  refine ⟨?_, rfl, rfl, rfl, fun p _ => congrFun haddr p, fun p hpi hne => ?_⟩
  · rw [haddr]
    exact h
  · refine if_neg fun e => hpi ?_
    rw [h.owned.once p (place i n) hne e, place_inum]

/-- The blocks that `writei` writes. -/
def Touches (off n m : Nat) : Prop := 0 < n ∧ off / bsize ≤ m ∧ m * bsize < off + n

theorem chunk_pos {off n : Nat} (h : n ≠ 0) : 0 < chunk off n := by
  unfold chunk bsize
  omega

theorem touches_step {off n m : Nat} (h : Touches off n m) :
    m = off / bsize ∨ Touches (off + chunk off n) (n - chunk off n) m := by
  unfold Touches chunk bsize at *
  omega

theorem touches_of_step {off n m : Nat} (h : Touches (off + chunk off n) (n - chunk off n) m) : Touches off n m := by
  unfold Touches chunk bsize at *
  omega

theorem touches_first {off n : Nat} (h : n ≠ 0) : Touches off n (off / bsize) := by
  unfold Touches bsize
  omega

theorem Grows.block (h : Grows i s t) {n : Nat} (hn : blockOf (s.addr i) i n ≠ 0) : blockOf (t.addr i) i n ≠ 0 := by
  have hp := blockOf_place hn
  unfold blockOf at hn ⊢
  split_ifs at hn ⊢
  · rwa [h.keeps _ (.inl hn)]
  · exact hn

/-- **The loop of `writei`**: every block it writes has an address afterwards, and where all of them had one before, the
inode is as it was. -/
theorem writeLoop_wp : ∀ (k : Nat) (src : Nat → Byte) (off n : Nat) (s : State), n ≤ k → Exact s.bit (s.addr i) →
    (s.ip i).type ≠ .free → wp (writeLoop i k src off n) (fun _ t => Grows i s t ∧
      (∀ m, Touches off n m → blockOf (t.addr i) i m ≠ 0) ∧
      ((∀ m, Touches off n m → blockOf (s.addr i) i m ≠ 0) → t.ip i = s.ip i)) NotFreeing s
  | 0, src, off, n, s, hk, h, hf => by
    obtain rfl := Nat.le_zero.1 hk
    exact ⟨Grows.refl h, fun m hm => absurd hm.1 (Nat.lt_irrefl 0), fun _ => rfl⟩
  | k + 1, src, off, n, s, hk, h, hf => by
    unfold writeLoop
    refine Prog.wp_ite (fun hn => ?_) (fun hn => ?_)
    · subst hn
      exact ⟨Grows.refl h, fun m hm => absurd hm.1 (Nat.lt_irrefl 0), fun _ => rfl⟩
    · rw [wp_bind]
      refine (bmap_spec h hf _).imp fun b t ⟨hg, hb, hb0, hsame⟩ => ?_
      subst hb
      rw [wp_bind, wp_modify, wp_bind]
      refine (logWrite_wp _).imp fun _ u hu => ?_
      subst hu
      have hw := Grows.write hg.exact hb0
        (putBytes (t.data (blockOf (t.addr i) i (off / bsize))) (off % bsize) src (chunk off n))
      have hgw := hg.trans hw
      have hchunk : 0 < chunk off n := chunk_pos hn
      refine (writeLoop_wp k _ _ _ _ (by omega) hgw.exact (by rwa [rest_type hgw.rest])).imp ?_
      rintro _ u ⟨hg', hfilled, hkeep⟩
      refine ⟨hgw.trans hg', fun m hm => ?_, fun hall => ?_⟩
      · rcases touches_step hm with rfl | hm
        · exact hg'.block (hw.block hb0)
        · exact hfilled m hm
      · have ht := hsame (hall _ (touches_first hn))
        refine (hkeep fun m hm => hgw.block (hall m (touches_of_step hm))).trans ?_
        rw [ht]
        rfl

end Files
end Xv6
