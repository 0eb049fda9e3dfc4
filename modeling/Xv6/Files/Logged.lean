import Xv6.Files.Run
/-!
# Files.Logged — the blocks that a transaction of `filewrite` logs

A turn of `writei` logs the block it writes and, where it allocates that, a block of the bitmap.  What there is of the
indirect block comes once for all turns: the block itself, and if the transaction allocates it a block of the bitmap.
-/
namespace Xv6
namespace Files

open Fs (Bno Block)
open Prog (wpe wpe_bind wpe_read wpe_get wpe_modify wpe_emit wpe_pure wpe_stop)

variable {s t : State} {i : Nat}

def logged (l : List Event) : Finset Nat := (l.filterMap fun e => match e with | .log b => some b | .balloc => none).toFinset

@[simp] theorem logged_nil : logged [] = ∅ := rfl

theorem logged_append (l m : List Event) : logged (l ++ m) = logged l ∪ logged m := by
  unfold logged
  rw [List.filterMap_append, List.toFinset_append]

@[simp] theorem logged_log (b : Nat) (l : List Event) : logged (.log b :: l) = insert b (logged l) := List.toFinset_cons

@[simp] theorem logged_balloc (l : List Event) : logged (.balloc :: l) = logged l := rfl

def withBit (b : Bno) : Finset Nat := {bblock b, b.toNat}

theorem withBit_card (b : Bno) : (withBit b).card ≤ 2 := Finset.card_le_two

/-! ## Allocation -/

theorem logWrite_logs (n : Nat) : wpe (logWrite n) (fun _ t l => t = s ∧ logged l = {n}) (fun l => logged l = ∅) s := by
  unfold logWrite
  rw [wpe_bind, wpe_read]
  exact Prog.wpe_ite (fun _ => rfl) fun _ => ⟨rfl, rfl⟩

theorem bit_taken {b : Bno} (h : s.bit 0 = true) : (s.taken b).bit 0 = true := by
  show (if (0 : Bno) = b then true else s.bit 0) = true
  rw [h, ite_self]

theorem take_logs (b : Bno) : wpe (take b) (fun a t l => a = b ∧ t = s.taken b ∧ logged l = withBit b)
    (fun l => logged l ⊆ withBit b) s := by
  unfold take bzero
  rw [wpe_bind, wpe_modify, wpe_bind]
  refine (logWrite_logs _).mono (fun _ t l ht => ?_) fun l hl => by
    show logged l ⊆ _
    rw [hl]
    exact Finset.empty_subset _
  rw [wpe_bind, wpe_bind, wpe_modify]
  obtain ⟨rfl, hl⟩ := ht
  refine (logWrite_logs _).mono (fun _ u m hu => ⟨rfl, hu.1, ?_⟩) fun m hm => ?_
  · simp only [logged_append, List.nil_append, hl, hu.2]
    rfl
  · simp only [logged_append, List.nil_append, hl, hm, Finset.union_empty]
    exact Finset.singleton_subset_iff.2 (Finset.mem_insert_self _ _)

/-- Block 0 is in use, so no other is taken for it. -/
theorem balloc_logs (h : s.bit 0 = true) : wpe balloc (fun b t l => b ≠ 0 ∧ t = s.taken b ∧ logged l = withBit b)
    (fun l => ∃ b, logged l ⊆ withBit b) s := by
  unfold balloc
  rw [wpe_bind, wpe_emit, wpe_bind, wpe_read]
  cases hn : s.freeBlock with
  | none => exact ⟨0, Finset.empty_subset _⟩
  | some n =>
    unfold State.freeBlock at hn
    have hbit := List.find?_some hn
    refine (take_logs _).mono (fun a t l ha => ?_) fun l hl => ⟨_, hl⟩
    obtain ⟨rfl, ht, hl⟩ := ha
    refine ⟨fun h0 => ?_, ht, hl⟩
    rw [h0, h] at hbit
    cases hbit

/-! ## The indirect block -/

/-- `ip->addrs[NDIRECT]`. -/
def State.indirect (s : State) (i : Nat) : Bno := (s.ip i).addrs 12

/-- What a transaction logs of the indirect block at most. -/
def Ind (s : State) (i : Nat) (I : Finset Nat) : Prop :=
  if s.indirect i = 0 then I.card ≤ 2 else I = {(s.indirect i).toNat}

/-- What one turn logs of it: nothing, the block that is there, or the block that it allocates. -/
def Turn (s t : State) (i : Nat) (J : Finset Nat) : Prop :=
  if s.indirect i = 0 then t.indirect i = 0 ∧ J = ∅ ∨ t.indirect i ≠ 0 ∧ J = withBit (t.indirect i)
  else t.indirect i = s.indirect i ∧ J = {(s.indirect i).toNat}

theorem Ind.card {I : Finset Nat} (h : Ind s i I) : I.card ≤ 2 := by
  unfold Ind at h
  split at h
  · exact h
  · rw [h, Finset.card_singleton]
    decide

theorem Turn.ind {I J : Finset Nat} (h : Turn s t i J) (hI : Ind t i I) : ∃ I', Ind s i I' ∧ J ⊆ I' ∧ I ⊆ I' := by
  unfold Turn at h
  unfold Ind at hI ⊢
  split at h
  · next h0 =>
    simp only [if_pos h0]
    obtain ⟨ht, rfl⟩ | ⟨ht, rfl⟩ := h
    · rw [if_pos ht] at hI
      exact ⟨I, hI, Finset.empty_subset _, Finset.Subset.refl _⟩
    · rw [if_neg ht] at hI
      refine ⟨withBit (t.indirect i), withBit_card _, Finset.Subset.refl _, ?_⟩
      rw [hI]
      exact Finset.singleton_subset_iff.2 (Finset.mem_insert_of_mem (Finset.mem_singleton_self _))
  · next h0 =>
    simp only [if_neg h0]
    obtain ⟨ht, rfl⟩ := h
    rw [ht, if_neg h0] at hI
    exact ⟨_, rfl, Finset.Subset.refl _, by rw [hI]⟩

theorem Turn.there (h0 : s.indirect i ≠ 0) (h : t.indirect i = s.indirect i) : Turn s t i {(s.indirect i).toNat} := by
  unfold Turn
  rw [if_neg h0]
  exact ⟨h, rfl⟩

theorem Turn.allocated (h0 : s.indirect i = 0) (h : t.indirect i ≠ 0) : Turn s t i (withBit (t.indirect i)) := by
  unfold Turn
  rw [if_pos h0]
  exact .inr ⟨h, rfl⟩

theorem Turn.same (h : t.indirect i = s.indirect i) : ∃ J, Turn s t i J := by
  by_cases h0 : s.indirect i = 0
  · refine ⟨∅, ?_⟩
    unfold Turn
    rw [if_pos h0]
    exact .inl ⟨h.trans h0, rfl⟩
  · exact ⟨_, .there h0 h⟩

/-- At most `m` blocks, and what there is of the indirect block. -/
def AtMost (s : State) (i m : Nat) (l : List Event) : Prop := ∃ I L, Ind s i I ∧ L.card ≤ m ∧ logged l ⊆ I ∪ L

theorem AtMost.empty {m : Nat} {l : List Event} (h : logged l = ∅) : AtMost s i m l := by
  by_cases h0 : s.indirect i = 0
  · exact ⟨∅, ∅, by simp [Ind, h0], by simp, by simp [h]⟩
  · exact ⟨_, ∅, by unfold Ind; rw [if_neg h0], by simp, by simp [h]⟩

theorem AtMost.nil (s : State) (i m : Nat) : AtMost s i m [] := .empty rfl

theorem AtMost.card {m : Nat} {l : List Event} (h : AtMost s i m l) : (logged l).card ≤ 2 + m := by
  obtain ⟨I, L, hI, hL, hl⟩ := h
  have hunion := Finset.card_union_le I L
  have hsub := Finset.card_le_card hl
  have := hI.card
  omega

/-! ## `bmap` -/

theorem slotAddr_logs (h : s.bit 0 = true) (k : Fin 13) : wpe (slotAddr i k)
    (fun b t l => b ≠ 0 ∧ t.bit 0 = true ∧ (t.ip i).addrs k = b ∧ (∀ j, j ≠ k → (t.ip i).addrs j = (s.ip i).addrs j) ∧
      if (s.ip i).addrs k = 0 then logged l = withBit b else logged l = ∅ ∧ t = s)
    (fun l => (s.ip i).addrs k = 0 ∧ ∃ b, logged l ⊆ withBit b) s := by
  unfold slotAddr
  rw [wpe_bind, wpe_read]
  refine Prog.wpe_ite (fun h0 => ?_) fun h0 => ?_
  · rw [wpe_bind]
    refine (balloc_logs h).mono (fun b t l hb => ?_) fun l hl => ⟨h0, hl⟩
    obtain ⟨hb, rfl, hl⟩ := hb
    rw [wpe_bind, wpe_modify, wpe_pure, setAddr_eq, ip_setIp, if_pos h0]
    refine ⟨hb, bit_taken h, Function.update_self .., fun j hj => Function.update_of_ne hj .., ?_⟩
    simpa using hl
  · rw [wpe_pure, if_neg h0]
    exact ⟨h0, h, rfl, fun _ _ => rfl, rfl, rfl⟩

theorem wordAddr_logs (h : s.bit 0 = true) (addr : Bno) (j : Fin 128) : wpe (wordAddr addr j)
    (fun b t l => t.bit 0 = true ∧ t.ip i = s.ip i ∧ logged l ⊆ insert addr.toNat (withBit b))
    (fun l => ∃ b, logged l ⊆ insert addr.toNat (withBit b)) s := by
  unfold wordAddr
  rw [wpe_bind, wpe_read]
  refine Prog.wpe_ite (fun _ => ?_) fun _ => ⟨h, rfl, Finset.empty_subset _⟩
  rw [wpe_bind]
  refine (balloc_logs h).mono (fun b t l hb => ?_) fun l hl => ?_
  · obtain ⟨-, rfl, hl⟩ := hb
    rw [wpe_bind, wpe_modify, wpe_bind]
    refine (logWrite_logs _).mono (fun _ u m hu => ?_) fun m hm => ⟨b, ?_⟩
    · obtain ⟨rfl, hm⟩ := hu
      refine ⟨bit_taken h, rfl, ?_⟩
      simp only [logged_append, List.nil_append, hl, hm]
      rw [Finset.union_comm]
      exact Finset.Subset.refl _
    · simp only [logged_append, List.nil_append, hl, hm, Finset.union_empty]
      exact Finset.subset_insert _ _
  · obtain ⟨b, hb⟩ := hl
    exact ⟨b, hb.trans (Finset.subset_insert _ _)⟩

theorem bmap_logs (h : s.bit 0 = true) (bn : Nat) : wpe (bmap i bn)
    (fun b t l => t.bit 0 = true ∧ ∃ J, Turn s t i J ∧ logged l ⊆ J ∪ withBit b) (AtMost s i 2) s := by
  unfold bmap
  refine Prog.wpe_ite (fun hn => ?_) fun hn => Prog.wpe_ite (fun hn' => ?_) fun _ => AtMost.nil s i 2
  · -- a direct slot: the indirect block is not touched
    refine (slotAddr_logs h _).mono (fun b t l hb => ?_) fun l hl => ?_
    · obtain ⟨-, hbit, -, hkeep, hl⟩ := hb
      have h12 : (12 : Fin 13) ≠ Fin.ofNat 13 bn := fun he => by
        have := congrArg Fin.val he
        rw [Fin.val_ofNat, Nat.mod_eq_of_lt (Nat.lt_succ_of_lt hn)] at this
        exact absurd this.symm (Nat.ne_of_lt hn)
      obtain ⟨J, hJ⟩ := Turn.same (hkeep 12 h12)
      refine ⟨hbit, J, hJ, ?_⟩
      split at hl
      · rw [hl]
        exact Finset.subset_union_right
      · rw [hl.1]
        exact Finset.empty_subset _
    · obtain ⟨-, b, hb⟩ := hl
      obtain ⟨I, -, hI, -, -⟩ := AtMost.nil s i 0
      exact ⟨I, _, hI, withBit_card b, hb.trans Finset.subset_union_right⟩
  · rw [wpe_bind]
    refine (slotAddr_logs h 12).mono (fun a t l ha => ?_) fun l hl => ?_
    · obtain ⟨ha0, hbit, ha, -, hl⟩ := ha
      obtain ⟨J, hJ, hlJ, haJ⟩ : ∃ J, Turn s t i J ∧ logged l ⊆ J ∧ a.toNat ∈ J := by
        by_cases h0 : s.indirect i = 0
        · rw [if_pos (show (s.ip i).addrs 12 = 0 from h0)] at hl
          have hind : t.indirect i = a := ha
          refine ⟨_, .allocated h0 (by rwa [hind]), ?_, ?_⟩
          · rw [hl, hind]
          · rw [hind]
            exact Finset.mem_insert_of_mem (Finset.mem_singleton_self _)
        · rw [if_neg (show ¬ (s.ip i).addrs 12 = 0 from h0)] at hl
          obtain ⟨hl, rfl⟩ := hl
          refine ⟨_, .there h0 rfl, by rw [hl]; exact Finset.empty_subset _, ?_⟩
          rw [show t.indirect i = a from ha]
          exact Finset.mem_singleton_self _
      refine (wordAddr_logs (i := i) hbit a _).mono (fun b u m hb => ?_) fun m hm => ?_
      · obtain ⟨hbit', hip, hm⟩ := hb
        refine ⟨hbit', J, ?_, ?_⟩
        · have hind : u.indirect i = t.indirect i := congrArg (fun d : Dinode => d.addrs 12) hip
          unfold Turn at hJ ⊢
          rwa [hind]
        · rw [logged_append]
          refine Finset.union_subset (hlJ.trans Finset.subset_union_left) (hm.trans ?_)
          exact Finset.insert_subset (Finset.mem_union_left _ haJ) Finset.subset_union_right
      · obtain ⟨b, hb⟩ := hm
        obtain ⟨I, -, hI, -, -⟩ := AtMost.nil t i 0
        obtain ⟨I', hI', hJI, -⟩ := hJ.ind hI
        refine ⟨I', _, hI', withBit_card b, ?_⟩
        rw [logged_append]
        refine Finset.union_subset ((hlJ.trans hJI).trans Finset.subset_union_left) (hb.trans ?_)
        exact Finset.insert_subset (Finset.mem_union_left _ (hJI haJ)) Finset.subset_union_right
    · obtain ⟨h0, b, hb⟩ := hl
      refine ⟨withBit b, ∅, ?_, by simp, hb.trans Finset.subset_union_left⟩
      unfold Ind
      rw [if_pos (show s.indirect i = 0 from h0)]
      exact withBit_card b

/-! ## The loop -/

theorem AtMost.mono {m m' : Nat} {l : List Event} (h : AtMost s i m l) (hm : m ≤ m') : AtMost s i m' l := by
  obtain ⟨I, L, hI, hL, hl⟩ := h
  exact ⟨I, L, hI, hL.trans hm, hl⟩

theorem AtMost.turn {m c : Nat} {l l' : List Event} {J L : Finset Nat} (hJ : Turn s t i J) (hl : logged l ⊆ J ∪ L)
    (hL : L.card ≤ c) (h : AtMost t i m l') : AtMost s i (c + m) (l ++ l') := by
  obtain ⟨I, L', hI, hL', hl'⟩ := h
  obtain ⟨I', hI', hJI, hII⟩ := hJ.ind hI
  refine ⟨I', L ∪ L', hI', (Finset.card_union_le _ _).trans (Nat.add_le_add hL hL'), ?_⟩
  rw [logged_append]
  refine Finset.union_subset (hl.trans ?_) (hl'.trans ?_)
  · exact Finset.union_subset_union hJI Finset.subset_union_left
  · exact Finset.union_subset_union hII Finset.subset_union_right

/-- The turns of the loop of `writei`. -/
def turns (off n : Nat) : Nat := if n = 0 then 0 else (off % bsize + n + (bsize - 1)) / bsize

theorem turns_step {off n : Nat} (hn : n ≠ 0) : turns off n = 1 + turns (off + chunk off n) (n - chunk off n) := by
  unfold turns chunk bsize
  rw [if_neg hn]
  split <;> omega

theorem writeBlock_logs {m c : Nat} {l : List Event} {J L : Finset Nat} {b : Bno} {f : State → State} {rest : F Unit}
    (hJ : Turn s t i J) (hl : logged l ⊆ J ∪ L) (hb : b.toNat ∈ L) (hL : L.card ≤ c) (hip : (f t).ip i = t.ip i)
    (hrest : wpe rest (fun _ _ l' => AtMost (f t) i m l') (AtMost (f t) i m) (f t)) :
    wpe (do Prog.modify f; logWrite b.toNat; rest) (fun _ _ l' => AtMost s i (c + m) (l ++ l'))
      (fun l' => AtMost s i (c + m) (l ++ l')) t := by
  have hind : (f t).indirect i = t.indirect i := congrArg (fun d : Dinode => d.addrs 12) hip
  have hJ' : Turn s (f t) i J := by
    unfold Turn at hJ ⊢
    rwa [hind]
  rw [wpe_bind, wpe_modify, wpe_bind]
  refine (logWrite_logs _).mono (fun _ u l₁ hu => ?_) fun l₁ hl₁ => ?_
  · obtain ⟨rfl, hl₁⟩ := hu
    have hboth : logged (l ++ l₁) ⊆ J ∪ L := by
      rw [logged_append, hl₁]
      exact Finset.union_subset hl (Finset.singleton_subset_iff.2 (Finset.mem_union_right _ hb))
    refine hrest.mono (fun _ _ l' h => ?_) fun l' h => ?_
    · rw [List.nil_append, ← List.append_assoc]
      exact AtMost.turn hJ' hboth hL h
    · rw [List.nil_append, ← List.append_assoc]
      exact AtMost.turn hJ' hboth hL h
  · exact AtMost.turn hJ' hl hL (.empty hl₁)

theorem writeLoop_logs : ∀ (k : Nat) (src : Nat → Byte) (off n : Nat) (s : State), s.bit 0 = true →
    wpe (writeLoop i k src off n) (fun _ _ l => AtMost s i (2 * turns off n) l) (AtMost s i (2 * turns off n)) s
  | 0, _, _, _, s, _          => AtMost.nil s i _
  | k + 1, src, off, n, s, h => by
    unfold writeLoop
    refine Prog.wpe_ite (fun _ => AtMost.nil s i _) fun hn => ?_
    rw [turns_step hn, Nat.mul_add]
    rw [wpe_bind]
    refine (bmap_logs h _).mono (fun b t l hb => ?_) fun l hl => hl.mono (Nat.le_add_right _ _)
    obtain ⟨hbit, J, hJ, hl⟩ := hb
    exact writeBlock_logs hJ hl (Finset.mem_insert_of_mem (Finset.mem_singleton_self _)) (withBit_card b) rfl
      (writeLoop_logs k _ _ _ _ hbit)

theorem writeLoop_logs_first {k off n : Nat} (src : Nat → Byte) (h : s.bit 0 = true) (hf : (s.ip i).type ≠ .free)
    (hb : blockOf (s.addr i) i (off / bsize) ≠ 0) (hn : n ≠ 0) :
    wpe (writeLoop i k src off n) (fun _ _ l => AtMost s i (2 * turns off n - 1) l)
      (AtMost s i (2 * turns off n - 1)) s := by
  cases k with
  | zero => exact AtMost.nil s i _
  | succ k =>
    unfold writeLoop
    rw [if_neg hn, wpe_bind]
    refine Prog.wpe_of_run (bmap_found hf hb) ?_
    have hturns : 2 * turns off n - 1 = 1 + 2 * turns (off + chunk off n) (n - chunk off n) := by
      rw [turns_step hn]
      omega
    rw [hturns]
    obtain ⟨J, hJ⟩ := Turn.same (s := s) (i := i) rfl
    exact writeBlock_logs hJ (Finset.empty_subset _) (Finset.mem_singleton_self _)
      (Finset.card_singleton _).le rfl (writeLoop_logs k _ _ _ _ h)

/-! ## A transaction of filewrite -/

/-- The inode that `ilock` leaves in memory. -/
def State.found (s : State) (i : Nat) : Dinode := if (s.inode i).valid then s.ip i else s.dinode i

def NoHoles (d : Dinode) (data : Bno → Block) (i : Nat) : Prop := Filled (addr (fun _ => d) data) i d.size

theorem addr_own (D : Nat → Dinode) (data : Bno → Block) {p : Place} (hp : p.inum = i) :
    addr D data p = addr (fun _ => D i) data p := by
  subst hp
  cases p with
  | slot j k => rfl
  | word j w => rfl

theorem Good.noHoles (h : Good s) (hr : 0 < (s.inode i).ref) (hf : (s.dinode i).type ≠ .free) :
    NoHoles (s.found i) s.data i := by
  have hfound : s.found i = s.dinode i := by
    unfold State.found
    split
    · next hv => exact (h.sync i hr hv).1
    · rfl
  unfold NoHoles
  rw [hfound]
  intro n hn
  rw [← blockOf_congr fun p hp => addr_own s.dinode s.data hp]
  exact h.filled i hf n hn

theorem Good.boot (h : Good s) : s.bit 0 = true := h.exact.low 0 (by decide)

theorem blockOf_free {d : Dinode} {data : Bno → Block} {n : Nat} (h : blockOf (addr (fun _ => d) data) i n ≠ 0) :
    d.type ≠ .free := by
  intro hf
  refine h ?_
  unfold blockOf place
  split_ifs
  · exact if_pos hf
  · exact if_pos (.inl hf)
  · rfl

/-- **What `writei` logs**, ended or stopped: what its loop does, and the block of the inode. -/
theorem writei_logs_loop {off n : BitVec 32} {m : Nat} (src : Nat → Byte)
    (hloop : off.toNat ≤ (s.ip i).size.toNat →
      wpe (writeLoop i n.toNat src off.toNat n.toNat) (fun _ _ l => AtMost s i m l) (AtMost s i m) s) :
    wpe (writei i src off n) (fun _ _ l => (logged l).card ≤ m + 3) (fun l => (logged l).card ≤ m + 3) s := by
  have hnil : (logged ([] : List Event)).card ≤ m + 3 := Nat.zero_le _
  unfold writei
  rw [wpe_bind, wpe_get]
  refine Prog.wpe_ite (fun _ => hnil) fun _ => Prog.wpe_ite (fun _ => hnil)
    fun ho => Prog.wpe_ite (fun _ => hnil) fun _ => ?_
  rw [not_or, BitVec.not_lt] at ho
  rw [wpe_bind]
  refine (hloop ho.1).mono (fun _ t l hl => ?_) fun l hl => ?_
  · have hcard := hl.card
    have hgrow : wpe (grow i (off + n) n) (fun _ _ m => (logged m).card ≤ 1) (fun m => (logged m).card ≤ 1) t := by
      unfold grow iupdate
      rw [wpe_bind, wpe_read]
      refine Prog.wpe_when (fun _ => ?_) fun _ => by decide
      rw [wpe_bind, wpe_modify, wpe_bind, wpe_modify]
      refine (logWrite_logs _).mono (fun _ _ m hm => ?_) fun m hm => ?_
      · simp only [List.nil_append, hm.2, Finset.card_singleton, Nat.le_refl]
      · simp only [List.nil_append, hm, Finset.card_empty, Nat.zero_le]
    have hsum : ∀ l', (logged l').card ≤ 1 → (logged (l ++ l')).card ≤ m + 3 := fun l' hl' => by
      rw [logged_append]
      have := Finset.card_union_le (logged l) (logged l')
      omega
    rw [wpe_bind]
    refine hgrow.mono (fun _ u l' hl' => ?_) fun l' hl' => hsum l' hl'
    rw [wpe_pure, List.append_nil]
    exact hsum l' hl'
  · have hcard := hl.card
    show (logged l).card ≤ m + 3
    omega

theorem writei_logs {off n : BitVec 32} (src : Nat → Byte) (h : s.bit 0 = true) (hfill : NoHoles (s.ip i) s.data i)
    (hn : n.toNat ≤ maxWrite) : wpe (writei i src off n) (fun _ _ l => (logged l).card ≤ Fs.maxOpBlocks)
      (fun l => (logged l).card ≤ Fs.maxOpBlocks) s := by
  have hmax : n.toNat ≤ 1536 := hn
  -- seven blocks of the turns: an unaligned write finds its first block
  refine writei_logs_loop (m := 7) src fun hoff => ?_
  by_cases hal : off.toNat % bsize = 0 ∨ n.toNat = 0
  · refine (writeLoop_logs _ src off.toNat n.toNat s h).mono (fun _ _ l hl => hl.mono ?_) fun l hl => hl.mono ?_ <;>
    · unfold turns bsize at *
      split <;> omega
  · rw [not_or] at hal
    have hb := hfill (off.toNat / bsize) (by unfold bsize at *; omega)
    have hb' : blockOf (s.addr i) i (off.toNat / bsize) ≠ 0 := by
      rw [State.addr, blockOf_congr fun p hp => addr_own _ _ hp, table_self]
      exact hb
    have hf : (s.ip i).type ≠ .free := blockOf_free hb
    refine (writeLoop_logs_first src h hf hb' hal.2).mono (fun _ _ l hl => hl.mono ?_) fun l hl => hl.mono ?_ <;>
    · unfold turns bsize at *
      split <;> omega

theorem ilock_logs (i : Nat) : wpe (ilock i) (fun _ t l => l = [] ∧ t.ip i = s.found i ∧ t.data = s.data ∧ t.bit = s.bit)
    (fun l => l = []) s := by
  unfold ilock acquiresleep
  rw [wpe_bind, wpe_read]
  refine Prog.wpe_ite (fun _ => rfl) fun _ => ?_
  rw [wpe_bind, wpe_bind, wpe_read]
  refine Prog.wpe_ite (fun _ => rfl) fun _ => ?_
  rw [wpe_modify, wpe_bind, wpe_read, setInode_self]
  refine Prog.wpe_when (fun hv => ?_) fun hv => ?_
  · unfold readInode
    rw [wpe_bind, wpe_modify, wpe_bind, wpe_read]
    refine Prog.wpe_ite (fun _ => rfl) fun _ => ⟨rfl, ?_, rfl, rfl⟩
    show (((s.setInode i _).setInode i _).inode i).d = s.found i
    rw [setInode_self]
    unfold State.found
    rw [if_neg (by simpa using hv)]
    rfl
  · refine ⟨rfl, ?_, rfl, rfl⟩
    show ((s.setInode i _).inode i).d = s.found i
    rw [setInode_self]
    unfold State.found
    rw [if_pos (by simpa using hv)]
    rfl

theorem close_logs (i : Nat) (r : Int) : wpe (do iunlock i; endOp; pure r) (fun _ _ l => l = []) (fun l => l = []) s := by
  unfold iunlock releasesleep endOp
  rw [wpe_bind, wpe_bind, wpe_read]
  exact Prog.wpe_ite (fun _ => rfl) fun _ => rfl

/-- **Every chunk fits in its transaction.** -/
theorem writeChunk_fits (f : Fin nfile) (src : Nat → Byte) {n : Nat} (hn : n ≤ maxWrite) (s : State) (hboot : s.bit 0 = true)
    (hfill : NoHoles (s.found (s.file f).ip) s.data (s.file f).ip) :
    (logged (writeChunk f src n s).tr).card ≤ Fs.maxOpBlocks := by
  have hnil : (logged ([] : List Event)).card ≤ Fs.maxOpBlocks := by decide
  refine Prog.wpe.events (R := fun l => (logged l).card ≤ Fs.maxOpBlocks) ?_
  unfold writeChunk beginOp
  rw [wpe_bind, wpe_modify, wpe_bind, wpe_read, wpe_bind]
  refine (ilock_logs _).mono (fun _ t l ht => ?_) fun l hl => by rw [hl]; exact hnil
  obtain ⟨rfl, hip, hdata, hbit⟩ := ht
  have hsize : (BitVec.ofNat 32 n).toNat ≤ maxWrite := by
    rw [BitVec.toNat_ofNat]
    exact (Nat.mod_le _ _).trans hn
  have hfill' : NoHoles (t.ip (s.file f).ip) t.data (s.file f).ip := by
    rw [hip, hdata]
    exact hfill
  rw [wpe_bind]
  refine (writei_logs src (hbit ▸ hboot) hfill' hsize).mono (fun r u l hl => ?_) fun l hl => hl
  rw [wpe_bind]
  have hclose : ∀ v, wpe (do iunlock (s.file f).ip; endOp; pure r) (fun _ _ m => (logged (l ++ m)).card ≤ Fs.maxOpBlocks)
      (fun m => (logged (l ++ m)).card ≤ Fs.maxOpBlocks) v := fun v => by
    refine (close_logs _ r).mono (fun _ _ m hm => ?_) fun m hm => ?_
    · rw [hm, List.append_nil]
      exact hl
    · rw [hm, List.append_nil]
      exact hl
  exact Prog.wpe_when (fun _ => hclose _) fun _ => hclose u

/-- A file of twelve blocks, open for writing from the middle of the last one; the free blocks have a bitmap block each. -/
def scattered : State :=
  let d : Dinode := ⟨.file, 0, 0, 1, 6144, fun k => if k.val < 12 then BitVec.ofNat 32 (100 + k.val) else 0⟩
  { bareDisk with
    bit    := fun b => b.toNat % 4096 != 90
    dinode := fun i => if i = 2 then d else bareDisk.dinode i
    inode  := fun i => if i = 2 then ⟨1, false, false, Dinode.zero⟩ else bareDisk.inode i
    file   := fun _ => ⟨.inode, 1, false, true, 2, 5732⟩ }

theorem scattered_full : NoHoles (scattered.found 2) scattered.data 2 := by
  have hall : ∀ n < 12, blockOf (addr (fun _ => scattered.found 2) scattered.data) 2 n ≠ 0 := by decide
  intro n hn
  have hsize : (scattered.found 2).size.toNat = 12 * bsize := by decide
  rw [hsize] at hn
  exact hall n (Nat.lt_of_mul_lt_mul_right hn)

/-- A chunk that goes on into the indirect block, with a bitmap block for each allocation, leaves no block of the log. -/
theorem scattered_fits : (writeChunk 0 (fun _ => 0x61) 1536 scattered).res = .ok 1536 ∧
    Fs.maxOpBlocks ≤ (logged (writeChunk 0 (fun _ => 0x61) 1536 scattered).tr).card ∧
    (logged (writeChunk 0 (fun _ => 0x61) 1536 scattered).tr).card ≤ Fs.maxOpBlocks := by
  have hrun : (writeChunk 0 (fun _ => 0x61) 1536 scattered).res.toOption = some 1536 ∧
      Fs.maxOpBlocks ≤ (logged (writeChunk 0 (fun _ => 0x61) 1536 scattered).tr).card := by decide +kernel
  exact ⟨Prog.res_ok hrun.1, hrun.2, writeChunk_fits 0 _ (by decide) scattered (by decide) scattered_full⟩

end Files
end Xv6
