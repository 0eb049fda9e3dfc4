import Xv6.Files.Extend
/-!
# Files.Good — between two calls

What holds of the file system between two calls of the inode layer, and that `iget`, `ilock`, `iunlock`, `ialloc`, `writei`
and `readi` keep it.
-/
namespace Xv6
namespace Files

open Fs (Bno Block nlog)
open Prog (wp wp_bind wp_read wp_modify wp_emit wp_stop wp_pure wp_get)

def State.onDisk (s : State) : Place → Bno := Files.addr s.dinode s.data

structure Good (s : State) : Prop where
  exact  : Exact s.bit s.onDisk
  /-- No allocated inode has a hole. -/
  filled : ∀ i, (s.dinode i).type ≠ .free → Filled s.onDisk i (s.dinode i).size
  /-- What is in the cache is what is on the disk. -/
  sync   : ∀ i, 0 < (s.inode i).ref → (s.inode i).valid = true → s.ip i = s.dinode i ∧ (s.dinode i).type ≠ .free
  held   : ∀ i, (s.inode i).locked = true → 0 < (s.inode i).ref ∧ (s.inode i).valid = true

variable {s t u : State} {i j : Nat}

theorem Good.ip (h : Good s) (hl : (s.inode i).locked = true) : s.ip i = s.dinode i ∧ (s.dinode i).type ≠ .free :=
  h.sync i (h.held i hl).1 (h.held i hl).2

theorem addr_eq_onDisk (h : s.ip i = s.dinode i) : s.addr i = s.onDisk := by
  unfold State.addr State.table
  rw [h, Function.update_eq_self]
  rfl

theorem addr_congr {D D' : Nat → Dinode} {data : Bno → Block}
    (h : ∀ j, (D j).type = (D' j).type ∧ (D j).addrs = (D' j).addrs) : addr D data = addr D' data := by
  funext p
  cases p with
  | slot j k => simp only [addr, (h j).1, (h j).2]
  | word j w => simp only [addr, (h j).1, (h j).2]

/-- File `j` is as it was: its inode, its addresses and the contents of its blocks. -/
structure Untouched (j : Nat) (s t : State) : Prop where
  dinode : t.dinode j = s.dinode j
  addrs  : ∀ p : Place, p.inum = j → t.onDisk p = s.onDisk p
  data   : ∀ p : Place, p.inum = j → s.onDisk p ≠ 0 → t.data (s.onDisk p) = s.data (s.onDisk p)

theorem iupdate_wp : wp (iupdate i) (fun _ t => t = s.setDinode i (s.ip i)) NotFreeing s := by
  unfold iupdate
  rw [wp_bind, wp_modify]
  exact logWrite_wp _

theorem rest_dinode (h : t.rest i = s.rest i) (hj : j ≠ i) : t.dinode j = s.dinode j := by
  have := congrArg (fun u => u.dinode j) h
  simpa [State.rest, hj] using this

theorem rest_self (h : t.rest i = s.rest i) : (t.inode i).ref = (s.inode i).ref ∧
    (t.inode i).locked = (s.inode i).locked ∧ (t.inode i).valid = (s.inode i).valid := by
  have hr := congrArg (fun u => (u.inode i).ref) h
  have hl := congrArg (fun u => (u.inode i).locked) h
  have hv := congrArg (fun u => (u.inode i).valid) h
  simp only [State.rest, Function.update_self] at hr hl hv
  exact ⟨hr, hl, hv⟩

theorem blockOf_congr {f g : Place → Bno} (h : ∀ p : Place, p.inum = i → f p = g p) (n : Nat) :
    blockOf f i n = blockOf g i n := by
  unfold blockOf
  rw [h _ (place_inum i n)]

/-- **What a call on a locked inode may change**: the inode's own addresses, and the blocks that are not another's. -/
theorem Good.within (h : Good s) (hl : (s.inode i).locked = true) (hrest : u.rest i = s.rest i)
    (hE : Exact u.bit u.onDisk) (hother : ∀ p : Place, p.inum ≠ i → u.onDisk p = s.onDisk p)
    (hdata : ∀ p : Place, p.inum ≠ i → s.onDisk p ≠ 0 → u.data (s.onDisk p) = s.data (s.onDisk p))
    (hip : u.ip i = u.dinode i) (hfill : Filled u.onDisk i (u.dinode i).size) :
    Good u ∧ ∀ j, j ≠ i → Untouched j s u := by
  obtain ⟨hips, hty⟩ := h.ip hl
  refine ⟨⟨hE, fun k hk => ?_, fun k hr hv => ?_, fun k hk => ?_⟩, fun j hj => ⟨rest_dinode hrest hj, ?_, ?_⟩⟩
  · by_cases hki : k = i
    · rwa [hki]
    · rw [rest_dinode hrest hki] at hk ⊢
      intro n hn
      rw [blockOf_congr fun p hp => hother p (by rwa [hp])]
      exact h.filled k hk n hn
  · by_cases hki : k = i
    · subst hki
      refine ⟨hip, ?_⟩
      rwa [← hip, rest_type hrest, hips]
    · unfold State.ip
      rw [rest_inode hrest hki] at hr hv ⊢
      rw [rest_dinode hrest hki]
      exact h.sync k hr hv
  · by_cases hki : k = i
    · subst hki
      obtain ⟨hr, hl', hv⟩ := rest_self hrest
      rw [hr, hv]
      exact h.held k hl
    · rw [rest_inode hrest hki] at hk ⊢
      exact h.held k hk
  · exact fun p hp => hother p (by rwa [hp])
  · exact fun p hp => hdata p (by rwa [hp])

theorem Good.written (h : Good s) (hl : (s.inode i).locked = true) (hg : Grows i s t) (hrest : u.rest i = s.rest i)
    (hbit : u.bit = t.bit) (hdata : u.data = t.data) (hon : u.onDisk = t.addr i) (hip : u.ip i = u.dinode i)
    (hfill : Filled u.onDisk i (u.dinode i).size) : Good u ∧ ∀ j, j ≠ i → Untouched j s u := by
  have hs := addr_eq_onDisk (h.ip hl).1
  refine h.within hl hrest ?_ (fun p hp => ?_) (fun p hp hne => ?_) hip hfill
  · rw [hbit, hon]
    exact hg.exact
  · rw [hon, hg.keeps p (.inr hp), hs]
  · rw [← hs] at hne ⊢
    rw [hdata]
    exact hg.data p hp hne

/-! ## `writei` -/

theorem grow_wp (off n : BitVec 32) : wp (grow i off n) (fun _ t =>
    if 0 < n ∧ (s.ip i).size < off then
      t = (s.setIp i { s.ip i with size := off }).setDinode i { s.ip i with size := off }
    else t = s) NotFreeing s := by
  unfold grow
  rw [wp_bind, wp_read]
  refine Prog.wp_when (fun hc => ?_) (fun hc => ?_)
  · rw [wp_bind, wp_modify]
    refine iupdate_wp.imp fun _ t ht => ?_
    rw [ip_setIp] at ht
    rwa [if_pos hc]
  · rw [if_neg hc]

theorem setDinode_dinode (d : Dinode) : (s.setDinode i d).dinode = Function.update s.dinode i d := by
  funext k
  rw [Function.update_apply]
  rfl

theorem onDisk_resized (n : BitVec 32) :
    ((s.setIp i { s.ip i with size := n }).setDinode i { s.ip i with size := n }).onDisk = s.addr i := by
  unfold State.onDisk State.addr
  rw [setDinode_dinode, State.table]
  refine addr_congr fun k => ?_
  by_cases hk : k = i
  · rw [hk, Function.update_self, Function.update_self]
    exact ⟨rfl, rfl⟩
  · rw [Function.update_of_ne hk, Function.update_of_ne hk]
    exact ⟨rfl, rfl⟩

theorem rest_setDinode (d : Dinode) : (s.setDinode i d).rest i = s.rest i := by
  unfold State.rest
  congr 1
  rw [setDinode_dinode, Function.update_idem]

theorem filled_grown {off n : Nat} (h : Good s) (hl : (s.inode i).locked = true) (hg : Grows i s t)
    (hoff : off ≤ (s.ip i).size.toNat) (htouch : ∀ m, Touches off n m → blockOf (t.addr i) i m ≠ 0) (hn : 0 < n)
    {m : Nat} (hm : m * bsize < off + n) : blockOf (t.addr i) i m ≠ 0 := by
  obtain ⟨hip, hty⟩ := h.ip hl
  by_cases hmo : off / bsize ≤ m
  · exact htouch m ⟨hn, hmo, hm⟩
  · refine hg.block ?_
    rw [addr_eq_onDisk hip]
    refine h.filled i hty m ?_
    rw [← hip]
    unfold bsize at hmo ⊢
    omega

theorem writei_wp (h : Good s) (hl : (s.inode i).locked = true) (src : Nat → Byte) (off n : BitVec 32) :
    wp (writei i src off n) (fun _ t => Good t ∧ t.rest i = s.rest i ∧ ∀ j, j ≠ i → Untouched j s t) NotFreeing s := by
  obtain ⟨hip, hty⟩ := h.ip hl
  have hs := addr_eq_onDisk hip
  have hsame : Good s ∧ s.rest i = s.rest i ∧ ∀ j, j ≠ i → Untouched j s s :=
    ⟨h, rfl, fun j _ => ⟨rfl, fun _ _ => rfl, fun _ _ _ => rfl⟩⟩
  unfold writei
  rw [wp_bind, wp_get]
  refine Prog.wp_ite (fun _ => hsame) (fun _ => Prog.wp_ite (fun _ => hsame) (fun ho => Prog.wp_ite (fun _ => hsame)
    (fun hmax => ?_)))
  rw [not_or, BitVec.not_lt, BitVec.not_lt] at ho
  have hoff : off.toNat ≤ (s.ip i).size.toNat := ho.1
  have hsum : (off + n).toNat = off.toNat + n.toNat := by
    have := ho.2
    bv_omega
  rw [wp_bind]
  refine (writeLoop_wp n.toNat src off.toNat n.toNat s (Nat.le_refl _) (hs ▸ h.exact) (hip ▸ hty)).imp ?_
  rintro _ t ⟨hg, htouch, hkeep⟩
  rw [wp_bind]
  refine (grow_wp (off + n) n).imp fun _ u hu => ?_
  rw [wp_pure]
  split_ifs at hu with hc
  · subst hu
    have hrest : ((t.setIp i { t.ip i with size := off + n }).setDinode i { t.ip i with size := off + n }).rest i =
        s.rest i := by
      rw [rest_setDinode]
      exact (rest_setIp (d := { t.ip i with size := off + n }) rfl).trans hg.rest
    have hgood := h.written hl hg hrest rfl rfl (onDisk_resized _)
      ((ip_setIp _).trans (by rw [setDinode_dinode, Function.update_self])) ?_
    · exact ⟨hgood.1, hrest, hgood.2⟩
    · rw [onDisk_resized, setDinode_dinode, Function.update_self]
      intro m hm
      exact filled_grown h hl hg hoff htouch (by bv_omega) (hsum ▸ hm)
  · subst hu
    have hall : ∀ m, Touches off.toNat n.toNat m → blockOf (s.addr i) i m ≠ 0 := by
      rintro m ⟨hn, hmo, hm⟩
      rw [hs]
      refine h.filled i hty m ?_
      rw [hg.size] at hc
      rw [← hip]
      rw [not_and, BitVec.not_lt] at hc
      have := hc (by bv_omega)
      bv_omega
    have hti := hkeep hall
    have htd : u.ip i = u.dinode i := by
      rw [hti, hip, hg.disk]
    have hgood := h.written hl hg hg.rest rfl rfl (addr_eq_onDisk htd).symm htd ?_
    · exact ⟨hgood.1, hg.rest, hgood.2⟩
    · rw [← addr_eq_onDisk htd, hg.disk]
      intro m hm
      refine hg.block ?_
      rw [hs]
      exact h.filled i hty m hm

/-! ## The cache -/

theorem setInode_self (n : Inode) : (s.setInode i n).inode i = n := if_pos rfl

theorem setInode_of_ne (hj : j ≠ i) (n : Inode) : (s.setInode i n).inode j = s.inode j := if_neg hj

theorem setInode_setInode (n n' : Inode) : (s.setInode i n).setInode i n' = s.setInode i n' := by
  unfold State.setInode
  congr 1
  funext j
  dsimp only
  split
  · rfl
  · rfl

theorem Good.setInode (h : Good s) {n : Inode}
    (hsync : 0 < n.ref → n.valid = true → n.d = s.dinode i ∧ (s.dinode i).type ≠ .free)
    (hheld : n.locked = true → 0 < n.ref ∧ n.valid = true) : Good (s.setInode i n) where
  exact := h.exact
  filled := h.filled
  sync j := by
    by_cases hj : j = i
    · subst hj
      unfold State.ip
      rw [setInode_self]
      exact hsync
    · unfold State.ip
      rw [setInode_of_ne hj]
      exact h.sync j
  held j := by
    by_cases hj : j = i
    · rw [hj, setInode_self]
      exact hheld
    · rw [setInode_of_ne hj]
      exact h.held j

theorem Good.counts (h : Good s) (c : Nat) (o : Int) : Good { s with cached := c, outstanding := o } :=
  ⟨h.exact, h.filled, h.sync, h.held⟩

theorem Good.addRef (h : Good s) (hr : 0 < (s.inode i).ref) : Good (s.addRef i) :=
  h.setInode (fun _ hv => h.sync i hr hv) (fun hl => ⟨Int.lt_add_one_of_le (Int.le_of_lt hr), (h.held i hl).2⟩)

theorem entry_wp (h : Good s) : wp (entry i) (fun _ t => Good t) NotFreeing s := by
  unfold entry
  rw [wp_bind, wp_get]
  refine Prog.wp_ite (fun hr => h.addRef hr) fun hr => Prog.wp_ite (fun _ => by simp [NotFreeing]) fun _ => ?_
  refine Good.counts (s := s.setInode i { s.inode i with ref := (s.inode i).ref + 1, valid := false }) ?_ (s.cached + 1)
    s.outstanding
  exact h.setInode (fun _ hv => absurd hv Bool.false_ne_true) (fun hl => absurd (h.held i hl).1 hr)

theorem iget_wp (h : Good s) : wp (iget i) (fun a t => a = i ∧ Good t) NotFreeing s := by
  unfold iget
  rw [wp_bind]
  exact (entry_wp h).imp fun _ t ht => ⟨rfl, ht⟩

theorem ilock_wp (h : Good s) :
    wp (ilock i) (fun _ t => Good t ∧ (t.inode i).locked = true ∧ t.dinode = s.dinode) NotFreeing s := by
  unfold ilock acquiresleep
  rw [wp_bind, wp_read]
  refine Prog.wp_ite (fun _ => by simp [NotFreeing]) fun hr => ?_
  rw [wp_bind, wp_bind, wp_read]
  refine Prog.wp_ite (fun _ => by simp [NotFreeing]) fun hl => ?_
  rw [wp_modify, wp_bind, wp_read]
  have hpos : 0 < (s.inode i).ref := Int.lt_of_lt_of_le Int.zero_lt_one (Int.not_lt.1 hr)
  refine Prog.wp_when (fun hv => ?_) fun hv => ?_
  · unfold readInode
    rw [wp_bind, wp_modify, wp_bind, wp_read]
    refine Prog.wp_ite (fun _ => by simp [NotFreeing]) fun hty => ?_
    unfold State.ip at hty
    rw [setInode_setInode, setInode_self] at *
    rw [wp_pure, setInode_self]
    exact ⟨h.setInode (fun _ _ => ⟨rfl, hty⟩) (fun _ => ⟨hpos, rfl⟩), rfl, rfl⟩
  · rw [setInode_self] at hv ⊢
    have hv' : (s.inode i).valid = true := by simpa using hv
    exact ⟨h.setInode (fun _ _ => h.sync i hpos hv') (fun _ => ⟨hpos, hv'⟩), rfl, rfl⟩

theorem iunlock_wp (h : Good s) :
    wp (iunlock i) (fun _ t => Good t ∧ t.onDisk = s.onDisk) NotFreeing s := by
  unfold iunlock releasesleep
  rw [wp_bind, wp_read]
  refine Prog.wp_ite (fun _ => by simp [NotFreeing]) fun _ => ?_
  exact ⟨h.setInode (h.sync i) (fun hl => absurd hl Bool.false_ne_true), rfl⟩

theorem idup_wp (h : Good s) (hr : 0 < (s.inode i).ref) : wp (idup i) (fun a t => a = i ∧ Good t) NotFreeing s :=
  ⟨rfl, h.addRef hr⟩

/-! ## Inodes on the disk -/

theorem onDisk_free (hf : (s.dinode i).type = .free) {p : Place} (hp : p.inum = i) : s.onDisk p = 0 := by
  subst hp
  cases p with
  | slot j k => exact if_pos hf
  | word j w => exact if_pos (.inl hf)

theorem onDisk_empty (h : ∀ k, (s.dinode i).addrs k = 0) {p : Place} (hp : p.inum = i) : s.onDisk p = 0 := by
  subst hp
  cases p with
  | slot j k => exact (ite_congr rfl (fun _ => rfl) fun _ => h k).trans (ite_self _)
  | word j w => exact if_pos (.inr (h 12))

theorem onDisk_of_dinode (hd : t.dinode j = s.dinode j) (hdata : t.data = s.data) {p : Place} (hp : p.inum = j) :
    t.onDisk p = s.onDisk p := by
  subst hp
  unfold State.onDisk
  rw [hdata]
  cases p with
  | slot j k => simp only [addr, show t.dinode j = s.dinode j from hd]
  | word j w => simp only [addr, show t.dinode j = s.dinode j from hd]

theorem setInode_inode : s.setInode i (s.inode i) = s := by
  unfold State.setInode
  congr 1
  funext j
  split_ifs with hj
  · rw [hj]
  · rfl

/-- **The inode on the disk is replaced by one with the same addresses, or none.** -/
theorem Good.replace (h : Good s) {n : Inode} {d : Dinode} (hon : (s.setDinode i d).onDisk = s.onDisk)
    (hfill : d.type ≠ .free → Filled s.onDisk i d.size)
    (hsync : 0 < n.ref → n.valid = true → n.d = d ∧ d.type ≠ .free)
    (hheld : n.locked = true → 0 < n.ref ∧ n.valid = true) : Good ((s.setInode i n).setDinode i d) where
  exact := by
    rw [show ((s.setInode i n).setDinode i d).onDisk = s.onDisk from hon]
    exact h.exact
  filled j := by
    rw [show ((s.setInode i n).setDinode i d).onDisk = s.onDisk from hon, setDinode_dinode]
    by_cases hj : j = i
    · subst hj
      rw [Function.update_self]
      exact hfill
    · rw [Function.update_of_ne hj]
      exact h.filled j
  sync j := by
    rw [setDinode_dinode]
    unfold State.ip
    by_cases hj : j = i
    · subst hj
      rw [Function.update_self, show ((s.setInode j n).setDinode j d).inode j = n from setInode_self n]
      exact hsync
    · rw [Function.update_of_ne hj, show ((s.setInode i n).setDinode i d).inode j = s.inode j from setInode_of_ne hj n]
      exact h.sync j
  held j := by
    by_cases hj : j = i
    · subst hj
      rw [show ((s.setInode j n).setDinode j d).inode j = n from setInode_self n]
      exact hheld
    · rw [show ((s.setInode i n).setDinode i d).inode j = s.inode j from setInode_of_ne hj n]
      exact h.held j

theorem ialloc_wp (h : Good s) (type : FileType) :
    wp (ialloc type) (fun _ t => Good t) NotFreeing s := by
  unfold ialloc
  rw [wp_bind, wp_read]
  cases hi : s.freeInode with
  | none => simp [NotFreeing]
  | some i =>
    have hfree : (s.dinode i).type = .free := by
      unfold State.freeInode at hi
      simpa using List.find?_some hi
    have hgood : Good (s.setDinode i { Dinode.zero with type := type }) := by
      have hon : (s.setDinode i { Dinode.zero with type := type }).onDisk = s.onDisk := by
        funext p
        by_cases hp : p.inum = i
        · rw [onDisk_free hfree hp, onDisk_empty _ hp]
          intro k
          rw [setDinode_dinode, Function.update_self]
          rfl
        · have hd : (s.setDinode i { Dinode.zero with type := type }).dinode p.inum = s.dinode p.inum := if_neg hp
          exact onDisk_of_dinode hd rfl rfl
      have := h.replace (n := s.inode i) hon (fun _ n hn => absurd hn (Nat.not_lt_zero _))
        (fun hr hv => absurd hfree (h.sync i hr hv).2) (h.held i)
      rwa [setInode_inode] at this
    rw [wp_bind, wp_modify, wp_bind]
    refine (logWrite_wp _).imp fun _ t ht => ?_
    subst ht
    exact (iget_wp hgood).imp fun _ t ht => ht.2

theorem relink_wp (h : Good s) (hl : (s.inode i).locked = true) {d : Dinode} (hty : d.type = (s.ip i).type)
    (hsz : d.size = (s.ip i).size) (ha : d.addrs = (s.ip i).addrs) :
    wp (iupdate i) (fun _ t => Good t ∧ t.onDisk = s.onDisk) NotFreeing (s.setIp i d) := by
  obtain ⟨hip, hne⟩ := h.ip hl
  have hon : (s.setDinode i d).onDisk = s.onDisk := by
    unfold State.onDisk
    rw [setDinode_dinode]
    refine addr_congr fun k => ?_
    by_cases hk : k = i
    · rw [hk, Function.update_self, hty, ha, hip]
      exact ⟨rfl, rfl⟩
    · rw [Function.update_of_ne hk]
      exact ⟨rfl, rfl⟩
  refine iupdate_wp.imp fun _ t ht => ?_
  rw [ip_setIp] at ht
  subst ht
  rw [hip] at hty hsz
  refine ⟨h.replace hon (fun _ => hsz ▸ h.filled i hne) (fun _ _ => ⟨rfl, hty ▸ hne⟩) (fun _ => h.held i hl), hon⟩

end Files
end Xv6
