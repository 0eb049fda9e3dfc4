import Xv6.Files.Path
/-!
# Files.Full — a directory without room

A directory of the greatest size without a free entry: `dirlink` finds that `writei` refuses a new one, and panics.  `create`
gives back what is there, and never comes back with a new inode.
-/
namespace Xv6
namespace Files

open Prog (wp wpt wp_bind wp_read wp_modify wp_pure)

variable {s t u v : State} {i j p dp : Nat} {name : Name} {path : Path}

/-! ## The same tree -/

/-- The directories are the same; of the inodes only the link counts and the device numbers may differ. -/
structure SameTree (s t : State) : Prop where
  data : t.data = s.data
  type : ∀ i, (t.dinode i).type = (s.dinode i).type
  size : ∀ i, (t.dinode i).size = (s.dinode i).size
  addrs : ∀ i, (t.dinode i).addrs = (s.dinode i).addrs

theorem SameTree.direntAt (h : SameTree s t) : t.direntAt = s.direntAt := by
  have hon : t.onDisk = s.onDisk := by
    unfold State.onDisk
    rw [h.data, addr_congr fun i => ⟨h.type i, h.addrs i⟩]
  unfold State.direntAt State.byteAt
  rw [hon, h.data]

theorem SameTree.lookup (h : SameTree s t) : t.lookup = s.lookup := by
  funext dp name
  unfold State.lookup
  rw [h.direntAt, h.size]

theorem SameTree.child (h : SameTree s t) : t.child = s.child := by
  funext i name
  unfold State.child
  rw [h.lookup, h.type]

theorem SameTree.parent (h : SameTree s t) : t.parent = s.parent := by
  funext i l
  unfold State.parent State.resolve
  rw [h.child]
  simp only [h.type]

theorem SameTree.tree (h : SameTree s t) (hs : Tree s) (hg : Good t) (ho : NoOrphan t) (hr : ∀ i, 0 ≤ t.refs i)
    (hl : ∀ i, (t.inode i).locked = false) : Tree t where
  good := hg
  whole i hi := by
    rw [h.size]
    exact hs.whole i (h.type i ▸ hi)
  named i hi name j off hf := by
    rw [h.type]
    rw [h.lookup] at hf
    exact hs.named i (h.type i ▸ hi) name j off hf
  root := by
    rw [h.type]
    exact hs.root
  kept := ho
  refs := hr
  free := hl

theorem fits_congr (hr : t.refs = s.refs) (hc : t.cached = s.cached) : Fits t = Fits s := by
  unfold Fits State.entries
  rw [hr, hc]

theorem roomy_congr (hr : t.refs = s.refs) (hc : t.cached = s.cached) (hchild : t.child = s.child) :
    ∀ (l : List Name) (i : Nat), Roomy t i l ↔ Roomy s i l
  | [], _     => Iff.rfl
  | c :: l, i => by
    unfold Roomy
    rw [hchild, fits_congr hr hc]
    cases s.child i c with
    | none => exact Iff.rfl
    | some j => exact and_congr_right fun _ => roomy_congr hr hc hchild l j

theorem enough_congr (hr : t.refs = s.refs) (hc : t.cached = s.cached) (hchild : t.child = s.child) (hcwd : t.cwd = s.cwd)
    (p : Nat) (path : Path) (l : List Name) : Enough t p path l ↔ Enough s p path l := by
  have hget : Gettable t rootIno ↔ Gettable s rootIno := by
    unfold Gettable
    rw [hc]
    exact or_congr_left (by rw [show (t.inode rootIno).ref = (s.inode rootIno).ref from congrFun hr rootIno])
  unfold Enough State.origin
  rw [hget, hcwd, roomy_congr hr hc hchild]

/-! ## Full directories -/

/-- Between two calls of process `p`. -/
structure Calm (s : State) (p : Nat) : Prop where
  tree   : Tree s
  cwd    : 0 < s.refs (s.cwd p)
  cwdDir : (s.dinode (s.cwd p)).type ≠ .free
  op     : 0 ≤ s.outstanding
  closed : Closed s

/-- The directory has its greatest size and no free entry. -/
structure Full (s : State) (dp : Nat) : Prop where
  size : (s.dinode dp).size.toNat = maxFile * bsize
  used : ∀ off ∈ offsets (s.dinode dp).size, (s.direntAt dp off).inum ≠ 0

theorem SameTree.full (h : SameTree s t) (hf : Full s dp) : Full t dp := by
  refine ⟨(h.size dp).symm ▸ hf.size, fun off hoff => ?_⟩
  rw [h.size] at hoff
  rw [h.direntAt]
  exact hf.used off hoff

/-- The parent of the path is found, and in it the name, of an inode for which the cache has room. -/
def There (s : State) (p : Nat) (path : Path) (dp : Nat) (name : Name) (j : Nat) : Prop :=
  Enough s p path (components path).dropLast ∧ (∃ off, s.lookup dp name = some (j, off)) ∧ Fits s dp j

theorem there_absent (h : s.lookup dp name = none) : ¬ ∃ j, There s p path dp name j := by
  rintro ⟨j, -, ⟨off, hoff⟩, -⟩
  rw [h] at hoff
  cases hoff

theorem parent_dir {l : List Name} (h : s.parent i l = some (dp, name)) : (s.dinode dp).type = .dir := by
  unfold State.parent at h
  cases hl : l.getLast? with
  | none => simp [hl] at h
  | some c =>
    cases hr : s.resolve i l.dropLast with
    | none => simp [hl, hr] at h
    | some k =>
      by_cases hk : (s.dinode k).type = .dir
      · simp [hl, hr, hk] at h
        rw [← h.1]
        exact hk
      · simp [hl, hr, hk] at h

/-! ## No room -/

/-- **`dirlink` panics on a full directory**: `writei` does not go beyond the greatest size. -/
theorem dirlink_full (h : Good t) (hl : (t.inode dp).locked = true) (hd : IsDir t dp) (hf : t.lookup dp name = none)
    (hfull : Full t dp) (inum : Nat) : dirlink dp name inum t = ⟨.error (.panic "dirlink"), t, []⟩ := by
  obtain ⟨hip, -⟩ := h.ip hl
  have hrun := dirlookup_run h hl hd name
  have hscan := scan_run h hl hd "dirlink read" (fun de => decide (de.inum = 0)) (offsets (t.ip dp).size)
    fun off ho => hip ▸ ho
  have hnone : (offsets (t.dinode dp).size).find? (fun off => decide ((t.direntAt dp off).inum = 0)) = none := by
    rw [List.find?_eq_none]
    exact fun off hoff => by simpa using hfull.used off hoff
  have hsize : (t.dinode dp).size = 71680 := BitVec.eq_of_toNat_eq hfull.size
  have hlen : 16 * (offsets (t.dinode dp).size).length = 71680 := by
    rw [hsize, offsets, List.length_map, List.length_range]
    decide
  have hwrite : writei dp (Dirent.byte ⟨BitVec.ofNat 16 inum, name⟩) (BitVec.ofNat 32 71680) 16 t = ⟨.ok (-1), t, []⟩ := by
    unfold writei
    rw [Prog.get_bind_run, hip, if_neg (by rw [hd.type]; decide), hsize, if_neg (by decide), if_pos (by decide)]
    rfl
  rw [hf] at hrun
  rw [hip, hnone] at hscan
  unfold dirlink addDirent
  rw [Prog.bind_run_nil hrun]
  dsimp only
  rw [Prog.read_bind_run, hip, Prog.bind_run_nil hscan]
  dsimp only [Option.map]
  rw [hlen, Prog.bind_run_nil hwrite]
  rfl

/-- A locked directory that the others' calls have left alone; of its own fields only the link count and the device
numbers may differ. -/
structure Alone (s : State) (dp : Nat) (t : State) : Prop where
  good   : Good t
  held   : (t.inode dp).locked = true
  type   : (t.dinode dp).type = (s.dinode dp).type
  size   : (t.dinode dp).size = (s.dinode dp).size
  blocks : ∀ p : Place, p.inum = dp → t.onDisk p = s.onDisk p
  data   : ∀ p : Place, p.inum = dp → s.onDisk p ≠ 0 → t.data (s.onDisk p) = s.data (s.onDisk p)

theorem Alone.trans (h : Alone s dp t) (h' : Alone t dp u) : Alone s dp u where
  good := h'.good
  held := h'.held
  type := h'.type.trans h.type
  size := h'.size.trans h.size
  blocks p hp := (h'.blocks p hp).trans (h.blocks p hp)
  data p hp hne := by
    rw [← h.data p hp hne, ← h.blocks p hp]
    exact h'.data p hp (h.blocks p hp ▸ hne)

theorem Untouched.alone (h : Untouched dp t u) (hg : Good u) (hl : (u.inode dp).locked = true) : Alone t dp u where
  good := hg
  held := hl
  type := by rw [h.dinode]
  size := by rw [h.dinode]
  blocks := h.addrs
  data := h.data

theorem SameDisk.untouched (h : SameDisk t u) (j : Nat) : Untouched j t u where
  dinode := by rw [h.dinode]
  addrs p _ := by rw [h.onDisk]
  data p _ _ := by rw [h.data]

theorem Alone.isDir (h : Alone s dp t) (hd : IsDir s dp) : IsDir t dp := by
  obtain ⟨h1, h2⟩ := hd
  rw [← h.type] at h1
  rw [← h.size] at h2
  exact ⟨h1, h2⟩

theorem Alone.direntAt (h : Alone s dp t) (hd : IsDir s dp) {off : Nat} (hoff : off ∈ offsets (s.dinode dp).size) :
    t.direntAt dp off = s.direntAt dp off := by
  obtain ⟨hmod, hlt⟩ := mem_offsets.1 hoff
  have hw := hd.whole
  have hty : (t.dinode dp).type ≠ .free := (h.good.ip h.held).2
  unfold State.direntAt
  refine congrArg _ (List.map_congr_left fun j hj => ?_)
  have hj := List.mem_range.1 hj
  have hsame := blockOf_congr (i := dp) h.blocks ((off + j) / bsize)
  have hne : blockOf s.onDisk dp ((off + j) / bsize) ≠ 0 := by
    rw [← hsame]
    refine h.good.filled dp hty _ ?_
    have : (off + j) / 512 * 512 ≤ off + j := Nat.div_mul_le_self _ _
    rw [h.size]
    unfold bsize
    omega
  have hplace := blockOf_place hne
  have hdata := h.data _ (place_inum _ _) (hplace ▸ hne)
  unfold State.byteAt
  rw [hsame, hplace, hdata]

theorem Alone.lookup (h : Alone s dp t) (hd : IsDir s dp) (name : Name) : t.lookup dp name = s.lookup dp name := by
  have hfind : (offsets (s.dinode dp).size).find? (fun off =>
      decide ((t.direntAt dp off).inum ≠ 0) && nameEq name (t.direntAt dp off).name) =
      (offsets (s.dinode dp).size).find? fun off =>
        decide ((s.direntAt dp off).inum ≠ 0) && nameEq name (s.direntAt dp off).name :=
    List.find?_congr fun off hoff => by rw [h.direntAt hd hoff]
  unfold State.lookup
  rw [h.size, hfind]
  cases hf : (offsets (s.dinode dp).size).find? fun off =>
      decide ((s.direntAt dp off).inum ≠ 0) && nameEq name (s.direntAt dp off).name with
  | none => rfl
  | some off =>
    rw [Option.map_some, Option.map_some, h.direntAt hd (List.mem_of_find?_eq_some hf)]

theorem Alone.dirlink (h : Alone s dp t) (hd : IsDir s dp) (hf : s.lookup dp name = none) (hfull : Full s dp) (inum : Nat) :
    dirlink dp name inum t = ⟨.error (.panic "dirlink"), t, []⟩ := by
  refine dirlink_full h.good h.held (h.isDir hd) ((h.lookup hd name).trans hf) ⟨h.size ▸ hfull.size, fun off hoff => ?_⟩ inum
  rw [h.size] at hoff
  rw [h.direntAt hd hoff]
  exact hfull.used off hoff

theorem relink_alone (h : Good t) (hl : (t.inode i).locked = true) (hd : (t.inode dp).locked = true) {d : Dinode}
    (hty : d.type = (t.ip i).type) (hsz : d.size = (t.ip i).size) (ha : d.addrs = (t.ip i).addrs) :
    wp (iupdate i) (fun _ x => Alone t dp x ∧ x = (t.setIp i d).setDinode i d)
      (fun _ => t.outstanding < 1) (t.setIp i d) := by
  have hip := (h.ip hl).1
  have hwrite : wp (iupdate i) (fun _ x => x = (t.setIp i d).setDinode i d) (fun _ => t.outstanding < 1) (t.setIp i d) :=
    (iupdate_wpt rfl).wp (fun _ _ _ hx => by rw [hx.1, ip_setIp]) fun e he => he.2
  refine (hwrite.and (relink_wp h hl hty hsz ha)).imp fun _ x hx => ?_
  obtain ⟨rfl, hg, hon⟩ := hx
  rw [hip] at hty hsz
  refine ⟨⟨hg, ?_, ?_, ?_, fun p _ => congrFun hon p, fun _ _ _ => rfl⟩, rfl⟩
  · by_cases hdp : dp = i
    · subst hdp
      exact (congrArg Inode.locked (setInode_self _)).trans hd
    · exact (congrArg Inode.locked (setInode_of_ne hdp _)).trans hd
  · rw [setDinode_dinode, Function.update_apply]
    split
    · rename_i hdp
      rw [hdp, hty]
    · rfl
  · rw [setDinode_dinode, Function.update_apply]
    split
    · rename_i hdp
      rw [hdp, hsz]
    · rfl

theorem dirlink_untouched (h : Good t) (hl : (t.inode i).locked = true) (hne : dp ≠ i) (name : Name) (inum : Nat) :
    wp (dirlink i name inum) (fun _ x => Good x ∧ Untouched dp t x) (fun _ => True) t := by
  have hscan : ∀ test l, wp (scan i "dirlookup read" test l) (fun _ x => x = t) (fun _ => True) t := fun test l =>
    (scan_pure h hl (by simp [Harmless]) test l).good.mono (fun _ _ hx => hx) fun _ _ => trivial
  have hscan' : ∀ test l, wp (scan i "dirlink read" test l) (fun _ x => x = t) (fun _ => True) t := fun test l =>
    (scan_pure h hl (by simp [Harmless]) test l).good.mono (fun _ _ hx => hx) fun _ _ => trivial
  unfold dirlink dirlookup
  rw [wp_bind, wp_bind, wp_read]
  refine Prog.wp_ite (fun _ => trivial) fun _ => ?_
  rw [wp_bind]
  refine (hscan _ _).imp fun r x hx => ?_
  subst hx
  cases r with
  | none =>
    unfold addDirent
    rw [wp_pure, wp_bind, wp_read, wp_bind]
    refine (hscan' _ _).imp fun r y hy => ?_
    subst hy
    rw [wp_bind]
    refine (writei_wp h hl _ _ _).mono (fun n y hy => ?_) fun _ _ => trivial
    exact Prog.wp_ite (fun _ => trivial) fun _ => ⟨hy.1, hy.2.2 dp hne⟩
  | some e =>
    obtain ⟨off, de⟩ := e
    have hget := iget_run x de.inum.toNat
    rw [wp_bind]
    split at hget
    · rename_i hg
      have hgot := got_same h hg
      refine Prog.wp_of_run hget ?_
      rw [wp_pure, wp_bind]
      by_cases hlj : ((x.got de.inum.toNat).inode de.inum.toNat).locked = true
      · exact Prog.wp_of_stop (iput_asleep hlj) trivial
      · have hlj := Bool.eq_false_iff.2 hlj
        have hsame := hgot.trans (dropRef_same hgot.good hlj (got_kept x _))
        exact Prog.wp_of_run (iput_run hlj (got_kept x _)) ⟨hsame.good, hsame.untouched dp⟩
    · exact Prog.wp_of_stop hget trivial

theorem dots_alone (h : Good t) (hl : (t.inode i).locked = true) (hd : (t.inode dp).locked = true) (hne : dp ≠ i) :
    wp (dots dp i) (fun _ x => Alone t dp x) (fun _ => True) t := by
  unfold dots relink
  rw [wp_bind, wp_bind, wp_modify]
  have hwrite := relink_alone (d := { t.ip dp with nlink := (t.ip dp).nlink + 1 }) h hd hd rfl rfl rfl
  refine (hwrite.and ((iupdate_still dp).wp _)).mono (fun _ u hu => ?_) fun _ _ => trivial
  obtain ⟨⟨hu, -⟩, hua⟩ := hu
  rw [setIp_acct] at hua
  have hlu := acct_locked hua rfl hl
  rw [wp_bind]
  refine ((dirlink_untouched hu.good hlu hne dot i).and ((dirlink_still i dot i).wp u)).imp fun _ v hv => ?_
  obtain ⟨⟨hgv, hv⟩, hva⟩ := hv
  refine Prog.wp_ite (fun _ => trivial) fun _ => ?_
  rw [wp_bind]
  refine ((dirlink_untouched hgv (acct_locked hva rfl hlu) hne dotDot dp).and ((dirlink_still i dotDot dp).wp v)).imp
    fun _ x hx => ?_
  obtain ⟨⟨hgx, hx⟩, hxa⟩ := hx
  have hdv := acct_locked hva rfl hu.held
  exact Prog.wp_ite (fun _ => trivial) fun _ => (hu.trans (hv.alone hgv hdv)).trans (hx.alone hgx (acct_locked hxa rfl hdv))

/-- Why a new inode cannot be made: there is none, the cache is full, or no transaction is open. -/
def Short (s : State) : Prop := s.freeInode = none ∨ ninode ≤ s.cached ∨ s.outstanding < 1

theorem got_rest (s : State) (i : Nat) :
    (s.got i).dinode = s.dinode ∧ (s.got i).data = s.data ∧ (s.got i).outstanding = s.outstanding := by
  unfold State.got
  split <;> exact ⟨rfl, rfl, rfl⟩

/-- **A new inode**: it was free, and only it is changed. -/
theorem ialloc_new (h : Good u) (hr : ∀ i, 0 ≤ u.refs i) (type : FileType) : wp (ialloc type) (fun i t => Good t ∧
      (u.dinode i).type = .free ∧ 0 < t.refs i ∧ (t.dinode i).type = type ∧ t.data = u.data ∧ t.outstanding = u.outstanding ∧
      t.locks = u.locks ∧ ∀ j, j ≠ i → t.dinode j = u.dinode j)
    (fun _ => Short u) u := by
  have hnew : wp (ialloc type) (fun i t => (u.dinode i).type = .free ∧ 0 < t.refs i ∧ (t.dinode i).type = type ∧
      t.data = u.data ∧ t.outstanding = u.outstanding ∧ t.locks = u.locks ∧ ∀ j, j ≠ i → t.dinode j = u.dinode j)
      (fun _ => Short u) u := by
    unfold ialloc
    rw [wp_bind, wp_read]
    cases hi : u.freeInode with
    | none => exact .inl hi
    | some i =>
      have hfree : (u.dinode i).type = .free := by
        unfold State.freeInode at hi
        simpa using List.find?_some hi
      unfold logWrite
      rw [wp_bind, wp_modify, wp_bind, wp_bind, wp_read]
      refine Prog.wp_ite (fun ho => .inr (.inr ho)) fun _ => ?_
      rw [Prog.wp_emit]
      generalize hw : u.setDinode i { Dinode.zero with type := type } = w
      have hrefs : w.refs = u.refs := hw ▸ rfl
      have hrun := iget_run w i
      split at hrun
      · have hacct := (iget_moves i).of_run hrun
        obtain ⟨hdinode, hdata, hout⟩ := got_rest w i
        refine Prog.wp_of_run hrun ⟨hfree, ?_, ?_, hdata.trans (hw ▸ rfl), hout.trans (hw ▸ rfl), ?_, fun j hj => ?_⟩
        · have := hr i
          rw [acct_refs hacct, hrefs]
          simp only [Files.ref, Pi.add_apply, Pi.single_eq_same]
          omega
        · rw [hdinode, ← hw, setDinode_dinode, Function.update_self]
        · rw [acct_locks hacct]
          exact (add_zero _).trans (hw ▸ rfl)
        · rw [hdinode, ← hw, setDinode_dinode, Function.update_of_ne hj]
      · rename_i hfull
        refine Prog.wp_of_stop hrun (.inr (.inl ?_))
        have hc : w.cached = u.cached := hw ▸ rfl
        exact hc ▸ Nat.not_lt.1 (not_or.1 hfull).2
  exact (hnew.and (ialloc_wp h type)).imp fun i t ht => ⟨ht.2, ht.1⟩

/-- **`create` of a name that is not there never comes back from a full directory.** -/
theorem createNew_full (h : Alone s dp u) (hr : ∀ i, 0 ≤ u.refs i) (hl : ∀ i, i ≠ dp → (u.inode i).locked = false)
    (hd : IsDir s dp) (hf : s.lookup dp name = none) (hfull : Full s dp) {type : FileType} (hty : type ≠ .free)
    (major minor : BitVec 16) : wp (createNew dp name type major minor) (fun _ _ => False)
      (fun e => type ≠ .dir → e = .panic "dirlink" ∨ Short u) u := by
  unfold createNew
  rw [wp_bind]
  refine (ialloc_new h.good hr type).mono (fun i t ht => ?_) fun _ he _ => .inr he
  obtain ⟨hgood, hfree, href, htype, hdata, hout, hlocks, hother⟩ := ht
  have hne : dp ≠ i := by
    rintro rfl
    exact (h.good.ip h.held).2 hfree
  have hheld : (t.inode dp).locked = true := by
    rw [locked_iff, hlocks, ← locked_iff]
    exact h.held
  have hli : (t.inode i).locked = false := by
    rw [← Bool.not_eq_true, locked_iff, hlocks, ← locked_iff, hl i (Ne.symm hne)]
    decide
  have hut : Untouched dp u t :=
    ⟨hother dp hne, fun p hp => onDisk_of_dinode (hother dp hne) hdata hp, fun p _ _ => by rw [hdata]⟩
  obtain ⟨v, hlock, hsame, hlv, -⟩ := ilock_run hgood href hli (htype ▸ hty)
  have hacct := (ilock_moves i).of_run hlock
  have hdv := acct_locked hacct (by simp [lck, hne]) hheld
  have hv := (h.trans (hut.alone hgood hheld)).trans ((hsame.untouched dp).alone hsame.good hdv)
  have hvo : v.outstanding = u.outstanding := (acct_outstanding hacct).trans ((add_zero _).trans hout)
  rw [wp_bind]
  refine Prog.wp_of_run hlock ?_
  rw [wp_bind, wp_modify, wp_bind]
  have hwrite := relink_alone (d := { v.ip i with major := major, minor := minor, nlink := 1 }) hv.good hlv hdv rfl rfl rfl
  refine (hwrite.and ((iupdate_still i).wp _)).mono (fun _ x hx => ?_) fun _ he _ => .inr (.inr (.inr (hvo ▸ he)))
  obtain ⟨⟨hx, -⟩, hxa⟩ := hx
  rw [setIp_acct] at hxa
  have hdots : wp (Prog.when (type = .dir) (dots dp i)) (fun _ y => Alone x dp y) (fun _ => type = .dir) x :=
    Prog.wp_when (fun htype => (dots_alone hx.good (acct_locked hxa rfl hlv) hx.held hne).mono (fun _ _ hy => hy)
      fun _ _ => htype) fun _ => (SameDisk.refl hx.good).untouched dp |>.alone hx.good hx.held
  rw [wp_bind]
  refine hdots.mono (fun _ y hy => ?_) fun _ he hty => absurd he hty
  rw [wp_bind]
  exact Prog.wp_of_stop (((hv.trans hx).trans hy).dirlink hd hf hfull i) fun _ => .inl rfl

/-! ## `create` -/

theorem createFound_wp (hs : Tree s) (hv : Holds s (some j) v) (hty : (s.dinode j).type ≠ .free) {w : State}
    (hput : iunlockput dp w = ⟨.ok (), v, []⟩) (type : FileType) : wp (createFound dp j type) (fun r x =>
      if type = .file ∧ (s.dinode j).type = .file then r = some j ∧ Inside s j x else r = none ∧ Holds s none x)
      (fun _ => False) w := by
  obtain ⟨x, hlock, hx⟩ := hv.enter hs hty
  have hip : x.ip j = s.dinode j := by
    rw [(hx.same.good.ip (hx.held hs)).1, hx.same.dinode]
  unfold createFound
  rw [wp_bind]
  refine Prog.wp_of_run hput ?_
  rw [wp_bind]
  refine Prog.wp_of_run hlock ?_
  rw [wp_bind, wp_read, hip]
  split_ifs with hc
  · exact ⟨rfl, hx⟩
  · obtain ⟨y, hleave, hy⟩ := hx.leave hs
    rw [wp_bind]
    exact Prog.wp_of_run hleave ⟨rfl, hy⟩

/-- Why a name that is not there may not even come to `dirlink`: the cache is too small for the path or for the new
inode, all inodes are used, or no transaction is open. -/
def Scarce (s : State) (p : Nat) (path : Path) (dp : Nat) : Prop :=
  ¬ Enough s p path (components path).dropLast ∨ s.freeInode = none ∨ ninode ≤ s.cached + s.entries (some dp) ∨
    s.outstanding < 1

theorem Inside.refs_nonneg (h : Inside s i u) (hs : Tree s) (j : Nat) : 0 ≤ u.refs j := by
  have hj := hs.refs j
  have hg := given_nonneg (some i) j
  rw [h.refs, Pi.add_apply]
  omega

theorem Inside.free (h : Inside s i u) (hs : Tree s) (hj : j ≠ i) : (u.inode j).locked = false := by
  rw [← Bool.not_eq_true, locked_iff, h.locks, hs.locks, zero_add, Pi.single_eq_of_ne hj]
  exact zero_ne_one

theorem Inside.alone (h : Inside s i u) (hs : Tree s) : Alone s i u :=
  (h.same.untouched i).alone h.same.good (h.held hs)

/-- **`create` in a full directory** gives back a file that is there, and nothing where the name is there otherwise. -/
theorem create_wp (h : Calm s p) (hp : s.parent (s.origin p path) (components path) = some (dp, name)) (hfull : Full s dp)
    {type : FileType} (hty : type ≠ .free) (major minor : BitVec 16) : wp (create p path type major minor)
      (fun r x => ∃ j, There s p path dp name j ∧
        if type = .file ∧ (s.dinode j).type = .file then r = some j ∧ Inside s j x else r = none ∧ Holds s none x)
      (fun e => (∀ j, ¬ There s p path dp name j) ∧
        (s.lookup dp name = none → type ≠ .dir → e = .panic "dirlink" ∨ Scarce s p path dp)) s := by
  have hs := h.tree
  have hd := parent_dir hp
  unfold create
  rw [wp_bind]
  refine ((nameiparent_wp hs h.cwd h.cwdDir path).and ((nameiparent_moves p path).wp s)).mono (fun r t ht => ?_) fun e he =>
    ⟨fun j hj => he.1 hj.1, fun _ _ => .inr (.inl he.1)⟩
  obtain ⟨⟨hroom, rfl, ht⟩, hta⟩ := ht
  rw [hp] at ht hta ⊢
  obtain ⟨u, hlock, hu⟩ := ht.enter hs (by rw [hd]; decide)
  have hacct := (ilock_moves dp).of_run hlock
  have hrun := dirlookup_run hu.same.good (hu.held hs) (hu.same.isDir (hs.isDir hd)) name
  rw [hu.same.lookup] at hrun
  dsimp only
  rw [wp_bind]
  refine Prog.wp_of_run hlock ?_
  rw [wp_bind]
  cases hf : s.lookup dp name with
  | none =>
    rw [hf] at hrun
    have hnot : ∀ j, ¬ There s p path dp name j := fun j hj => there_absent hf ⟨j, hj⟩
    have hout : u.outstanding = s.outstanding :=
      (acct_outstanding hacct).trans ((add_zero _).trans ((acct_outstanding hta).trans (add_zero _)))
    have hfree : u.freeInode = s.freeInode := by
      unfold State.freeInode
      rw [hu.same.dinode]
    have hnew := createNew_full (hu.alone hs) (hu.refs_nonneg hs) (fun i hi => hu.free hs hi) (hs.isDir hd) hf hfull hty
      major minor
    refine Prog.wp_of_run hrun (hnew.mono (fun _ _ hx => hx.elim) fun e he => ⟨hnot, fun _ hdir => ?_⟩)
    refine (he hdir).imp_right fun hshort => ?_
    unfold Short at hshort
    rw [hfree, hu.cached, hout] at hshort
    exact .inr hshort
  | some e =>
    obtain ⟨j, off⟩ := e
    rw [hf] at hrun
    by_cases hfit : Fits s dp j
    · obtain ⟨w, v, hget, hput, hv⟩ := hu.next hs hfit
      refine Prog.wp_of_run (hrun.trans (Prog.bind_run_nil hget)) ?_
      exact (createFound_wp hs hv (hs.named dp hd name j off hf) hput type).mono
        (fun r x hx => ⟨j, ⟨hroom, ⟨off, hf⟩, hfit⟩, hx⟩) fun _ h => h.elim
    · have hget := iget_run u j
      rw [if_neg fun h => hfit ((hu.gettable hs j).1 h)] at hget
      refine Prog.wp_of_stop (hrun.trans (Prog.bind_run_error hget)) ⟨fun k hk => ?_, fun hn => by cases hn⟩
      obtain ⟨-, ⟨off', hoff⟩, hfit'⟩ := hk
      rw [hf] at hoff
      cases hoff
      exact hfit hfit'

end Files
end Xv6
