import Xv6.Files.Trunc
import Xv6.Files.Read
import Xv6.Files.Calls
/-!
# Files.Keep — the calls keep the file system

Directories, paths and calls keep what `Good` says.  Which locks are held on the way is read off the accounts.
-/
namespace Xv6
namespace Files

open Prog (Moves Still wp wp_bind wp_read wp_modify wp_pure)

variable {α : Type} {s t : State} {i : Nat}

theorem acct_locked {δ : Acct} (h : t.acct = s.acct + δ) (hδ : δ.2.1 i = 0) (hl : (s.inode i).locked = true) :
    (t.inode i).locked = true := by
  have := congrFun (acct_locks h) i
  rw [Pi.add_apply, hδ] at this
  by_contra hn
  simp [State.locks, hn, hl] at this

theorem acct_ne {δ : Acct} {j : Nat} (h : t.acct = s.acct + δ) (hδ : 0 < δ.2.1 j) (hl : (s.inode i).locked = true) :
    i ≠ j := by
  rintro rfl
  have := congrFun (acct_locks h) i
  simp only [State.locks, Pi.add_apply, hl, if_true] at this
  split_ifs at this <;> omega

theorem with_acct {c : F α} {δ : α → Acct} (hc : wp c (fun _ t => Good t) NotFreeing s) (hm : Moves State.acct c δ) :
    wp c (fun a t => Good t ∧ t.acct = s.acct + δ a) NotFreeing s := hc.and (hm.wp s)

theorem Harmless.notFreeing {e : Stop} (h : Harmless e) : NotFreeing e := h.1

theorem Pure.good {c : F α} (h : Pure c s) : Prog.wp c (fun _ t => t = s) NotFreeing s :=
  h.wp.mono (fun _ _ ht => ht.1) fun _ => Harmless.notFreeing

theorem AsleepOr.notFreeing {o : Int} {e : Stop} (h : AsleepOr o e) : NotFreeing e := by
  rcases h with rfl | ⟨rfl, -⟩ <;> simp [NotFreeing]

/-! ## Inodes -/

theorem iput_good (h : Good s) (i : Nat) : wp (iput i) (fun _ t => Good t) NotFreeing s :=
  (iput_wpt h rfl).wp (fun _ _ _ ht => ht.1.good) fun _ => AsleepOr.notFreeing

theorem iunlock_good (h : Good s) (i : Nat) : wp (iunlock i) (fun _ t => Good t) NotFreeing s :=
  (iunlock_wp h).imp fun _ _ ht => ht.1

theorem iunlockput_good (h : Good s) (i : Nat) : wp (iunlockput i) (fun _ t => Good t) NotFreeing s :=
  Prog.wp_bind.2 ((iunlock_good h i).imp fun _ _ ht => iput_good ht i)

theorem relink_good (h : Good s) (hl : (s.inode i).locked = true) (k : BitVec 16) :
    wp (relink i k) (fun _ t => Good t) NotFreeing s :=
  Prog.wp_bind.2 ((relink_wp (d := { s.ip i with nlink := (s.ip i).nlink + k }) h hl rfl rfl rfl).imp fun _ _ ht => ht.1)

theorem endOp_good (h : Good s) : wp endOp (fun _ t => Good t) NotFreeing s := h.counts s.cached _

theorem beginOp_good (h : Good s) : wp beginOp (fun _ t => Good t) NotFreeing s := h.counts s.cached _

theorem fails_good (h : Good s) : wp fails (fun _ t => Good t) NotFreeing s :=
  Prog.wp_bind.2 ((endOp_good h).imp fun _ _ ht => ht)

theorem iunlockput_fails (h : Good s) (i : Nat) :
    wp (do iunlockput i; fails) (fun _ t => Good t) NotFreeing s :=
  Prog.wp_bind.2 ((iunlockput_good h i).imp fun _ _ ht => fails_good ht)

/-! ## Directories -/

theorem dirlookup_good (h : Good s) (hl : (s.inode i).locked = true) (name : Name) :
    wp (dirlookup i name) (fun _ t => Good t) NotFreeing s := by
  unfold dirlookup
  rw [wp_bind, wp_read]
  refine Prog.wp_ite (fun _ => by simp [NotFreeing]) fun _ => ?_
  have hm : Harmless (.panic "dirlookup read") := by simp [Harmless]
  rw [wp_bind]
  refine (scan_pure h hl hm _ _).good.imp fun r t ht => ?_
  subst ht
  cases r with
  | none => exact h
  | some r => exact Prog.wp_bind.2 ((iget_wp h).imp fun _ _ ht => ht.2)

theorem addDirent_good (h : Good s) (hl : (s.inode i).locked = true) (name : Name) (inum : Nat) :
    wp (addDirent i name inum) (fun _ t => Good t) NotFreeing s := by
  unfold addDirent
  have hm : Harmless (.panic "dirlink read") := by simp [Harmless]
  rw [wp_bind, wp_read, wp_bind]
  refine (scan_pure h hl hm _ _).good.imp fun r t ht => ?_
  subst ht
  rw [wp_bind]
  refine (writei_wp h hl _ _ _).imp fun r t ht => ?_
  exact Prog.wp_ite (fun _ => by simp [NotFreeing]) fun _ => ht.1

theorem dirlink_good (h : Good s) (hl : (s.inode i).locked = true) (name : Name) (inum : Nat) :
    wp (dirlink i name inum) (fun _ t => Good t) NotFreeing s := by
  unfold dirlink
  rw [wp_bind]
  refine (with_acct (dirlookup_good h hl name) (dirlookup_moves i name)).imp fun r t ⟨hg, ht⟩ => ?_
  cases r with
  | none => exact addDirent_good hg (acct_locked ht rfl hl) name inum
  | some r => exact Prog.wp_bind.2 ((iput_good hg r.1).imp fun _ _ hu => hu)

/-! ## Paths -/

theorem walk_good (h : Good s) (parent : Bool) (ip : Nat) (rest : Path) (name : Name) :
    wp (walk parent ip rest name) (fun _ t => Good t) NotFreeing s := by
  unfold walk
  rw [wp_bind]
  refine (ilock_wp h).imp fun _ t ⟨hg, hl, _⟩ => ?_
  rw [wp_bind, wp_read]
  refine Prog.wp_ite (fun _ => ?_) fun _ => Prog.wp_ite (fun _ => ?_) fun _ => ?_
  · exact Prog.wp_bind.2 ((iunlockput_good hg ip).imp fun _ _ hu => hu)
  · exact Prog.wp_bind.2 ((iunlock_good hg ip).imp fun _ _ hu => hu)
  · rw [wp_bind]
    refine (dirlookup_good hg hl name).imp fun r u hu => ?_
    cases r with
    | none => exact Prog.wp_bind.2 ((iunlockput_good hu ip).imp fun _ _ hv => hv)
    | some r => exact Prog.wp_bind.2 ((iunlockput_good hu ip).imp fun _ _ hv => hv)

theorem namexLoop_good (parent : Bool) : ∀ (k ip : Nat) (path : Path) (name : Name) (s : State), Good s →
    wp (namexLoop parent k ip path name) (fun _ t => Good t) NotFreeing s
  | 0, _, _, _, _, h => h
  | k + 1, ip, path, name, s, h => by
    unfold namexLoop
    cases skipelem path with
    | none => exact Prog.wp_ite (fun _ => Prog.wp_bind.2 ((iput_good h ip).imp fun _ _ ht => ht)) fun _ => h
    | some e =>
      refine Prog.wp_bind.2 ((walk_good h parent ip e.1 e.2).imp fun w t ht => ?_)
      cases w with
      | stop r => cases r <;> exact ht
      | next i => exact namexLoop_good parent k i e.1 e.2 t ht

theorem namex_good (h : Good s) {p : Nat} (hr : 0 < s.refs (s.cwd p)) (path : Path) (parent : Bool) :
    wp (namex p path parent) (fun _ t => Good t) NotFreeing s := by
  unfold namex start
  rw [wp_bind, wp_bind, wp_read]
  refine Prog.wp_ite (fun _ => ?_) fun _ => ?_
  · exact (iget_wp h).imp fun ip t ht => namexLoop_good parent _ ip path [] t ht.2
  · exact (idup_wp h hr).imp fun ip t ht => namexLoop_good parent _ ip path [] t ht.2

theorem namei_good (h : Good s) {p : Nat} (hr : 0 < s.refs (s.cwd p)) (path : Path) :
    wp (namei p path) (fun _ t => Good t) NotFreeing s := by
  unfold namei
  rw [wp_bind]
  refine (namex_good h hr path false).imp fun r t ht => ?_
  cases r with
  | none => exact ht
  | some r => exact ht

theorem nameiparent_good (h : Good s) {p : Nat} (hr : 0 < s.refs (s.cwd p)) (path : Path) :
    wp (nameiparent p path) (fun _ t => Good t) NotFreeing s := namex_good h hr path true

theorem acct_cwd {δ : Acct} {p : Nat} (h : t.acct = s.acct + δ) (h0 : δ.2.2.2 = 0) (hδ : ∀ j, 0 ≤ δ.1 j)
    (hr : 0 < s.refs (s.cwd p)) : 0 < t.refs (t.cwd p) := by
  have hcwd : t.cwd = s.cwd := congrArg (fun a : Tables => a.2.2) (acct_tables h h0)
  rw [hcwd, acct_refs h, Pi.add_apply]
  have := hδ (s.cwd p)
  omega

theorem handed_nonneg (r : Option Nat) (j : Nat) : 0 ≤ (handed r).1 j := by
  cases r with
  | none => exact Int.le_refl 0
  | some i =>
    simp only [handed, ref, Pi.single_apply]
    split_ifs <;> decide

theorem handed_tables (r : Option Nat) : (handed r).2.2.2 = 0 := by
  cases r <;> rfl

/-! ## Links -/

theorem unlinked_good (h : Good s) (ip : Nat) : wp (unlinked ip) (fun _ t => Good t) NotFreeing s := by
  unfold unlinked
  rw [wp_bind]
  refine (ilock_wp h).imp fun _ t ⟨hg, hl, _⟩ => ?_
  rw [wp_bind]
  refine (relink_good hg hl _).imp fun _ u hu => ?_
  exact Prog.wp_bind.2 ((iunlockput_good hu ip).imp fun _ _ hv => fails_good hv)

theorem linkAt_good (h : Good s) (dp : Nat) (name : Name) (ip : Nat) :
    wp (linkAt dp name ip) (fun _ t => Good t) NotFreeing s := by
  unfold linkAt
  rw [wp_bind]
  refine (ilock_wp h).imp fun _ t ⟨hg, hl, _⟩ => ?_
  rw [wp_bind]
  refine (dirlink_good hg hl name ip).imp fun _ u hu => ?_
  refine Prog.wp_ite (fun _ => ?_) fun _ => ?_
  · exact Prog.wp_bind.2 ((iunlockput_good hu dp).imp fun _ _ hv => unlinked_good hv ip)
  · rw [wp_bind]
    refine (iunlockput_good hu dp).imp fun _ v hv => ?_
    rw [wp_bind]
    refine (iput_good hv ip).imp fun _ w hw => ?_
    exact Prog.wp_bind.2 ((endOp_good hw).imp fun _ _ hx => hx)

theorem linkTo_good (h : Good s) {p ip : Nat} (hl : (s.inode ip).locked = true) (hr : 0 < s.refs (s.cwd p)) (new : Path) :
    wp (linkTo p ip new) (fun _ t => Good t) NotFreeing s := by
  unfold linkTo
  rw [wp_bind, wp_read]
  refine Prog.wp_ite (fun _ => iunlockput_fails h ip) fun _ => ?_
  rw [wp_bind]
  refine (with_acct (relink_good h hl 1) (relink_still ip 1)).imp fun _ t ⟨ht, hta⟩ => ?_
  rw [wp_bind]
  refine (with_acct (iunlock_good ht ip) (iunlock_moves ip)).imp fun _ u ⟨hu, hua⟩ => ?_
  have hus : u.acct = s.acct + (- lck ip) := by rw [hua, hta, add_zero]
  rw [wp_bind]
  refine (nameiparent_good hu (acct_cwd hus (by simp [lck]) (by simp [lck]) hr) new).imp fun r v hv => ?_
  cases r with
  | none => exact unlinked_good hv ip
  | some r => exact linkAt_good hv r.1 r.2 ip

theorem sysLink_good (h : Good s) {p : Nat} (hr : 0 < s.refs (s.cwd p)) (old new : Option Path) :
    wp (sysLink p old new) (fun _ t => Good t) NotFreeing s := by
  rcases old with _ | old
  · exact h
  rcases new with _ | new
  · exact h
  refine Prog.wp_bind.2 ((with_acct (beginOp_good h) beginOp_moves).imp fun _ t ht => ?_)
  have htr := acct_cwd ht.2 rfl (by simp [op]) hr
  rw [wp_bind]
  refine (with_acct (namei_good ht.1 htr old) (namei_moves p old)).imp fun r u hu => ?_
  cases r with
  | none => exact fails_good hu.1
  | some ip =>
    rw [wp_bind]
    have hur := acct_cwd hu.2 (handed_tables _) (handed_nonneg _) htr
    refine (((ilock_wp hu.1).and ((ilock_moves ip).wp u))).imp fun _ v hv => ?_
    exact linkTo_good hv.1.1 hv.1.2.1 (acct_cwd hv.2 rfl (by simp [lck]) hur) new

theorem unlinkBad_good (h : Good s) (dp : Nat) : wp (unlinkBad dp) (fun _ t => Good t) NotFreeing s :=
  iunlockput_fails h dp

theorem removeEntry_good (h : Good s) {dp ip : Nat} (hd : (s.inode dp).locked = true) (hi : (s.inode ip).locked = true)
    (hne : ip ≠ dp) (off : Nat) (dir : Bool) : wp (removeEntry dp off ip dir) (fun _ t => Good t) NotFreeing s := by
  have hkeep : ∀ j, (lck dp).2.1 j = if j = dp then 1 else 0 := fun j => Pi.single_apply dp 1 j
  unfold removeEntry
  rw [wp_bind]
  refine (((writei_wp h hd _ _ _).imp fun _ _ ht => ht.1).and ((writei_still dp _ _ _).wp s)).imp fun r t hrt => ?_
  obtain ⟨ht, hta⟩ := hrt
  refine Prog.wp_ite (fun _ => by simp [NotFreeing]) fun _ => ?_
  rw [wp_bind]
  have hwhen : wp (Prog.when (dir = true) (relink dp (-1))) (fun _ t => Good t) NotFreeing t :=
    Prog.wp_when (fun _ => relink_good ht (acct_locked hta rfl hd) _) fun _ => ht
  refine (with_acct hwhen (Still.when (relink_still dp _))).imp fun _ u hu' => ?_
  obtain ⟨hu, hua⟩ := hu'
  rw [wp_bind]
  refine (with_acct (iunlockput_good hu dp) (iunlockput_moves dp)).imp fun _ v hv' => ?_
  obtain ⟨hv, hva⟩ := hv'
  have hvs : v.acct = s.acct + (- lck dp - ref dp) := by
    rw [hva, hua, hta]
    abel
  have hlv := acct_locked hvs (by simp [lck, ref, hne]) hi
  rw [wp_bind]
  refine (relink_good hv hlv _).imp fun _ w hw => ?_
  exact Prog.wp_bind.2 ((iunlockput_good hw ip).imp fun _ _ hx => Prog.wp_bind.2 ((endOp_good hx).imp fun _ _ hy => hy))

theorem unlinkFound_good (h : Good s) {dp : Nat} (hd : (s.inode dp).locked = true) (off ip : Nat) :
    wp (unlinkFound dp off ip) (fun _ t => Good t) NotFreeing s := by
  unfold unlinkFound
  rw [wp_bind]
  refine ((ilock_wp h).and ((ilock_moves ip).wp s)).imp fun _ t ⟨⟨hg, hl, _⟩, hta⟩ => ?_
  have hne : dp ≠ ip := acct_ne hta (by simp [lck]) hd
  have hdt := acct_locked hta (by simp [lck, hne]) hd
  rw [wp_bind, wp_read]
  refine Prog.wp_ite (fun _ => by simp [NotFreeing]) fun _ => ?_
  rw [wp_bind]
  refine (removable_pure hg hl).good.imp fun r u hu => ?_
  subst hu
  refine Prog.wp_ite (fun _ => removeEntry_good hg hdt hl (Ne.symm hne) off _) fun _ => ?_
  exact Prog.wp_bind.2 ((iunlockput_good hg ip).imp fun _ _ hu => unlinkBad_good hu dp)

theorem unlinkIn_good (h : Good s) (dp : Nat) (name : Name) :
    wp (unlinkIn dp name) (fun _ t => Good t) NotFreeing s := by
  unfold unlinkIn
  rw [wp_bind]
  refine (ilock_wp h).imp fun _ t ⟨hg, hl, _⟩ => ?_
  refine Prog.wp_ite (fun _ => unlinkBad_good hg dp) fun _ => ?_
  rw [wp_bind]
  refine (with_acct (dirlookup_good hg hl name) (dirlookup_moves dp name)).imp fun r u ⟨hu, hua⟩ => ?_
  cases r with
  | none => exact unlinkBad_good hu dp
  | some r => exact unlinkFound_good hu (acct_locked hua rfl hl) r.2 r.1

theorem sysUnlink_good (h : Good s) {p : Nat} (hr : 0 < s.refs (s.cwd p)) (path : Option Path) :
    wp (sysUnlink p path) (fun _ t => Good t) NotFreeing s := by
  cases path with
  | none => exact h
  | some path =>
    refine Prog.wp_bind.2 ((with_acct (beginOp_good h) beginOp_moves).imp fun _ t ⟨ht, hta⟩ => ?_)
    rw [wp_bind]
    refine (nameiparent_good ht (acct_cwd hta rfl (by simp [op]) hr) path).imp fun r u hu => ?_
    cases r with
    | none => exact fails_good hu
    | some r => exact unlinkIn_good hu r.1 r.2

/-! ## New inodes -/

theorem createFound_good (h : Good s) (dp ip : Nat) (type : FileType) :
    wp (createFound dp ip type) (fun _ t => Good t) NotFreeing s := by
  unfold createFound
  rw [wp_bind]
  refine (iunlockput_good h dp).imp fun _ t ht => ?_
  rw [wp_bind]
  refine (ilock_wp ht).imp fun _ u ⟨hu, _, _⟩ => ?_
  rw [wp_bind, wp_read]
  exact Prog.wp_ite (fun _ => hu) fun _ => Prog.wp_bind.2 ((iunlockput_good hu ip).imp fun _ _ hv => hv)

theorem dots_good (h : Good s) {dp ip : Nat} (hd : (s.inode dp).locked = true) (hi : (s.inode ip).locked = true) :
    wp (dots dp ip) (fun _ t => Good t) NotFreeing s := by
  unfold dots
  rw [wp_bind]
  refine (with_acct (relink_good h hd 1) (relink_still dp 1)).imp fun _ t ⟨ht, hta⟩ => ?_
  have hit := acct_locked hta rfl hi
  rw [wp_bind]
  refine (with_acct (dirlink_good ht hit dot ip) (dirlink_still ip dot ip)).imp fun r u ⟨hu, hua⟩ => ?_
  refine Prog.wp_ite (fun _ => by simp [NotFreeing]) fun _ => ?_
  rw [wp_bind]
  refine (dirlink_good hu (acct_locked hua rfl hit) dotDot dp).imp fun r v hv => ?_
  exact Prog.wp_ite (fun _ => by simp [NotFreeing]) fun _ => hv

theorem createNew_good (h : Good s) {dp : Nat} (hd : (s.inode dp).locked = true) (name : Name) (type : FileType)
    (major minor : BitVec 16) : wp (createNew dp name type major minor) (fun _ t => Good t) NotFreeing s := by
  unfold createNew
  rw [wp_bind]
  refine (with_acct (ialloc_wp h type) (ialloc_moves type)).imp fun ip t ht' => ?_
  obtain ⟨ht, hta⟩ := ht'
  have hdt := acct_locked hta rfl hd
  rw [wp_bind]
  refine ((ilock_wp ht).and ((ilock_moves ip).wp t)).imp fun _ u hu' => ?_
  obtain ⟨⟨hu, hl, -⟩, hua⟩ := hu'
  have hne : dp ≠ ip := acct_ne hua (by simp [lck]) hdt
  have hdu := acct_locked hua (by simp [lck, hne]) hdt
  rw [wp_bind, wp_modify, wp_bind]
  refine ((relink_wp (d := { u.ip ip with major := major, minor := minor, nlink := 1 }) hu hl rfl rfl rfl).and
    ((iupdate_still ip).wp _)).imp fun _ v hv' => ?_
  obtain ⟨⟨hv, -⟩, hva⟩ := hv'
  rw [setIp_acct] at hva
  have hlv := acct_locked hva rfl hl
  have hdv := acct_locked hva rfl hdu
  rw [wp_bind]
  have hdots : wp (Prog.when (type = .dir) (dots dp ip)) (fun _ t => Good t) NotFreeing v :=
    Prog.wp_when (fun _ => dots_good hv hdv hlv) fun _ => hv
  refine (with_acct hdots (Still.when (dots_still dp ip))).imp fun _ w hw' => ?_
  obtain ⟨hw, hwa⟩ := hw'
  rw [wp_bind]
  refine (dirlink_good hw (acct_locked hwa rfl hdv) name ip).imp fun r x hx => ?_
  refine Prog.wp_ite (fun _ => by simp [NotFreeing]) fun _ => ?_
  exact Prog.wp_bind.2 ((iunlockput_good hx dp).imp fun _ _ hy => hy)

theorem create_good (h : Good s) {p : Nat} (hr : 0 < s.refs (s.cwd p)) (path : Path) (type : FileType)
    (major minor : BitVec 16) : wp (create p path type major minor) (fun _ t => Good t) NotFreeing s := by
  unfold create
  rw [wp_bind]
  refine (nameiparent_good h hr path).imp fun r t ht => ?_
  cases r with
  | none => exact ht
  | some r =>
    refine Prog.wp_bind.2 ((ilock_wp ht).imp fun _ u ⟨hu, hl, _⟩ => ?_)
    rw [wp_bind]
    refine (with_acct (dirlookup_good hu hl r.2) (dirlookup_moves r.1 r.2)).imp fun q v ⟨hv, hva⟩ => ?_
    cases q with
    | none => exact createNew_good hv (acct_locked hva rfl hl) r.2 type major minor
    | some q => exact createFound_good hv r.1 q.1 type

/-! ## The calls -/

theorem make_good (h : Good s) {p : Nat} (hr : 0 < s.refs (s.cwd p)) (path : Path) (type : FileType)
    (major minor : BitVec 16) : wp (make p path type major minor) (fun _ t => Good t) NotFreeing s := by
  unfold make
  rw [wp_bind]
  refine (create_good h hr path type major minor).imp fun r t ht => ?_
  cases r with
  | none => exact fails_good ht
  | some ip => exact Prog.wp_bind.2 ((iunlockput_good ht ip).imp fun _ _ hu =>
      Prog.wp_bind.2 ((endOp_good hu).imp fun _ _ hv => hv))

theorem sysMkdir_good (h : Good s) {p : Nat} (hr : 0 < s.refs (s.cwd p)) (path : Option Path) :
    wp (sysMkdir p path) (fun _ t => Good t) NotFreeing s := by
  unfold sysMkdir
  rw [wp_bind]
  refine (with_acct (beginOp_good h) beginOp_moves).imp fun _ t ⟨ht, hta⟩ => ?_
  cases path with
  | none => exact fails_good ht
  | some path => exact make_good ht (acct_cwd hta rfl (by simp [op]) hr) path .dir 0 0

theorem sysMknod_good (h : Good s) {p : Nat} (hr : 0 < s.refs (s.cwd p)) (path : Option Path)
    (major minor : Option (BitVec 32)) : wp (sysMknod p path major minor) (fun _ t => Good t) NotFreeing s := by
  unfold sysMknod
  rw [wp_bind]
  refine (with_acct (beginOp_good h) beginOp_moves).imp fun _ t ⟨ht, hta⟩ => ?_
  match path, major, minor with
  | some path, some major, some minor => exact make_good ht (acct_cwd hta rfl (by simp [op]) hr) path .dev _ _
  | none, _, _ => exact fails_good ht
  | some _, none, _ => exact fails_good ht
  | some _, some _, none => exact fails_good ht

theorem Good.tables (h : Good s) (f : Fin nfile → File) (o : Nat → Nat → Option (Fin nfile)) (c : Nat → Nat) :
    Good { s with file := f, ofile := o, cwd := c } := ⟨h.exact, h.filled, h.sync, h.held⟩

theorem chdirTo_good (h : Good s) (p ip : Nat) : wp (chdirTo p ip) (fun _ t => Good t) NotFreeing s := by
  unfold chdirTo
  rw [wp_bind]
  refine (ilock_wp h).imp fun _ t ⟨ht, _, _⟩ => ?_
  rw [wp_bind, wp_read]
  refine Prog.wp_ite (fun _ => iunlockput_fails ht ip) fun _ => ?_
  rw [wp_bind]
  refine (iunlock_good ht ip).imp fun _ u hu => ?_
  rw [wp_bind, wp_read, wp_bind]
  refine (iput_good hu _).imp fun _ v hv => ?_
  rw [wp_bind]
  refine (endOp_good hv).imp fun _ w hw => ?_
  exact hw.tables _ _ _

theorem sysChdir_good (h : Good s) {p : Nat} (hr : 0 < s.refs (s.cwd p)) (path : Option Path) :
    wp (sysChdir p path) (fun _ t => Good t) NotFreeing s := by
  unfold sysChdir
  rw [wp_bind]
  refine (with_acct (beginOp_good h) beginOp_moves).imp fun _ t ⟨ht, hta⟩ => ?_
  cases path with
  | none => exact fails_good ht
  | some path =>
    refine Prog.wp_bind.2 ((namei_good ht (acct_cwd hta rfl (by simp [op]) hr) path).imp fun r u hu => ?_)
    cases r with
    | none => exact fails_good hu
    | some ip => exact chdirTo_good hu p ip

theorem fileclose_good (h : Good s) (f : Fin nfile) : wp (fileclose f) (fun _ t => Good t) NotFreeing s := by
  unfold fileclose lastClose
  rw [wp_bind, wp_read]
  refine Prog.wp_ite (fun _ => by simp [NotFreeing]) fun _ => Prog.wp_ite (fun _ => h.tables _ _ _) fun _ => ?_
  rw [wp_bind, wp_modify]
  refine Prog.wp_when (fun _ => ?_) fun _ => h.tables _ _ _
  rw [wp_bind]
  refine (beginOp_good (h.tables _ _ _)).imp fun _ t ht => ?_
  exact Prog.wp_bind.2 ((iput_good ht _).imp fun _ u hu => endOp_good hu)

theorem openInode_good (h : Good s) {p : Nat} (hr : 0 < s.refs (s.cwd p)) (path : Path) (omode : BitVec 32) :
    wp (openInode p path omode) (fun _ t => Good t) NotFreeing s := by
  refine Prog.wp_ite (fun _ => create_good h hr path .file 0 0) fun _ => ?_
  unfold openOld
  rw [wp_bind]
  refine (namei_good h hr path).imp fun r t ht => ?_
  cases r with
  | none => exact ht
  | some ip =>
    refine Prog.wp_bind.2 ((ilock_wp ht).imp fun _ u ⟨hu, _, _⟩ => ?_)
    rw [wp_bind, wp_read]
    exact Prog.wp_ite (fun _ => Prog.wp_bind.2 ((iunlockput_good hu ip).imp fun _ _ hv => hv)) fun _ => hu

theorem openFails_good (h : Good s) (ip : Nat) : wp (openFails ip) (fun _ t => Good t) NotFreeing s :=
  iunlockput_fails h ip

theorem openFile_good (h : Good s) (p ip : Nat) (omode : BitVec 32) :
    wp (openFile p ip omode) (fun _ t => Good t) NotFreeing s := by
  unfold openFile filealloc fdalloc
  rw [wp_bind, wp_bind, wp_read]
  cases (List.finRange nfile).find? (fun f => decide ((s.file f).ref = 0)) with
  | none => exact openFails_good h ip
  | some f =>
    have hf : Good (s.setFile f { s.file f with ref := 1 }) := h.tables _ _ _
    rw [wp_bind, wp_modify, wp_pure, wp_bind, wp_bind, wp_read]
    cases (List.range nofile).find? (fun fd => ((s.setFile f { s.file f with ref := 1 }).ofile p fd).isNone) with
    | none => exact Prog.wp_bind.2 ((fileclose_good hf f).imp fun _ t ht => openFails_good ht ip)
    | some fd =>
      rw [wp_bind, wp_modify, wp_pure, wp_bind]
      refine (iunlock_good (hf.tables _ _ _) ip).imp fun _ t ht => ?_
      rw [wp_bind]
      exact (endOp_good ht).imp fun _ u hu => hu.tables _ _ _

theorem sysOpen_good (h : Good s) {p : Nat} (hr : 0 < s.refs (s.cwd p)) (path : Option Path)
    (omode : Option (BitVec 32)) : wp (sysOpen p path omode) (fun _ t => Good t) NotFreeing s := by
  match path, omode with
  | none, _ => exact h
  | some _, none => exact h
  | some path, some omode =>
    refine Prog.wp_bind.2 ((with_acct (beginOp_good h) beginOp_moves).imp fun _ t ⟨ht, hta⟩ => ?_)
    rw [wp_bind]
    refine (openInode_good ht (acct_cwd hta rfl (by simp [op]) hr) path omode).imp fun r u hu => ?_
    cases r with
    | none => exact fails_good hu
    | some ip => exact openFile_good hu p ip omode

end Files
end Xv6
