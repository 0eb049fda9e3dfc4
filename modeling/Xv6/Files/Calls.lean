import Xv6.Files.Balance
/-!
# Files.Calls — every exit of a call balances

The calls of `sysfile.c`: what each of them, at each of its exits, has added to the references, the locks and the
transactions.
-/
namespace Xv6
namespace Files

open Prog (Moves Still wp wp_bind wp_read wp_modify wp_pure)

variable {s : State}

/-! ## Links -/

theorem unlinked_moves (ip : Nat) : Moves State.acct (unlinked ip) (fun _ => - ref ip - op) :=
  (ilock_moves ip).bind fun _ => Still.then_moves (relink_still ip _) fun _ =>
    (iunlockput_moves ip).bind fun _ => endOp_moves.bind fun _ => Moves.pure (by abel)

theorem linkAt_moves (dp : Nat) (name : Name) (ip : Nat) :
    Moves State.acct (linkAt dp name ip) (fun _ => - ref dp - ref ip - op) := by
  refine (ilock_moves dp).bind fun _ => Still.then_moves (dirlink_still dp name ip) fun _ =>
    Moves.ite (fun _ => ?_) fun _ => ?_
  · exact (iunlockput_moves dp).bind fun _ => (unlinked_moves ip).congr fun _ => by abel
  · exact (iunlockput_moves dp).bind fun _ => (iput_moves ip).bind fun _ => endOp_moves.bind fun _ => Moves.pure (by abel)

theorem linkTo_moves (p ip : Nat) (new : Path) :
    Moves State.acct (linkTo p ip new) (fun _ => - lck ip - ref ip - op) := by
  refine Moves.read_bind fun _ => Moves.ite (fun _ => ?_) fun _ => ?_
  · exact (iunlockput_moves ip).bind fun _ => endOp_moves.bind fun _ => Moves.pure (by abel)
  · refine Still.then_moves (relink_still ip 1) fun _ => (iunlock_moves ip).bind fun _ =>
      (nameiparent_moves p new).bind fun r => ?_
    cases r with
    | none => exact (unlinked_moves ip).congr fun _ => by simp only [handed, Option.map]; abel
    | some r => exact (linkAt_moves r.1 r.2 ip).congr fun _ => by simp only [handed, Option.map]; abel

theorem sysLink_still (p : Nat) (old new : Option Path) : Still State.acct (sysLink p old new) := by
  match old, new with
  | none, _ => exact Still.pure _
  | some _, none => exact Still.pure _
  | some old, some new =>
    refine beginOp_moves.bind fun _ => (namei_moves p old).bind fun r => ?_
    cases r with
    | none => exact endOp_moves.bind fun _ => Moves.pure (by simp only [handed]; abel)
    | some ip =>
      exact (ilock_moves ip).bind fun _ => (linkTo_moves p ip new).congr fun _ => by simp only [handed]; abel

theorem isdirempty_still (dp : Nat) : Still State.acct (isdirempty dp) := by
  refine Still.read_bind fun _ => (scan_still _ _ _ _).bind fun r => ?_
  cases r with
  | none => exact Still.pure _
  | some r => exact Still.pure _

theorem unlinkBad_moves (dp : Nat) : Moves State.acct (unlinkBad dp) (fun _ => - lck dp - ref dp - op) :=
  (iunlockput_moves dp).bind fun _ => endOp_moves.bind fun _ => Moves.pure (by abel)

theorem removeEntry_moves (dp off ip : Nat) (dir : Bool) :
    Moves State.acct (removeEntry dp off ip dir) (fun _ => - lck dp - ref dp - lck ip - ref ip - op) :=
  Still.then_moves (writei_still _ _ _ _) fun _ => Moves.ite (fun _ => Moves.stop _) fun _ =>
    Still.then_moves (Still.when (relink_still dp _)) fun _ => (iunlockput_moves dp).bind fun _ =>
      Still.then_moves (relink_still ip _) fun _ => (iunlockput_moves ip).bind fun _ =>
        endOp_moves.bind fun _ => Moves.pure (by abel)

theorem removable_still (ip : Nat) : Still State.acct (removable ip) :=
  Still.read_bind fun _ => Still.ite (isdirempty_still ip) (Still.pure _)

theorem unlinkFound_moves (dp off ip : Nat) :
    Moves State.acct (unlinkFound dp off ip) (fun _ => - lck dp - ref dp - ref ip - op) := by
  refine (ilock_moves ip).bind fun _ => Moves.read_bind fun _ => Moves.ite (fun _ => Moves.stop _) fun _ =>
    Still.then_moves (removable_still ip) fun _ => Moves.ite (fun _ => ?_) fun _ => ?_
  · exact (removeEntry_moves dp off ip _).congr fun _ => by abel
  · exact (iunlockput_moves ip).bind fun _ => (unlinkBad_moves dp).congr fun _ => by abel

theorem unlinkIn_moves (dp : Nat) (name : Name) : Moves State.acct (unlinkIn dp name) (fun _ => - ref dp - op) := by
  refine (ilock_moves dp).bind fun _ => Moves.ite (fun _ => ?_) fun _ => (dirlookup_moves dp name).bind fun r => ?_
  · exact (unlinkBad_moves dp).congr fun _ => by abel
  · cases r with
    | none => exact (unlinkBad_moves dp).congr fun _ => by simp only [handed, Option.map]; abel
    | some r => exact (unlinkFound_moves dp r.2 r.1).congr fun _ => by simp only [handed, Option.map]; abel

theorem sysUnlink_still (p : Nat) (path : Option Path) : Still State.acct (sysUnlink p path) := by
  cases path with
  | none => exact Still.pure _
  | some path =>
    refine beginOp_moves.bind fun _ => (nameiparent_moves p path).bind fun r => ?_
    cases r with
    | none => exact endOp_moves.bind fun _ => Moves.pure (by simp only [handed, Option.map]; abel)
    | some r => exact (unlinkIn_moves r.1 r.2).congr fun _ => by simp only [handed, Option.map]; abel

/-! ## New inodes -/

theorem createFound_moves (dp ip : Nat) (type : FileType) :
    Moves State.acct (createFound dp ip type) (fun r => handedLocked r - lck dp - ref dp - ref ip) := by
  refine (iunlockput_moves dp).bind fun _ => (ilock_moves ip).bind fun _ => Moves.read_bind fun _ =>
    Moves.ite (fun _ => ?_) fun _ => ?_
  · exact Moves.pure (by simp only [handedLocked]; abel)
  · exact (iunlockput_moves ip).bind fun _ => Moves.pure (by simp only [handedLocked]; abel)

theorem dots_still (dp ip : Nat) : Still State.acct (dots dp ip) :=
  (relink_still dp 1).bind fun _ => (dirlink_still ip dot ip).bind fun _ => Still.ite (Still.stop _)
    ((dirlink_still ip dotDot dp).bind fun _ => Still.ite (Still.stop _) (Still.pure _))

theorem createNew_moves (dp : Nat) (name : Name) (type : FileType) (major minor : BitVec 16) :
    Moves State.acct (createNew dp name type major minor) (fun r => handedLocked r - lck dp - ref dp) :=
  (ialloc_moves type).bind fun ip => (ilock_moves ip).bind fun _ =>
    Still.then_moves (Still.modify fun _ => setIp_acct _) fun _ => Still.then_moves (iupdate_still ip) fun _ =>
      Still.then_moves (Still.when (dots_still dp ip)) fun _ => Still.then_moves (dirlink_still dp name ip) fun _ =>
        Moves.ite (fun _ => Moves.stop _) fun _ => (iunlockput_moves dp).bind fun _ =>
          Moves.pure (by simp only [handedLocked]; abel)

theorem create_moves (p : Nat) (path : Path) (type : FileType) (major minor : BitVec 16) :
    Moves State.acct (create p path type major minor) handedLocked := by
  refine (nameiparent_moves p path).bind fun r => ?_
  cases r with
  | none => exact Moves.pure (by simp only [handed, handedLocked, Option.map]; abel)
  | some r =>
    refine (ilock_moves r.1).bind fun _ => (dirlookup_moves r.1 r.2).bind fun q => ?_
    cases q with
    | none => exact (createNew_moves r.1 r.2 type major minor).congr fun _ => by simp only [handed, Option.map]; abel
    | some q => exact (createFound_moves r.1 q.1 type).congr fun _ => by simp only [handed, Option.map]; abel

/-! ## The calls -/

theorem openInode_moves (p : Nat) (path : Path) (omode : BitVec 32) :
    Moves State.acct (openInode p path omode) handedLocked := by
  refine Moves.ite (fun _ => create_moves p path .file 0 0) fun _ => (namei_moves p path).bind fun r => ?_
  cases r with
  | none => exact Moves.pure (by simp only [handed, handedLocked]; abel)
  | some ip =>
    refine (ilock_moves ip).bind fun _ => Moves.read_bind fun _ => Moves.ite (fun _ => ?_) fun _ => ?_
    · exact (iunlockput_moves ip).bind fun _ => Moves.pure (by simp only [handed, handedLocked]; abel)
    · exact Moves.pure (by simp only [handed, handedLocked]; abel)

theorem make_moves (p : Nat) (path : Path) (type : FileType) (major minor : BitVec 16) :
    Moves State.acct (make p path type major minor) (fun _ => - op) := by
  refine (create_moves p path type major minor).bind fun r => ?_
  cases r with
  | none => exact endOp_moves.bind fun _ => Moves.pure (by simp only [handedLocked]; abel)
  | some ip =>
    exact (iunlockput_moves ip).bind fun _ => endOp_moves.bind fun _ => Moves.pure (by simp only [handedLocked]; abel)

theorem fails_moves : Moves State.acct fails (fun _ => - op) := endOp_moves.bind fun _ => Moves.pure (sub_self _)

theorem sysMkdir_still (p : Nat) (path : Option Path) : Still State.acct (sysMkdir p path) := by
  refine beginOp_moves.bind fun _ => ?_
  cases path with
  | none => exact fails_moves.congr fun _ => by abel
  | some path => exact (make_moves p path .dir 0 0).congr fun _ => by abel

theorem sysMknod_still (p : Nat) (path : Option Path) (major minor : Option (BitVec 32)) :
    Still State.acct (sysMknod p path major minor) := by
  refine beginOp_moves.bind fun _ => ?_
  match path, major, minor with
  | some path, some major, some minor => exact (make_moves p path .dev _ _).congr fun _ => by abel
  | none, _, _ => exact fails_moves.congr fun _ => by abel
  | some _, none, _ => exact fails_moves.congr fun _ => by abel
  | some _, some _, none => exact fails_moves.congr fun _ => by abel

/-! ### Calls that change the tables -/

theorem acct_refs {t : State} {δ : Acct} (h : t.acct = s.acct + δ) : t.refs = s.refs + δ.1 :=
  congrArg (fun a : Acct => a.1) h

theorem acct_locks {t : State} {δ : Acct} (h : t.acct = s.acct + δ) : t.locks = s.locks + δ.2.1 :=
  congrArg (fun a : Acct => a.2.1) h

theorem acct_outstanding {t : State} {δ : Acct} (h : t.acct = s.acct + δ) : t.outstanding = s.outstanding + δ.2.2.1 :=
  congrArg (fun a : Acct => a.2.2.1) h

theorem acct_tables {t : State} {δ : Acct} (h : t.acct = s.acct + δ) (hδ : δ.2.2.2 = 0) : t.tables = s.tables := by
  have := congrArg (fun a : Acct => a.2.2.2) h
  simp only [Prod.snd_add, hδ, add_zero] at this
  exact Finsupp.single_left_injective one_ne_zero this

/-- What a call may leave behind: the references `δ`, no lock, and every transaction closed. -/
structure Balanced (s t : State) (δ : Nat → Int) : Prop where
  refs  : t.refs = s.refs + δ
  locks : t.locks = s.locks
  outstanding : t.outstanding = s.outstanding

theorem Balanced.of_acct {t : State} {δ : Nat → Int} (h : t.acct = s.acct + (δ, 0, 0, 0)) : Balanced s t δ :=
  ⟨acct_refs h, (acct_locks h).trans (add_zero _), (acct_outstanding h).trans (add_zero _)⟩

/-- What `sys_chdir` has done: the reference of the old directory is exchanged for one to the new. -/
def Moved (p : Nat) (s t : State) : Prop :=
  Balanced s t (Pi.single (t.cwd p) 1 - Pi.single (s.cwd p) 1) ∧ t.file = s.file ∧ ∀ q, q ≠ p → t.cwd q = s.cwd q

theorem Moved.still {t : State} (h : t.acct = s.acct) (p : Nat) : Moved p s t := by
  have htab := acct_tables (h.trans (add_zero _).symm) rfl
  have hcwd : t.cwd = s.cwd := congrArg (fun a : Tables => a.2.2) htab
  unfold Moved
  rw [hcwd, sub_self]
  exact ⟨.of_acct (h.trans (add_zero _).symm), congrArg (fun a : Tables => a.1) htab, fun _ _ => rfl⟩

theorem chdirTo_wp (p ip : Nat) {u : State} (hu : u.acct = s.acct + op + ref ip) : wp (chdirTo p ip)
    (fun _ t => Moved p s t) (fun _ => True) u := by
  unfold chdirTo
  rw [wp_bind]
  refine ((ilock_moves ip).wp u).imp fun _ v hv => ?_
  rw [wp_bind, wp_read]
  refine Prog.wp_ite (fun _ => ?_) fun _ => ?_
  · have hfail : Moves State.acct (do iunlockput ip; fails) (fun _ => - lck ip - ref ip - op) :=
      (iunlockput_moves ip).bind fun _ => fails_moves.congr fun _ => by abel
    refine (hfail.wp v).imp fun _ t ht => Moved.still ?_ p
    rw [ht, hv, hu]
    abel
  · rw [wp_bind]
    refine ((iunlock_moves ip).wp v).imp fun _ w hw => ?_
    have hws : w.acct = s.acct + (op + ref ip) := by
      rw [hw, hv, hu]
      abel
    have hcwd : w.cwd = s.cwd := congrArg (fun a : Tables => a.2.2) (acct_tables hws rfl)
    rw [wp_bind, wp_read, hcwd, wp_bind]
    refine ((iput_moves _).wp w).imp fun _ x hx => ?_
    rw [wp_bind]
    refine (endOp_moves.wp x).imp fun _ y hy => ?_
    have hys : y.acct = s.acct + (Pi.single ip 1 - Pi.single (s.cwd p) 1, 0, 0, 0) := by
      rw [hy, hx, hws]
      ext <;> simp [op, ref]
      abel
    rw [wp_bind, wp_modify, wp_pure]
    have hb := Balanced.of_acct hys
    have htab := acct_tables hys rfl
    refine ⟨⟨hb.refs.trans ?_, hb.locks, hb.outstanding⟩, congrArg (fun a : Tables => a.1) htab, fun q hq => ?_⟩
    · simp
    · exact (if_neg hq).trans (congrFun (congrArg (fun a : Tables => a.2.2) htab) q)

theorem sysChdir_wp (p : Nat) (path : Option Path) :
    wp (sysChdir p path) (fun _ t => Moved p s t) (fun _ => True) s := by
  unfold sysChdir
  rw [wp_bind]
  refine (beginOp_moves.wp s).imp fun _ u hu => ?_
  cases path with
  | none =>
    refine (fails_moves.wp u).imp fun _ t ht => Moved.still ?_ p
    rw [ht, hu]
    abel
  | some path =>
    rw [wp_bind]
    refine ((namei_moves p path).wp u).imp fun r v hv => ?_
    cases r with
    | none =>
      refine (fails_moves.wp v).imp fun _ t ht => Moved.still ?_ p
      rw [ht, hv, hu]
      simp only [handed]
      abel
    | some ip =>
      refine chdirTo_wp p ip ?_
      rw [hv, hu]
      rfl

/-! ### `sys_open` -/

/-- A file that nobody refers to is of no type, as `fileclose` leaves it. -/
def Closed (s : State) : Prop := ∀ f, (s.file f).ref = 0 → (s.file f).type = .none

/-- What `sys_open` returned: a descriptor that was free, for a file that was free and holds a reference to the inode, or
nothing, with the tables as they were. -/
def Opened (p : Nat) (r : Int) (s t : State) : Prop :=
  (r = -1 ∧ Balanced s t 0 ∧ t.tables = s.tables) ∨
    ∃ (fd : Nat) (f : Fin nfile), r = fd ∧ s.ofile p fd = none ∧ (s.file f).ref = 0 ∧
      t.ofile p fd = some f ∧ (t.file f).ref = 1 ∧
      (t.file f).type = .inode ∧ (∀ g, g ≠ f → t.file g = s.file g) ∧ t.cwd = s.cwd ∧
      Balanced s t (Pi.single (t.file f).ip 1)

theorem fileclose_fresh {f : Fin nfile} {v : File} (hr : v.ref = 1) (ht : v.type = .none) (hf : s.file f = v) :
    fileclose f s = ⟨.ok (), s.setFile f { v with ref := 0 }, []⟩ := by
  subst hf
  unfold fileclose lastClose
  rw [Prog.read_bind_run, hr, if_neg (by decide), if_neg (by decide), Prog.modify_bind_run, Prog.when_neg (by simp [ht])]
  rw [ht]
  rfl

theorem setFile_file (s : State) (f : Fin nfile) (v : File) : (s.setFile f v).file f = v := if_pos rfl

theorem setFile_setFile {f : Fin nfile} {v : File} (hv : v = s.file f) (w : File) : (s.setFile f w).setFile f v = s := by
  have : (fun g => if g = f then v else if g = f then w else s.file g) = s.file := by
    funext g
    by_cases hg : g = f
    · rw [if_pos hg, hv, hg]
    · rw [if_neg hg, if_neg hg]
  unfold State.setFile
  rw [this]

theorem openFails_wp (p ip : Nat) {u : State} (hu : u.acct = s.acct + (op + ref ip + lck ip)) :
    wp (openFails ip) (fun r t => Opened p r s t) (fun _ => True) u := by
  unfold openFails
  rw [wp_bind]
  refine ((iunlockput_moves ip).wp u).imp fun _ v hv => ?_
  rw [wp_bind]
  refine (endOp_moves.wp v).imp fun _ t ht => ?_
  have hts : t.acct = s.acct + (0, 0, 0, 0) := by
    rw [ht, hv, hu]
    ext <;> simp [op, ref, lck]
  exact .inl ⟨rfl, .of_acct hts, acct_tables hts rfl⟩

theorem openFile_wp (p ip : Nat) (omode : BitVec 32) (hs : Closed s) {u : State}
    (hu : u.acct = s.acct + (op + ref ip + lck ip)) :
    wp (openFile p ip omode) (fun r t => Opened p r s t) (fun _ => True) u := by
  have htab : u.tables = s.tables := acct_tables hu rfl
  have hfile : u.file = s.file := congrArg (fun a : Tables => a.1) htab
  have hofile : u.ofile = s.ofile := congrArg (fun a : Tables => a.2.1) htab
  unfold openFile filealloc fdalloc
  rw [wp_bind, wp_bind, wp_read]
  cases hf : (List.finRange nfile).find? (fun f => decide ((u.file f).ref = 0)) with
  | none => exact openFails_wp p ip hu
  | some f =>
    have href : (u.file f).ref = 0 := by simpa using List.find?_some hf
    have htype : (u.file f).type = .none := hfile ▸ hs f (hfile ▸ href)
    rw [wp_bind, wp_modify, wp_pure, wp_bind, wp_bind, wp_read]
    cases hfd : (List.range nofile).find? (fun fd =>
        ((u.setFile f { u.file f with ref := 1 }).ofile p fd).isNone) with
    | none =>
      rw [wp_pure, wp_bind]
      refine Prog.wp_of_run (fileclose_fresh (v := { u.file f with ref := 1 }) rfl htype (setFile_file u f _)) ?_
      rw [setFile_setFile (by rw [← href])]
      exact openFails_wp p ip hu
    | some fd =>
      have hnone := List.find?_some hfd
      change (u.ofile p fd).isNone = true at hnone
      rw [wp_bind, wp_modify, wp_pure, wp_bind]
      refine ((iunlock_moves ip).wp _).imp fun _ v hv => ?_
      rw [wp_bind]
      refine (endOp_moves.wp v).imp fun _ w hw => ?_
      have hwu : w.acct = ((u.setFile f { u.file f with ref := 1 }).setOfile p fd (some f)).acct + (- lck ip - op) := by
        rw [hw, hv]
        abel
      have hwt := acct_tables hwu (by simp [lck, op])
      have hwf : w.file f = { u.file f with ref := 1 } :=
        (congrFun (congrArg (fun a : Tables => a.1) hwt) f).trans (setFile_file u f _)
      have hwo : w.ofile p fd = some f := by
        rw [show w.ofile = _ from congrArg (fun a : Tables => a.2.1) hwt]
        simp [State.tables, State.setOfile]
      rw [wp_bind, wp_modify, wp_pure]
      refine .inr ⟨fd, f, rfl, hofile ▸ by simpa using hnone, hfile ▸ href, hwo, ?_, ?_, ?_, ?_, ?_⟩
      · rw [setFile_file, hwf]
      · rw [setFile_file]
      · intro g hg
        refine (if_neg hg).trans ((congrFun (congrArg (fun a : Tables => a.1) hwt) g).trans ?_)
        rw [← hfile]
        exact if_neg hg
      · exact (congrArg (fun a : Tables => a.2.2) hwt).trans (congrArg (fun a : Tables => a.2.2) htab)
      · rw [setFile_file]
        refine ⟨(acct_refs hwu).trans ?_, (acct_locks hwu).trans ?_, (acct_outstanding hwu).trans ?_⟩
        · change u.refs + (- lck ip - op).1 = s.refs + Pi.single ip 1
          rw [acct_refs hu]
          simp [op, ref, lck]
        · change u.locks + (- lck ip - op).2.1 = s.locks
          rw [acct_locks hu]
          simp [op, ref, lck]
        · change u.outstanding + (- lck ip - op).2.2.1 = s.outstanding
          rw [acct_outstanding hu]
          simp [op, ref, lck]

theorem sysOpen_wp (p : Nat) (path : Option Path) (omode : Option (BitVec 32)) (hs : Closed s) :
    wp (sysOpen p path omode) (fun r t => Opened p r s t) (fun _ => True) s := by
  have hsame : ∀ {t : State}, t.acct = s.acct → Opened p (-1) s t := fun h =>
    .inl ⟨rfl, .of_acct (h.trans (add_zero _).symm), acct_tables (h.trans (add_zero _).symm) rfl⟩
  match path, omode with
  | none, _ => exact hsame rfl
  | some _, none => exact hsame rfl
  | some path, some omode =>
    unfold sysOpen
    rw [wp_bind]
    refine (beginOp_moves.wp s).imp fun _ u hu => ?_
    rw [wp_bind]
    refine ((openInode_moves p path omode).wp u).imp fun r v hv => ?_
    cases r with
    | none =>
      rw [wp_bind]
      refine (endOp_moves.wp v).imp fun _ t ht => ?_
      rw [wp_pure]
      refine hsame ?_
      rw [ht, hv, hu]
      simp only [handedLocked]
      abel
    | some ip =>
      refine openFile_wp p ip omode hs ?_
      rw [hv, hu]
      simp only [handedLocked]
      abel

theorem Opened.closed {p : Nat} {r : Int} {t : State} (h : Opened p r s t) (hs : Closed s) : Closed t := by
  rcases h with ⟨-, -, htab⟩ | ⟨fd, f, -, -, -, -, hr, -, hother, -, -⟩
  · intro g
    rw [show t.file = s.file from congrArg (fun a : Tables => a.1) htab]
    exact hs g
  · intro g hg
    by_cases hgf : g = f
    · rw [hgf, hr] at hg
      cases hg
    · rw [hother g hgf] at hg ⊢
      exact hs g hg

/-! ## All calls -/

/-- The references, or the locks, that come with an inode. -/
def given : Option Nat → Nat → Int
  | none   => 0
  | some i => Pi.single i 1

theorem handed_eq (r : Option Nat) : handed r = (given r, 0, 0, 0) := by
  cases r <;> rfl

theorem handedLocked_eq (r : Option Nat) : handedLocked r = (given r, given r, 0, 0) := by
  cases r with
  | none => rfl
  | some i => simp [handedLocked, ref, lck, given]

theorem moves_balanced {α : Type} {c : F α} {δ : α → Nat → Int} (h : Moves State.acct c (fun r => (δ r, 0, 0, 0)))
    (s : State) :
    wp c (fun r t => Balanced s t (δ r)) (fun _ => True) s := (h.wp s).imp fun _ _ ht => .of_acct ht

theorem still_balanced {c : F Int} (h : Still State.acct c) (s : State) :
    wp c (fun _ t => Balanced s t 0) (fun _ => True) s := (h.wp s).imp fun _ _ ht => .of_acct ht

/-- **References, locks and transactions balance on every path.** -/
theorem calls_balanced (p : Nat) (s : State) (hs : Closed s) :
    (∀ path, wp (namei p path) (fun r t => Balanced s t (given r)) (fun _ => True) s) ∧
    (∀ path, wp (nameiparent p path) (fun r t => Balanced s t (given (r.map Prod.fst))) (fun _ => True) s) ∧
    (∀ path type major minor, wp (create p path type major minor) (fun r t => t.refs = s.refs + given r ∧
      t.locks = s.locks + given r ∧ t.outstanding = s.outstanding) (fun _ => True) s) ∧
    (∀ old new, wp (sysLink p old new) (fun _ t => Balanced s t 0) (fun _ => True) s) ∧
    (∀ path, wp (sysUnlink p path) (fun _ t => Balanced s t 0) (fun _ => True) s) ∧
    (∀ path, wp (sysMkdir p path) (fun _ t => Balanced s t 0) (fun _ => True) s) ∧
    (∀ path major minor, wp (sysMknod p path major minor) (fun _ t => Balanced s t 0) (fun _ => True) s) ∧
    (∀ path, wp (sysChdir p path)
      (fun _ t => Balanced s t (Pi.single (t.cwd p) 1 - Pi.single (s.cwd p) 1)) (fun _ => True) s) ∧
    (∀ path omode, wp (sysOpen p path omode) (fun r t => Opened p r s t) (fun _ => True) s) := by
  refine ⟨fun path => ?_, fun path => ?_, fun path type major minor => ?_, fun old new => ?_, fun path => ?_,
    fun path => ?_, fun path major minor => ?_, fun path => (sysChdir_wp p path).imp fun _ _ h => h.1,
    fun path omode => sysOpen_wp p path omode hs⟩
  · exact moves_balanced ((namei_moves p path).congr handed_eq) s
  · exact moves_balanced ((nameiparent_moves p path).congr fun r => handed_eq _) s
  · refine (((create_moves p path type major minor).congr handedLocked_eq).wp s).imp fun r t ht => ?_
    exact ⟨acct_refs ht, acct_locks ht, (acct_outstanding ht).trans (add_zero _)⟩
  · exact still_balanced (sysLink_still p old new) s
  · exact still_balanced (sysUnlink_still p path) s
  · exact still_balanced (sysMkdir_still p path) s
  · exact still_balanced (sysMknod_still p path major minor) s

/-- A file system with an empty root directory, which is the current directory of every process. -/
def bareRoot : State where
  bit _ := true
  dinode i := if i = rootIno then { Dinode.zero with type := .dir, nlink := 1 } else Dinode.zero
  data _ := fun _ => 0
  inode i := ⟨if i = rootIno then 1 else 0, false, false, Dinode.zero⟩
  cached := 1
  outstanding := 0
  devsw := ⟨fun _ _ => none, fun _ _ _ => none⟩
  file _ := ⟨.none, 0, false, false, 0, 0⟩
  ofile _ _ := none
  cwd _ := rootIno

theorem bareRoot_closed : Closed bareRoot := fun _ _ => rfl

end Files
end Xv6
