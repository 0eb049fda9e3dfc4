import Xv6.Files.Sysfile
import Xv6.Lib.Effect
/-!
# Files.Balance — references, locks and transactions

What each function adds to the reference counts of the inodes, to the locks that are held and to the transactions that are
open.
-/
namespace Xv6
namespace Files

open Fs (Bno Block)
open Prog (Moves Still wp)

def State.refs (s : State) : Nat → Int := fun i => (s.inode i).ref
def State.locks (s : State) : Nat → Int := fun i => if (s.inode i).locked then 1 else 0

/-- The files, the descriptors and the current directories. -/
abbrev Tables := (Fin nfile → File) × (Nat → Nat → Option (Fin nfile)) × (Nat → Nat)

def State.tables (s : State) : Tables := (s.file, s.ofile, s.cwd)

abbrev Acct := (Nat → Int) × (Nat → Int) × Int × (Tables →₀ Int)

/-- The accounts.  The tables are in them as a generator of a free group: what does not add to it leaves them as they
are. -/
noncomputable def State.acct (s : State) : Acct := (s.refs, s.locks, s.outstanding, Finsupp.single s.tables 1)

/-- One reference to an inode, its lock, and one transaction. -/
def ref (i : Nat) : Acct := (Pi.single i 1, 0, 0, 0)
def lck (i : Nat) : Acct := (0, Pi.single i 1, 0, 0)
def op : Acct := (0, 0, 1, 0)

variable {s t : State} {i : Nat}

theorem acct_ext (hr : t.refs = s.refs) (hl : t.locks = s.locks) (ho : t.outstanding = s.outstanding)
    (ht : t.tables = s.tables) : t.acct = s.acct := by
  unfold State.acct
  rw [hr, hl, ho, ht]

theorem setInode_acct (s : State) (i : Nat) (n : Inode) : (s.setInode i n).acct = s.acct +
    (Pi.single i (n.ref - (s.inode i).ref),
      Pi.single i ((if n.locked then 1 else 0) - (if (s.inode i).locked then 1 else 0)), 0, 0) := by
  have hr : (s.setInode i n).refs = s.refs + Pi.single i (n.ref - (s.inode i).ref) := by
    funext j
    simp only [State.refs, State.setInode, Pi.add_apply, Pi.single_apply]
    split_ifs with hj
    · subst hj
      omega
    · omega
  have hl : (s.setInode i n).locks = s.locks +
      Pi.single i ((if n.locked then 1 else 0) - (if (s.inode i).locked then 1 else 0)) := by
    funext j
    simp only [State.locks, State.setInode, Pi.add_apply, Pi.single_apply]
    by_cases hj : j = i
    · subst hj
      simp
    · simp [hj]
  unfold State.acct
  rw [hr, hl]
  simp only [Prod.mk_add_mk, add_zero]
  rfl

theorem setIp_acct (d : Dinode) : (s.setIp i d).acct = s.acct := by
  unfold State.setIp
  rw [setInode_acct]
  simp

theorem addRef_acct : (s.addRef i).acct = s.acct + ref i := by
  unfold State.addRef ref
  rw [setInode_acct]
  simp

/-! ## What leaves the accounts alone -/

theorem logWrite_still (n : Nat) : Still State.acct (logWrite n) :=
  Still.read_bind fun _ => Still.ite (Still.stop _) (Prog.Moves.emit _)

theorem bzero_still (b : Bno) : Still State.acct (bzero b) :=
  Still.modify_bind (fun _ => rfl) <| logWrite_still _

theorem take_still (b : Bno) : Still State.acct (take b) :=
  Still.modify_bind (fun _ => rfl) <| (logWrite_still _).bind fun _ => (bzero_still b).bind fun _ => Still.pure b

theorem balloc_still : Still State.acct balloc := by
  refine Still.bind (Prog.Moves.emit _) fun _ => Still.read_bind fun n => ?_
  cases n with
  | none => exact Still.stop _
  | some n => exact take_still _

theorem bfree_still (b : Bno) : Still State.acct (bfree b) := by
  refine Still.read_bind fun set => ?_
  cases set with
  | true => exact Still.modify_bind (fun _ => rfl) <| logWrite_still _
  | false => exact Still.stop _

theorem iupdate_still (i : Nat) : Still State.acct (iupdate i) :=
  Still.modify_bind (fun _ => rfl) <| logWrite_still _

theorem slotAddr_still (i : Nat) (k : Fin 13) : Still State.acct (slotAddr i k) :=
  Still.read_bind fun _ => Still.ite (balloc_still.bind fun _ => Still.modify_bind (fun _ => setIp_acct _) <| Still.pure _)
    (Still.pure _)

theorem wordAddr_still (addr : Bno) (j : Fin 128) : Still State.acct (wordAddr addr j) :=
  Still.read_bind fun _ => Still.ite (balloc_still.bind fun _ => Still.modify_bind (fun _ => rfl) <|
    (logWrite_still _).bind fun _ => Still.pure _) (Still.pure _)

theorem bmap_still (i bn : Nat) : Still State.acct (bmap i bn) :=
  Still.ite (slotAddr_still i _) (Still.ite ((slotAddr_still i 12).bind fun _ => wordAddr_still _ _) (Still.stop _))

theorem truncSlot_still (i : Nat) (k : Fin 13) : Still State.acct (truncSlot i k) :=
  Still.read_bind fun _ => Still.when ((bfree_still _).bind fun _ => Still.modify fun _ => setIp_acct _)

theorem truncIndirect_still (i : Nat) : Still State.acct (truncIndirect i) :=
  Still.read_bind fun _ => Still.when (Still.read_bind fun _ =>
    (Still.forEach _ fun _ _ => Still.when (bfree_still _)).bind fun _ =>
      (bfree_still _).bind fun _ => Still.modify fun _ => setIp_acct _)

theorem itrunc_still (i : Nat) : Still State.acct (itrunc i) :=
  (Still.forEach _ fun k _ => truncSlot_still i k).bind fun _ => (truncIndirect_still i).bind fun _ =>
    Still.modify_bind (fun _ => setIp_acct _) <| iupdate_still i

theorem ifree_still (i : Nat) : Still State.acct (ifree i) := by
  refine (itrunc_still i).bind fun _ => Still.modify_bind (fun _ => setIp_acct _) <|
    (iupdate_still i).bind fun _ => Still.modify fun s => ?_
  rw [setInode_acct]
  simp

theorem readLoop_still (i : Nat) : ∀ (k off n : Nat), Still State.acct (readLoop i k off n)
  | 0, _, _     => Still.pure _
  | k + 1, _, _ => Still.ite (Still.pure _) ((bmap_still i _).bind fun _ => Still.read_bind fun _ =>
      (readLoop_still i k _ _).bind fun _ => Still.pure _)

theorem readi_still (i : Nat) (off n : BitVec 32) : Still State.acct (readi i off n) :=
  Still.get_bind fun _ => Still.ite (Still.pure _) (Still.ite (Still.pure _)
    ((readLoop_still i _ _ _).bind fun _ => Still.pure _))

theorem writeLoop_still (i : Nat) : ∀ (k : Nat) (src : Nat → Byte) (off n : Nat), Still State.acct (writeLoop i k src off n)
  | 0, _, _, _     => Still.pure _
  | k + 1, _, _, _ => Still.ite (Still.pure _) ((bmap_still i _).bind fun _ => Still.modify_bind (fun _ => rfl) <|
      (logWrite_still _).bind fun _ => writeLoop_still i k _ _ _)

theorem grow_still (i : Nat) (off n : BitVec 32) : Still State.acct (grow i off n) :=
  Still.read_bind fun _ => Still.when (Still.modify_bind (fun _ => setIp_acct _) <| iupdate_still i)

theorem writei_still (i : Nat) (src : Nat → Byte) (off n : BitVec 32) : Still State.acct (writei i src off n) :=
  Still.get_bind fun _ => Still.ite (Still.pure _) (Still.ite (Still.pure _) (Still.ite (Still.pure _)
    ((writeLoop_still i _ _ _ _).bind fun _ => (grow_still i _ _).bind fun _ => Still.pure _)))

theorem relink_still (i : Nat) (k : BitVec 16) : Still State.acct (relink i k) :=
  Still.modify_bind (fun _ => setIp_acct _) <| iupdate_still i

/-! ## References and locks -/

theorem entry_moves (i : Nat) : Moves State.acct (entry i) (fun _ => ref i) :=
  Moves.get_bind fun _ => Moves.ite (fun _ => Moves.modify fun _ => addRef_acct) fun _ =>
    Moves.ite (fun _ => Moves.stop _) fun _ => Moves.modify fun s => by
      refine (setInode_acct s i _).trans ?_
      simp [ref]

theorem iget_moves (i : Nat) : Moves State.acct (iget i) ref :=
  (entry_moves i).bind fun _ => Moves.pure (sub_self _)

theorem idup_moves (i : Nat) : Moves State.acct (idup i) ref :=
  Moves.bind (Moves.modify fun _ => addRef_acct) fun _ => Moves.pure (sub_self _)

theorem ialloc_moves (type : FileType) : Moves State.acct (ialloc type) ref := by
  refine Moves.read_bind fun n => ?_
  cases n with
  | none => exact Moves.stop _
  | some i => exact Still.then_moves (Still.modify fun _ => rfl) fun _ =>
      Still.then_moves (logWrite_still _) fun _ => iget_moves i

theorem acquiresleep_moves (i : Nat) : Moves State.acct (acquiresleep i) (fun _ => lck i) := by
  intro s a ha
  unfold acquiresleep at ha ⊢
  rw [Prog.read_bind_run] at ha ⊢
  split_ifs at ha ⊢ with hl
  · cases ha
  · refine (setInode_acct s i _).trans ?_
    simp [lck, hl]

theorem ilock_moves (i : Nat) : Moves State.acct (ilock i) (fun _ => lck i) := by
  refine Moves.read_bind fun _ => Moves.ite (fun _ => Moves.stop _) fun _ => ?_
  refine (acquiresleep_moves i).bind fun _ => Moves.read_bind fun _ => ?_
  have hread : Still State.acct (readInode i) := by
    refine Still.modify_bind (fun s => ?_) (Still.read_bind fun _ => Still.ite (Still.stop _) (Still.pure _))
    rw [setInode_acct]
    simp
  exact (Still.when hread).congr fun _ => (sub_self _).symm

theorem releasesleep_acct (h : (s.inode i).locked = true) :
    (s.setInode i { s.inode i with locked := false }).acct = s.acct - lck i := by
  rw [setInode_acct]
  simp [lck, h, sub_eq_add_neg, ← Pi.single_neg]

theorem iunlock_moves (i : Nat) : Moves State.acct (iunlock i) (fun _ => - lck i) := by
  intro s a ha
  unfold iunlock at ha ⊢
  rw [Prog.read_bind_run] at ha ⊢
  split_ifs at ha ⊢ with hl
  · cases ha
  · rw [not_or] at hl
    rw [← sub_eq_add_neg]
    exact releasesleep_acct (by simpa using hl.1)

theorem dropRef_acct (s : State) (i : Nat) : (s.dropRef i).acct = s.acct - ref i := by
  refine (setInode_acct s i { s.inode i with ref := (s.inode i).ref - 1 }).trans ?_
  simp [ref, sub_eq_add_neg, ← Pi.single_neg]

theorem locked_of_acct (h : t.acct = s.acct + lck i) (hl : (s.inode i).locked = false) :
    (t.inode i).locked = true := by
  have := congrArg (fun a : Acct => a.2.1 i) h
  by_contra hn
  simp [State.acct, State.locks, lck, hn, hl] at this

theorem put_acct (h : t.acct = s.acct + lck i) (hl : (s.inode i).locked = false) :
    ((t.setInode i { t.inode i with locked := false }).dropRef i).acct = s.acct - ref i := by
  rw [dropRef_acct, releasesleep_acct (locked_of_acct h hl), h]
  abel

theorem iput_moves (i : Nat) : Moves State.acct (iput i) (fun _ => - ref i) := by
  intro s a ha
  obtain ⟨_, hacq, ha, hst, -⟩ := Prog.bind_ok ha
  rw [show (iput i s).st = _ from hst]
  have h1 := acquiresleep_moves i s _ hacq
  have hl : (s.inode i).locked = false := by
    by_contra hn
    unfold acquiresleep at hacq
    rw [Prog.read_bind_run, if_pos (by simpa using hn)] at hacq
    cases hacq
  generalize (acquiresleep i s).st = t at h1 ha ⊢
  rw [Prog.read_bind_run] at ha ⊢
  obtain ⟨_, hfree, ha, hst, -⟩ := Prog.bind_ok ha
  rw [hst]
  have h2 := Still.when (ifree_still i) t _ hfree
  rw [add_zero, h1] at h2
  rw [← sub_eq_add_neg]
  exact put_acct h2 hl

theorem iunlockput_moves (i : Nat) : Moves State.acct (iunlockput i) (fun _ => - lck i - ref i) :=
  (iunlock_moves i).bind fun _ => (iput_moves i).congr fun _ => by abel

theorem beginOp_moves : Moves State.acct beginOp (fun _ => op) :=
  Moves.modify fun s => by
    simp only [State.acct, op, Prod.mk_add_mk, add_zero]
    rfl

theorem endOp_moves : Moves State.acct endOp (fun _ => - op) :=
  Moves.modify fun s => by
    simp only [State.acct, op, sub_eq_add_neg, Prod.neg_mk, neg_zero, Prod.mk_add_mk, add_zero]
    rfl

/-! ## Directories and paths -/

theorem readDirent_still (dp off : Nat) (msg : String) : Still State.acct (readDirent dp off msg) := by
  refine (readi_still dp _ _).bind fun r => ?_
  cases r with
  | none => exact Still.stop _
  | some l => exact Still.ite (Still.pure _) (Still.stop _)

theorem scan_still (dp : Nat) (msg : String) (test : Dirent → Bool) : ∀ l, Still State.acct (scan dp msg test l)
  | []       => Still.pure _
  | off :: l => (readDirent_still dp off msg).bind fun _ => Still.ite (Still.pure _) (scan_still dp msg test l)

def handed : Option Nat → Acct
  | none   => 0
  | some i => ref i

noncomputable def handedLocked : Option Nat → Acct
  | none   => 0
  | some i => ref i + lck i

theorem dirlookup_moves (dp : Nat) (name : Name) :
    Moves State.acct (dirlookup dp name) (fun r => handed (r.map Prod.fst)) := by
  refine Moves.read_bind fun _ => Moves.ite (fun _ => Moves.stop _) fun _ => ?_
  refine Still.then_moves (scan_still _ _ _ _) fun r => ?_
  cases r with
  | none => exact Moves.pure rfl
  | some r => exact (iget_moves _).bind fun _ => Moves.pure (sub_self _)

theorem addDirent_still (dp : Nat) (name : Name) (inum : Nat) : Still State.acct (addDirent dp name inum) :=
  Still.read_bind fun _ => (scan_still _ _ _ _).bind fun _ =>
    (writei_still _ _ _ _).bind fun _ => Still.ite (Still.stop _) (Still.pure _)

theorem dirlink_still (dp : Nat) (name : Name) (inum : Nat) : Still State.acct (dirlink dp name inum) := by
  refine Moves.bind (dirlookup_moves dp name) fun r => ?_
  cases r with
  | none => exact (addDirent_still dp name inum).congr fun _ => (sub_self _).symm
  | some r => exact (iput_moves r.1).bind fun _ => Moves.pure (by simp [handed])

/-- The inode a turn of `namex` ends with. -/
def Walk.handed : Walk → Acct
  | .stop r => Files.handed r
  | .next i => ref i

theorem walk_moves (parent : Bool) (ip : Nat) (rest : Path) (name : Name) :
    Moves State.acct (walk parent ip rest name) (fun w => w.handed - ref ip) := by
  refine (ilock_moves ip).bind fun _ => Moves.read_bind fun _ => Moves.ite (fun _ => ?_) fun _ =>
    Moves.ite (fun _ => ?_) fun _ => (dirlookup_moves ip name).bind fun r => ?_
  · exact (iunlockput_moves ip).bind fun _ => Moves.pure (by simp only [Walk.handed, handed]; abel)
  · exact (iunlock_moves ip).bind fun _ => Moves.pure (by simp only [Walk.handed, handed]; abel)
  · cases r with
    | none => exact (iunlockput_moves ip).bind fun _ => Moves.pure (by simp only [Walk.handed, handed, Option.map]; abel)
    | some r =>
      exact (iunlockput_moves ip).bind fun _ => Moves.pure (by simp only [Walk.handed, handed, Option.map]; abel)

theorem namexLoop_moves (parent : Bool) : ∀ (k ip : Nat) (path : Path) (name : Name),
    Moves State.acct (namexLoop parent k ip path name) (fun r => handed (r.map Prod.fst) - ref ip)
  | 0, ip, _, _ => Moves.pure (sub_self _)
  | k + 1, ip, path, name => by
    unfold namexLoop
    cases skipelem path with
    | none =>
      refine Moves.ite (fun _ => ?_) fun _ => Moves.pure (sub_self _)
      exact (iput_moves ip).bind fun _ => Moves.pure (by simp only [handed, Option.map]; abel)
    | some e =>
      refine (walk_moves parent ip e.1 e.2).bind fun w => ?_
      match w with
      | .stop none => exact Moves.pure (by simp only [Walk.handed, handed, Option.map]; abel)
      | .stop (some i) => exact Moves.pure (by simp only [Walk.handed, handed, Option.map]; abel)
      | .next i => exact (namexLoop_moves parent k i e.1 e.2).congr fun r => by simp only [Walk.handed]; abel

theorem namex_moves (p : Nat) (path : Path) (parent : Bool) :
    Moves State.acct (namex p path parent) (fun r => handed (r.map Prod.fst)) := by
  have hstart : Moves State.acct (start p path) ref :=
    Moves.read_bind fun _ => Moves.ite (fun _ => iget_moves _) fun _ => idup_moves _
  exact hstart.bind fun ip => namexLoop_moves parent _ ip path []

theorem namei_moves (p : Nat) (path : Path) : Moves State.acct (namei p path) handed := by
  refine (namex_moves p path false).bind fun r => ?_
  cases r with
  | none => exact Moves.pure (sub_self _)
  | some r => exact Moves.pure (sub_self _)

theorem nameiparent_moves (p : Nat) (path : Path) :
    Moves State.acct (nameiparent p path) (fun r => handed (r.map Prod.fst)) := namex_moves p path true

end Files
end Xv6
