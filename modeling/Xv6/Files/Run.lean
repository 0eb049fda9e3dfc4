import Xv6.Files.Keep
import Xv6.Lib.Held
/-!
# Files.Run — runs of calls

Any sequence of completed operations of a set of processes, from a file system whose bitmap tells the truth.
-/
namespace Xv6
namespace Files

open Prog (Moves Still wp wp_bind wp_read wp_modify wp_pure)

def File.inum (v : File) : Option Nat := if v.type = .inode then some v.ip else none

/-- The references to each inode that the current directories of the processes in `P` and the open files hold. -/
def stored (P : Finset Nat) (s : State) : Nat → Int :=
  ∑ p ∈ P, Pi.single (s.cwd p) 1 + ∑ f, given (s.file f).inum

/-- The file system, and that what refers to an inode is counted. -/
structure Kept (P : Finset Nat) (s : State) : Prop where
  good    : Good s
  closed  : Closed s
  counted : ∀ i, stored P s i ≤ s.refs i

abbrev Sys := Finset Nat × State

inductive Op where
  | iget (i : Nat)
  | idup (i : Nat)
  | ialloc (type : FileType)
  | iput (i : Nat)
  | bmap (i bn : Nat)
  | itrunc (i : Nat)
  | readi (i : Nat) (off n : BitVec 32)
  | writei (i : Nat) (src : Nat → Byte) (off n : BitVec 32)
  | beginOp
  | endOp
  | namei (p : Nat) (path : Path)
  | opens (p : Nat) (path : Option Path) (omode : Option (BitVec 32))
  | mkdir (p : Nat) (path : Option Path)
  | mknod (p : Nat) (path : Option Path) (major minor : Option (BitVec 32))
  | link (p : Nat) (old new : Option Path)
  | unlink (p : Nat) (path : Option Path)
  | chdir (p : Nat) (path : Option Path)
  | dup (p : Nat) (fd : Nat)
  | close (p : Nat) (fd : Nat)
  | read (f : Fin nfile) (n : BitVec 32)
  | write (f : Fin nfile) (src : Nat → Byte) (n : Nat)
  | fork (p q : Nat)
  | exit (p : Nat)

def locked {α : Type} (i : Nat) (c : F α) : F Unit := do
  ilock i
  let _ ← c
  iunlock i

/-- A call by one of the processes, which are `procs` afterwards. -/
def run {α : Type} (procs : Finset Nat → Finset Nat) (c : F α) : Prog Stop Sys Event Unit :=
  Prog.zoom Prod.snd (fun x s => (procs x.1, s)) id (do
    let _ ← c
    pure ())

def Op.run : Op → Prog Stop Sys Event Unit
  | .iget i                   => Files.run id (Files.iget i)
  | .idup i                   => Files.run id (Files.idup i)
  | .ialloc type              => Files.run id (Files.ialloc type)
  | .iput i                   => Files.run id (Files.iput i)
  | .bmap i bn                => Files.run id (locked i (Files.bmap i bn))
  | .itrunc i                 => Files.run id (locked i (Files.itrunc i))
  | .readi i off n            => Files.run id (locked i (Files.readi i off n))
  | .writei i src off n       => Files.run id (locked i (Files.writei i src off n))
  | .beginOp                  => Files.run id Files.beginOp
  | .endOp                    => Files.run id Files.endOp
  | .namei p path             => Files.run id (Files.namei p path)
  | .opens p path omode       => Files.run id (sysOpen p path omode)
  | .mkdir p path             => Files.run id (sysMkdir p path)
  | .mknod p path major minor => Files.run id (sysMknod p path major minor)
  | .link p old new           => Files.run id (sysLink p old new)
  | .unlink p path            => Files.run id (sysUnlink p path)
  | .chdir p path             => Files.run id (sysChdir p path)
  | .dup p fd                 => Files.run id (sysDup p fd)
  | .close p fd               => Files.run id (sysClose p fd)
  | .read f n                 => Files.run id (fileread f n)
  | .write f src n            => Files.run id (filewrite f src n)
  | .fork p q                 => Files.run (insert q ·) (Files.fork p q)
  | .exit p                   => Files.run (·.erase p) (Files.exit p)

/-- What a caller has to see to: he drops a reference that he holds and copies one that is held, and `bmap` is for blocks
below the size. -/
def Op.Allowed (x : Sys) : Op → Prop
  | .iput i      => stored x.1 x.2 i < x.2.refs i
  | .idup i      => 0 < x.2.refs i
  | .bmap i bn   => bn * bsize < (x.2.dinode i).size.toNat
  | .fork p q    => p ∈ x.1 ∧ q ∉ x.1
  | .namei p _ | .opens p _ _ | .mkdir p _ | .mknod p _ _ _ | .link p _ _ | .unlink p _ | .chdir p _ | .dup p _
  | .close p _ | .exit p => p ∈ x.1
  | _            => True

variable {P : Finset Nat}
variable {s t : State} {i : Nat}

/-! ## The counts -/

theorem given_nonneg (r : Option Nat) (i : Nat) : 0 ≤ given r i := by
  cases r with
  | none => exact Int.le_refl 0
  | some j =>
    simp only [given, Pi.single_apply]
    split_ifs <;> decide

theorem Kept.of_acct {δ : Acct} (h : Kept P s) (hg : Good t) (ht : t.acct = s.acct + δ) (h0 : δ.2.2.2 = 0)
    (hδ : ∀ i, 0 ≤ δ.1 i) : Kept P t := by
  have htab := acct_tables ht h0
  have hfile : t.file = s.file := congrArg (fun a : Tables => a.1) htab
  have hcwd : t.cwd = s.cwd := congrArg (fun a : Tables => a.2.2) htab
  refine ⟨hg, fun f => ?_, fun i => ?_⟩
  · rw [hfile]
    exact h.closed f
  · have hc := h.counted i
    unfold stored at hc ⊢
    rw [hfile, hcwd, acct_refs ht, Pi.add_apply s.refs]
    have := hδ i
    omega

theorem Kept.of_file (h : Kept P s) (hg : Good t) (f : Fin nfile)
    (hrefs : t.refs = s.refs + (given (t.file f).inum - given (s.file f).inum)) (hother : ∀ g, g ≠ f → t.file g = s.file g)
    (hcwd : t.cwd = s.cwd) (hclosed : (t.file f).ref = 0 → (t.file f).type = .none) : Kept P t := by
  refine ⟨hg, fun g => ?_, fun i => ?_⟩
  · by_cases hgf : g = f
    · rw [hgf]
      exact hclosed
    · rw [hother g hgf]
      exact h.closed g
  · have hc := h.counted i
    unfold stored at hc ⊢
    have hsum := sum_change (l := Finset.univ) (u := fun g => given (s.file g).inum) (v := fun g => given (t.file g).inum)
      (Finset.mem_univ f) fun g hgf => by rw [hother g hgf]
    rw [hsum, hcwd, hrefs, ← add_assoc, Pi.add_apply, Pi.add_apply s.refs]
    omega

theorem Kept.referenced (h : Kept P s) {p : Nat} (hp : p ∈ P) : 0 < s.refs (s.cwd p) := by
  refine Int.lt_of_lt_of_le ?_ (h.counted _)
  unfold stored
  rw [Pi.add_apply, Finset.sum_apply, Finset.sum_apply]
  have hp : (1 : Int) ≤ ∑ q ∈ P, (Pi.single (s.cwd q) 1 : Nat → Int) (s.cwd p) := by
    have := Finset.single_le_sum (f := fun q => (Pi.single (s.cwd q) 1 : Nat → Int) (s.cwd p))
      (fun q _ => given_nonneg (some (s.cwd q)) (s.cwd p)) hp
    simpa using this
  have hf : (0 : Int) ≤ ∑ f, given (s.file f).inum (s.cwd p) := Finset.sum_nonneg fun f _ => given_nonneg _ _
  omega

/-! ## Operations -/

theorem kept_wp {α : Type} {c : F α} {δ : α → Acct} (h : Kept P s) (hg : wp c (fun _ t => Good t) NotFreeing s)
    (hm : Moves State.acct c δ) (h0 : ∀ a, (δ a).2.2.2 = 0) (hδ : ∀ a i, 0 ≤ (δ a).1 i) :
    wp c (fun _ t => Kept P t) NotFreeing s :=
  (with_acct hg hm).imp fun a _ ht => h.of_acct ht.1 ht.2 (h0 a) (hδ a)

theorem kept_still {α : Type} {c : F α} (h : Kept P s) (hg : wp c (fun _ t => Good t) NotFreeing s)
    (hm : Still State.acct c) : wp c (fun _ t => Kept P t) NotFreeing s :=
  kept_wp h hg hm (fun _ => rfl) fun _ _ => Int.le_refl 0

theorem locked_wp {α : Type} {c : F α} (h : Kept P s) (hm : Still State.acct c)
    (hg : ∀ t, Good t → (t.inode i).locked = true → t.dinode = s.dinode → wp c (fun _ t => Good t) NotFreeing t) :
    wp (locked i c) (fun _ t => Kept P t) NotFreeing s := by
  have hmoves : Still State.acct (locked i c) := by
    refine (ilock_moves i).bind fun _ => Still.then_moves hm fun _ => ?_
    exact (iunlock_moves i).congr fun _ => by abel
  refine kept_still h ?_ hmoves
  unfold locked
  rw [wp_bind]
  refine (ilock_wp h.good).imp fun _ t ⟨ht, hl, hon⟩ => ?_
  rw [wp_bind]
  exact (hg t ht hl hon).imp fun _ u hu => iunlock_good hu i

theorem run_wp {α : Type} {procs : Finset Nat → Finset Nat} {c : F α} {x : Sys}
    (h : wp c (fun _ t => Kept (procs x.1) t) NotFreeing x.2) :
    wp (run procs c) (fun _ y => Kept y.1 y.2) NotFreeing x := by
  unfold run
  rw [Prog.wp_zoom, wp_bind]
  exact h

theorem iput_kept (h : Kept P s) (hr : stored P s i < s.refs i) : wp (iput i) (fun _ t => Kept P t) NotFreeing s := by
  refine (with_acct (iput_good h.good i) (iput_moves i)).imp fun _ t ⟨hg, ht⟩ => ?_
  have htab := acct_tables ht (by simp [ref])
  have hfile : t.file = s.file := congrArg (fun a : Tables => a.1) htab
  have hcwd : t.cwd = s.cwd := congrArg (fun a : Tables => a.2.2) htab
  refine ⟨hg, fun f => ?_, fun j => ?_⟩
  · rw [hfile]
    exact h.closed f
  · have hc := h.counted j
    unfold stored at hc hr ⊢
    rw [hfile, hcwd, acct_refs ht, Pi.add_apply s.refs]
    simp only [ref, Prod.fst_neg, Pi.neg_apply, Pi.single_apply]
    split_ifs with hj
    · subst hj
      omega
    · omega

theorem inum_inode {v : File} (h : v.type = .inode) : v.inum = some v.ip := if_pos h

theorem inum_none {v : File} (h : v.type = .none) : v.inum = none := if_neg (by simp [h])

theorem sysOpen_kept (h : Kept P s) {p : Nat} (hp : p ∈ P) (path : Option Path) (omode : Option (BitVec 32)) :
    wp (sysOpen p path omode) (fun _ t => Kept P t) NotFreeing s := by
  refine ((sysOpen_good h.good (h.referenced hp) path omode).and (sysOpen_wp p path omode h.closed)).imp ?_
  rintro r t ⟨hg, hopen⟩
  have hclosed := hopen.closed h.closed
  rcases hopen with ⟨-, hb, htab⟩ | ⟨fd, f, -, -, hr, -, hr', hty, hother, hcwd, hb⟩
  · have hacct : t.acct = s.acct := acct_ext (hb.refs.trans (add_zero _)) hb.locks hb.outstanding htab
    exact h.of_acct (δ := 0) hg (hacct.trans (add_zero _).symm) rfl fun _ => Int.le_refl 0
  · refine h.of_file hg f ?_ hother hcwd (hclosed f)
    rw [inum_none (h.closed f hr), inum_inode hty, hb.refs]
    simp only [given, sub_zero]

theorem sysChdir_kept (h : Kept P s) {p : Nat} (hp : p ∈ P) (path : Option Path) :
    wp (sysChdir p path) (fun _ t => Kept P t) NotFreeing s := by
  refine ((sysChdir_good h.good (h.referenced hp) path).and (sysChdir_wp p path)).imp ?_
  rintro r t ⟨hg, hb, hfile, hother⟩
  refine ⟨hg, fun f => ?_, fun i => ?_⟩
  · rw [hfile]
    exact h.closed f
  · have hc := h.counted i
    unfold stored at hc ⊢
    have hsum := sum_change (u := fun q => (Pi.single (s.cwd q) 1 : Nat → Int))
      (v := fun q => (Pi.single (t.cwd q) 1 : Nat → Int)) hp fun q hq => by rw [hother q hq]
    rw [hsum, hfile, hb.refs, add_right_comm, Pi.add_apply, Pi.add_apply s.refs]
    omega

/-- **`fileclose`**: the file gives up the reference that it holds, with its last reference. -/
theorem fileclose_wp (f : Fin nfile) : wp (fileclose f) (fun _ t =>
    t.refs = s.refs + (given (t.file f).inum - given (s.file f).inum) ∧ (∀ g, g ≠ f → t.file g = s.file g) ∧
      t.cwd = s.cwd ∧ ((t.file f).ref = 0 → (t.file f).type = .none)) (fun _ => True) s := by
  unfold fileclose
  rw [wp_bind, wp_read]
  refine Prog.wp_ite (fun _ => trivial) fun _ => Prog.wp_ite (fun hr => ?_) fun _ => ?_
  · rw [wp_modify, setFile_file]
    refine ⟨?_, fun g hg => if_neg hg, rfl, fun h0 => ?_⟩
    · have hsame : ({ s.file f with ref := (s.file f).ref - 1 } : File).inum = (s.file f).inum := rfl
      rw [hsame, sub_self, add_zero]
      rfl
    · change (s.file f).ref - 1 = 0 at h0
      omega
  · rw [wp_bind, wp_modify]
    have hnone : ({ s.file f with ref := 0, type := .none } : File).inum = none := inum_none rfl
    refine Prog.wp_when (fun hty => ?_) fun hty => ?_
    · have hclose : Moves State.acct (do beginOp; iput (s.file f).ip; endOp) (fun _ => - ref (s.file f).ip) :=
        beginOp_moves.bind fun _ => (iput_moves _).bind fun _ => endOp_moves.congr fun _ => by abel
      refine (hclose.wp _).imp fun _ t ht => ?_
      have htab := acct_tables ht (by simp [ref])
      have hfile : t.file = (s.setFile f { s.file f with ref := 0, type := .none }).file :=
        congrArg (fun a : Tables => a.1) htab
      have hself : t.file f = { s.file f with ref := 0, type := .none } := by rw [hfile, setFile_file]
      refine ⟨?_, fun g hg => ?_, ?_, fun _ => ?_⟩
      · rw [hself, hnone, inum_inode hty, acct_refs ht]
        simp only [given, zero_sub]
        rfl
      · rw [hfile]
        exact if_neg hg
      · exact congrArg (fun a : Tables => a.2.2) htab
      · rw [hself]
    · rw [setFile_file, hnone, show (s.file f).inum = none from if_neg hty, sub_self, add_zero]
      exact ⟨rfl, fun g hg => if_neg hg, rfl, fun _ => rfl⟩

theorem fileclose_kept (h : Kept P s) (f : Fin nfile) : wp (fileclose f) (fun _ t => Kept P t) NotFreeing s := by
  refine ((fileclose_good h.good f).and (fileclose_wp f)).imp ?_
  rintro _ t ⟨hg, hrefs, hother, hcwd, hclosed⟩
  exact h.of_file hg f hrefs hother hcwd hclosed

theorem Kept.setOfile (h : Kept P s) (p fd : Nat) (v : Option (Fin nfile)) : Kept P (s.setOfile p fd v) :=
  ⟨h.good.tables _ _ _, h.closed, h.counted⟩

theorem sysClose_kept (h : Kept P s) (p fd : Nat) : wp (sysClose p fd) (fun _ t => Kept P t) NotFreeing s := by
  unfold sysClose
  rw [wp_bind, wp_read]
  cases s.argfd p fd with
  | none => exact h
  | some f =>
    refine Prog.wp_bind.2 ((Prog.wp_modify _).2 ?_)
    exact Prog.wp_bind.2 ((fileclose_kept (h.setOfile p fd none) f).imp fun _ _ ht => ht)

/-! ### Reading and writing -/

theorem Kept.seek (h : Kept P s) {f : Fin nfile} {v : File} (hty : v.type = (s.file f).type) (hip : v.ip = (s.file f).ip)
    (hr : v.ref = (s.file f).ref) : Kept P (s.setFile f v) := by
  have hself : (s.setFile f v).file f = v := setFile_file s f v
  have hinum : v.inum = (s.file f).inum := by
    unfold File.inum
    rw [hty, hip]
  refine h.of_file (h.good.tables _ _ _) f ?_ (fun g hgf => if_neg hgf) rfl fun h0 => ?_
  · rw [hself, hinum, sub_self, add_zero]
    rfl
  · rw [hself, hr] at h0
    rw [hself, hty]
    exact h.closed f h0

theorem ilock_kept (h : Kept P s) (i : Nat) :
    wp (ilock i) (fun _ t => Kept P t ∧ (t.inode i).locked = true ∧ t.file = s.file) NotFreeing s := by
  refine ((ilock_wp h.good).and ((ilock_moves i).wp s)).imp fun _ t ⟨⟨hg, hl, _⟩, ht⟩ => ?_
  have h0 : (lck i).2.2.2 = 0 := rfl
  refine ⟨h.of_acct hg ht h0 fun _ => Int.le_refl 0, hl, ?_⟩
  exact congrArg (fun a : Tables => a.1) (acct_tables ht h0)

theorem iunlock_kept (h : Kept P s) (i : Nat) : wp (iunlock i) (fun _ t => Kept P t) NotFreeing s :=
  kept_wp h (iunlock_good h.good i) (iunlock_moves i) (fun _ => by simp [lck]) fun _ _ => by simp [lck]

theorem beginOp_kept (h : Kept P s) : wp beginOp (fun _ t => Kept P t ∧ t.file = s.file) NotFreeing s := by
  refine (with_acct (beginOp_good h.good) beginOp_moves).imp fun _ t ⟨hg, ht⟩ => ?_
  exact ⟨h.of_acct hg ht rfl fun _ => Int.le_refl 0, congrArg (fun a : Tables => a.1) (acct_tables ht rfl)⟩

theorem endOp_kept (h : Kept P s) : wp endOp (fun _ t => Kept P t) NotFreeing s :=
  kept_wp h (endOp_good h.good) endOp_moves (fun _ => by simp [op]) fun _ _ => by simp [op]

theorem fileread_kept (h : Kept P s) (f : Fin nfile) (n : BitVec 32) :
    wp (fileread f n) (fun _ t => Kept P t) NotFreeing s := by
  unfold fileread
  rw [wp_bind, wp_read]
  refine Prog.wp_ite (fun _ => h) fun _ => ?_
  rw [wp_bind]
  refine (ilock_kept h _).imp fun _ t ⟨ht, hl, hfile⟩ => ?_
  rw [wp_bind]
  refine (readi_pure ht.good hl _ _).good.imp fun r u hu => ?_
  subst hu
  rw [wp_bind, wp_modify, wp_bind]
  have hseek := ht.seek (f := f) (v := { s.file f with off := (s.file f).off + BitVec.ofNat 32 (r.getD []).length })
    (by rw [hfile]) (by rw [hfile]) (by rw [hfile])
  exact (iunlock_kept hseek _).imp fun _ v hv => hv

theorem writeChunk_kept (h : Kept P s) (f : Fin nfile) (src : Nat → Byte) (n : Nat) :
    wp (writeChunk f src n) (fun _ t => Kept P t) NotFreeing s := by
  unfold writeChunk
  rw [wp_bind]
  refine (beginOp_kept h).imp fun _ t ⟨ht, _⟩ => ?_
  rw [wp_bind, wp_read, wp_bind]
  refine (ilock_kept ht _).imp fun _ u ⟨hu, hl, hfile⟩ => ?_
  rw [wp_bind]
  refine (with_acct ((writei_wp hu.good hl _ _ _).imp fun _ _ hv => hv.1) (writei_still _ _ _ _)).imp ?_
  rintro r v ⟨hv, hva⟩
  have hvk := hu.of_acct hv hva rfl fun _ => Int.le_refl 0
  have hvf : v.file = t.file := (congrArg (fun a : Tables => a.1) (acct_tables hva rfl)).trans hfile
  rw [wp_bind]
  have hwhen : wp (Prog.when (0 < r) (Prog.modify (·.setFile f { t.file f with
      off := (t.file f).off + BitVec.ofInt 32 r }) : F Unit)) (fun _ t => Kept P t) NotFreeing v :=
    Prog.wp_when (fun _ => hvk.seek (by rw [hvf]) (by rw [hvf]) (by rw [hvf])) fun _ => hvk
  refine hwhen.imp fun _ w hw => ?_
  rw [wp_bind]
  refine (iunlock_kept hw _).imp fun _ x hx => ?_
  exact Prog.wp_bind.2 ((endOp_kept hx).imp fun _ _ hy => hy)

theorem filewriteLoop_kept (f : Fin nfile) : ∀ (k : Nat) (src : Nat → Byte) (n : Nat) (s : State), Kept P s →
    wp (filewriteLoop f k src n) (fun _ t => Kept P t) NotFreeing s
  | 0, _, _, _, h => h
  | k + 1, src, n, s, h => by
    unfold filewriteLoop
    refine Prog.wp_ite (fun _ => h) fun _ => ?_
    rw [wp_bind]
    refine (writeChunk_kept h f src _).imp fun r t ht => ?_
    exact Prog.wp_ite (fun _ => ht) fun _ => Prog.wp_ite (fun _ => by simp [NotFreeing]) fun _ =>
      filewriteLoop_kept f k _ _ t ht

theorem filewrite_kept (h : Kept P s) (f : Fin nfile) (src : Nat → Byte) (n : Nat) :
    wp (filewrite f src n) (fun _ t => Kept P t) NotFreeing s := by
  unfold filewrite
  rw [wp_bind, wp_read]
  refine Prog.wp_ite (fun _ => h) fun _ => ?_
  rw [wp_bind]
  refine (filewriteLoop_kept f n src n s h).imp fun r t ht => ?_
  exact Prog.wp_ite (fun _ => ht) fun _ => ht

/-! ### Processes -/

theorem filedup_kept (h : Kept P s) (f : Fin nfile) : wp (filedup f) (fun _ t => Kept P t) NotFreeing s := by
  unfold filedup
  rw [wp_bind, wp_read]
  refine Prog.wp_ite (fun _ => by simp [NotFreeing]) fun hr => ?_
  rw [wp_modify]
  refine h.of_file (h.good.tables _ _ _) f ?_ (fun g hg => if_neg hg) rfl fun h0 => ?_
  · have hsame : ({ s.file f with ref := (s.file f).ref + 1 } : File).inum = (s.file f).inum := rfl
    rw [setFile_file, hsame, sub_self, add_zero]
    rfl
  · rw [setFile_file] at h0
    change (s.file f).ref + 1 = 0 at h0
    omega

theorem sysDup_kept (h : Kept P s) (p fd : Nat) : wp (sysDup p fd) (fun _ t => Kept P t) NotFreeing s := by
  unfold sysDup fdalloc
  rw [wp_bind, wp_read]
  cases s.argfd p fd with
  | none => exact h
  | some f =>
    rw [wp_bind, wp_bind, wp_read]
    cases (List.range nofile).find? (fun fd => (s.ofile p fd).isNone) with
    | none => exact h
    | some fd =>
      rw [wp_bind, wp_modify, wp_pure, wp_bind]
      exact (filedup_kept (h.setOfile p fd (some f)) f).imp fun _ _ ht => ht

theorem dupFd_kept (h : Kept P s) (p q fd : Nat) : wp (dupFd p q fd) (fun _ t => Kept P t) NotFreeing s := by
  unfold dupFd
  rw [wp_bind, wp_read]
  cases s.ofile p fd with
  | none => exact h
  | some f => exact wp_bind.2 ((filedup_kept h f).imp fun _ t ht => ht.setOfile q fd (some f))

theorem fork_kept (h : Kept P s) {p q : Nat} (hp : p ∈ P) (hq : q ∉ P) :
    wp (fork p q) (fun _ t => Kept (insert q P) t) NotFreeing s := by
  unfold fork idup
  rw [wp_bind]
  refine (Prog.wp_forEach _ s h fun fd _ s hs => dupFd_kept hs p q fd).imp fun _ t ht => ?_
  rw [wp_bind, wp_read, wp_bind, wp_bind, wp_modify, wp_pure, wp_modify]
  have hg := ht.good.addRef (ht.referenced hp)
  refine ⟨hg.tables _ _ _, ht.closed, fun i => ?_⟩
  have hc := ht.counted i
  have hcwd : ∀ r ∈ P, ((t.addRef (t.cwd p)).setCwd q (t.cwd p)).cwd r = t.cwd r :=
    fun r hr => if_neg fun (e : r = q) => hq (e ▸ hr)
  have hself : ((t.addRef (t.cwd p)).setCwd q (t.cwd p)).cwd q = t.cwd p := if_pos rfl
  have hrefs : ((t.addRef (t.cwd p)).setCwd q (t.cwd p)).refs = t.refs + Pi.single (t.cwd p) 1 :=
    congrArg (fun a : Acct => a.1) addRef_acct
  unfold stored at hc ⊢
  rw [Finset.sum_insert hq, Finset.sum_congr rfl fun r hr => by rw [hcwd r hr], hself, hrefs]
  change (Pi.single (t.cwd p) 1 + ∑ r ∈ P, Pi.single (t.cwd r) 1 + ∑ f, given (t.file f).inum : Nat → Int) i ≤ _
  simp only [Pi.add_apply] at hc ⊢
  omega

theorem closeFd_kept (h : Kept P s) (p fd : Nat) : wp (closeFd p fd) (fun _ t => Kept P t) NotFreeing s := by
  unfold closeFd
  rw [wp_bind, wp_read]
  cases s.ofile p fd with
  | none => exact h
  | some f => exact wp_bind.2 ((fileclose_kept h f).imp fun _ t ht => ht.setOfile p fd none)

theorem stored_erase {p : Nat} (hp : p ∈ P) : stored P s = stored (P.erase p) s + Pi.single (s.cwd p) 1 := by
  unfold stored
  rw [← Finset.add_sum_erase P _ hp]
  abel

theorem Kept.leave (h : Kept P s) {p : Nat} (hp : p ∈ P) :
    Kept (P.erase p) s ∧ stored (P.erase p) s (s.cwd p) < s.refs (s.cwd p) := by
  have hst := stored_erase (s := s) hp
  refine ⟨⟨h.good, h.closed, fun i => ?_⟩, ?_⟩
  · have hc := h.counted i
    rw [hst, Pi.add_apply] at hc
    have := given_nonneg (some (s.cwd p)) i
    simp only [given] at this
    omega
  · have hc := h.counted (s.cwd p)
    rw [hst, Pi.add_apply, Pi.single_eq_same] at hc
    omega

theorem exit_kept (h : Kept P s) {p : Nat} (hp : p ∈ P) :
    wp (exit p) (fun _ t => Kept (P.erase p) t) NotFreeing s := by
  unfold exit
  rw [wp_bind]
  refine (Prog.wp_forEach _ s h fun fd _ s hs => closeFd_kept hs p fd).imp fun _ t ht => ?_
  rw [wp_bind]
  refine (beginOp_kept ht).imp fun _ u ⟨hu, _⟩ => ?_
  rw [wp_bind, wp_read, wp_bind]
  obtain ⟨hl, hspare⟩ := hu.leave hp
  exact (iput_kept hl hspare).imp fun _ v hv => endOp_kept hv

/-! ## Runs -/

theorem op_kept {x : Sys} (h : Kept x.1 x.2) (op : Op) (ha : op.Allowed x) :
    wp op.run (fun _ y => Kept y.1 y.2) NotFreeing x := by
  cases op with
  | iget i =>
    exact run_wp (kept_wp h ((iget_wp h.good).imp fun _ _ ht => ht.2) (iget_moves i) (fun _ => rfl)
      fun r => handed_nonneg (some r))
  | idup i =>
    exact run_wp (kept_wp h ((idup_wp h.good ha).imp fun _ _ ht => ht.2) (idup_moves i) (fun _ => rfl)
      fun r => handed_nonneg (some r))
  | ialloc type =>
    exact run_wp (kept_wp h (ialloc_wp h.good type) (ialloc_moves type) (fun _ => rfl) fun r => handed_nonneg (some r))
  | iput i => exact run_wp (iput_kept h ha)
  | bmap i bn =>
    refine run_wp (locked_wp h (bmap_still i bn) fun t ht hl hd => ?_)
    have hip := ht.ip hl
    have hb : blockOf (t.addr i) i bn ≠ 0 := by
      rw [addr_eq_onDisk hip.1]
      refine ht.filled i hip.2 bn ?_
      rw [hd]
      exact ha
    exact Prog.wp_of_run (bmap_found (hip.1 ▸ hip.2) hb) ht
  | itrunc i =>
    refine run_wp (locked_wp h (itrunc_still i) fun t ht hl _ => ?_)
    exact (itrunc_wpt ht hl rfl).wp (fun _ _ _ hu => hu.1.good) fun e he => AsleepOr.notFreeing (.inr he)
  | readi i off n =>
    refine run_wp (locked_wp h (readi_still i off n) fun t ht hl _ => ?_)
    exact (readi_pure ht hl off n).good.imp fun _ u hu => hu ▸ ht
  | writei i src off n =>
    exact run_wp (locked_wp h (writei_still i src off n) fun t ht hl _ => (writei_wp ht hl src off n).imp fun _ _ hu => hu.1)
  | beginOp => exact run_wp ((beginOp_kept h).imp fun _ _ ht => ht.1)
  | endOp => exact run_wp (endOp_kept h)
  | namei p path =>
    exact run_wp (kept_wp h (namei_good h.good (h.referenced ha) path) (namei_moves p path) handed_tables handed_nonneg)
  | opens p path omode => exact run_wp (sysOpen_kept h ha path omode)
  | mkdir p path =>
    exact run_wp (kept_still h (sysMkdir_good h.good (h.referenced ha) path) (sysMkdir_still p path))
  | mknod p path major minor =>
    exact run_wp (kept_still h (sysMknod_good h.good (h.referenced ha) path major minor) (sysMknod_still p path major minor))
  | link p old new => exact run_wp (kept_still h (sysLink_good h.good (h.referenced ha) old new) (sysLink_still p old new))
  | unlink p path => exact run_wp (kept_still h (sysUnlink_good h.good (h.referenced ha) path) (sysUnlink_still p path))
  | chdir p path => exact run_wp (sysChdir_kept h ha path)
  | dup p fd => exact run_wp (sysDup_kept h p fd)
  | close p fd => exact run_wp (sysClose_kept h p fd)
  | read f n => exact run_wp (fileread_kept h f n)
  | write f src n => exact run_wp (filewrite_kept h f src n)
  | fork p q => exact run_wp (fork_kept h ha.1 ha.2)
  | exit p => exact run_wp (exit_kept h ha)

theorem kept_run {x : Sys} (h : Kept x.1 x.2) {ops : List Op} (ha : Prog.Admits Op.Allowed Op.run ops x) :
    wp (Prog.forEach ops Op.run) (fun _ y => Kept y.1 y.2) NotFreeing x :=
  Prog.wp_admits (fun op _ hx => op_kept hx op) ops x h ha

/-- **Blocks have one owner and the bitmap tells the truth**, after every run of operations: a block number is held once,
of a data block whose bit is set; a data block that is not held has its bit clear; and who writes a file leaves the others
alone.  No free block is freed on the way. -/
theorem blocks_owned {x : Sys} (h : Kept x.1 x.2) {ops : List Op} (ha : Prog.Admits Op.Allowed Op.run ops x) :
    wp (Prog.forEach ops Op.run) (fun _ y =>
      (∀ p, y.2.onDisk p ≠ 0 → InData (y.2.onDisk p) ∧ y.2.bit (y.2.onDisk p) = true ∧
        ∀ q, y.2.onDisk q = y.2.onDisk p → q = p) ∧
      (∀ b, InData b → (∀ p, y.2.onDisk p ≠ b) → y.2.bit b = false) ∧
      ∀ i src off n, (y.2.inode i).locked = true →
        wp (writei i src off n) (fun _ z => ∀ j, j ≠ i → Untouched j y.2 z) NotFreeing y.2) NotFreeing x := by
  refine (kept_run h ha).imp fun _ y hy => ?_
  have hown := hy.good.exact.owned
  refine ⟨fun p hp => ⟨hown.area p hp, hown.set hp, fun q hq => ?_⟩, fun b hb hfree => ?_, fun i src off n hl => ?_⟩
  · exact (hown.once p q hp hq.symm).symm
  · refine Bool.eq_false_iff.2 fun hbit => ?_
    obtain ⟨p, hp⟩ := (hown.bits b hb).1 hbit
    exact hfree p hp
  · exact (writei_wp hy.good hl src off n).imp fun _ _ hz => hz.2.2

/-- The file system of `bareRoot`, with the blocks up to the bitmap in use. -/
def bareDisk : State := { bareRoot with bit := fun b => decide (b.toNat < nmeta) }

theorem bareDisk_addrs (i : Nat) (k : Fin 13) : (bareDisk.dinode i).addrs k = 0 := by
  unfold bareDisk bareRoot
  dsimp only
  split_ifs <;> rfl

theorem bareDisk_size (i : Nat) : (bareDisk.dinode i).size = 0 := by
  unfold bareDisk bareRoot
  dsimp only
  split_ifs <;> rfl

theorem bareDisk_good : Good bareDisk := by
  have hnone : ∀ p, bareDisk.onDisk p = 0 := fun p => onDisk_empty (bareDisk_addrs p.inum) rfl
  refine ⟨⟨⟨fun p hp => absurd (hnone p) hp, fun p q hp => absurd (hnone p) hp, fun b hb => ?_⟩,
    fun b hb => decide_eq_true hb⟩,
    fun i _ n hn => ?_, fun i _ hv => absurd hv Bool.false_ne_true, fun i hl => absurd hl Bool.false_ne_true⟩
  · refine ⟨fun h => absurd hb.1 (Nat.not_le.2 (of_decide_eq_true h)), ?_⟩
    rintro ⟨p, rfl⟩
    exact absurd (hnone p ▸ hb) not_inData_zero
  · rw [bareDisk_size] at hn
    exact absurd hn (Nat.not_lt_zero _)

/-- `open("/a", O_CREATE)` makes a file and opens it. -/
theorem bareDisk_opened : (sysOpen 0 (some [slash, 97]) (some 0x200#32) bareDisk).res = .ok 0 ∧
    Opened 0 0 bareDisk (sysOpen 0 (some [slash, 97]) (some 0x200#32) bareDisk).st := by
  have hrun : (sysOpen 0 (some [slash, 97]) (some 0x200#32) bareDisk).res.toOption = some 0 := by decide +kernel
  have hopen := (calls_balanced 0 bareDisk bareRoot_closed).2.2.2.2.2.2.2.2 (some [slash, 97]) (some 0x200#32)
  exact ⟨Prog.res_ok hrun, hopen.ok (Prog.res_ok hrun)⟩

theorem bareDisk_kept : Kept {0} bareDisk := by
  refine ⟨bareDisk_good, bareRoot_closed, fun i => ?_⟩
  have hfiles : ∑ f, given (bareDisk.file f).inum = 0 := Finset.sum_eq_zero fun f _ => rfl
  unfold stored
  rw [Finset.sum_singleton, hfiles, add_zero, Pi.single_apply]
  exact Int.le_refl _

theorem bareDisk_run : wp (Prog.forEach [Op.opens 0 (some [slash, 97]) (some 0x200#32)] Op.run) (fun _ y =>
      (∀ p, y.2.onDisk p ≠ 0 → InData (y.2.onDisk p) ∧ y.2.bit (y.2.onDisk p) = true ∧
        ∀ q, y.2.onDisk q = y.2.onDisk p → q = p) ∧
      (∀ b, InData b → (∀ p, y.2.onDisk p ≠ b) → y.2.bit b = false) ∧
      ∀ i src off n, (y.2.inode i).locked = true →
        wp (writei i src off n) (fun _ z => ∀ j, j ≠ i → Untouched j y.2 z) NotFreeing y.2) NotFreeing ({0}, bareDisk) := by
  exact blocks_owned (x := ({0}, bareDisk)) bareDisk_kept (Prog.admits_singleton (Finset.mem_singleton_self 0))

end Files
end Xv6
