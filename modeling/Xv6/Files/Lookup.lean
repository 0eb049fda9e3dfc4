import Xv6.Files.Keep
/-!
# Files.Lookup — paths are followed without a write

What an entry of a directory is, and that a lookup leaves the disk and the log alone where each inode without links is
referred to.
-/
namespace Xv6
namespace Files

open Fs (Bno Block)
open Prog (Moves Still Quiet wpt wpt_bind wpt_read wpt_modify wpt_pure)

/-- An inode without links is kept by someone. -/
def NoOrphan (s : State) : Prop := ∀ i, (s.dinode i).type ≠ .free → (s.dinode i).nlink = 0 → 0 < s.refs i

def State.disk (s : State) : (Nat → Dinode) × (Bno → Block) × (Bno → Bool) := (s.dinode, s.data, s.bit)

structure SameDisk (s t : State) : Prop where
  good : Good t
  disk : t.disk = s.disk

/-- The references of `s`, and one more to inode `i`. -/
def OneMore (i : Nat) (s t : State) : Prop := ∀ j, s.refs j + given (some i) j ≤ t.refs j

def State.lookup (s : State) (dp : Nat) (name : Name) : Option (Nat × Nat) :=
  ((offsets (s.dinode dp).size).find? (fun off =>
    decide ((s.direntAt dp off).inum ≠ 0) && nameEq name (s.direntAt dp off).name)).map
      (fun off => ((s.direntAt dp off).inum.toNat, off))

variable {s t u : State} {i : Nat}

theorem SameDisk.refl (h : Good s) : SameDisk s s := ⟨h, rfl⟩

theorem SameDisk.trans (h : SameDisk s t) (h' : SameDisk t u) : SameDisk s u := ⟨h'.good, h'.disk.trans h.disk⟩

theorem SameDisk.dinode (h : SameDisk s t) : t.dinode = s.dinode :=
  congrArg (fun d : (Nat → Dinode) × (Bno → Block) × (Bno → Bool) => d.1) h.disk

theorem SameDisk.data (h : SameDisk s t) : t.data = s.data :=
  congrArg (fun d : (Nat → Dinode) × (Bno → Block) × (Bno → Bool) => d.2.1) h.disk

theorem SameDisk.onDisk (h : SameDisk s t) : t.onDisk = s.onDisk := by
  unfold State.onDisk
  rw [h.dinode, h.data]

theorem SameDisk.direntAt (h : SameDisk s t) : t.direntAt = s.direntAt := by
  unfold State.direntAt State.byteAt
  rw [h.onDisk, h.data]

theorem SameDisk.lookup (h : SameDisk s t) : t.lookup = s.lookup := by
  unfold State.lookup
  rw [h.dinode, h.direntAt]

/-! ## Inodes -/

theorem entry_quiet (i : Nat) : Quiet State.disk (fun _ => False) (entry i) := by
  unfold entry
  refine Quiet.bind Quiet.get fun s => ?_
  refine Quiet.ite (fun _ => Quiet.modify fun _ => rfl) fun _ => ?_
  exact Quiet.ite (fun _ => Quiet.stop _) fun _ => Quiet.modify fun _ => rfl

theorem iget_quiet (i : Nat) : Quiet State.disk (fun _ => False) (iget i) := (entry_quiet i).bind fun _ => Quiet.pure i

theorem ilock_quiet (i : Nat) : Quiet State.disk (fun _ => False) (ilock i) := by
  unfold ilock acquiresleep readInode
  refine Quiet.bind (Quiet.read _) fun n => ?_
  refine Quiet.ite (fun _ => Quiet.stop _) fun _ => Quiet.bind ?_ fun _ => ?_
  · refine Quiet.bind (Quiet.read _) fun n => ?_
    exact Quiet.ite (fun _ => Quiet.stop _) fun _ => Quiet.modify fun _ => rfl
  · refine Quiet.bind (Quiet.read _) fun n => ?_
    refine Quiet.when fun _ => Quiet.bind (Quiet.modify fun _ => rfl) fun _ => ?_
    refine Quiet.bind (Quiet.read _) fun d => ?_
    exact Quiet.ite (fun _ => Quiet.stop _) fun _ => Quiet.pure _

theorem iunlock_quiet (i : Nat) : Quiet State.disk (fun _ => False) (iunlock i) := by
  unfold iunlock releasesleep
  refine Quiet.bind (Quiet.read _) fun n => ?_
  exact Quiet.ite (fun _ => Quiet.stop _) fun _ => Quiet.modify fun _ => rfl

theorem iget_wpt (h : Good s) (i : Nat) : wpt (iget i) (fun a t ev => a = i ∧ SameDisk s t ∧ ev = []) NotFreeing s :=
  ((iget_quiet i).wpt (iget_wp h)).imp fun _ _ _ ⟨⟨ha, hg⟩, hd, hev⟩ => ⟨ha, ⟨hg, hd⟩, hev⟩

theorem ilock_wpt (h : Good s) (i : Nat) :
    wpt (ilock i) (fun _ t ev => SameDisk s t ∧ (t.inode i).locked = true ∧ ev = []) NotFreeing s :=
  ((ilock_quiet i).wpt (ilock_wp h)).imp fun _ _ _ ⟨⟨hg, hl, _⟩, hd, hev⟩ => ⟨⟨hg, hd⟩, hl, hev⟩

theorem iunlock_wpt (h : Good s) (i : Nat) : wpt (iunlock i) (fun _ t ev => SameDisk s t ∧ ev = []) NotFreeing s :=
  ((iunlock_quiet i).wpt (iunlock_wp h)).imp fun _ _ _ ⟨⟨hg, _⟩, hd, hev⟩ => ⟨⟨hg, hd⟩, hev⟩

/-- **`iput` where someone else refers to the inode, or a directory names it.** -/
theorem iput_same (h : Good s) (hf : ¬ Frees s i) : wpt (iput i) (fun _ t ev => SameDisk s t ∧ ev = []) NotFreeing s := by
  have hgood := iput_wpt (i := i) h rfl
  unfold putLog at hgood
  rw [if_neg hf] at hgood
  have hdisk : Prog.wp (iput i) (fun _ t => t.disk = s.disk) (fun _ => True) s := by
    unfold iput acquiresleep releasesleep
    rw [Prog.wp_bind, Prog.wp_bind, Prog.wp_read]
    refine Prog.wp_ite (fun _ => trivial) fun hl => ?_
    rw [Prog.wp_modify, Prog.wp_bind, Prog.wp_read, Prog.wp_bind, setInode_self]
    exact Prog.wp_when (fun hc => absurd hc hf) fun _ => rfl
  exact (hgood.and_wp hdisk).mono (fun _ _ _ ⟨⟨hp, hev⟩, hd⟩ => ⟨⟨hp.good, hd⟩, hev⟩) fun _ => AsleepOr.notFreeing

theorem OneMore.kept (ho : NoOrphan s) (h : SameDisk s t) (hr : OneMore i s t) : ¬ Frees t i := by
  rintro ⟨hv, hn, href⟩
  have hpos : 0 < (t.inode i).ref := href ▸ Int.zero_lt_one
  obtain ⟨hip, hty⟩ := h.good.sync i hpos hv
  have hnlink : (s.dinode i).nlink = 0 := by
    rw [← h.dinode, ← hip]
    exact hn
  have hs := ho i (h.dinode ▸ hty) hnlink
  have ht := hr i
  simp only [given, Pi.single_eq_same] at ht
  change _ ≤ (t.inode i).ref at ht
  omega

end Files
end Xv6
