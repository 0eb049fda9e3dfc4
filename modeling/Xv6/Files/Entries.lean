import Xv6.Files.Array
import Xv6.Files.Lookup
import Xv6.Lib.Slots
/-!
# Files.Entries — a directory is a finite map

The names of a directory are compared and stored with `strncmp` and `strncpy`, in at most `DIRSIZ` bytes.  `dirlookup` is a
search of the table of its entries, and `dirlink` puts a name into the first free one; it does not come back where the name
is there and the inode it names is the one that the caller has locked.
-/
namespace Xv6
namespace Files

open Fs (Bno Block)
open Prog (wp wpt wp_bind wp_read wp_pure)

variable {s t u : State} {dp : Nat} {name : Name}

/-! ## Names (string.c) -/

/-- `strncmp`; a string reads as 0 where it ends. -/
def strncmp : Nat → Name → Name → Int
  | 0, _, _     => 0
  | n + 1, p, q =>
    if p.headD 0 ≠ 0 ∧ p.headD 0 = q.headD 0 then strncmp n p.tail q.tail
    else (p.headD 0).toNat - (q.headD 0).toNat

/-- The bytes that `strncpy` stores: after the end of the string, zeros. -/
def strncpy : Nat → Name → List Byte
  | 0, _     => []
  | n + 1, t => if t.headD 0 = 0 then 0 :: List.replicate n 0 else t.headD 0 :: strncpy n t.tail

/-- A string up to its end, in at most `n` bytes. -/
def prefixOf (n : Nat) (p : Name) : Name := (p.take n).takeWhile (fun b => b ≠ 0)

theorem prefixOf_succ (n : Nat) (p : Name) :
    prefixOf (n + 1) p = if p.headD 0 = 0 then [] else p.headD 0 :: prefixOf n p.tail := by
  cases p with
  | nil => simp [prefixOf]
  | cons b p =>
    unfold prefixOf
    rw [List.headD_cons, List.tail_cons, List.take_succ_cons, List.takeWhile_cons]
    by_cases hb : b = 0
    · rw [hb, if_pos rfl]
      rfl
    · rw [if_neg hb, if_pos (decide_eq_true hb)]

/-- **`strncmp` is 0 on names that agree up to their end**, in so many bytes. -/
theorem strncmp_eq_zero : ∀ (n : Nat) (p q : Name), strncmp n p q = 0 ↔ prefixOf n p = prefixOf n q
  | 0, p, q     => by simp [strncmp, prefixOf]
  | n + 1, p, q => by
    have ih := strncmp_eq_zero n p.tail q.tail
    unfold strncmp
    rw [prefixOf_succ, prefixOf_succ]
    generalize p.headD 0 = a, q.headD 0 = b
    by_cases hab : a = b
    · subst hab
      by_cases ha : a = 0
      · rw [if_neg fun hc => hc.1 ha, if_pos ha, if_pos ha, sub_self]
        simp
      · rw [if_pos ⟨ha, rfl⟩, ih, if_neg ha, if_neg ha, List.cons.injEq]
        simp
    · have hsub : (a.toNat : Int) - b.toNat ≠ 0 := by
        rw [sub_ne_zero, Ne, Nat.cast_inj, BitVec.toNat_inj]
        exact hab
      rw [if_neg fun hc => hab hc.2]
      split <;> split <;> simp_all

/-- `namecmp`, and the test that `dirlookup` makes of it. -/
def namecmp (s t : Name) : Int := strncmp dirsiz s t

theorem nameEq_iff (p q : Name) : nameEq p q = true ↔ namecmp p q = 0 := by
  unfold nameEq namecmp
  rw [decide_eq_true_iff, strncmp_eq_zero]
  rfl

theorem strncpy_eq : ∀ (n : Nat) (p : Name), (0 : Byte) ∉ p →
    strncpy n p = (List.range n).map fun k => (p.take n).getD k 0
  | 0, _, _ => rfl
  | n + 1, [], _ => by
    refine List.ext_getElem (by simp [strncpy]) fun k _ _ => ?_
    simp only [strncpy, List.headD_nil, if_true, List.getElem_map, List.take_nil, List.getD_nil]
    cases k <;> simp
  | n + 1, b :: p, h => by
    have hb : b ≠ 0 := fun he => h (he ▸ List.mem_cons_self)
    rw [strncpy, List.headD_cons, if_neg hb, List.tail_cons, strncpy_eq n p fun hp => h (List.mem_cons_of_mem b hp),
      List.range_succ_eq_map, List.map_cons, List.map_map]
    simp [Function.comp_def]

theorem byte_strncpy (inum : BitVec 16) (h : (0 : Byte) ∉ name) :
    (List.range dirsiz).map (fun k => Dirent.byte ⟨inum, name⟩ (k + 2)) = strncpy dirsiz name := by
  rw [strncpy_eq _ _ h]
  refine List.map_congr_left fun k _ => ?_
  simp [Dirent.byte]

theorem prefixOf_padded : ∀ (n : Nat) (p : Name),
    prefixOf n ((List.range n).map fun k => (p.take n).getD k 0) = prefixOf n p
  | 0, _     => by simp [prefixOf]
  | n + 1, p => by
    have hhead : (p.take (n + 1)).getD 0 0 = p.headD 0 := by cases p <;> rfl
    have htail : ∀ k, (p.take (n + 1)).getD (k + 1) 0 = (p.tail.take n).getD k 0 := fun k => by cases p <;> simp
    rw [prefixOf_succ, prefixOf_succ, List.range_succ_eq_map, List.map_cons, List.map_map, List.headD_cons, List.tail_cons,
      hhead]
    simp only [Function.comp_def, htail, prefixOf_padded n p.tail]

/-! ## The table -/

structure IsDir (s : State) (dp : Nat) : Prop where
  type  : (s.dinode dp).type = .dir
  whole : (s.dinode dp).size.toNat % 16 = 0

def Dirent.used (de : Dirent) : Option (Name × Nat) := if de.inum = 0 then none else some (cname de.name, de.inum.toNat)

def State.dir (s : State) (dp : Nat) : Slots Name Nat where
  size := (s.dinode dp).size.toNat / 16
  slot k := if k < (s.dinode dp).size.toNat / 16 then (s.direntAt dp (16 * k)).used else none
  free _ hk := if_neg (Nat.not_lt.2 hk)

theorem IsDir.offsets (h : IsDir s dp) : offsets (s.dinode dp).size = (List.range (s.dir dp).size).map fun k => 16 * k := by
  have hw := h.whole
  unfold Files.offsets
  rw [show ((s.dinode dp).size.toNat + 15) / 16 = (s.dir dp).size by simp only [State.dir]; omega]

theorem dir_slot {k : Nat} (h : k < (s.dir dp).size) : (s.dir dp).slot k = (s.direntAt dp (16 * k)).used := if_pos h

theorem used_eq_none {de : Dirent} : de.used = none ↔ de.inum = 0 := by
  unfold Dirent.used
  split <;> simp_all

theorem findSome?_of_find? {α β : Type} {f : α → Option β} {p : α → Bool} {g : α → β} : ∀ (l : List α),
    (∀ x ∈ l, f x = if p x then some (g x) else none) → l.findSome? f = (l.find? p).map g
  | [], _     => rfl
  | x :: l, h => by
    have hx := h x List.mem_cons_self
    rw [List.findSome?_cons, hx]
    by_cases hp : p x
    · rw [if_pos hp, List.find?_cons_of_pos hp]
      rfl
    · rw [if_neg hp, List.find?_cons_of_neg hp]
      exact findSome?_of_find? l fun y hy => h y (List.mem_cons_of_mem x hy)

theorem lookup_eq (h : IsDir s dp) (name : Name) :
    s.lookup dp name = ((s.dir dp).find (cname name)).map fun e => (e.1, 16 * e.2) := by
  unfold State.lookup Slots.find
  rw [h.offsets, List.find?_map, Option.map_map, List.map_findSome?]
  refine (findSome?_of_find? _ fun k hk => ?_).symm
  rw [Function.comp_apply, Function.comp_apply, dir_slot (List.mem_range.1 hk)]
  unfold Dirent.used nameEq
  by_cases hz : (s.direntAt dp (16 * k)).inum = 0
  · simp [hz]
  · rw [if_neg hz, decide_eq_true hz, Bool.true_and, Option.bind_some]
    by_cases hn : cname name = cname (s.direntAt dp (16 * k)).name
    · simp [hn]
    · simp [hn, Ne.symm hn]

/-! ## `dirlookup` -/

theorem scan_run (h : Good s) (hl : (s.inode dp).locked = true) (hd : IsDir s dp) (msg : String) (test : Dirent → Bool) :
    ∀ l, (∀ off ∈ l, off ∈ offsets (s.dinode dp).size) → scan dp msg test l s =
      ⟨.ok ((l.find? fun off => test (s.direntAt dp off)).map fun off => (off, s.direntAt dp off)), s, []⟩
  | [], _        => rfl
  | off :: l, hin => by
    obtain ⟨hip, -⟩ := h.ip hl
    have hoff := hin off List.mem_cons_self
    have hend : off + 16 ≤ (s.ip dp).size.toNat := by
      obtain ⟨hmod, hlt⟩ := mem_offsets.1 hoff
      have hw := hd.whole
      rw [hip]
      omega
    have hrun := readDirent_run h hl (hip ▸ hd.type) (hip ▸ hoff) msg
    rw [if_pos hend] at hrun
    unfold scan
    rw [Prog.bind_run_nil hrun, List.find?_cons]
    cases test (s.direntAt dp off) with
    | true => rfl
    | false => exact scan_run h hl hd msg test l fun o ho => hin o (List.mem_cons_of_mem off ho)

theorem dirlookup_run (h : Good s) (hl : (s.inode dp).locked = true) (hd : IsDir s dp) (name : Name) :
    dirlookup dp name s = match s.lookup dp name with
      | none          => ⟨.ok none, s, []⟩
      | some (j, off) => (do let i ← iget j; pure (some (i, off))) s := by
  obtain ⟨hip, -⟩ := h.ip hl
  have hscan := scan_run h hl hd "dirlookup read" (fun de => decide (de.inum ≠ 0) && nameEq name de.name)
    (offsets (s.ip dp).size) fun off ho => hip ▸ ho
  unfold dirlookup
  rw [Prog.read_bind_run, if_neg (not_not.2 (hip ▸ hd.type)), Prog.bind_run_nil hscan, hip]
  unfold State.lookup
  cases (offsets (s.dinode dp).size).find? fun off =>
    decide ((s.direntAt dp off).inum ≠ 0) && nameEq name (s.direntAt dp off).name with
  | none => rfl
  | some off => rfl

/-- A reference to the inode can be had: it is in the cache, or there is an entry for it. -/
def Gettable (s : State) (i : Nat) : Prop := 0 < (s.inode i).ref ∨ s.cached < ninode

instance (i : Nat) : Decidable (Gettable s i) := inferInstanceAs (Decidable (_ ∨ _))

/-- The state after `iget`. -/
def State.got (s : State) (i : Nat) : State := if 0 < (s.inode i).ref then s.addRef i else s.recycle i

theorem entry_run (s : State) (i : Nat) : entry i s =
    if Gettable s i then ⟨.ok (), s.got i, []⟩ else ⟨.error (.panic "iget: no inodes"), s, []⟩ := by
  unfold entry
  rw [Prog.get_bind_run]
  by_cases hr : 0 < (s.inode i).ref
  · have hg : Gettable s i := .inl hr
    rw [if_pos hr, if_pos hg, State.got, if_pos hr]
    rfl
  · by_cases hc : s.cached < ninode
    · have hg : Gettable s i := .inr hc
      rw [if_neg hr, if_neg (Nat.not_le.2 hc), if_pos hg, State.got, if_neg hr]
      rfl
    · have hg : ¬ Gettable s i := not_or.2 ⟨hr, hc⟩
      rw [if_neg hr, if_pos (Nat.not_lt.1 hc), if_neg hg]
      rfl

theorem iget_run (s : State) (i : Nat) : iget i s =
    if Gettable s i then ⟨.ok i, s.got i, []⟩ else ⟨.error (.panic "iget: no inodes"), s, []⟩ := by
  have hrun := entry_run s i
  unfold iget
  split at hrun
  · rename_i hg
    rw [if_pos hg]
    exact Prog.bind_run_nil hrun
  · rename_i hg
    rw [if_neg hg]
    exact Prog.bind_run_error hrun

theorem got_same (h : Good s) {i : Nat} (hg : Gettable s i) : SameDisk s (s.got i) := by
  have hsame := iget_wpt h i
  unfold wpt at hsame
  rw [iget_run, if_pos hg] at hsame
  exact hsame.2.1

/-- What `dirlookup` answers; it is stopped only at a full cache. -/
def Answers (s : State) (dp : Nat) (name : Name) (r : Option (Nat × Nat)) : Prop :=
  wp (dirlookup dp name) (fun r' t => r' = r ∧ SameDisk s t) (fun e => e = .panic "iget: no inodes" ∧ ninode ≤ s.cached) s

theorem dirlookup_answers (h : Good s) (hl : (s.inode dp).locked = true) (hd : IsDir s dp) (name : Name) :
    Answers s dp name (s.lookup dp name) := by
  have hrun := dirlookup_run h hl hd name
  unfold Answers
  cases hf : s.lookup dp name with
  | none =>
    rw [hf] at hrun
    exact Prog.wp_of_run hrun ⟨rfl, .refl h⟩
  | some e =>
    obtain ⟨j, off⟩ := e
    rw [hf] at hrun
    have hget := iget_run s j
    split at hget
    · rename_i hg
      exact Prog.wp_of_run (hrun.trans (Prog.bind_run_nil hget)) ⟨rfl, got_same h hg⟩
    · rename_i hfull
      refine Prog.wp_of_stop (hrun.trans (Prog.bind_run_error hget)) ⟨rfl, ?_⟩
      exact Nat.not_lt.1 (not_or.1 hfull).2

theorem acquiresleep_run {i : Nat} (hl : (s.inode i).locked = false) :
    acquiresleep i s = ⟨.ok (), s.setInode i { s.inode i with locked := true }, []⟩ := by
  unfold acquiresleep
  rw [Prog.read_bind_run, if_neg (by simp [hl])]
  rfl

theorem iput_run {i : Nat} (hl : (s.inode i).locked = false) (hf : ¬ Frees s i) : iput i s = ⟨.ok (), s.dropRef i, []⟩ := by
  have hback : (⟨(s.inode i).ref, false, (s.inode i).valid, (s.inode i).d⟩ : Inode) = s.inode i := by
    rw [← hl]
  unfold Frees at hf
  unfold iput releasesleep
  rw [Prog.bind_run_nil (acquiresleep_run hl), Prog.read_bind_run, setInode_self]
  dsimp only
  rw [Prog.when_neg hf, Prog.pure_bind_run, Prog.modify_bind_run, setInode_setInode, setInode_self]
  dsimp only
  rw [hback, setInode_inode]
  rfl

theorem dropRef_same (h : Good s) {i : Nat} (hl : (s.inode i).locked = false) (hf : ¬ Frees s i) :
    SameDisk s (s.dropRef i) := by
  have hsame := iput_same h hf
  unfold wpt at hsame
  rw [iput_run hl hf] at hsame
  exact hsame.1

/-- A process that puts an inode that it has locked waits for itself. -/
theorem iput_asleep {i : Nat} (hl : (s.inode i).locked = true) : iput i s = ⟨.error .asleep, s, []⟩ := by
  unfold iput acquiresleep
  refine Prog.bind_run_error ?_
  rw [Prog.read_bind_run, if_pos hl]
  rfl

theorem got_locked (s : State) (i j : Nat) : ((s.got i).inode j).locked = (s.inode j).locked := by
  unfold State.got State.addRef State.recycle State.setInode
  split <;> dsimp only <;> split <;> simp_all

/-- Who has just taken a reference does not free the inode. -/
theorem got_kept (s : State) (i : Nat) : ¬ Frees (s.got i) i := by
  rintro ⟨hv, -, hr⟩
  unfold State.got at hv hr
  split at hr
  · rename_i hpos
    rw [if_pos hpos] at hv
    unfold State.addRef at hr
    rw [setInode_self] at hr
    dsimp only at hr
    omega
  · rename_i hpos
    rw [if_neg hpos] at hv
    have : ((s.recycle i).inode i).valid = false := congrArg Inode.valid (setInode_self (s := s) _)
    rw [this] at hv
    cases hv

theorem dirlink_found (h : Good s) (hl : (s.inode dp).locked = true) (hd : IsDir s dp) {j off : Nat}
    (hf : s.lookup dp name = some (j, off)) (inum : Nat) : dirlink dp name inum s =
      if Gettable s j then
        if (s.inode j).locked then ⟨.error .asleep, s.got j, []⟩ else ⟨.ok (-1), (s.got j).dropRef j, []⟩
      else ⟨.error (.panic "iget: no inodes"), s, []⟩ := by
  have hrun := dirlookup_run h hl hd name
  rw [hf] at hrun
  have hget := iget_run s j
  unfold dirlink
  split at hget
  · rename_i hg
    rw [if_pos hg, Prog.bind_run_nil (hrun.trans (Prog.bind_run_nil hget))]
    split
    · rename_i hlj
      exact Prog.bind_run_error (iput_asleep ((got_locked s j j).trans hlj))
    · rename_i hlj
      exact Prog.bind_run_nil (iput_run ((got_locked s j j).trans (by simpa using hlj)) (got_kept s j))
  · rename_i hg
    rw [if_neg hg]
    exact Prog.bind_run_error (hrun.trans (Prog.bind_run_error hget))

/-! ## A new entry -/

/-- A locked directory whose names are distinct, in a call. -/
structure Directory (s : State) (dp : Nat) : Prop where
  call     : InCall s dp
  isDir    : IsDir s dp
  distinct : (s.dir dp).Distinct

/-- There is a free entry, or the directory can grow. -/
def Room (s : State) (dp : Nat) : Prop :=
  (∃ off ∈ offsets (s.dinode dp).size, (s.direntAt dp off).inum = 0) ∨ (s.dinode dp).size.toNat + 16 ≤ maxFile * bsize

theorem hole_offset (hd : IsDir s dp) : ((offsets (s.dinode dp).size).find? fun off =>
    decide ((s.direntAt dp off).inum = 0)).getD (16 * (offsets (s.dinode dp).size).length) = 16 * (s.dir dp).hole := by
  have hfind : (List.range (s.dir dp).size).find? (fun k => ((s.dir dp).slot k).isNone) =
      (List.range (s.dir dp).size).find? fun k => decide ((s.direntAt dp (16 * k)).inum = 0) := by
    refine List.find?_congr fun k hk => ?_
    rw [dir_slot (List.mem_range.1 hk), Bool.eq_iff_iff, Option.isNone_iff_eq_none, used_eq_none, decide_eq_true_iff]
  unfold Slots.hole
  rw [hfind, hd.offsets, List.find?_map, List.length_map, List.length_range]
  simp only [Function.comp_def]
  cases (List.range (s.dir dp).size).find? fun k => decide ((s.direntAt dp (16 * k)).inum = 0) <;> rfl

theorem hole_le_size (s : State) (dp : Nat) : 16 * (s.dir dp).hole ≤ (s.dinode dp).size.toNat := by
  have hle := (s.dir dp).hole_le
  have hsize : (s.dir dp).size = (s.dinode dp).size.toNat / 16 := rfl
  omega

theorem Room.fits (h : Room s dp) (hg : Good s) (hl : (s.inode dp).locked = true) (hd : IsDir s dp) :
    16 * (s.dir dp).hole + 16 ≤ maxFile * bsize := by
  have hmax := (hg.filled dp (hg.ip hl).2).size_le
  have hsize : (s.dir dp).size = (s.dinode dp).size.toNat / 16 := rfl
  rcases (s.dir dp).find?_isNone with ⟨k, hk, -, he⟩ | ⟨hall, he⟩
  · rw [he]
    omega
  · rcases h with ⟨off, hoff, hz⟩ | h
    · rw [hd.offsets, List.mem_map] at hoff
      obtain ⟨k, hk, rfl⟩ := hoff
      refine absurd ?_ (hall k (List.mem_range.1 hk))
      rw [dir_slot (List.mem_range.1 hk), used_eq_none, hz]
    · rw [he]
      omega

theorem Written.byteAt {i off n : Nat} {src : Nat → Byte} (h : Written s i src off n t)
    (hoff : off ≤ (s.dinode i).size.toNat)
    {o : Nat} (ho : o < (t.dinode i).size.toNat) :
    t.byteAt i o = if off ≤ o ∧ o < off + n then src (o - off) else s.byteAt i o := by
  have hc := h.contents
  unfold State.contents at hc
  rw [splice_map _ _ hoff, h.size] at hc
  exact List.map_inj_left.1 hc o (List.mem_range.2 (h.size ▸ ho))

theorem ofBytes_byte (name : Name) {inum : Nat} (h1 : 1 ≤ inum) (h2 : inum ≤ 65535) :
    (Dirent.ofBytes ((List.range 16).map (Dirent.byte ⟨BitVec.ofNat 16 inum, name⟩))).used = some (cname name, inum) := by
  have hnat : (BitVec.ofNat 16 inum).toNat = inum := by
    rw [BitVec.toNat_ofNat]
    omega
  have hne : BitVec.ofNat 16 inum ≠ 0 := fun he => by
    rw [he] at hnat
    exact absurd hnat.symm (by simp; omega)
  have hinum : (BitVec.ofNat 16 inum).extractLsb' 8 8 ++ (BitVec.ofNat 16 inum).extractLsb' 0 8 = BitVec.ofNat 16 inum := by
    exact (BitVec.extractLsb'_append_extractLsb'_eq_extractLsb' rfl).trans BitVec.extractLsb'_eq_self
  have hlist : Dirent.ofBytes ((List.range 16).map (Dirent.byte ⟨BitVec.ofNat 16 inum, name⟩)) =
      ⟨(BitVec.ofNat 16 inum).extractLsb' 8 8 ++ (BitVec.ofNat 16 inum).extractLsb' 0 8,
        (List.range dirsiz).map fun k => (name.take dirsiz).getD k 0⟩ := rfl
  have hname := prefixOf_padded dirsiz name
  rw [hlist, hinum]
  unfold Dirent.used
  rw [if_neg hne, hnat]
  exact congrArg (fun n => some (n, inum)) hname

/-- **What `dirlink` leaves**: the table with the new entry. -/
structure Added (s : State) (dp : Nat) (name : Name) (inum : Nat) (t : State) : Prop where
  call  : InCall t dp
  isDir : IsDir t dp
  dir   : t.dir dp = (s.dir dp).put (cname name) inum
  rest  : t.rest dp = s.rest dp

theorem Written.dir {inum : Nat} (hd : IsDir s dp) (h1 : 1 ≤ inum) (h2 : inum ≤ 65535)
    (h : Written s dp (Dirent.byte ⟨BitVec.ofNat 16 inum, name⟩) (16 * (s.dir dp).hole) 16 t) :
    t.dir dp = (s.dir dp).put (cname name) inum := by
  have hwhole := hd.whole
  have hle := hole_le_size s dp
  have hsize := h.size
  have hput : ((s.dir dp).put (cname name) inum).size = max ((s.dinode dp).size.toNat / 16) ((s.dir dp).hole + 1) := rfl
  have hmax : (t.dir dp).size = ((s.dir dp).put (cname name) inum).size := by
    rw [hput]
    show (t.dinode dp).size.toNat / 16 = _
    omega
  have hbytes : ∀ k, k < (t.dir dp).size → ∀ j < 16, t.byteAt dp (16 * k + j) =
      if k = (s.dir dp).hole then Dirent.byte ⟨BitVec.ofNat 16 inum, name⟩ j else s.byteAt dp (16 * k + j) := by
    intro k hk j hj
    have hlt : 16 * k + j < (t.dinode dp).size.toNat := by
      have : (t.dir dp).size = (t.dinode dp).size.toNat / 16 := rfl
      omega
    rw [h.byteAt hle hlt]
    by_cases hkh : k = (s.dir dp).hole
    · subst hkh
      rw [if_pos (by omega), if_pos rfl, Nat.add_sub_cancel_left]
    · rw [if_neg (by omega), if_neg hkh]
  refine Slots.ext hmax (funext fun k => ?_)
  by_cases hk : k < (t.dir dp).size
  · rw [dir_slot hk]
    unfold State.direntAt
    by_cases hkh : k = (s.dir dp).hole
    · have hlist : (List.range 16).map (fun j => t.byteAt dp (16 * k + j)) =
          (List.range 16).map (Dirent.byte ⟨BitVec.ofNat 16 inum, name⟩) :=
        List.map_congr_left fun j hj => by rw [hbytes k hk j (List.mem_range.1 hj), if_pos hkh]
      rw [hlist, hkh, Slots.put_slot_self, ofBytes_byte name h1 h2]
    · have hlist : (List.range 16).map (fun j => t.byteAt dp (16 * k + j)) =
          (List.range 16).map fun j => s.byteAt dp (16 * k + j) :=
        List.map_congr_left fun j hj => by rw [hbytes k hk j (List.mem_range.1 hj), if_neg hkh]
      have hks : k < (s.dir dp).size := by
        have : (s.dir dp).size = (s.dinode dp).size.toNat / 16 := rfl
        omega
      rw [hlist, Slots.put_slot_of_ne hkh, dir_slot hks]
      rfl
  · rw [(t.dir dp).free k (Nat.not_lt.1 hk), Slots.free _ k (hmax ▸ Nat.not_lt.1 hk)]

theorem writeEntry_wp (h : Directory s dp) (hroom : Room s dp) (name : Name) {inum : Nat} (h1 : 1 ≤ inum)
    (h2 : inum ≤ 65535) :
    wp (do
      if (← writei dp (Dirent.byte ⟨BitVec.ofNat 16 inum, name⟩) (BitVec.ofNat 32 (16 * (s.dir dp).hole)) 16) ≠ 16 then
        Prog.stop (.panic "dirlink")
      else pure 0 : F Int) (fun r t => r = 0 ∧ Added s dp name inum t) (fun _ => False) s := by
  have hg := h.call.good
  have hl := h.call.held
  have hfits := hroom.fits hg hl h.isDir
  have hlim : maxFile * bsize = 71680 := rfl
  have hoff : (BitVec.ofNat 32 (16 * (s.dir dp).hole)).toNat = 16 * (s.dir dp).hole := by
    rw [BitVec.toNat_ofNat]
    omega
  have hn : (16#32).toNat = 16 := rfl
  have hw := writei_written h.call (Dirent.byte ⟨BitVec.ofNat 16 inum, name⟩)
    (hoff.trans_le (hole_le_size s dp)) (show _ + (16#32).toNat ≤ _ by rw [hoff, hn]; exact hfits)
  rw [hoff, hn] at hw
  rw [wp_bind]
  refine (hw.and (writei_wp hg hl _ _ _)).imp fun r t ht => ?_
  obtain ⟨⟨hr, hwr⟩, -, hrest, -⟩ := ht
  rw [if_neg (by simp [hr])]
  have htype : (t.dinode dp).type = .dir := by
    rw [← (hwr.call.good.ip hwr.call.held).1, rest_type hrest, (hg.ip hl).1]
    exact h.isDir.type
  have hwhole : (t.dinode dp).size.toNat % 16 = 0 := by
    have := h.isDir.whole
    have := hwr.size
    omega
  exact ⟨rfl, hwr.call, ⟨htype, hwhole⟩, hwr.dir h.isDir h1 h2, hrest⟩

theorem addDirent_wp (h : Directory s dp) (hroom : Room s dp) (name : Name) {inum : Nat} (h1 : 1 ≤ inum)
    (h2 : inum ≤ 65535) :
    wp (addDirent dp name inum) (fun r t => r = 0 ∧ Added s dp name inum t) (fun _ => False) s := by
  obtain ⟨hip, -⟩ := h.call.good.ip h.call.held
  have hscan := scan_run h.call.good h.call.held h.isDir "dirlink read" (fun de => decide (de.inum = 0))
    (offsets (s.ip dp).size) fun off ho => hip ▸ ho
  have hwrite := writeEntry_wp h hroom name h1 h2
  rw [← hole_offset h.isDir] at hwrite
  rw [hip] at hscan
  unfold addDirent
  rw [wp_bind, wp_read, hip, wp_bind]
  refine Prog.wp_of_run hscan ?_
  cases hf : (offsets (s.dinode dp).size).find? fun off => decide ((s.direntAt dp off).inum = 0) with
  | none =>
    rw [hf] at hwrite
    exact hwrite
  | some off =>
    rw [hf] at hwrite
    exact hwrite

/-! ## The map -/

/-- What a call that fails leaves: all but what the cache remembers of inodes that nobody refers to. -/
structure Unchanged (s t : State) : Prop where
  same   : SameDisk s t
  refs   : t.refs = s.refs
  locks  : t.locks = s.locks
  tables : t.tables = s.tables
  outstanding : t.outstanding = s.outstanding

theorem Unchanged.of_acct (h : SameDisk s t) (ha : t.acct = s.acct) : Unchanged s t := by
  have ha' := ha.trans (add_zero _).symm
  exact ⟨h, (acct_refs ha').trans (add_zero _), (acct_locks ha').trans (add_zero _), acct_tables ha' rfl,
    (acct_outstanding ha').trans (add_zero _)⟩

def Names (s : State) (dp : Nat) (name : Name) (off : Nat) : Prop :=
  off ∈ offsets (s.dinode dp).size ∧ (s.direntAt dp off).inum ≠ 0 ∧ nameEq name (s.direntAt dp off).name = true

/-- A reference to the inode can be had and dropped again. -/
def Puttable (s : State) (i : Nat) : Prop := Gettable s i ∧ (s.inode i).locked = false

/-- **The map with one more name.** -/
structure Linked (s : State) (dp : Nat) (name : Name) (inum : Nat) (t : State) : Prop where
  directory : Directory t dp
  answers : ∀ n, Answers t dp n (t.lookup dp n)
  found   : ∃ off, t.lookup dp name = some (inum, off) ∧ Names t dp name off
  others  : ∀ n, nameEq n name = false → t.lookup dp n = s.lookup dp n
  kept    : (∃ off ∈ offsets (s.dinode dp).size, (s.direntAt dp off).inum = 0) → (t.dinode dp).size = (s.dinode dp).size
  grown   : (∀ off ∈ offsets (s.dinode dp).size, (s.direntAt dp off).inum ≠ 0) →
    (t.dinode dp).size.toNat = (s.dinode dp).size.toNat + 16

/-- What `dirlink` does to the map: nothing to a name that is there. -/
def Links (s : State) (dp : Nat) (name : Name) (inum : Nat) : Prop :=
  match s.lookup dp name with
  | some _ => ∃ t, dirlink dp name inum s = ⟨.ok (-1), t, []⟩ ∧ Unchanged s t
  | none   => ∃ t l, dirlink dp name inum s = ⟨.ok 0, t, l⟩ ∧ Linked s dp name inum t

theorem lookup_eq_none (hd : IsDir s dp) : s.lookup dp name = none ↔ (s.dir dp).find (cname name) = none := by
  rw [lookup_eq hd, Option.map_eq_none_iff]

theorem slot_eq_some (hd : IsDir s dp) {k : Nat} {c : Name} {j : Nat} : (s.dir dp).slot k = some (c, j) ↔
    16 * k ∈ offsets (s.dinode dp).size ∧ (s.direntAt dp (16 * k)).inum ≠ 0 ∧ cname (s.direntAt dp (16 * k)).name = c ∧
      (s.direntAt dp (16 * k)).inum.toNat = j := by
  have hmem : 16 * k ∈ offsets (s.dinode dp).size ↔ k < (s.dir dp).size := by
    have hw := hd.whole
    have hsize : (s.dir dp).size = (s.dinode dp).size.toNat / 16 := rfl
    rw [mem_offsets]
    omega
  rw [hmem]
  by_cases hk : k < (s.dir dp).size
  · rw [dir_slot hk]
    unfold Dirent.used
    by_cases hz : (s.direntAt dp (16 * k)).inum = 0
    · rw [if_pos hz]
      simp [hz]
    · rw [if_neg hz, Option.some_inj, Prod.mk.injEq]
      exact ⟨fun he => ⟨hk, hz, he⟩, fun he => he.2.2⟩
  · rw [(s.dir dp).free k (Nat.not_lt.1 hk)]
    simp [hk]

theorem Directory.lookup (h : Directory s dp) {j off : Nat} : s.lookup dp name = some (j, off) ↔
    Names s dp name off ∧ (s.direntAt dp off).inum.toNat = j := by
  have hname : ∀ {de : Dirent}, nameEq name de.name = true ↔ cname de.name = cname name := by
    intro de
    rw [nameEq, decide_eq_true_iff, eq_comm]
  rw [lookup_eq h.isDir, Option.map_eq_some_iff]
  constructor
  · rintro ⟨⟨_, k⟩, hk, he⟩
    cases he
    rw [h.distinct.find, slot_eq_some h.isDir] at hk
    obtain ⟨hmem, hz, hn, hj⟩ := hk
    exact ⟨⟨hmem, hz, hname.2 hn⟩, hj⟩
  · rintro ⟨⟨hmem, hz, hn⟩, hj⟩
    obtain ⟨hmod, -⟩ := mem_offsets.1 hmem
    obtain ⟨k, rfl⟩ : ∃ k, off = 16 * k := ⟨off / 16, by omega⟩
    exact ⟨(j, k), h.distinct.find.2 ((slot_eq_some h.isDir).2 ⟨hmem, hz, hname.1 hn, hj⟩), rfl⟩

theorem Directory.answers (h : Directory s dp) (name : Name) : Answers s dp name (s.lookup dp name) :=
  dirlookup_answers h.call.good h.call.held h.isDir name

theorem Added.linked {inum : Nat} (ha : Added s dp name inum t) (h : Directory s dp) (hnone : s.lookup dp name = none) :
    Linked s dp name inum t := by
  have hfind := (lookup_eq_none h.isDir).1 hnone
  have hdir : Directory t dp := ⟨ha.call, ha.isDir, ha.dir ▸ h.distinct.put (Slots.find_eq_none.1 hfind) inum⟩
  have hfound : t.lookup dp name = some (inum, 16 * (s.dir dp).hole) := by
    rw [lookup_eq ha.isDir, ha.dir, h.distinct.find_put_self hfind]
    rfl
  have hsize : (t.dinode dp).size.toNat / 16 = ((s.dir dp).put (cname name) inum).size := congrArg Slots.size ha.dir
  have hs : (s.dir dp).size = (s.dinode dp).size.toNat / 16 := rfl
  have hslots : (∃ i < (s.dir dp).size, (s.dir dp).slot i = none) ↔
      ∃ off ∈ offsets (s.dinode dp).size, (s.direntAt dp off).inum = 0 := by
    rw [h.isDir.offsets]
    simp only [List.mem_map, List.mem_range]
    constructor
    · rintro ⟨i, hi, hnone⟩
      rw [dir_slot hi, used_eq_none] at hnone
      exact ⟨16 * i, ⟨i, hi, rfl⟩, hnone⟩
    · rintro ⟨_, ⟨i, hi, rfl⟩, hz⟩
      exact ⟨i, hi, by rw [dir_slot hi, used_eq_none, hz]⟩
  have hw := h.isDir.whole
  have hw' := ha.isDir.whole
  rw [Slots.put_size] at hsize
  refine ⟨hdir, hdir.answers, ⟨_, hfound, (hdir.lookup.1 hfound).1⟩, fun n hn => ?_, fun hex => ?_, fun hall => ?_⟩
  · have hne : cname n ≠ cname name := by simpa [nameEq] using hn
    rw [lookup_eq ha.isDir, lookup_eq h.isDir, ha.dir, h.distinct.find_put_of_ne hfind inum hne]
  · rw [if_pos (hslots.2 hex)] at hsize
    exact BitVec.eq_of_toNat_eq (by omega)
  · rw [if_neg fun hex => ?_] at hsize
    · omega
    · obtain ⟨off, hoff, hz⟩ := hslots.1 hex
      exact hall off hoff hz

theorem Directory.links_found (h : Directory s dp) {j off : Nat} (hf : s.lookup dp name = some (j, off)) (inum : Nat) :
    Links s dp name inum ↔ Puttable s j := by
  have hrun := dirlink_found h.call.good h.call.held h.isDir hf inum
  unfold Links Puttable
  rw [hf]
  dsimp only
  rw [hrun]
  constructor
  · rintro ⟨t, ht, -⟩
    split_ifs at ht with hg hl
    · cases ht
    · exact ⟨hg, by simpa using hl⟩
    · cases ht
  · rintro ⟨hg, hl⟩
    rw [if_pos hg, if_neg (by simp [hl])] at hrun ⊢
    have hl' := (got_locked s j j).trans hl
    have hgot := got_same h.call.good hg
    refine ⟨_, rfl, .of_acct (hgot.trans (dropRef_same hgot.good hl' (got_kept s j))) ?_⟩
    have hstill := dirlink_still dp name inum s (-1) (by rw [hrun])
    rwa [hrun, add_zero] at hstill

theorem Directory.adds (h : Directory s dp) (hroom : Room s dp) (hf : s.lookup dp name = none) {inum : Nat}
    (h1 : 1 ≤ inum) (h2 : inum ≤ 65535) : ∃ t l, dirlink dp name inum s = ⟨.ok 0, t, l⟩ ∧ Added s dp name inum t := by
  have hrun := dirlookup_run h.call.good h.call.held h.isDir name
  have hadd := addDirent_wp h hroom name h1 h2
  rw [hf] at hrun
  unfold dirlink
  rw [Prog.bind_run_nil hrun]
  dsimp only
  rcases hadd' : addDirent dp name inum s with ⟨r, t, l⟩
  unfold Prog.wp at hadd
  rw [hadd'] at hadd
  cases r with
  | error e => exact hadd.elim
  | ok r =>
    obtain ⟨rfl, hadded⟩ := hadd
    exact ⟨t, l, rfl, hadded⟩

/-- **Directories are finite maps**, where the entry of the name, if there is one, is of an inode that can be put:
`dirlookup` reads the map and `dirlink` extends it. -/
theorem directory_map (h : Directory s dp) (hroom : Room s dp) (name : Name) {inum : Nat}
    (h1 : 1 ≤ inum) (h2 : inum ≤ 65535) :
    (∀ n, Answers s dp n (s.lookup dp n)) ∧ (Links s dp name inum ↔
      ∀ off, Names s dp name off → Puttable s (s.direntAt dp off).inum.toNat) := by
  refine ⟨h.answers, ?_⟩
  cases hf : s.lookup dp name with
  | some e =>
    obtain ⟨j, off⟩ := e
    obtain ⟨hname, rfl⟩ := h.lookup.1 hf
    rw [h.links_found hf]
    refine ⟨fun hp off' hname' => ?_, fun hp => hp off hname⟩
    obtain ⟨-, rfl⟩ := Prod.mk.inj (Option.some.inj (hf.symm.trans (h.lookup.2 ⟨hname', rfl⟩)))
    exact hp
  | none =>
    refine iff_of_true ?_ fun off hname => ?_
    · unfold Links
      rw [hf]
      obtain ⟨t, l, hrun, hadded⟩ := h.adds hroom hf h1 h2
      exact ⟨t, l, hrun, hadded.linked h hf⟩
    · rw [h.lookup.2 ⟨hname, rfl⟩] at hf
      cases hf

/-! ## Many entries -/

/-- `dirlink`, for one name after the other. -/
def linkAll (dp : Nat) (l : List (Name × Nat)) : F Unit :=
  Prog.forEach l fun e => do
    let _ ← dirlink dp e.1 e.2
    pure ()

def entryOf (e : Name × Nat) : Name × Nat := (cname e.1, e.2)

theorem ofList_room {l : List (Name × Nat)} (hd : IsDir s dp) (h : s.dir dp = .ofList l)
    (hl : 16 * (l.length + 1) ≤ maxFile * bsize) :
    Room s dp := by
  have hsize : (s.dinode dp).size.toNat / 16 = l.length := congrArg Slots.size h
  have hw := hd.whole
  exact .inr (by omega)

/-- **Names that are linked one after the other** follow those that are there. -/
theorem Directory.fill : ∀ (l l₀ : List (Name × Nat)) (s : State), Directory s dp → s.dir dp = .ofList l₀ →
    ((l₀ ++ l.map entryOf).map Prod.fst).Nodup → (∀ e ∈ l, 1 ≤ e.2 ∧ e.2 ≤ 65535) →
    16 * (l₀.length + l.length) ≤ maxFile * bsize → wp (linkAll dp l) (fun _ t =>
      Directory t dp ∧ t.dir dp = .ofList (l₀ ++ l.map entryOf) ∧ t.rest dp = s.rest dp) (fun _ => False) s
  | [], _, _, h, hdir, _, _, _ => ⟨h, hdir.trans (by rw [List.map_nil, List.append_nil]), rfl⟩
  | e :: l, l₀, s, h, hdir, hnodup, hinum, hlen => by
    obtain ⟨h1, h2⟩ := hinum e List.mem_cons_self
    rw [List.length_cons] at hlen
    rw [List.map_cons, List.append_cons] at hnodup ⊢
    have hnew : cname e.1 ∉ l₀.map Prod.fst := by
      rw [List.map_append, List.map_append, List.append_assoc, List.nodup_append] at hnodup
      exact fun hmem => hnodup.2.2 _ hmem (cname e.1) (by simp [entryOf]) rfl
    have hnone : s.lookup dp e.1 = none := by
      rw [lookup_eq_none h.isDir, hdir]
      exact Slots.find_ofList_eq_none.2 hnew
    obtain ⟨t, ev, hrun, hadded⟩ := h.adds (ofList_room h.isDir hdir (by omega)) hnone h1 h2
    have htdir : t.dir dp = .ofList (l₀ ++ [entryOf e]) := by
      rw [hadded.dir, hdir, Slots.put_ofList]
      rfl
    unfold linkAll
    rw [Prog.forEach_cons, wp_bind, wp_bind]
    refine Prog.wp_of_run hrun ?_
    rw [wp_pure]
    refine (Directory.fill l _ t (hadded.linked h hnone).directory htdir hnodup
      (fun x hx => hinum x (List.mem_cons_of_mem e hx)) ?_).imp fun _ u hu => ⟨hu.1, hu.2.1, hu.2.2.trans hadded.rest⟩
    rw [List.length_append, List.length_singleton]
    omega

/-! ## Directories of one block -/

/-- The block of a directory with the entries `l`. -/
def direntBlock (l : List Dirent) : Block :=
  putBytes (fun _ => 0) 0 (fun o => (l.getD (o / 16) ⟨0, []⟩).byte (o % 16)) (16 * l.length)

/-- The directories from 1 to `n`, one block for each behind the bitmap, with the entries `l`. -/
def directories (n : Nat) (l : Nat → List Dirent) (refs : Nat → Int) (cached : Nat) : State :=
  { bareDisk with
    bit := fun b => decide (b.toNat < nmeta + n)
    dinode := fun i => if 1 ≤ i ∧ i ≤ n then ⟨.dir, 0, 0, 1, BitVec.ofNat 32 (16 * (l i).length), fun k =>
      if k = 0 then BitVec.ofNat 32 (nmeta + i - 1) else 0⟩ else Dinode.zero
    data := fun b => direntBlock (l (b.toNat + 1 - nmeta))
    inode := fun i => ⟨refs i, false, false, Dinode.zero⟩
    cached := cached }

variable {n cached : Nat} {l : Nat → List Dirent} {refs : Nat → Int}

theorem directories_onDisk (p : Place) : (directories n l refs cached).onDisk p =
    if (1 ≤ p.inum ∧ p.inum ≤ n) ∧ p = .slot p.inum 0 then BitVec.ofNat 32 (nmeta + p.inum - 1) else 0 := by
  unfold State.onDisk addr directories
  dsimp only
  by_cases hi : 1 ≤ p.inum ∧ p.inum ≤ n
  · cases p with
    | slot i k =>
      simp only [Place.inum] at hi
      by_cases hk : k = 0 <;> simp [Place.inum, hi, hk]
    | word i j =>
      simp only [Place.inum] at hi
      simp [Place.inum, hi]
  · cases p <;> simp only [Place.inum] at hi <;> simp [Place.inum, hi, Dinode.zero]

theorem directories_good (hn : nmeta + n ≤ fsSize) (hl : ∀ i, (l i).length ≤ 32) : Good (directories n l refs cached) := by
  obtain ⟨s, hs⟩ : ∃ s, s = directories n l refs cached := ⟨_, rfl⟩
  have hon : ∀ p, s.onDisk p = if (1 ≤ p.inum ∧ p.inum ≤ n) ∧ p = .slot p.inum 0 then
      BitVec.ofNat 32 (nmeta + p.inum - 1) else 0 := fun p => by rw [hs]; exact directories_onDisk p
  have hblock : ∀ i, 1 ≤ i → i ≤ n → (BitVec.ofNat 32 (nmeta + i - 1)).toNat = nmeta + i - 1 := fun i h1 h2 => by
    have : fsSize < 2 ^ 32 := by decide
    rw [BitVec.toNat_ofNat]
    exact Nat.mod_eq_of_lt (by omega)
  have hbit : ∀ b : Bno, s.bit b = decide (b.toNat < nmeta + n) := fun b => by rw [hs]; rfl
  have hin : ∀ p, s.onDisk p ≠ 0 → (1 ≤ p.inum ∧ p.inum ≤ n) ∧ p = .slot p.inum 0 := fun p hp => by
    by_contra hno
    exact hp ((hon p).trans (if_neg hno))
  have hat : ∀ p, s.onDisk p ≠ 0 → (s.onDisk p).toNat = nmeta + p.inum - 1 := fun p hp => by
    rw [hon, if_pos (hin p hp)]
    exact hblock _ (hin p hp).1.1 (hin p hp).1.2
  rw [← hs]
  refine ⟨⟨⟨fun p hp => ?_, fun p q hp hpq => ?_, fun b hb => ?_⟩, fun b hb => ?_⟩, fun i hty k hk => ?_,
    fun i _ hv => ?_, fun i hlk => ?_⟩
  · have := hat p hp
    have := (hin p hp).1
    exact ⟨by omega, by omega⟩
  · have hq : s.onDisk q ≠ 0 := hpq ▸ hp
    have hnum : p.inum = q.inum := by
      have h1 := hat p hp
      have h2 := hat q hq
      have := (hin p hp).1
      have := (hin q hq).1
      rw [hpq] at h1
      omega
    rw [(hin p hp).2, (hin q hq).2, hnum]
  · rw [hbit, decide_eq_true_eq]
    constructor
    · intro hlt
      refine ⟨.slot (b.toNat + 1 - nmeta) 0, ?_⟩
      have := hb.1
      rw [hon, if_pos ⟨⟨by simp only [Place.inum]; omega, by simp only [Place.inum]; omega⟩, rfl⟩]
      refine BitVec.eq_of_toNat_eq ?_
      rw [hblock _ (by simp only [Place.inum]; omega) (by simp only [Place.inum]; omega)]
      simp only [Place.inum]
      omega
    · rintro ⟨p, rfl⟩
      have hne : s.onDisk p ≠ 0 := fun h0 => not_inData_zero (h0 ▸ hb)
      have := hat p hne
      have := (hin p hne).1
      omega
  · rw [hbit, decide_eq_true_eq]
    omega
  · have hi : 1 ≤ i ∧ i ≤ n := by
      by_contra hno
      rw [hs] at hty
      exact hty (congrArg Dinode.type (if_neg hno : (directories n l refs cached).dinode i = Dinode.zero))
    have hsize : (s.dinode i).size.toNat = 16 * (l i).length := by
      have hd : (s.dinode i).size = BitVec.ofNat 32 (16 * (l i).length) := by
        rw [hs]
        exact congrArg Dinode.size (if_pos hi)
      rw [hd, BitVec.toNat_ofNat]
      have := hl i
      exact Nat.mod_eq_of_lt (by omega)
    have hk0 : k = 0 := by
      have := hl i
      rw [hsize, show bsize = 512 from rfl] at hk
      omega
    have hplace : blockOf s.onDisk i k = s.onDisk (.slot i 0) := by rw [hk0]; rfl
    rw [hplace, hon, if_pos ⟨hi, rfl⟩]
    intro h0
    have hzero := hblock i hi.1 hi.2
    rw [show BitVec.ofNat 32 (nmeta + i - 1) = 0#32 from h0] at hzero
    change 0 = nmeta + i - 1 at hzero
    have := nmeta_pos
    omega
  · rw [hs] at hv
    cases hv
  · rw [hs] at hlk
    cases hlk

/-- The root with two directories and a free entry, and one of them with the other. -/
def nestedEntries : Nat → List Dirent
  | 1 => [⟨1, dot⟩, ⟨1, dotDot⟩, ⟨2, [100]⟩, ⟨0, [99]⟩, ⟨3, [101]⟩]
  | 2 => [⟨2, dot⟩, ⟨1, dotDot⟩, ⟨3, [102]⟩]
  | i => [⟨BitVec.ofNat 16 i, dot⟩, ⟨1, dotDot⟩]

theorem nestedEntries_length (i : Nat) : (nestedEntries i).length ≤ 32 := by
  unfold nestedEntries
  split <;> simp

/-- Where only process 0's current directory is referred to. -/
def nested : State := directories 3 nestedEntries (fun i => if i = rootIno then 1 else 0) 1

theorem nested_good : Good nested := directories_good (by decide) nestedEntries_length

def nestedLocked : State :=
  { nested.setInode rootIno ⟨1, true, true, nested.dinode rootIno⟩ with cached := 1, outstanding := 1 }

theorem nestedLocked_directory : Directory nestedLocked rootIno where
  call :=
    { good := Good.counts (nested_good.setInode (n := ⟨1, true, true, nested.dinode rootIno⟩)
        (fun _ _ => ⟨rfl, by decide⟩) fun _ => ⟨by decide, rfl⟩) 1 1
      inums := fun j hj => by
        have hno : ¬ (1 ≤ j ∧ j ≤ 3) := fun h => absurd hj (Nat.not_le.2 (lt_of_le_of_lt h.2 (by decide)))
        exact congrArg Dinode.type (if_neg hno : nestedLocked.dinode j = Dinode.zero)
      held := congrArg Inode.locked (setInode_self (s := nested) ⟨1, true, true, nested.dinode rootIno⟩)
      file := by decide
      op := by decide }
  isDir := ⟨rfl, rfl⟩
  distinct i j k v w hi hj := by
    have hlt : ∀ a x, (nestedLocked.dir rootIno).slot a = some x → a < 5 := fun a x ha => by
      by_contra hge
      rw [(nestedLocked.dir rootIno).free a (Nat.not_lt.1 hge)] at ha
      cases ha
    have hall : ∀ a < 5, ∀ b < 5, ((nestedLocked.dir rootIno).slot a).isSome = true →
        ((nestedLocked.dir rootIno).slot a).map Prod.fst = ((nestedLocked.dir rootIno).slot b).map Prod.fst → a = b := by
      decide +kernel
    exact hall i (hlt i _ hi) j (hlt j _ hj) (by rw [hi]; rfl) (by rw [hi, hj]; rfl)

theorem nestedLocked_room : Room nestedLocked rootIno := .inr (by decide)

/-- A name that is there stays, and a new one takes the free entry. -/
theorem nestedLocked_map : (∀ n, Answers nestedLocked rootIno n (nestedLocked.lookup rootIno n)) ∧
    Links nestedLocked rootIno [100] 7 ∧ Links nestedLocked rootIno [120] 7 := by
  have hmap := directory_map nestedLocked_directory nestedLocked_room
  have hd : nestedLocked.lookup rootIno [100] = some (2, 32) := by decide +kernel
  have hx : nestedLocked.lookup rootIno [120] = none := by decide +kernel
  refine ⟨(hmap [100] (show 1 ≤ 7 by decide) (by decide)).1, (hmap [100] (by decide) (by decide)).2.2 fun off hoff => ?_,
    (hmap [120] (by decide) (by decide)).2.2 fun off hoff => ?_⟩
  · obtain ⟨h2, rfl⟩ := Prod.mk.inj (Option.some.inj (hd.symm.trans (nestedLocked_directory.lookup.2 ⟨hoff, rfl⟩)))
    rw [← h2]
    exact ⟨.inr (by decide), rfl⟩
  · rw [nestedLocked_directory.lookup.2 ⟨hoff, rfl⟩] at hx
    cases hx

/-! ## `.` -/

theorem rootLocked_directory : Directory rootLocked rootIno where
  call := rootLocked_call
  isDir := ⟨rfl, rfl⟩
  distinct i _ _ _ _ h := by
    rw [(rootLocked.dir rootIno).free i (Nat.zero_le i)] at h
    cases h

theorem rootLocked_room : Room rootLocked rootIno := .inr (by decide)

/-- The root directory after `dirlink(dp, ".", dp->inum)`. -/
def dotted : State := (dirlink rootIno dot rootIno rootLocked).st

/-- **`dirlink` of `.` sleeps** on the lock of the directory, which its caller holds. -/
theorem dirlink_dot : Directory dotted rootIno ∧ Room dotted rootIno ∧
    (dirlink rootIno dot 7 dotted).res = .error .asleep ∧ ¬ Links dotted rootIno dot 7 := by
  have hnone : rootLocked.lookup rootIno dot = none := rfl
  obtain ⟨t, l, hrun, hadded⟩ := rootLocked_directory.adds rootLocked_room hnone (show 1 ≤ rootIno by decide) (by decide)
  have hlinked := hadded.linked rootLocked_directory hnone
  have hdotted : dotted = t := by
    unfold dotted
    rw [hrun]
  obtain ⟨off, hfound, -⟩ := hlinked.found
  have hdir := hlinked.directory
  rw [← hdotted] at hfound hdir hlinked
  have hlock : (dotted.inode rootIno).locked = true := hdir.call.held
  have hget : Gettable dotted rootIno := .inl (hdir.call.good.held rootIno hlock).1
  have hrun7 := dirlink_found hdir.call.good hlock hdir.isDir hfound 7
  rw [if_pos hget, if_pos hlock] at hrun7
  refine ⟨hdir, .inr ?_, by rw [hrun7], fun hlinks => ?_⟩
  · have hsize := hlinked.grown fun off hoff => by
      obtain ⟨-, hlt⟩ := mem_offsets.1 hoff
      exact absurd hlt (Nat.not_lt_zero off)
    rw [hsize]
    decide
  · have hput := (hdir.links_found hfound 7).1 hlinks
    exact Bool.noConfusion (hlock.symm.trans hput.2)

end Files
end Xv6
