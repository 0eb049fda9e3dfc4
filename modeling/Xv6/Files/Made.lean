import Xv6.Files.Built
/-!
# Files.Made — the image that `mkfs` leaves (mkfs.c)

The image is made from the root directory on, the bitmap at last.  What the kernel finds in it is what was given, unless the
entries of the root directory fill its blocks: `mkfs` then rounds the size up to a block that the directory does not have.
-/
namespace Xv6
namespace Mkfs

open Fs (Bno Block nlog)
open Files
open User (Input)

variable {s t : Disk} {F : List Content} {argv : List Arg} {d : Dinode}

/-! ## The empty image -/

theorem zeroes_run : ∀ (l : List Nat) (s : Disk), ∃ t, Prog.forEach l (fun i => wsect i fun _ => 0) s = ⟨.ok (), t, []⟩ ∧
    t.freeinode = s.freeinode ∧ t.freeblock = s.freeblock ∧
    ∀ n, n ∈ l ∨ s.img n = (fun _ => 0) → t.img n = fun _ => 0
  | [], s     => ⟨s, rfl, rfl, rfl, fun n hn => hn.resolve_left List.not_mem_nil⟩
  | i :: l, s => by
    obtain ⟨t, hrun, hinode, hblock, hzero⟩ := zeroes_run l (s.put i fun _ => 0)
    refine ⟨t, (Prog.modify_bind_run _ _ _).trans hrun, hinode, hblock, fun n hn => hzero n ?_⟩
    by_cases hni : n = i
    · right
      rw [hni]
      exact Function.update_self ..
    · rcases hn with hn | hn
      · exact .inl ((List.mem_cons.1 hn).resolve_left hni)
      · exact .inr ((Function.update_of_ne hni _ _).trans hn)

theorem dinode_zero {img : Image} {i : Nat} (h : img (iblock i) = fun _ => 0) : (img.dinode i).type = .free := by
  unfold Image.dinode
  rw [h]
  rfl

theorem empty_good (hblock : s.freeblock = nmeta) (hfree : ∀ i, (s.look.dinode i).type = .free) : Good s.look := by
  have hnone : ∀ p, s.look.onDisk p = 0 := fun p => onDisk_free (hfree p.inum) rfl
  refine ⟨⟨⟨fun p hp => absurd (hnone p) hp, fun p q hp => absurd (hnone p) hp, fun b hb => ?_⟩, fun b hb => ?_⟩,
    fun i hi => absurd (hfree i) hi, fun _ hr => absurd hr (Int.lt_irrefl 0), fun _ hl => nomatch hl⟩
  · refine ⟨fun h => absurd hb.1 (Nat.not_le.2 (hblock ▸ of_decide_eq_true h)), ?_⟩
    rintro ⟨p, rfl⟩
    exact absurd (hnone p ▸ hb) not_inData_zero
  · exact decide_eq_true (hblock ▸ hb)

theorem empty_built (hinode : s.freeinode = 1) (hblock : s.freeblock = nmeta) (hsuper : s.img 1 = sb.block)
    (hzero : ∀ n, n < fsSize → n ≠ 1 → s.img n = fun _ => 0) : Built s [] := by
  have hmeta : nmeta = 83 := rfl
  have hsize : fsSize = 100000 := rfl
  have hfree : ∀ i, i < ninodes → (s.img.dinode i).type = .free := fun i hi => by
    have hb := iblock_between hi
    have hstart : inodestart = 32 := rfl
    have hmap : bmapstart = 58 := rfl
    exact dinode_zero (hzero _ (by omega) (by omega))
  have htype : ∀ i, (s.look.dinode i).type = .free := fun i => by
    by_cases hi : i < ninodes
    · rw [look_dinode hi]
      exact hfree i hi
    · exact congrArg Dinode.type (if_neg hi)
  refine ⟨empty_good hblock htype, ⟨hblock.ge, fun n hn hlt => hzero n hlt (by omega)⟩, hinode, by decide, by simp, by simp,
    by simp, by simp, by simpa, fun i _ hi => hfree i hi, fun n hn _ => ?_⟩
  split
  · next he => rw [he, hsuper]
  · next hne => exact hzero n (by omega) hne

/-! ## The root directory -/

theorem packed_slice : ∀ {l : List (Name × Nat)} {k : Nat} {e : Name × Nat}, l[k]? = some e →
    ((packed l).drop (16 * k)).take 16 = entry e.2 e.1
  | a :: l, 0, e, h     => by
    obtain rfl : a = e := by simpa using h
    exact List.take_left' (entry_length _ _)
  | a :: l, k + 1, e, h => by
    have hcons : packed (a :: l) = entry a.2 a.1 ++ packed l := rfl
    have hdrop : 16 * (k + 1) = (entry a.2 a.1).length + 16 * k := by
      rw [entry_length]
      omega
    rw [hcons, hdrop, List.drop_length_add_append]
    exact packed_slice (by simpa using h)

theorem direntAt_contents {u : Files.State} {i off : Nat} (h : off + 16 ≤ (u.contents i).length) :
    u.direntAt i off = Dirent.ofBytes (((u.contents i).drop off).take 16) := by
  unfold State.direntAt
  congr 1
  refine List.ext_getElem ?_ fun j hj _ => ?_
  · rw [List.length_map, List.length_range, List.length_take, List.length_drop]
    omega
  · simp [State.contents]

theorem dir_packed {u : Files.State} {i z : Nat} {l : List (Name × Nat)} (h : u.contents i = packed l ++ List.replicate z 0)
    (hl : ∀ e ∈ l, 1 ≤ e.2 ∧ e.2 ≤ 65535) (k : Nat) : (u.dir i).slot k = (l[k]?).map entryOf := by
  have hlen : (u.dinode i).size.toNat = 16 * l.length + z := by
    rw [← contents_length, h, List.length_append, packed_length, List.length_replicate]
  have hsize : (u.contents i).length = 16 * l.length + z := (contents_length u i).trans hlen
  have hpacked := packed_length l
  cases hk : l[k]? with
  | some e =>
    obtain ⟨hlt, -⟩ := List.getElem?_eq_some_iff.1 hk
    obtain ⟨h1, h2⟩ := hl e (List.mem_of_getElem? hk)
    rw [dir_slot (show k < (u.dir i).size by simp only [State.dir]; omega), direntAt_contents (by omega), h,
      List.drop_append_of_le_length (by omega), List.take_append_of_le_length (by rw [List.length_drop]; omega),
      packed_slice hk]
    exact ofBytes_byte e.1 h1 h2
  | none =>
    have hge := List.getElem?_eq_none_iff.1 hk
    by_cases hin : k < (u.dir i).size
    · rw [dir_slot hin]
      simp only [State.dir] at hin
      have hdrop : (packed l).length ≤ 16 * k := by omega
      rw [direntAt_contents (by omega), h, List.drop_append, List.drop_eq_nil_of_le hdrop, List.nil_append,
        List.drop_replicate, List.take_replicate, Nat.min_eq_left (by omega)]
      rfl
    · exact (u.dir i).free k (Nat.not_lt.1 hin)

theorem numbered_inum : ∀ {i : Nat} {argv : List Arg}, ∀ e ∈ numbered i argv, i ≤ e.2 ∧ e.2 < i + argv.length
  | i, a :: argv, e, he => by
    rw [List.length_cons]
    rcases List.mem_cons.1 he with rfl | he
    · exact ⟨Nat.le_refl i, by omega⟩
    · have := numbered_inum e he
      omega

theorem names_inum {argv : List Arg} : ∀ e ∈ names argv, 1 ≤ e.2 ∧ e.2 ≤ argv.length + 1 := by
  intro e he
  rcases List.mem_cons.1 he with rfl | he
  · exact ⟨Nat.le_refl 1, Nat.le_add_left 1 _⟩
  · rcases List.mem_cons.1 he with rfl | he
    · exact ⟨Nat.le_refl 1, Nat.le_add_left 1 _⟩
    · have := numbered_inum e he
      omega

/-! ## The end -/

def used (argv : List Arg) : Nat := nmeta + ((files argv).map fun f => blocks f.2.length).sum

/-- **What the kernel finds**: the super block, the files, and no others.  It is in order unless the entries of the root
directory end with a block. -/
structure Right (argv : List Arg) (img : Image) : Prop where
  super : readsb img = sb
  root  : (img.boot.dinode rootIno).type = .dir ∧ (img.boot.dinode rootIno).nlink = 1 ∧
    img.boot.contents rootIno = rootBytes argv ++ List.replicate (bsize - (rootBytes argv).length % bsize) 0
  entries : ∀ k, (img.boot.dir rootIno).slot k = ((names argv)[k]?).map entryOf
  files : ∀ k a, argv[k]? = some a → (img.boot.dinode (k + 2)).type = .file ∧ (img.boot.dinode (k + 2)).nlink = 1 ∧
    img.boot.contents (k + 2) = a.data
  free  : ∀ i, argv.length + 1 < i ∨ i = 0 → (img.boot.dinode i).type = .free
  good  : Good img.boot ↔ (argv.length + 2) % 32 ≠ 0

theorem good_bits {u : Files.State} {bit : Bno → Bool} (h : Good u) (hbit : ∀ b, b.toNat < fsSize → bit b = u.bit b) :
    Good { u with bit := bit } where
  exact := by
    have hexact : Exact bit u.onDisk := by
      refine ⟨⟨h.exact.owned.area, h.exact.owned.once, fun b hb => ?_⟩, fun b hb => ?_⟩
      · rw [hbit b hb.2]
        exact h.exact.owned.bits b hb
      · rw [hbit b (hb.trans (by decide))]
        exact h.exact.low b hb
    exact hexact
  filled := h.filled
  sync := h.sync
  held := h.held

/-- The inode of the root directory with its size rounded up. -/
def rounded (img : Image) : Dinode :=
  { img.dinode rootIno with size := BitVec.ofNat 32 (((img.dinode rootIno).size.toNat / bsize + 1) * bsize) }

def finish (s : Disk) : Image := Function.update (s.img.setDinode rootIno (rounded s.img)) bmapstart (mapBits s.freeblock)

theorem fixRoot_run (s : Disk) : fixRoot rootIno s = ⟨.ok (), s.setDinode rootIno (rounded s.img), []⟩ :=
  (Prog.bind_run_nil (rinode_run (by decide))).trans (winode_run (by decide) _)

theorem balloc_run (n : Nat) (s : Disk) :
    balloc n s = if n < bsize * 8 then ⟨.ok (), s.put bmapstart (mapBits n), []⟩ else ⟨.error .used, s, []⟩ := by
  unfold balloc
  by_cases hn : n < bsize * 8
  · rw [if_pos hn, if_neg (Nat.not_le.2 hn)]
    rfl
  · rw [if_neg hn, if_pos (Nat.not_lt.1 hn)]
    rfl

theorem finish_boot (s : Disk) :
    (finish s).boot = { s.look.setDinode rootIno (rounded s.img) with bit := (finish s).bit } := by
  have hmap : bmapstart = 58 := rfl
  have hmeta : nmeta = 83 := rfl
  rw [← look_setDinode (by decide)]
  have hdinode : (finish s).boot.dinode = (s.setDinode rootIno (rounded s.img)).look.dinode := by
    funext j
    refine ite_congr rfl (fun hj => ?_) fun _ => rfl
    exact Image.dinode_update _ _ (Nat.ne_of_lt (iblock_between hj).2)
  have hdata : (finish s).boot.data = (s.setDinode rootIno (rounded s.img)).look.data := by
    funext b
    refine ite_congr rfl (fun hb => ?_) fun _ => rfl
    exact Function.update_of_ne (by omega) _ _
  exact congr (congrArg (fun dinode data => ({ (finish s).boot with dinode := dinode, data := data } : Files.State)) hdinode)
    hdata

theorem finish_bit (h : Built s F) (hused : s.freeblock < bsize * 8) {b : Bno} (hb : b.toNat < fsSize) :
    (finish s).bit b = decide (b.toNat < s.freeblock) := by
  have hmap : bmapstart = 58 := rfl
  have hstart : inodestart = 32 := rfl
  have hmeta : nmeta = 83 := rfl
  have hsize : fsSize = 100000 := rfl
  have hbpb : bpb = 4096 := rfl
  have hbsize : bsize = 512 := rfl
  have hroot : iblock rootIno = 32 := rfl
  have hmod : b.toNat % bpb < bpb := Nat.mod_lt _ (by decide)
  unfold Image.bit finish bblock
  by_cases hlow : b.toNat < bpb
  · rw [Nat.div_eq_of_lt hlow, Nat.zero_add, Function.update_self, mapBits_bit (by omega) hmod, Nat.mod_eq_of_lt hlow]
  · have hne : b.toNat / bpb + bmapstart ≠ bmapstart := by
      have := Nat.div_pos (Nat.not_lt.1 hlow) (show 0 < bpb by decide)
      omega
    have hdiv : b.toNat / bpb + bmapstart < nmeta := by
      rw [hbpb, hmap, hmeta]
      omega
    have hblock : b.toNat / bpb + bmapstart ≠ iblock rootIno := by rw [hbpb]; omega
    have hone : b.toNat / bpb + bmapstart ≠ 1 := by rw [hbpb]; omega
    have hout : ¬ b.toNat < s.freeblock := by omega
    rw [Function.update_of_ne hne, Image.setDinode_other _ _ hblock, h.low _ hdiv (.inr (Nat.le_add_left _ _)), if_neg hone,
      byteOf_zero, decide_eq_false hout]
    exact BitVec.getLsbD_zero

theorem root_size (h : Built s (files argv)) : (s.img.dinode rootIno).size.toNat = 16 * (argv.length + 2) ∧
    argv.length + 1 < ninodes := by
  obtain ⟨-, hsize, -⟩ := h.call (k := 0) (f := (.dir, rootBytes argv)) rfl
  have hfew := h.few
  rw [files_length] at hfew
  exact ⟨hsize.trans (rootBytes_length argv), hfew⟩

theorem rounded_size (h : Built s (files argv)) :
    (rounded s.img).size.toNat = (16 * (argv.length + 2) / bsize + 1) * bsize := by
  obtain ⟨hsize, hfew⟩ := root_size h
  have hninodes : ninodes = 200 := rfl
  refine (BitVec.toNat_ofNat _ _).trans ?_
  rw [hsize]
  refine Nat.mod_eq_of_lt ?_
  unfold bsize
  omega

theorem onDisk_rounded (s : Disk) : (s.look.setDinode rootIno (rounded s.img)).onDisk = s.look.onDisk := by
  unfold State.onDisk
  rw [setDinode_dinode]
  refine addr_congr fun j => ?_
  by_cases hj : j = rootIno
  · rw [hj, Function.update_self, look_dinode (by decide)]
    exact ⟨rfl, rfl⟩
  · rw [Function.update_of_ne hj]
    exact ⟨rfl, rfl⟩

/-- **The root directory has a hole at its end** if its entries fill its blocks. -/
theorem rounded_good (h : Built s (files argv)) :
    Good (s.look.setDinode rootIno (rounded s.img)) ↔ (argv.length + 2) % 32 ≠ 0 := by
  have hnew := rounded_size h
  obtain ⟨hsize, hfew⟩ := root_size h
  have htype := (h.inode 0 _ rfl).1
  have htight := h.tight 0 _ rfl
  have hninodes : ninodes = 200 := rfl
  have hmax : maxFile = 140 := rfl
  rw [show (FileType.dir, rootBytes argv).2.length = 16 * (argv.length + 2) from rootBytes_length argv] at htight
  constructor
  · intro hgood hmod
    have hdir : FileType.dir ≠ .free := by decide
    have hfill := hgood.filled rootIno (by
      rw [setDinode_dinode, Function.update_self]
      exact fun e => hdir (htype.symm.trans e))
    rw [setDinode_dinode, Function.update_self, onDisk_rounded] at hfill
    have hblock := (htight.block (16 * (argv.length + 2) / bsize) (by unfold bsize; omega)).1
      (hfill _ (by rw [hnew]; unfold bsize; omega))
    unfold bsize at hblock
    omega
  · intro hmod
    have hgood := h.good.replace (n := s.look.inode rootIno) (onDisk_rounded s) (fun _ m hm => ?_)
      (fun hr => absurd hr (Int.lt_irrefl 0)) (h.good.held _)
    · rwa [setInode_inode] at hgood
    · rw [hnew] at hm
      unfold bsize at hm
      exact (htight.block m (by omega)).2 (by unfold bsize; omega)

theorem boot_contents (s : Disk) (i : Nat) :
    (finish s).boot.contents i = (s.look.setDinode rootIno (rounded s.img)).contents i := by
  rw [finish_boot]
  rfl

/-- **The image is right.** -/
theorem finish_right (h : Built s (files argv)) (hused : s.freeblock < bsize * 8) : Right argv (finish s) := by
  have hmap : bmapstart = 58 := rfl
  have hninodes : ninodes = 200 := rfl
  have hdinode : (finish s).boot.dinode = Function.update s.look.dinode rootIno (rounded s.img) := by
    rw [finish_boot]
    exact setDinode_dinode ..
  have hother : ∀ i, i ≠ rootIno → (finish s).boot.dinode i = s.look.dinode i := fun i hi => by
    rw [hdinode, Function.update_of_ne hi]
  have hroot : (finish s).boot.contents rootIno =
      rootBytes argv ++ List.replicate (bsize - (rootBytes argv).length % bsize) 0 := by
    obtain ⟨-, -, hbytes⟩ := h.inode 0 _ rfl
    have hsize := (root_size h).1
    have hlen := rootBytes_length argv
    have hsum : (rounded s.img).size.toNat = (rootBytes argv).length + (bsize - (rootBytes argv).length % bsize) := by
      rw [rounded_size h, hlen]
      unfold bsize
      omega
    have hlow : (List.range (rootBytes argv).length).map (s.look.byteAt rootIno) = rootBytes argv := by
      refine Eq.trans ?_ hbytes
      unfold State.contents
      rw [look_dinode (by decide), hsize, hlen]
    rw [boot_contents, State.contents, setDinode_dinode, Function.update_self, byteAt_setDinode (onDisk_rounded s), hsum,
      List.range_add, List.map_append, hlow, List.map_map]
    congr 1
    refine List.eq_replicate_iff.2 ⟨by simp, fun b hb => ?_⟩
    obtain ⟨o, -, rfl⟩ := List.mem_map.1 hb
    exact h.ends 0 _ rfl _ (Nat.le_add_right _ _)
  have hfew := (root_size h).2
  refine ⟨?_, ?_, dir_packed hroot fun e he => ?_, fun k a hk => ?_, fun i hi => ?_, ?_⟩
  · have hone : finish s 1 = sb.block := by
      unfold finish
      rw [Function.update_of_ne (by decide), Image.setDinode_other _ _ (by decide), h.low 1 (by decide) (by decide),
        if_pos rfl]
    unfold readsb
    rw [hone]
    rfl
  · obtain ⟨htype, hlink, -⟩ := h.inode 0 _ rfl
    rw [hdinode, Function.update_self]
    exact ⟨htype, hlink, hroot⟩
  · have := names_inum e he
    omega
  · have hk' : (files argv)[k + 1]? = some (.file, a.data) := by simp [files, hk]
    obtain ⟨htype, hlink, hbytes⟩ := h.inode (k + 1) _ hk'
    have hne : k + 2 ≠ rootIno := by
      unfold rootIno
      omega
    rw [hother _ hne, look_dinode (h.call hk').1, boot_contents, contents_setDinode (onDisk_rounded s) hne]
    exact ⟨htype, hlink, hbytes⟩
  · have hne : i ≠ rootIno := by
      unfold rootIno
      omega
    rw [hother _ hne]
    by_cases hin : i < ninodes
    · rw [look_dinode hin]
      exact h.free i (by rwa [files_length]) hin
    · exact congrArg Dinode.type (if_neg hin)
  · rw [finish_boot, ← rounded_good h]
    have hbit : ∀ b : Bno, b.toNat < fsSize → (finish s).bit b = (s.look.setDinode rootIno (rounded s.img)).bit b :=
      fun b hb => finish_bit h hused hb
    exact ⟨fun hg => good_bits hg fun b hb => (hbit b hb).symm, fun hg => good_bits hg hbit⟩

/-- **The kernel can use the image**, unless the root directory has a hole. -/
theorem Right.tree {img : Image} (h : Right argv img) : Tree img.boot ↔ (argv.length + 2) % 32 ≠ 0 := by
  obtain ⟨htype, hlink, hbytes⟩ := h.root
  have hused : ∀ i, (img.boot.dinode i).type ≠ .free → i = rootIno ∨ ∃ k a, i = k + 2 ∧ argv[k]? = some a := by
    intro i hi
    by_cases hout : argv.length + 1 < i ∨ i = 0
    · exact absurd (h.free i hout) hi
    · by_cases hone : i = 1
      · exact .inl hone
      · exact .inr ⟨i - 2, argv[i - 2], by omega, List.getElem?_eq_getElem (by omega)⟩
  have hdir : ∀ i, (img.boot.dinode i).type = .dir → i = rootIno := fun i hi => by
    rcases hused i (by rw [hi]; decide) with rfl | ⟨k, a, rfl, hk⟩
    · rfl
    · rw [(h.files k a hk).1] at hi
      cases hi
  have hwhole : (img.boot.dinode rootIno).size.toNat % 16 = 0 := by
    rw [← contents_length, hbytes, List.length_append, List.length_replicate, rootBytes_length]
    unfold bsize
    omega
  refine ⟨fun ht => h.good.1 ht.good, fun hmod => ⟨h.good.2 hmod, fun i hi => ?_, fun i hi name j off hfound => ?_, ?_,
    fun i hi hzero => ?_, fun _ => Int.le_refl 0, fun _ => rfl⟩⟩
  · rw [hdir i hi]
    exact hwhole
  · obtain rfl := hdir i hi
    rw [lookup_eq ⟨htype, hwhole⟩] at hfound
    obtain ⟨⟨j', k⟩, hfind, heq⟩ := Option.map_eq_some_iff.1 hfound
    obtain ⟨rfl, -⟩ := Prod.mk.inj heq
    have hslot := Slots.slot_of_find hfind
    rw [h.entries] at hslot
    obtain ⟨e, he, hentry⟩ := Option.map_eq_some_iff.1 hslot
    obtain ⟨-, rfl⟩ := Prod.mk.inj hentry
    obtain ⟨h1, h2⟩ := names_inum e (List.mem_of_getElem? he)
    by_cases hone : e.2 = 1
    · rw [hone, show (img.boot.dinode 1).type = .dir from htype]
      decide
    · have hfile := (h.files (e.2 - 2) argv[e.2 - 2] (List.getElem?_eq_getElem (by omega))).1
      rw [show e.2 - 2 + 2 = e.2 by omega] at hfile
      rw [hfile]
      decide
  · rw [htype]
    decide
  · rcases hused i hi with rfl | ⟨k, a, rfl, hk⟩
    · rw [hlink] at hzero
      exact absurd hzero (by decide)
    · rw [(h.files k a hk).2.1] at hzero
      exact absurd hzero (by decide)

/-! ## `main` -/

/-- **`mkfs`** makes an image with the files that it is given, in their order, or says why not: the first argument that it
refuses, or no room in the one block of the bitmap that it writes.  The number of inodes it does not check. -/
theorem mkfs_image (argv : List Arg) (img : Image) (b : Nat) (h : argv.length + 1 < ninodes) :
    match argv.findSome? Arg.refused with
    | some e => (main argv ⟨img, 1, b⟩).res = .error e
    | none   => if used argv < bsize * 8 then ∃ t, main argv ⟨img, 1, b⟩ = ⟨.ok (), t, []⟩ ∧
        Right argv t.img ∧ (Tree t.img.boot ↔ (argv.length + 2) % 32 ≠ 0)
      else (main argv ⟨img, 1, b⟩).res = .error .used := by
  obtain ⟨s, hrun, hinode, hblock, hzero⟩ := zeroes_run (List.range fsSize) ⟨img, 1, nmeta⟩
  have h₀ : Built (s.put 1 sb.block) [] := empty_built hinode hblock (by simp [Disk.put]) fun n hn hne =>
    (Function.update_of_ne hne _ _).trans (hzero n (.inl (List.mem_range.2 hn)))
  obtain ⟨s₁, hrun₁, h₁⟩ := ialloc_built .dir h₀ (by decide) (.inl rfl)
  obtain ⟨s₂, hrun₂, h₂⟩ := enter_built (F := []) h₁ (by decide) dot 1
  obtain ⟨s₃, hrun₃, h₃⟩ := enter_built h₂ (by rw [List.length_append, entry_length]; decide) dotDot 1
  have hroot : rootBytes [] = [] ++ entry rootIno dot ++ entry rootIno dotDot := by simp [rootBytes, packed, names, numbered]
  have hfiles := addFiles_built argv [] s₃ (by rw [files, hroot]; exact h₃) (by rw [List.length_nil]; omega)
  have hmain : main argv ⟨img, 1, b⟩ = (do
      Prog.forEach argv (addFile rootIno)
      fixRoot rootIno
      balloc (← Prog.read (·.freeblock)) : M Unit) s₃ := by
    unfold main
    rw [Prog.modify_bind_run, Prog.bind_run_nil hrun]
    unfold wsect
    rw [Prog.modify_bind_run]
    refine (Prog.bind_run_nil hrun₁).trans ?_
    rw [if_neg (by decide)]
    exact (Prog.bind_run_nil hrun₂).trans (Prog.bind_run_nil hrun₃)
  rw [hmain]
  cases hrefused : argv.findSome? Arg.refused with
  | some e =>
    rw [hrefused] at hfiles
    exact bind_stop hfiles
  | none =>
    rw [hrefused] at hfiles
    obtain ⟨t, hrun, ht⟩ := hfiles
    have hused : t.freeblock = used argv := ht.used
    have hfree : (t.setDinode rootIno (rounded t.img)).freeblock = used argv := hused
    dsimp only
    rw [Prog.bind_run_nil hrun, Prog.bind_run_nil (fixRoot_run t), Prog.read_bind_run, balloc_run, hfree]
    by_cases hfits : used argv < bsize * 8
    · rw [if_pos hfits, if_pos hfits]
      refine ⟨_, rfl, ?_⟩
      rw [← hused] at hfits ⊢
      have hright := finish_right ht hfits
      exact ⟨hright, hright.tree⟩
    · rw [if_neg hfits, if_neg hfits]

/-- A file `a` of two bytes. -/
def given : List Arg := [⟨[97], some [some [104, 105]]⟩]

theorem mkfs_image_given : ∃ t, main given ⟨fun _ _ => 0, 1, 0⟩ = ⟨.ok (), t, []⟩ ∧ Right given t.img ∧
    (Tree t.img.boot ↔ 3 % 32 ≠ 0) := by
  have himage := mkfs_image given (fun _ _ => 0) 0 (by decide)
  rw [show given.findSome? Arg.refused = none from rfl] at himage
  dsimp only at himage
  rwa [if_pos (by decide)] at himage

end Mkfs
end Xv6
