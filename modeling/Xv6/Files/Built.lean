import Xv6.Files.Append
/-!
# Files.Built — what `mkfs` builds (mkfs.c)

After each step the image has the files that are finished, and the kernel would find it in order.
-/
namespace Xv6
namespace Mkfs

open Fs (Bno Block nlog)
open Files
open User (Input)
open Prog (wp)

abbrev Content := FileType × List Byte

/-- **The image has some files**, with inodes from 1 on. -/
structure Built (s : Disk) (F : List Content) : Prop where
  good  : Good s.look
  blank : Blank s
  count : s.freeinode = F.length + 1
  few   : F.length < ninodes
  types : ∀ f ∈ F, f.1 = .dir ∨ f.1 = .file
  inode : ∀ k f, F[k]? = some f → (s.img.dinode (k + 1)).type = f.1 ∧ (s.img.dinode (k + 1)).nlink = 1 ∧
    s.look.contents (k + 1) = f.2
  tight : ∀ k f, F[k]? = some f → Tight s.look.onDisk (k + 1) f.2.length
  ends  : ∀ k f, F[k]? = some f → ∀ o, f.2.length ≤ o → s.look.byteAt (k + 1) o = 0
  used  : s.freeblock = nmeta + (F.map fun f => blocks f.2.length).sum
  free  : ∀ i, F.length < i ∨ i = 0 → i < ninodes → (s.img.dinode i).type = .free
  low   : ∀ n < nmeta, n < inodestart ∨ bmapstart ≤ n → s.img n = if n = 1 then sb.block else fun _ => 0

variable {s t : Disk} {F : List Content} {i j k n : Nat} {d d' : Dinode} {type : FileType} {old : List Byte}

theorem look_dinode (hi : i < ninodes) : s.look.dinode i = s.img.dinode i := if_pos hi

theorem iblock_between (hi : i < ninodes) : inodestart ≤ iblock i ∧ iblock i < bmapstart := by
  have hstart : inodestart = 32 := rfl
  have hmap : bmapstart = 58 := rfl
  unfold iblock ipb
  unfold ninodes at hi
  omega

theorem good_look (h : Good (s.hold i d)) : Good s.look :=
  ⟨h.exact, h.filled, fun _ hr => absurd hr (Int.lt_irrefl 0), fun _ hl => nomatch hl⟩

theorem byteAt_setDinode {s : Files.State} {j : Nat} (hon : (s.setDinode i d).onDisk = s.onDisk) :
    (s.setDinode i d).byteAt j = s.byteAt j := by
  funext o
  unfold State.byteAt
  rw [hon]
  rfl

theorem contents_setDinode {s : Files.State} {j : Nat} (hon : (s.setDinode i d).onDisk = s.onDisk) (hj : j ≠ i) :
    (s.setDinode i d).contents j = s.contents j := by
  have hd : (s.setDinode i d).dinode j = s.dinode j := if_neg hj
  unfold State.contents
  rw [byteAt_setDinode hon, hd]

theorem byteAt_none (h : ∀ p : Place, p.inum = i → s.look.onDisk p = 0) (o : Nat) : s.look.byteAt i o = 0 := by
  have hb : blockOf s.look.onDisk i (o / bsize) = 0 := by
    unfold blockOf
    split
    · exact h _ (place_inum i _)
    · rfl
  unfold State.byteAt
  rw [hb]
  exact byteOf_zero _

theorem byteAt_untouched (h : Untouched j (s.hold i d) (t.hold i d')) (o : Nat) : t.look.byteAt j o = s.look.byteAt j o := by
  have hb : blockOf t.look.onDisk j (o / bsize) = blockOf s.look.onDisk j (o / bsize) := blockOf_congr h.addrs _
  unfold State.byteAt
  rw [hb]
  by_cases hz : blockOf s.look.onDisk j (o / bsize) = 0
  · rw [hz]
    rfl
  · have hdata := h.data (place j (o / bsize)) (place_inum j _)
    have hplace := blockOf_place hz
    rw [hplace] at hz ⊢
    exact congrArg (fun b => byteOf b (o % bsize)) (hdata hz)

theorem Tight.congr {f g : Place → Bno} (h : Tight f i n) (hp : ∀ p : Place, p.inum = i → g p = f p) : Tight g i n where
  block m hm := by
    rw [blockOf_congr hp]
    exact h.block m hm
  slot := by
    rw [hp _ rfl]
    exact h.slot

theorem tight_zero {f : Place → Bno} (h : ∀ p : Place, p.inum = i → f p = 0) : Tight f i 0 where
  block m hm := by
    refine iff_of_false (not_not.2 ?_) (Nat.not_lt_zero _)
    unfold blockOf
    rw [if_pos hm, h _ (place_inum i m)]
  slot := iff_of_false (not_not.2 (h _ rfl)) (Nat.not_lt_zero _)

theorem getElem?_snoc {α : Type} {l : List α} {x y : α} : (l ++ [x])[k]? = some y ↔
    l[k]? = some y ∨ k = l.length ∧ y = x := by
  rw [List.getElem?_append]
  split
  · next hk => simp [Nat.ne_of_lt hk]
  · next hk =>
    rw [List.getElem?_eq_none (Nat.not_lt.1 hk)]
    by_cases he : k = l.length
    · simp [he, eq_comm]
    · rw [List.getElem?_eq_none (by simp only [List.length_singleton]; omega)]
      simp [he]

theorem ialloc_built (type : FileType) (h : Built s F) (hi : F.length + 1 < ninodes) (htype : type = .dir ∨ type = .file) :
    ∃ t, ialloc type s = ⟨.ok (F.length + 1), t, []⟩ ∧ Built t (F ++ [(type, [])]) := by
  obtain ⟨d, hd⟩ : ∃ d : Dinode, d = { Dinode.zero with type := type, nlink := 1 } := ⟨_, rfl⟩
  have hfree : (s.look.dinode (F.length + 1)).type = .free := by
    rw [look_dinode hi]
    exact h.free _ (.inl (Nat.lt_succ_self _)) hi
  have hon : (s.look.setDinode (F.length + 1) d).onDisk = s.look.onDisk := by
    funext p
    by_cases hp : p.inum = F.length + 1
    · rw [onDisk_free hfree hp, onDisk_empty _ hp]
      intro k
      rw [setDinode_dinode, Function.update_self, hd]
      rfl
    · have hsame : (s.look.setDinode (F.length + 1) d).dinode p.inum = s.look.dinode p.inum := if_neg hp
      exact onDisk_of_dinode hsame rfl rfl
  have hlook : ({ s with freeinode := s.freeinode + 1 }.setDinode (F.length + 1) d).look =
      s.look.setDinode (F.length + 1) d := look_setDinode hi d
  have hdinode : ∀ j, (s.img.setDinode (F.length + 1) d).dinode j = if j = F.length + 1 then d else s.img.dinode j :=
    fun j => s.img.dinode_setDinode _ j d
  have hlt : ∀ {k f}, F[k]? = some f → k + 1 ≠ F.length + 1 := fun hk e => by
    have := (List.getElem?_eq_some_iff.1 hk).1
    omega
  refine ⟨{ s with freeinode := s.freeinode + 1 }.setDinode (F.length + 1) d, ?_, ?_⟩
  · unfold ialloc
    rw [Prog.read_bind_run, Prog.modify_bind_run, h.count, ← hd, Prog.bind_run_nil (winode_run hi d)]
    rfl
  · refine ⟨?_, ?_, ?_, ?_, fun f hf => ?_, fun k f hk => ?_, fun k f hk => ?_, fun k f hk => ?_, ?_, fun i hF hin => ?_,
      fun n hn hne => ?_⟩
    · rw [hlook]
      have := h.good.replace (n := s.look.inode (F.length + 1)) hon
        (fun _ n hn => absurd hn (by rw [hd]; exact Nat.not_lt_zero _))
        (fun hr => absurd hr (Int.lt_irrefl 0)) (h.good.held _)
      rwa [setInode_inode] at this
    · exact Blank.setDinode (s := { s with freeinode := s.freeinode + 1 }) ⟨h.blank.low, h.blank.zero⟩ hi d
    · rw [List.length_append]
      exact congrArg (· + 1) h.count
    · rw [List.length_append]
      exact hi
    · rcases List.mem_append.1 hf with hf | hf
      · exact h.types f hf
      · exact List.mem_singleton.1 hf ▸ htype
    · rw [hlook]
      show ((s.img.setDinode (F.length + 1) d).dinode (k + 1)).type = _ ∧
        ((s.img.setDinode (F.length + 1) d).dinode (k + 1)).nlink = _ ∧ _
      rw [hdinode]
      rcases getElem?_snoc.1 hk with hk | ⟨rfl, rfl⟩
      · rw [if_neg (hlt hk), contents_setDinode hon (hlt hk)]
        exact h.inode k f hk
      · rw [if_pos rfl, hd]
        refine ⟨rfl, rfl, ?_⟩
        unfold State.contents
        rw [setDinode_dinode, Function.update_self]
        rfl
    · rw [hlook, hon]
      rcases getElem?_snoc.1 hk with hk | ⟨rfl, rfl⟩
      · exact h.tight k f hk
      · exact tight_zero fun p hp => onDisk_free hfree hp
    · rw [hlook, byteAt_setDinode hon]
      rcases getElem?_snoc.1 hk with hk | ⟨rfl, rfl⟩
      · exact h.ends k f hk
      · exact fun o _ => byteAt_none (fun p hp => onDisk_free hfree hp) o
    · have hnone : blocks 0 = 0 := rfl
      rw [List.map_append, List.sum_append]
      exact h.used.trans (by simp [hnone])
    · show ((s.img.setDinode (F.length + 1) d).dinode i).type = .free
      rw [List.length_append] at hF
      rw [hdinode, if_neg (by simp only [List.length_singleton] at hF; omega)]
      exact h.free i (by omega) hin
    · have hb := iblock_between hi
      exact (s.img.setDinode_other d (by omega)).trans (h.low n hn hne)

/-! ## Appending -/

theorem Built.kind (h : Built s F) {f : Content} (hk : F[k]? = some f) :
    (s.img.dinode (k + 1)).type ≠ .free ∧ (s.img.dinode (k + 1)).type ≠ .dev := by
  rw [(h.inode k f hk).1]
  rcases h.types f (List.mem_of_getElem? hk) with hf | hf <;> simp [hf]

theorem Built.call (h : Built s F) {f : Content} (hk : F[k]? = some f) :
    k + 1 < ninodes ∧ (s.img.dinode (k + 1)).size.toNat = f.2.length ∧
      InCall (s.hold (k + 1) (s.img.dinode (k + 1))) (k + 1) := by
  obtain ⟨hlt, hget⟩ := List.getElem?_eq_some_iff.1 hk
  obtain ⟨-, -, hbytes⟩ := h.inode k f hk
  obtain ⟨hfree, hdev⟩ := h.kind hk
  have hi : k + 1 < ninodes := Nat.lt_of_le_of_lt hlt h.few
  have hdinode := look_dinode (s := s) hi
  refine ⟨hi, ?_, ?_, fun j hj => ?_, ?_, ?_, Int.le_refl 1⟩
  · rw [← hbytes, contents_length, hdinode]
  · refine Good.counts (h.good.setInode (fun _ _ => ⟨hdinode.symm, ?_⟩) fun _ => ⟨Int.zero_lt_one, rfl⟩) 1 1
    rwa [hdinode]
  · exact congrArg Dinode.type (if_neg (Nat.not_lt.2 hj))
  · exact congrArg Inode.locked (setInode_self (s := s.look) _)
  · show (s.look.dinode (k + 1)).type ≠ .dev
    rwa [hdinode]

theorem rest_type {s t : Files.State} (h : t.rest i = s.rest i) :
    (t.ip i).type = (s.ip i).type ∧ (t.ip i).nlink = (s.ip i).nlink := by
  have htype := congrArg (fun u => (u.inode i).d.type) h
  have hlink := congrArg (fun u => (u.inode i).d.nlink) h
  simp only [State.rest, Function.update_self] at htype hlink
  exact ⟨htype, hlink⟩

theorem getElem?_set_cases {α : Type} {l : List α} {x y : α} (h : (l.set k x)[j]? = some y) :
    k = j ∧ y = x ∨ k ≠ j ∧ l[j]? = some y := by
  by_cases hkj : k = j
  · subst hkj
    have hlt := (List.getElem?_eq_some_iff.1 h).1
    rw [List.length_set] at hlt
    rw [List.getElem?_set_self hlt, Option.some.injEq] at h
    exact .inl ⟨rfl, h.symm⟩
  · rw [List.getElem?_set_ne hkj] at h
    exact .inr ⟨hkj, h⟩

theorem sum_set {α : Type} {g : α → Nat} {x y : α} : ∀ {l : List α} {k : Nat}, l[k]? = some x →
    ((l.set k y).map g).sum + g x = (l.map g).sum + g y
  | a :: l, 0, h     => by
    obtain rfl : a = x := by simpa using h
    simp only [List.set_cons_zero, List.map_cons, List.sum_cons]
    omega
  | a :: l, k + 1, h => by
    have ih := sum_set (g := g) (y := y) (l := l) (k := k) (by simpa using h)
    simp only [List.set_cons_succ, List.map_cons, List.sum_cons]
    omega

theorem splice_end {l new : List Byte} : splice l l.length new = l ++ new := by simp [splice]

theorem iappend_built (h : Built s F) (hk : F[k]? = some (type, old)) (src : Nat → Byte) (hn : 0 < n) :
    if old.length + n ≤ maxFile * bsize then ∃ t, iappend (k + 1) src n s = ⟨.ok (), t, []⟩ ∧
      Built t (F.set k (type, old ++ (List.range n).map src))
    else (iappend (k + 1) src n s).res = .error .maxFile := by
  obtain ⟨hi, hsize, hcall⟩ := h.call hk
  obtain ⟨htype, hlink, hbytes⟩ := h.inode k _ hk
  have hlim : maxFile * bsize = 71680 := rfl
  have hrun := iappend_hold h.blank hi hcall src hn
  rw [hsize] at hrun
  by_cases hfits : old.length + n ≤ maxFile * bsize
  · rw [if_pos hfits] at hrun ⊢
    obtain ⟨t, ev, hrun, hwrite, hblank, hinodes, hlow, hends, htight⟩ := hrun
    have hn32 : (BitVec.ofNat 32 n).toNat = n := Nat.mod_eq_of_lt (by omega)
    have hdinode : (s.hold (k + 1) (s.img.dinode (k + 1))).dinode (k + 1) = s.img.dinode (k + 1) := hold_dinode hi
    have hoff : (s.img.dinode (k + 1)).size.toNat ≤
        ((s.hold (k + 1) (s.img.dinode (k + 1))).dinode (k + 1)).size.toNat := by rw [hdinode]
    have hmax : (s.img.dinode (k + 1)).size.toNat + (BitVec.ofNat 32 n).toNat ≤ maxFile * bsize := by
      rw [hn32, hsize]
      exact hfits
    obtain ⟨-, hwritten⟩ := Prog.wp.ok (writei_written hcall src hoff hmax) (congrArg Outcome.res hwrite)
    obtain ⟨hgood, hrest, hother⟩ := Prog.wp.ok (writei_wp hcall.good hcall.held src _ _) (congrArg Outcome.res hwrite)
    rw [hwrite] at hwritten hgood hrest hother
    dsimp only at hwritten hgood hrest hother
    rw [hn32, hsize] at hwritten
    have hothers : ∀ j, j ≠ k + 1 → j < ninodes → t.img.dinode j = s.img.dinode j := fun j hj hjn => by
      have := hwritten.inodes j hj
      rwa [hold_dinode hjn, hold_dinode hjn] at this
    obtain ⟨htype', hlink'⟩ := rest_type hrest
    rw [hold_ip, hold_ip] at htype' hlink'
    refine ⟨t, hrun, good_look hgood, hblank, ?_, ?_, fun f hf => ?_, fun j f hj => ?_, fun j f hj => ?_, fun j f hj => ?_,
      ?_, fun j hF hjn => ?_, fun m hm hne => ?_⟩
    · rw [List.length_set, hinodes, h.count]
    · rw [List.length_set]
      exact h.few
    · rcases List.mem_or_eq_of_mem_set hf with hf | rfl
      · exact h.types f hf
      · exact h.types (type, old) (List.mem_of_getElem? hk)
    · rcases getElem?_set_cases hj with ⟨rfl, rfl⟩ | ⟨hjk, hj⟩
      · refine ⟨htype'.trans htype, hlink'.trans hlink, ?_⟩
        refine (hwritten.contents.trans ?_ : t.look.contents (k + 1) = _)
        rw [show (s.hold (k + 1) (s.img.dinode (k + 1))).contents (k + 1) = old from hbytes]
        exact splice_end
      · obtain ⟨hj', hsize', -⟩ := h.call hj
        obtain ⟨htypej, hlinkj, hbytesj⟩ := h.inode j f hj
        have hne : j + 1 ≠ k + 1 := fun e => hjk (Nat.succ.inj e).symm
        rw [hothers _ hne hj']
        refine ⟨htypej, hlinkj, (hwritten.others (j + 1) hne ?_).trans hbytesj⟩
        rw [hold_dinode hj']
        exact (h.kind hj).1
    · rcases getElem?_set_cases hj with ⟨rfl, rfl⟩ | ⟨hjk, hj⟩
      · rw [List.length_append, List.length_map, List.length_range]
        exact (htight (h.tight k _ hk)).1
      · exact (h.tight j f hj).congr (hother (j + 1) fun e => hjk (Nat.succ.inj e).symm).addrs
    · rcases getElem?_set_cases hj with ⟨rfl, rfl⟩ | ⟨hjk, hj⟩
      · rw [List.length_append, List.length_map, List.length_range]
        exact hends (h.ends k _ hk)
      · exact fun o ho => (byteAt_untouched (hother (j + 1) fun e => hjk (Nat.succ.inj e).symm) o).trans (h.ends j f hj o ho)
    · have hsum := sum_set (g := fun f : Content => blocks f.2.length) (y := (type, old ++ (List.range n).map src)) hk
      have hcount := (htight (h.tight k _ hk)).2
      have hused := h.used
      rw [List.length_append, List.length_map, List.length_range] at hsum
      dsimp only at hsum hcount
      omega
    · rw [List.length_set] at hF
      have hlen := (List.getElem?_eq_some_iff.1 hk).1
      rw [hothers j (by omega) hjn]
      exact h.free j hF hjn
    · have hb := iblock_between hi
      exact (hlow m hm (by omega)).trans (h.low m hm hne)
  · rw [if_neg hfits] at hrun ⊢
    exact hrun

/-! ## Files -/

def entry (inum : Nat) (name : Name) : List Byte := (List.range 16).map (Dirent.byte ⟨BitVec.ofNat 16 inum, name⟩)

@[simp] theorem entry_length (inum : Nat) (name : Name) : (entry inum name).length = 16 := by simp [entry]

theorem enter_built (h : Built s ((.dir, old) :: F)) (hfits : old.length + 16 ≤ maxFile * bsize) (name : Name) (inum : Nat) :
    ∃ t, enter rootIno name inum s = ⟨.ok (), t, []⟩ ∧ Built t ((.dir, old ++ entry inum name) :: F) := by
  have happend := iappend_built (k := 0) h rfl (Dirent.byte ⟨BitVec.ofNat 16 inum, name⟩) (n := 16) (by decide)
  rwa [if_pos hfits] at happend

theorem copy_built : ∀ (m : Nat) (inp : Input) (old : List Byte) (s : Disk) (F : List Content), inp.size < m → Built s F →
    F[k]? = some (type, old) → old.length ≤ maxFile * bsize →
      if old.length + inp.data.length ≤ maxFile * bsize then ∃ t, copy (k + 1) m inp s = ⟨.ok (), t, []⟩ ∧
        Built t (F.set k (type, old ++ inp.data))
      else (copy (k + 1) m inp s).res = .error .maxFile
  | 0, _, _, _, _, hm, _, _, _          => absurd hm (Nat.not_lt_zero _)
  | m + 1, inp, old, s, F, hm, h, hk, hold => by
    have hend : inp.data = [] → copy (k + 1) (m + 1) inp s = ⟨.ok (), s, []⟩ →
        if old.length + inp.data.length ≤ maxFile * bsize then ∃ t, copy (k + 1) (m + 1) inp s = ⟨.ok (), t, []⟩ ∧
          Built t (F.set k (type, old ++ inp.data))
        else (copy (k + 1) (m + 1) inp s).res = .error .maxFile := fun hnil hrun => by
      rw [hnil, if_pos (by simpa using hold)]
      refine ⟨s, hrun, ?_⟩
      obtain ⟨hlt, hget⟩ := List.getElem?_eq_some_iff.1 hk
      rwa [List.append_nil, ← hget, List.set_getElem_self]
    rcases hread : User.read bsize inp with ⟨_ | _ | ⟨c, d⟩, inp'⟩
    · exact hend (User.read_none hread).1 (by rw [copy, hread]; rfl)
    · exact hend (User.read_nil (by decide) hread).1 (by rw [copy, hread]; rfl)
    · obtain ⟨hdata, -, hsize, -⟩ := User.read_some hread (List.cons_ne_nil c d)
      have hsrc : (List.range (c :: d).length).map (fun j => (c :: d).getD j 0) = c :: d := by
        refine List.ext_getElem (by simp) fun j hj _ => ?_
        rw [List.length_map, List.length_range] at hj
        simp [List.getElem?_eq_getElem hj]
      have happend := iappend_built h hk (fun j => (c :: d).getD j 0) (n := (c :: d).length) (Nat.succ_pos _)
      rw [hsrc] at happend
      have hrun : copy (k + 1) (m + 1) inp =
          (iappend (k + 1) (fun j => (c :: d).getD j 0) (c :: d).length >>= fun _ => copy (k + 1) m inp') := by
        rw [copy, hread]
      rw [hrun, hdata, List.length_append, ← Nat.add_assoc, ← List.append_assoc]
      by_cases hfits : old.length + (c :: d).length ≤ maxFile * bsize
      · rw [if_pos hfits] at happend
        obtain ⟨t, hrun, ht⟩ := happend
        have hlen := (List.getElem?_eq_some_iff.1 hk).1
        have ih := copy_built m inp' (old ++ c :: d) t _ (by omega) ht (List.getElem?_set_self hlen)
          (by rwa [List.length_append])
        rwa [List.length_append, List.set_set, ← Prog.bind_run_nil (f := fun _ => copy (k + 1) m inp') hrun] at ih
      · rw [if_neg hfits] at happend
        rw [if_neg (by omega)]
        exact bind_stop happend

def Arg.data (a : Arg) : List Byte := (a.inp.getD []).data

def Arg.refused (a : Arg) : Option Stop :=
  if a.name.contains slash then some .slash
  else if a.inp.isNone then some .open
  else if a.data.length ≤ maxFile * bsize then none else some .maxFile

def packed (l : List (Name × Nat)) : List Byte := l.flatMap fun e => entry e.2 e.1

theorem packed_append (l l' : List (Name × Nat)) : packed (l ++ l') = packed l ++ packed l' := List.flatMap_append

@[simp] theorem packed_one (name : Name) (inum : Nat) : packed [(name, inum)] = entry inum name := List.append_nil _

theorem packed_length : ∀ l : List (Name × Nat), (packed l).length = 16 * l.length
  | []     => rfl
  | e :: l => by
    have hcons : packed (e :: l) = entry e.2 e.1 ++ packed l := rfl
    rw [hcons, List.length_append, entry_length, packed_length l, List.length_cons]
    omega

/-- The names of the files, which get the inodes from `i` on. -/
def numbered : Nat → List Arg → List (Name × Nat)
  | _, []        => []
  | i, a :: argv => (strip a.name, i) :: numbered (i + 1) argv

theorem numbered_snoc (a : Arg) : ∀ (i : Nat) (argv : List Arg),
    numbered i (argv ++ [a]) = numbered i argv ++ [(strip a.name, i + argv.length)]
  | i, []        => rfl
  | i, b :: argv => by
    rw [List.cons_append, numbered, numbered, numbered_snoc a (i + 1) argv, List.cons_append, List.length_cons,
      Nat.add_right_comm, Nat.add_assoc i]

theorem numbered_length : ∀ (i : Nat) (argv : List Arg), (numbered i argv).length = argv.length
  | _, []        => rfl
  | i, a :: argv => by rw [numbered, List.length_cons, numbered_length (i + 1) argv, List.length_cons]

/-- **The root directory**: itself under two names, and the files. -/
def names (argv : List Arg) : List (Name × Nat) := (dot, rootIno) :: (dotDot, rootIno) :: numbered 2 argv

theorem names_length (argv : List Arg) : (names argv).length = argv.length + 2 := by
  rw [names, List.length_cons, List.length_cons, numbered_length]

def rootBytes (argv : List Arg) : List Byte := packed (names argv)

/-- **The files of an image**: the root directory, and what is given. -/
def files (argv : List Arg) : List Content := (.dir, rootBytes argv) :: argv.map fun a => (.file, a.data)

theorem rootBytes_length (argv : List Arg) : (rootBytes argv).length = 16 * (argv.length + 2) := by
  rw [rootBytes, packed_length, names_length]

theorem files_length (argv : List Arg) : (files argv).length = argv.length + 1 := by simp [files]

theorem addFile_built {argv : List Arg} (h : Built s (files argv)) (hfew : argv.length + 2 < ninodes) (a : Arg) :
    match a.refused with
    | none   => ∃ t, addFile rootIno a s = ⟨.ok (), t, []⟩ ∧ Built t (files (argv ++ [a]))
    | some e => (addFile rootIno a s).res = .error e := by
  have hninodes : ninodes = 200 := rfl
  have hlim : maxFile * bsize = 71680 := rfl
  unfold addFile Arg.refused
  by_cases hslash : a.name.contains slash = true
  · rw [if_pos hslash, if_pos hslash]
    rfl
  rw [if_neg hslash, if_neg hslash]
  cases hinp : a.inp with
  | none => exact rfl
  | some inp =>
    have hdata : a.data = inp.data := by rw [Arg.data, hinp]; rfl
    have hlen := files_length argv
    obtain ⟨s₁, hrun₁, h₁⟩ := ialloc_built .file h (by omega) (.inr rfl)
    obtain ⟨s₂, hrun₂, h₂⟩ := enter_built (F := argv.map (fun a => (.file, a.data)) ++ [(.file, [])]) h₁
      (by rw [rootBytes_length]; omega) (strip a.name) ((files argv).length + 1)
    have hlast : ((FileType.dir, rootBytes argv ++ entry ((files argv).length + 1) (strip a.name)) ::
        (argv.map (fun a => (FileType.file, a.data)) ++ [(.file, [])]))[(files argv).length]? = some (.file, []) := by
      rw [hlen]
      simp
    have hcopy := copy_built (inp.size + 1) inp [] s₂ _ (Nat.lt_succ_self _) h₂ hlast (Nat.zero_le _)
    have hfiles : ((FileType.dir, rootBytes argv ++ entry ((files argv).length + 1) (strip a.name)) ::
        (argv.map (fun a => (FileType.file, a.data)) ++ [(.file, [])])).set (files argv).length (.file, [] ++ inp.data) =
        files (argv ++ [a]) := by
      have hnames : names (argv ++ [a]) = names argv ++ [(strip a.name, (files argv).length + 1)] := by
        rw [names, numbered_snoc, hlen, Nat.add_comm 2]
        rfl
      have hroot : rootBytes (argv ++ [a]) = rootBytes argv ++ entry ((files argv).length + 1) (strip a.name) := by
        rw [rootBytes, hnames, packed_append, packed_one, rootBytes]
      simp [files, hroot, hdata]
    have hrun : (do
        let inum ← ialloc .file
        enter rootIno (strip a.name) inum
        copy inum (inp.size + 1) inp : M Unit) s = copy ((files argv).length + 1) (inp.size + 1) inp s₂ :=
      (Prog.bind_run_nil hrun₁).trans (Prog.bind_run_nil hrun₂)
    rw [List.length_nil, Nat.zero_add] at hcopy
    rw [hdata, if_neg (by simp)]
    dsimp only
    rw [hrun]
    by_cases hfits : inp.data.length ≤ maxFile * bsize
    · rw [if_pos hfits] at hcopy ⊢
      obtain ⟨t, hrun, ht⟩ := hcopy
      exact ⟨t, hrun, hfiles ▸ ht⟩
    · rw [if_neg hfits] at hcopy ⊢
      exact hcopy

/-- **All files are added**, or `mkfs` stops at the first that it refuses. -/
theorem addFiles_built : ∀ (argv done : List Arg) (s : Disk), Built s (files done) →
    done.length + argv.length + 1 < ninodes →
    match argv.findSome? Arg.refused with
    | none   => ∃ t, Prog.forEach argv (addFile rootIno) s = ⟨.ok (), t, []⟩ ∧ Built t (files (done ++ argv))
    | some e => (Prog.forEach argv (addFile rootIno) s).res = .error e
  | [], done, s, h, _            => ⟨s, rfl, by rwa [List.append_nil]⟩
  | a :: argv, done, s, h, hfew  => by
    rw [List.length_cons] at hfew
    have hadd := addFile_built h (by omega) a
    rw [List.findSome?_cons, Prog.forEach_cons]
    cases href : a.refused with
    | some e =>
      rw [href] at hadd
      exact bind_stop hadd
    | none =>
      rw [href] at hadd
      obtain ⟨t, hrun, ht⟩ := hadd
      have ih := addFiles_built argv (done ++ [a]) t ht (by rw [List.length_append, List.length_singleton]; omega)
      rw [List.append_assoc] at ih
      rw [Prog.bind_run_nil hrun]
      exact ih

end Mkfs
end Xv6
