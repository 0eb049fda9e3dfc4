import Xv6.Files.Mkfs
/-!
# Files.Append — `iappend` writes as the kernel does (mkfs.c, fs.c)

The image as the kernel would see it, with the blocks that `freeblock` has passed in use.  On it `iappend` does what `writei`
does at the end of the file.
-/
namespace Xv6
namespace Mkfs

open Fs (Bno Block nlog)
open Files
open Prog (wp)

variable {s t : Disk} {i j n : Nat} {d : Dinode} {b : Bno}

/-- The kernel's view of the image, where the blocks given out are those in use. -/
def Disk.look (s : Disk) : Files.State := { s.img.boot with bit := fun b => decide (b.toNat < s.freeblock) }

/-- The same with inode `i` locked, and `d` in memory. -/
def Disk.hold (s : Disk) (i : Nat) (d : Dinode) : Files.State :=
  { s.look.setInode i ⟨1, true, true, d⟩ with cached := 1, outstanding := 1 }

/-- The blocks that are not yet given out hold zeroes. -/
structure Blank (s : Disk) : Prop where
  low  : nmeta ≤ s.freeblock
  zero : ∀ n, s.freeblock ≤ n → n < fsSize → s.img n = fun _ => 0

structure Later (s t : Disk) : Prop where
  blank  : Blank t
  inodes : t.freeinode = s.freeinode
  low    : ∀ n < nmeta, t.img n = s.img n

theorem Later.refl (h : Blank s) : Later s s := ⟨h, rfl, fun _ _ => rfl⟩

theorem Later.trans {u : Disk} (h : Later s t) (h' : Later t u) : Later s u :=
  ⟨h'.blank, h'.inodes.trans h.inodes, fun n hn => (h'.low n hn).trans (h.low n hn)⟩

theorem toNat_ofNat (h : n < fsSize) : (BitVec.ofNat 32 n).toNat = n := Nat.mod_eq_of_lt (h.trans (by decide))

theorem iblock_lt (h : i < ninodes) : iblock i < nmeta := by
  have hmeta : nmeta = 83 := rfl
  have hstart : inodestart = 32 := rfl
  unfold iblock ipb
  unfold ninodes at h
  omega

theorem hold_ip : (s.hold i d).ip i = d := congrArg Inode.d (setInode_self (s := s.look) ⟨1, true, true, d⟩)

theorem hold_setIp (d' : Dinode) : (s.hold i d).setIp i d' = s.hold i d' := by
  have hinode : (s.hold i d).inode i = ⟨1, true, true, d⟩ := setInode_self (s := s.look) _
  unfold State.setIp
  rw [hinode]
  exact congrArg (fun u : Files.State => { u with cached := 1, outstanding := 1 })
    (setInode_setInode (s := s.look) ⟨1, true, true, d⟩ ⟨1, true, true, d'⟩)

theorem hold_setAddr (k : Fin 13) (b : Bno) : (s.hold i d).setAddr i k b = s.hold i (d.setAddr k b) := by
  rw [setAddr_eq, hold_ip, hold_setIp]

theorem freeBlock_hold (hlt : s.freeblock < fsSize) : (s.hold i d).freeBlock = some s.freeblock := by
  unfold State.freeBlock
  rw [List.find?_range_eq_some]
  refine ⟨?_, List.mem_range.2 hlt, fun n hn => ?_⟩
  · show (!decide ((BitVec.ofNat 32 s.freeblock).toNat < s.freeblock)) = true
    rw [toNat_ofNat hlt]
    simp
  · show (!!decide ((BitVec.ofNat 32 n).toNat < s.freeblock)) = true
    rw [toNat_ofNat (hn.trans hlt)]
    simp [hn]

/-- The disk after `freeblock++`. -/
def Disk.next (s : Disk) : Disk := { s with freeblock := s.freeblock + 1 }

theorem Later.next (h : Later s t) : Later s t.next where
  blank := ⟨Nat.le_succ_of_le h.blank.low, fun n hn => h.blank.zero n (Nat.le_of_succ_le hn)⟩
  inodes := h.inodes
  low := h.low

theorem taken_hold (h : Blank s) (hlt : s.freeblock < fsSize) :
    (s.hold i d).taken (BitVec.ofNat 32 s.freeblock) = s.next.hold i d := by
  have hto := toNat_ofNat hlt
  have hbit : (s.look.setBit (BitVec.ofNat 32 s.freeblock) true).bit = s.next.look.bit := by
    funext c
    show (if c = BitVec.ofNat 32 s.freeblock then true else decide (c.toNat < s.freeblock)) =
      decide (c.toNat < s.freeblock + 1)
    by_cases hc : c = BitVec.ofNat 32 s.freeblock
    · rw [if_pos hc, hc, hto]
      simp
    · have hne : c.toNat ≠ s.freeblock := fun e => hc (BitVec.eq_of_toNat_eq (e.trans hto.symm))
      rw [if_neg hc, decide_eq_decide]
      omega
  have hdata : (s.look.setData (BitVec.ofNat 32 s.freeblock) fun _ => 0).data = s.next.look.data := by
    funext c
    show (if c = BitVec.ofNat 32 s.freeblock then (fun _ => 0) else if nmeta ≤ c.toNat then s.img c.toNat else fun _ => 0) =
      if nmeta ≤ c.toNat then s.img c.toNat else fun _ => 0
    by_cases hc : c = BitVec.ofNat 32 s.freeblock
    · rw [if_pos hc, hc, hto, if_pos h.low, h.zero _ (Nat.le_refl _) hlt]
    · rw [if_neg hc]
  exact congr (congrArg (fun bit data => ({ s.hold i d with bit := bit, data := data } : Files.State)) hbit) hdata

theorem logWrite_run {s : Files.State} (ho : 1 ≤ s.outstanding) (n : Nat) : logWrite n s = ⟨.ok (), s, [.log n]⟩ := by
  unfold logWrite
  rw [Prog.read_bind_run, if_neg (by omega)]
  rfl

theorem balloc_hold (h : Blank s) (hlt : s.freeblock < fsSize) :
    ∃ ev, Files.balloc (s.hold i d) = ⟨.ok (BitVec.ofNat 32 s.freeblock), s.next.hold i d, ev⟩ := by
  have htake : ∃ ev, take (BitVec.ofNat 32 s.freeblock) (s.hold i d) =
      ⟨.ok (BitVec.ofNat 32 s.freeblock), (s.hold i d).taken (BitVec.ofNat 32 s.freeblock), ev⟩ := by
    unfold take bzero
    rw [Prog.modify_bind_run, Prog.bind_run_ok (logWrite_run (Int.le_refl 1) _)]
    rw [Prog.bind_run_ok (Prog.bind_run_ok (Prog.modify_run _ _))]
    exact ⟨_, rfl⟩
  obtain ⟨ev, hev⟩ := htake
  rw [taken_hold h hlt] at hev
  unfold Files.balloc
  rw [Prog.emit_bind_run, Prog.read_bind_run, freeBlock_hold hlt]
  simp only [hev]
  exact ⟨_, rfl⟩

/-- The disk after a `wsect`. -/
def Disk.put (s : Disk) (sec : Nat) (v : Block) : Disk := { s with img := Function.update s.img sec v }

theorem Later.put (h : Later s t) (hlow : nmeta ≤ n) (hn : n < t.freeblock) (v : Block) : Later s (t.put n v) where
  blank := ⟨h.blank.low, fun m hm hlt =>
    (Function.update_of_ne (Nat.ne_of_gt (Nat.lt_of_lt_of_le hn hm)) _ _).trans (h.blank.zero m hm hlt)⟩
  inodes := h.inodes
  low m hm := (Function.update_of_ne (Nat.ne_of_lt (Nat.lt_of_lt_of_le hm hlow)) _ _).trans (h.low m hm)

theorem setData_hold (hb : nmeta ≤ b.toNat) (v : Block) : (s.hold i d).setData b v = (s.put b.toNat v).hold i d := by
  have hdata : (s.look.setData b v).data = (s.put b.toNat v).look.data := by
    funext c
    show (if c = b then v else if nmeta ≤ c.toNat then s.img c.toNat else fun _ => 0) =
      if nmeta ≤ c.toNat then Function.update s.img b.toNat v c.toNat else fun _ => 0
    by_cases hc : c = b
    · rw [if_pos hc, hc, if_pos hb, Function.update_self]
    · have hne : c.toNat ≠ b.toNat := fun e => hc (BitVec.eq_of_toNat_eq e)
      rw [if_neg hc, Function.update_of_ne hne]
  have hdinode : s.look.dinode = (s.put b.toNat v).look.dinode := by
    funext j
    show (if j < ninodes then s.img.dinode j else Dinode.zero) = if j < ninodes then _ else Dinode.zero
    split
    · next hj => exact (Image.dinode_update s.img v (Nat.ne_of_lt (Nat.lt_of_lt_of_le (iblock_lt hj) hb))).symm
    · rfl
  exact congr (congrArg (fun dinode data => ({ s.hold i d with dinode := dinode, data := data } : Files.State)) hdinode)
    hdata

theorem rsect_run (hn : n < fsSize) : rsect n s = ⟨.ok (s.img n), s, []⟩ := by
  unfold rsect
  rw [if_pos hn]
  rfl

/-! ## Blocks of a file -/

theorem slotBlock_hold (h : Blank s) (hlt : s.freeblock < fsSize) (i : Nat) (d : Dinode) (k : Fin 13) : ∃ d' b s' ev,
    slotBlock d k s = ⟨.ok (d', b), s', []⟩ ∧ slotAddr i k (s.hold i d) = ⟨.ok b, s'.hold i d', ev⟩ ∧ Later s s' ∧
    (d.addrs k ≠ 0 ∧ d' = d ∧ b = d.addrs k ∧ s' = s ∨
      d.addrs k = 0 ∧ d' = d.setAddr k b ∧ b = BitVec.ofNat 32 s.freeblock ∧ s' = s.next) := by
  unfold slotBlock slotAddr
  rw [Prog.read_bind_run, hold_ip]
  by_cases hk : d.addrs k = 0
  · obtain ⟨ev, hev⟩ := balloc_hold (i := i) (d := d) h hlt
    rw [if_pos hk, if_pos hk, Prog.bind_run_ok hev, Prog.modify_bind_run, hold_setAddr]
    exact ⟨_, _, s.next, _, rfl, rfl, (Later.refl h).next, .inr ⟨hk, rfl, rfl, rfl⟩⟩
  · rw [if_neg hk, if_neg hk]
    exact ⟨_, _, s, _, rfl, rfl, Later.refl h, .inl ⟨hk, rfl, rfl, rfl⟩⟩

theorem ready_room (h : Ready (s.hold i d) i) : s.freeblock < fsSize := by
  obtain ⟨n, hn, hbit⟩ := h.exact.exists_free h.inums
  have hbit' : decide ((BitVec.ofNat 32 n).toNat < s.freeblock) = false := hbit
  rw [toNat_ofNat hn, decide_eq_false_iff_not] at hbit'
  omega

theorem ready_used (h : Ready (s.hold i d) i) {p : Place} (hp : (s.hold i d).addr i p ≠ 0) :
    nmeta ≤ ((s.hold i d).addr i p).toNat ∧ ((s.hold i d).addr i p).toNat < fsSize ∧
      ((s.hold i d).addr i p).toNat < s.freeblock := by
  have harea := h.exact.owned.area p hp
  exact ⟨harea.1, harea.2, of_decide_eq_true (h.exact.owned.set hp)⟩

theorem wordAddr_hold (h : Blank s) (hr : Ready (s.hold i d) i) (ha : d.addrs 12 ≠ 0) (j : Fin 128) : ∃ x s' ev,
    (do
      let indirect ← rsect (d.addrs 12).toNat
      if indirect j = 0 then do
        let x ← freshBlock
        wsect (d.addrs 12).toNat (Function.update indirect j x)
        pure (d, x)
      else pure (d, indirect j) : M (Dinode × Bno)) s = ⟨.ok (d, x), s', []⟩ ∧
    wordAddr (d.addrs 12) j (s.hold i d) = ⟨.ok x, s'.hold i d, ev⟩ ∧ Later s s' ∧
    (s.img (d.addrs 12).toNat j ≠ 0 ∧ x = s.img (d.addrs 12).toNat j ∧ s' = s ∨
      s.img (d.addrs 12).toNat j = 0 ∧ x = BitVec.ofNat 32 s.freeblock ∧
        s' = s.next.put (d.addrs 12).toNat (Function.update (s.img (d.addrs 12).toNat) j x)) := by
  have hslot : (s.hold i d).addr i (.slot i 12) = d.addrs 12 := by
    rw [addr_slot_self hr.file, hold_ip]
  obtain ⟨hlow, hhigh, hused⟩ := ready_used hr (p := .slot i 12) (hslot ▸ ha)
  rw [hslot] at hlow hhigh hused
  have hdata : (s.hold i d).data (d.addrs 12) = s.img (d.addrs 12).toNat := if_pos hlow
  unfold wordAddr
  rw [Prog.bind_run_nil (rsect_run hhigh), Prog.read_bind_run, hdata]
  by_cases hj : s.img (d.addrs 12).toNat j = 0
  · obtain ⟨ev, hev⟩ := balloc_hold (i := i) (d := d) h (ready_room hr)
    have hset : (s.next.hold i d).setWord (d.addrs 12) j (BitVec.ofNat 32 s.freeblock) =
        (s.next.put (d.addrs 12).toNat
          (Function.update (s.img (d.addrs 12).toNat) j (BitVec.ofNat 32 s.freeblock))).hold i d := by
      rw [← setData_hold hlow]
      unfold State.setWord
      congr 1
      funext w
      rw [Function.update_apply]
      exact if_congr Iff.rfl rfl (congrFun (if_pos hlow) w)
    rw [if_pos hj, if_pos hj, Prog.bind_run_ok hev, Prog.modify_bind_run, hset,
      Prog.bind_run_ok (logWrite_run (Int.le_refl 1) _)]
    exact ⟨_, _, _, rfl, rfl, (Later.refl h).next.put hlow (Nat.lt_succ_of_lt hused) _, .inr ⟨hj, rfl, rfl⟩⟩
  · rw [if_neg hj, if_neg hj]
    exact ⟨_, s, _, rfl, rfl, Later.refl h, .inl ⟨hj, rfl, rfl⟩⟩

/-- The address of block `m` of the file whose inode is `d`. -/
def Disk.addrOf (s : Disk) (d : Dinode) (m : Nat) : Bno :=
  if m < ndirect then d.addrs (Fin.ofNat 13 m)
  else if d.addrs 12 = 0 then 0 else s.img (d.addrs 12).toNat (Fin.ofNat 128 (m - ndirect))

/-- **What finding block `fbn` changes**: that block has an address, and the indirect block where it is needed, each of
them a fresh one if there was none. -/
structure Found (s : Disk) (d : Dinode) (fbn : Nat) (s' : Disk) (d' : Dinode) (x : Bno) : Prop where
  addr  : ∀ m < maxFile, s'.addrOf d' m = if m = fbn then x else s.addrOf d m
  slot  : d'.addrs 12 ≠ 0 ↔ d.addrs 12 ≠ 0 ∨ ndirect ≤ fbn
  count : s'.freeblock = s.freeblock + (if s.addrOf d fbn = 0 then 1 else 0) +
    if ndirect ≤ fbn ∧ d.addrs 12 = 0 then 1 else 0
  fresh : s.addrOf d fbn = 0 → s'.img x.toNat = fun _ => 0

theorem ofNat13_inj {m n : Nat} (hm : m < 13) (hn : n < 13) (h : Fin.ofNat 13 m = Fin.ofNat 13 n) : m = n := by
  have hval := congrArg Fin.val h
  rwa [Fin.val_ofNat, Fin.val_ofNat, Nat.mod_eq_of_lt hm, Nat.mod_eq_of_lt hn] at hval

theorem ofNat128_inj {m n : Nat} (hm : m < 128) (hn : n < 128) (h : Fin.ofNat 128 m = Fin.ofNat 128 n) : m = n := by
  have hval := congrArg Fin.val h
  rwa [Fin.val_ofNat, Fin.val_ofNat, Nat.mod_eq_of_lt hm, Nat.mod_eq_of_lt hn] at hval

theorem addrs_setAddr (k l : Fin 13) (b : Bno) : (d.setAddr k b).addrs l = if l = k then b else d.addrs l :=
  Function.update_apply ..

theorem found_direct (h : Blank s) (hlt : s.freeblock < fsSize) {fbn : Nat} (hn : fbn < ndirect) {d' : Dinode} {x : Bno}
    {s' : Disk}
    (hs : d.addrs (Fin.ofNat 13 fbn) ≠ 0 ∧ d' = d ∧ x = d.addrs (Fin.ofNat 13 fbn) ∧ s' = s ∨
      d.addrs (Fin.ofNat 13 fbn) = 0 ∧ d' = d.setAddr (Fin.ofNat 13 fbn) x ∧ x = BitVec.ofNat 32 s.freeblock ∧ s' = s.next) :
    Found s d fbn s' d' x := by
  have hfbn : s.addrOf d fbn = d.addrs (Fin.ofNat 13 fbn) := if_pos hn
  have hne : ¬ (ndirect ≤ fbn ∧ d.addrs 12 = 0) := fun e => absurd e.1 (Nat.not_le.2 hn)
  unfold ndirect at hn
  rcases hs with ⟨hk, rfl, rfl, rfl⟩ | ⟨hk, rfl, hx, rfl⟩
  · refine ⟨fun m _ => ?_, ?_, ?_, fun hzero => absurd (hfbn.symm.trans hzero) hk⟩
    · split
      · next hm => rw [hm, hfbn]
      · rfl
    · exact (or_iff_left (Nat.not_le.2 hn)).symm
    · rw [hfbn, if_neg hk, if_neg hne]
      rfl
  · have h12 : (d.setAddr (Fin.ofNat 13 fbn) x).addrs 12 = d.addrs 12 := by
      rw [addrs_setAddr, if_neg]
      exact fun e => absurd (ofNat13_inj (m := 12) (by omega) (by omega) e) (by omega)
    refine ⟨fun m hm => ?_, ?_, ?_, fun _ => ?_⟩
    · unfold Disk.addrOf
      rw [h12, addrs_setAddr]
      by_cases hmn : m < ndirect
      · rw [if_pos hmn, if_pos hmn]
        unfold ndirect at hmn
        refine if_congr ⟨fun e => ofNat13_inj (by omega) (by omega) e, fun e => e ▸ rfl⟩ rfl rfl
      · have hne' : m ≠ fbn := fun e => hmn (e ▸ hn)
        rw [if_neg hmn, if_neg hmn, if_neg hne']
        rfl
    · rw [h12]
      exact (or_iff_left (Nat.not_le.2 hn)).symm
    · rw [hfbn, if_pos hk, if_neg hne]
      rfl
    · rw [hx, toNat_ofNat hlt]
      exact h.zero _ (Nat.le_refl _) hlt

theorem found_indirect (h : Blank s) (hlt : s.freeblock < fsSize) {fbn : Nat} (hn : ¬ fbn < ndirect) (hfbn : fbn < maxFile)
    {d' : Dinode} {x : Bno} {s₁ s' : Disk}
    (hs : d.addrs 12 ≠ 0 ∧ d' = d ∧ d'.addrs 12 = d.addrs 12 ∧ s₁ = s ∨
      d.addrs 12 = 0 ∧ d' = d.setAddr 12 (d'.addrs 12) ∧ d'.addrs 12 = BitVec.ofNat 32 s.freeblock ∧ s₁ = s.next)
    (ha0 : d'.addrs 12 ≠ 0) (h₁ : Blank s₁) (hlt₁ : s₁.freeblock < fsSize) (hused : (d'.addrs 12).toNat < s₁.freeblock)
    (hs₁ : s₁.img (d'.addrs 12).toNat (Fin.ofNat 128 (fbn - ndirect)) ≠ 0 ∧
        x = s₁.img (d'.addrs 12).toNat (Fin.ofNat 128 (fbn - ndirect)) ∧ s' = s₁ ∨
      s₁.img (d'.addrs 12).toNat (Fin.ofNat 128 (fbn - ndirect)) = 0 ∧ x = BitVec.ofNat 32 s₁.freeblock ∧
        s' = s₁.next.put (d'.addrs 12).toNat
          (Function.update (s₁.img (d'.addrs 12).toNat) (Fin.ofNat 128 (fbn - ndirect)) x)) :
    Found s d fbn s' d' x := by
  -- the indirect block as it is before its word is looked up
  have hfirst : (∀ m, ¬ m < ndirect → s.addrOf d m = s₁.img (d'.addrs 12).toNat (Fin.ofNat 128 (m - ndirect))) ∧
      (∀ m < ndirect, d'.addrs (Fin.ofNat 13 m) = d.addrs (Fin.ofNat 13 m)) ∧
      s₁.freeblock = s.freeblock + if ndirect ≤ fbn ∧ d.addrs 12 = 0 then 1 else 0 := by
    rcases hs with ⟨hk, rfl, -, rfl⟩ | ⟨hk, hd, ha, rfl⟩
    · refine ⟨fun m hm => ?_, fun _ _ => rfl, ?_⟩
      · unfold Disk.addrOf
        rw [if_neg hm, if_neg hk]
      · rw [if_neg fun e => hk e.2]
        rfl
    · refine ⟨fun m hm => ?_, fun m hm => ?_, ?_⟩
      · unfold Disk.addrOf
        rw [if_neg hm, if_pos hk, ha, toNat_ofNat hlt]
        exact (congrFun (h.zero s.freeblock (Nat.le_refl _) hlt) _).symm
      · rw [hd, addrs_setAddr, if_neg]
        unfold ndirect at hm
        exact fun e => absurd (ofNat13_inj (n := 12) (by omega) (by omega) e) (by omega)
      · rw [if_pos ⟨Nat.not_lt.1 hn, hk⟩]
        rfl
  obtain ⟨hword, hdirect, hcount⟩ := hfirst
  have hslot : d'.addrs 12 ≠ 0 ↔ d.addrs 12 ≠ 0 ∨ ndirect ≤ fbn := iff_of_true ha0 (.inr (Nat.not_lt.1 hn))
  rcases hs₁ with ⟨hw, rfl, rfl⟩ | ⟨hw, rfl, rfl⟩
  · refine ⟨fun m hm => ?_, hslot, ?_, fun hzero => absurd ((hword fbn hn).symm.trans hzero) hw⟩
    · by_cases hmn : m < ndirect
      · have hne : m ≠ fbn := fun e => hn (e ▸ hmn)
        unfold Disk.addrOf
        rw [if_pos hmn, if_neg hne, if_pos hmn, hdirect m hmn]
      · have hself : s'.addrOf d' m = s.addrOf d m := by
          rw [hword m hmn]
          unfold Disk.addrOf
          rw [if_neg hmn, if_neg ha0]
        rw [hself]
        split
        · next he => rw [he, hword fbn hn]
        · rfl
    · rw [hcount, hword fbn hn, if_neg hw]
      rfl
  · refine ⟨fun m hm => ?_, hslot, ?_, fun _ => ?_⟩
    · by_cases hmn : m < ndirect
      · have hne : m ≠ fbn := fun e => hn (e ▸ hmn)
        unfold Disk.addrOf
        rw [if_pos hmn, if_neg hne, if_pos hmn, hdirect m hmn]
      · have hself : (s₁.next.put (d'.addrs 12).toNat (Function.update (s₁.img (d'.addrs 12).toNat)
            (Fin.ofNat 128 (fbn - ndirect)) (BitVec.ofNat 32 s₁.freeblock))).addrOf d' m =
            Function.update (s₁.img (d'.addrs 12).toNat) (Fin.ofNat 128 (fbn - ndirect)) (BitVec.ofNat 32 s₁.freeblock)
              (Fin.ofNat 128 (m - ndirect)) := by
          unfold Disk.addrOf
          rw [if_neg hmn, if_neg ha0]
          exact congrFun (Function.update_self ..) _
        rw [hself, Function.update_apply, hword m hmn]
        refine if_congr ⟨fun e => ?_, fun e => e ▸ rfl⟩ rfl rfl
        unfold maxFile nindirect at hm hfbn
        have := ofNat128_inj (by omega) (by omega) e
        omega
    · rw [hword fbn hn, if_pos hw]
      show s₁.freeblock + 1 = _
      omega
    · rw [toNat_ofNat hlt₁]
      exact (Function.update_of_ne (Nat.ne_of_gt hused) _ _).trans (h₁.zero _ (Nat.le_refl _) hlt₁)

/-- **The block of a file is found, or made, as `bmap` does.** -/
theorem fileBlock_hold (h : Blank s) (hr : Ready (s.hold i d) i) {fbn : Nat} (hfbn : fbn < maxFile) : ∃ d' x s' ev,
    fileBlock d fbn s = ⟨.ok (d', x), s', []⟩ ∧ bmap i fbn (s.hold i d) = ⟨.ok x, s'.hold i d', ev⟩ ∧ Later s s' ∧
    Found s d fbn s' d' x := by
  unfold fileBlock bmap
  by_cases hn : fbn < ndirect
  · obtain ⟨d', x, s', ev, hrun, hslot, h', hs⟩ := slotBlock_hold h (ready_room hr) i d (Fin.ofNat 13 fbn)
    rw [if_pos hn, if_pos hn]
    exact ⟨d', x, s', ev, hrun, hslot, h', found_direct h (ready_room hr) hn hs⟩
  · obtain ⟨d₁, a, s₁, ev₁, hrun, hslot, h₁, hs⟩ := slotBlock_hold h (ready_room hr) i d 12
    obtain ⟨hg, ha, ha0⟩ := Prog.wp.ok (slotAddr_wp hr.exact hr.file 12) (congrArg Outcome.res hslot)
    rw [hslot] at hg ha
    rw [hold_ip] at ha
    subst ha
    have hr₁ := hr.grows hg
    obtain ⟨x, s₂, ev₂, hrun₂, hword, h₂, hs₂⟩ := wordAddr_hold h₁.blank hr₁ ha0 (Fin.ofNat 128 (fbn - ndirect))
    have hself : (s₁.hold i d₁).addr i (.slot i 12) = d₁.addrs 12 := by rw [addr_slot_self hr₁.file, hold_ip]
    have hused := (ready_used hr₁ (p := .slot i 12) (hself ▸ ha0)).2.2
    rw [hself] at hused
    rw [if_neg hn, if_neg hn, if_pos (by unfold maxFile at hfbn; omega), Prog.bind_run_nil hrun,
      Prog.bind_run_ok hslot, hword]
    exact ⟨d₁, x, s₂, _, hrun₂, rfl, h₁.trans h₂,
      found_indirect h (ready_room hr) hn hfbn hs ha0 h₁.blank (ready_room hr₁) hused hs₂⟩

/-! ## How many blocks -/

structure Tight (f : Place → Bno) (i size : Nat) : Prop where
  block : ∀ m < maxFile, blockOf f i m ≠ 0 ↔ m * bsize < size
  slot  : f (.slot i 12) ≠ 0 ↔ ndirect * bsize < size

def blocks (size : Nat) : Nat := (size + (bsize - 1)) / bsize + if ndirect * bsize < size then 1 else 0

theorem addr_hold_slot (hr : Ready (s.hold i d) i) : (s.hold i d).addr i (.slot i 12) = d.addrs 12 := by
  rw [addr_slot_self hr.file, hold_ip]

theorem blockOf_hold (hr : Ready (s.hold i d) i) {m : Nat} (hm : m < maxFile) :
    blockOf ((s.hold i d).addr i) i m = s.addrOf d m := by
  unfold blockOf place Disk.addrOf
  rw [if_pos hm]
  split
  · rw [addr_slot_self hr.file, hold_ip]
  · by_cases ha : d.addrs 12 = 0
    · rw [if_pos ha]
      refine if_pos (.inr ?_)
      rw [table_self, hold_ip, ha]
    · have hlow := (ready_used hr (p := .slot i 12) (by rwa [addr_hold_slot hr])).1
      rw [addr_hold_slot hr] at hlow
      rw [if_neg ha, addr_word_self hr.file (by rwa [hold_ip]), hold_ip]
      exact congrFun (if_pos hlow) _

theorem Found.tight {off n fbn : Nat} {s' : Disk} {d' : Dinode} {x : Bno} (hf : Found s d fbn s' d' x) (hx : x ≠ 0)
    (hoff : fbn = off / bsize) (hfbn : fbn < maxFile) (hn : 0 < n) (hend : off % bsize + n ≤ bsize)
    (hr : Ready (s.hold i d) i) (h : Tight ((s.hold i d).addr i) i off) :
    (∀ m < maxFile, s'.addrOf d' m ≠ 0 ↔ m * bsize < off + n) ∧ (d'.addrs 12 ≠ 0 ↔ ndirect * bsize < off + n) ∧
      s'.freeblock + blocks off = s.freeblock + blocks (off + n) := by
  have hslot : d.addrs 12 ≠ 0 ↔ ndirect * bsize < off := by
    rw [← h.slot, addr_hold_slot hr]
  have hblock : ∀ m < maxFile, s.addrOf d m ≠ 0 ↔ m * bsize < off := fun m hm => by
    rw [← h.block m hm, blockOf_hold hr hm]
  have hcount := hf.count
  have hzero : s.addrOf d fbn = 0 ↔ ¬ fbn * bsize < off := by rw [← hblock fbn hfbn, not_not]
  have hzero12 : d.addrs 12 = 0 ↔ ¬ ndirect * bsize < off := by rw [← hslot, not_not]
  simp only [hzero, hzero12] at hcount
  unfold bsize ndirect at *
  refine ⟨fun m hm => ?_, ?_, ?_⟩
  · rw [hf.addr m hm]
    split
    · exact iff_of_true hx (by omega)
    · rw [hblock m hm]
      omega
  · rw [hf.slot, hslot]
    unfold ndirect
    omega
  · unfold blocks bsize ndirect
    rw [hcount]
    split_ifs <;> omega

/-- No byte behind the end of the file. -/
def Ends (s : Disk) (i : Nat) (d : Dinode) (off : Nat) : Prop := ∀ o, off ≤ o → (s.hold i d).memByte i o = 0

theorem Found.ends {off fbn : Nat} {s' : Disk} {d' : Dinode} {x : Bno} (hf : Found s d fbn s' d' x)
    (hr : Ready (s.hold i d) i) (hr' : Ready (s'.hold i d') i) (hlow : nmeta ≤ x.toNat)
    (hsame : ∀ o, blockOf ((s.hold i d).addr i) i (o / bsize) ≠ 0 → (s'.hold i d').memByte i o = (s.hold i d).memByte i o)
    (h : Ends s i d off) : Ends s' i d' off := by
  intro o ho
  by_cases hb : blockOf ((s.hold i d).addr i) i (o / bsize) = 0
  · unfold State.memByte
    by_cases hm : o / bsize < maxFile
    · rw [blockOf_hold hr hm] at hb
      rw [blockOf_hold hr' hm, hf.addr _ hm]
      split
      · next he =>
        rw [show (s'.hold i d').data x = s'.img x.toNat from if_pos hlow, hf.fresh (he ▸ hb)]
        exact byteOf_zero _
      · rw [hb]
        exact byteOf_zero _
    · rw [blockOf, if_neg hm]
      exact byteOf_zero _
  · rw [hsame o hb]
    exact h o ho

/-! ## The loop -/

theorem chunk_eq (off n : Nat) : min n ((off / bsize + 1) * bsize - off) = chunk off n := by
  unfold chunk bsize
  omega

theorem turn_hold (h : Blank s) (hr : Ready (s.hold i d) i) {off n : Nat} (hn : n ≠ 0) (hoff : off / bsize < maxFile)
    (src : Nat → Byte) : ∃ d' s', Later s s' ∧ Ready (s'.hold i d') i ∧
      (Ends s i d off → Ends s' i d' (off + chunk off n)) ∧
      (Tight ((s.hold i d).addr i) i off → Tight ((s'.hold i d').addr i) i (off + chunk off n) ∧
        s'.freeblock + blocks off = s.freeblock + blocks (off + chunk off n)) ∧ ∀ k,
      appendLoop (k + 1) src off n d s =
        appendLoop k (fun j => src (chunk off n + j)) (off + chunk off n) (n - chunk off n) d' s' ∧
      ∀ u ev, writeLoop i k (fun j => src (chunk off n + j)) (off + chunk off n) (n - chunk off n) (s'.hold i d') =
        ⟨.ok (), u, ev⟩ → ∃ ev', writeLoop i (k + 1) src off n (s.hold i d) = ⟨.ok (), u, ev'⟩ := by
  obtain ⟨d₁, x, s₁, ev₁, hrun, hbmap, h₁, hfound⟩ := fileBlock_hold h hr hoff
  obtain ⟨hg, hx, hx0, hsame⟩ := Prog.wp.ok (bmap_bytes hr hoff) (congrArg Outcome.res hbmap)
  rw [hbmap] at hg hx hsame
  have hr₁ : Ready (s₁.hold i d₁) i := hr.grows hg
  have hblk : blockOf ((s₁.hold i d₁).addr i) i (off / bsize) = x := hx
  have hplace : (s₁.hold i d₁).addr i (place i (off / bsize)) = x := (blockOf_place (hx ▸ hx0)).symm.trans hx
  obtain ⟨hlow, hhigh, hused⟩ := ready_used hr₁ (hplace ▸ hx0)
  rw [hplace] at hlow hhigh hused
  have hdata : (s₁.hold i d₁).data x = s₁.img x.toNat := if_pos hlow
  have hgw : Grows i (s₁.hold i d₁) ((s₁.hold i d₁).setData x (putBytes (s₁.img x.toNat) (off % bsize) src (chunk off n))) :=
    hx ▸ Grows.write hr₁.exact (hx ▸ hx0) _
  rw [setData_hold hlow] at hgw
  have hr₂ := hr₁.grows hgw
  have hmod : off - off / bsize * bsize = off % bsize := by
    unfold bsize
    omega
  have haddr : ∀ m, (s₁.put x.toNat (putBytes (s₁.img x.toNat) (off % bsize) src (chunk off n))).addrOf d₁ m =
      s₁.addrOf d₁ m := fun m => by
    have hne : d₁.addrs 12 ≠ x := by
      have := hr₁.exact.block_ne (hblk.trans_ne hx0)
      rw [hblk, addr_hold_slot hr₁] at this
      exact this.symm
    refine ite_congr rfl (fun _ => rfl) fun _ => ite_congr rfl (fun _ => rfl) fun _ => ?_
    exact congrFun (Function.update_of_ne (fun e => hne (BitVec.eq_of_toNat_eq e)) _ _) _
  refine ⟨d₁, _, h₁.put hlow hused _, hr₂, fun hends o ho => ?_, fun htight => ?_, fun k => ⟨?_, fun u ev hu => ?_⟩⟩
  · have hwrite := memByte_write hr₁ src (hblk.trans_ne hx0) (n := n) o
    rw [hblk, hdata, setData_hold hlow, if_neg (by omega)] at hwrite
    exact hwrite.trans (hfound.ends hr hr₁ hlow hsame hends o (by omega))
  · have hchunk : chunk off n ≤ bsize - off % bsize := Nat.min_le_right _ _
    have hmodlt : off % bsize < bsize := Nat.mod_lt off (by decide)
    obtain ⟨hblock, hslot, hcount⟩ := hfound.tight hx0 rfl hoff (show 0 < chunk off n from chunk_pos hn) (by omega) hr htight
    refine ⟨⟨fun m hm => ?_, ?_⟩, hcount⟩
    · rw [blockOf_hold hr₂ hm, haddr, hblock m hm]
    · rw [addr_hold_slot hr₂, hslot]
  · rw [appendLoop, if_neg hn, if_neg (Nat.not_le.2 hoff), Prog.bind_run_nil hrun, chunk_eq, hmod]
    exact (Prog.bind_run_nil (rsect_run hhigh)).trans (Prog.modify_bind_run _ _ _)
  · rw [writeLoop, if_neg hn, Prog.bind_run_ok hbmap, Prog.modify_bind_run, hdata, setData_hold hlow,
      Prog.bind_run_ok (logWrite_run (Int.le_refl 1) _), hu]
    exact ⟨_, rfl⟩

/-- **The loop of `iappend` is that of `writei`**, up to the largest file. -/
theorem appendLoop_hold : ∀ (k : Nat) (src : Nat → Byte) (off n : Nat) (d : Dinode) (s : Disk), n ≤ k → Blank s →
    Ready (s.hold i d) i → off ≤ maxFile * bsize →
      if off + n ≤ maxFile * bsize then ∃ d' s' ev, appendLoop k src off n d s = ⟨.ok (d', off + n), s', []⟩ ∧
        writeLoop i k src off n (s.hold i d) = ⟨.ok (), s'.hold i d', ev⟩ ∧ Later s s' ∧
        (Ends s i d off → Ends s' i d' (off + n)) ∧
        (Tight ((s.hold i d).addr i) i off → Tight ((s'.hold i d').addr i) i (off + n) ∧
          s'.freeblock + blocks off = s.freeblock + blocks (off + n))
      else (appendLoop k src off n d s).res = .error .maxFile
  | 0, src, off, n, d, s, hk, h, _, hoff => by
    obtain rfl := Nat.le_zero.1 hk
    rw [if_pos (show off + 0 ≤ _ from hoff)]
    exact ⟨d, s, _, rfl, rfl, Later.refl h, id, fun htight => ⟨htight, rfl⟩⟩
  | k + 1, src, off, n, d, s, hk, h, hr, hoff => by
    have hlim : maxFile * bsize = 71680 := rfl
    by_cases hn : n = 0
    · subst hn
      rw [if_pos (show off + 0 ≤ _ from hoff)]
      exact ⟨d, s, _, rfl, rfl, Later.refl h, id, fun htight => ⟨htight, rfl⟩⟩
    by_cases hblk : off / bsize < maxFile
    · obtain ⟨d₁, s₁, h₁, hr₁, hends₁, htight₁, hturn⟩ := turn_hold h hr hn hblk src
      obtain ⟨happend, hwrite⟩ := hturn k
      have hpos : 0 < chunk off n := chunk_pos hn
      have hchunk : chunk off n ≤ n ∧ chunk off n ≤ bsize - off % bsize := ⟨Nat.min_le_left _ _, Nat.min_le_right _ _⟩
      have hnext : off + chunk off n ≤ maxFile * bsize := by
        unfold maxFile bsize at *
        omega
      have ih := appendLoop_hold k (fun j => src (chunk off n + j)) (off + chunk off n) (n - chunk off n) d₁ s₁ (by omega)
        h₁.blank hr₁ hnext
      rw [show off + chunk off n + (n - chunk off n) = off + n by omega] at ih
      rw [happend]
      split
      · next hfits =>
        rw [if_pos hfits] at ih
        obtain ⟨d', s', ev, hrun, hloop, h', hends', htight'⟩ := ih
        obtain ⟨ev', hev⟩ := hwrite _ _ hloop
        refine ⟨d', s', ev', hrun, hev, h₁.trans h', fun hends => hends' (hends₁ hends), fun htight => ?_⟩
        obtain ⟨htight, hcount⟩ := htight₁ htight
        obtain ⟨htight, hcount'⟩ := htight' htight
        exact ⟨htight, by omega⟩
      · next hfits => rwa [if_neg hfits] at ih
    · have hfull : ¬ off + n ≤ maxFile * bsize := by
        unfold maxFile bsize at *
        omega
      rw [if_neg hfull, appendLoop, if_neg hn, if_pos (Nat.not_lt.1 hblk)]
      rfl

/-! ## `iappend` -/

theorem bind_stop {α β : Type} {c : M α} {f : α → M β} {e : Stop} (h : (c s).res = .error e) :
    ((c >>= f) s).res = .error e := by
  rcases hout : c s with ⟨r, t, l⟩
  rw [hout] at h
  cases h
  rw [Prog.bind_run_error hout]

def Disk.setDinode (s : Disk) (i : Nat) (d : Dinode) : Disk := { s with img := s.img.setDinode i d }

theorem iblock_size (h : i < ninodes) : iblock i < fsSize := (iblock_lt h).trans (by decide)

theorem rinode_run (h : i < ninodes) : rinode i s = ⟨.ok (s.img.dinode i), s, []⟩ := by
  unfold rinode
  rw [Prog.bind_run_nil (rsect_run (iblock_size h))]
  rfl

theorem winode_run (h : i < ninodes) (d : Dinode) : winode i d s = ⟨.ok (), s.setDinode i d, []⟩ := by
  unfold winode
  rw [Prog.bind_run_nil (rsect_run (iblock_size h))]
  rfl

theorem Blank.setDinode (h : Blank s) (hi : i < ninodes) (d : Dinode) : Blank (s.setDinode i d) :=
  ⟨h.low, fun n hn hlt => (s.img.setDinode_other d (Nat.ne_of_gt (Nat.lt_of_lt_of_le (iblock_lt hi) (h.low.trans hn)))).trans
    (h.zero n hn hlt)⟩

theorem look_setDinode (hi : i < ninodes) (d : Dinode) : (s.setDinode i d).look = s.look.setDinode i d := by
  have hdinode : (s.setDinode i d).look.dinode = (s.look.setDinode i d).dinode := by
    funext j
    show (if j < ninodes then (s.img.setDinode i d).dinode j else Dinode.zero) =
      if j = i then d else if j < ninodes then s.img.dinode j else Dinode.zero
    rw [Image.dinode_setDinode]
    by_cases hj : j = i
    · rw [if_pos hj, if_pos hj, if_pos (hj ▸ hi)]
    · rw [if_neg hj, if_neg hj]
  have hdata : (s.setDinode i d).look.data = s.look.data := by
    funext b
    refine ite_congr rfl (fun hb => ?_) fun _ => rfl
    exact s.img.setDinode_other d (Nat.ne_of_gt (Nat.lt_of_lt_of_le (iblock_lt hi) hb))
  exact congr (congrArg (fun dinode data => ({ s.look with dinode := dinode, data := data } : Files.State)) hdinode) hdata

theorem hold_setDinode (hi : i < ninodes) (d' : Dinode) : (s.hold i d).setDinode i d' = (s.setDinode i d').hold i d := by
  unfold Disk.hold
  rw [look_setDinode hi]
  rfl

theorem hold_dinode (hj : j < ninodes) : (s.hold i d).dinode j = s.img.dinode j := if_pos hj

theorem grow_hold (hi : i < ninodes) {off n : BitVec 32} (hn : 0 < n) (hoff : d.size < off) :
    ∃ ev, grow i off n (s.hold i d) =
      ⟨.ok (), (s.setDinode i { d with size := off }).hold i { d with size := off }, ev⟩ := by
  unfold grow iupdate
  rw [Prog.read_bind_run, hold_ip, Prog.when_pos ⟨hn, hoff⟩, Prog.modify_bind_run, hold_ip, hold_setIp, Prog.modify_bind_run,
    hold_ip, hold_setDinode hi]
  exact ⟨_, logWrite_run (Int.le_refl 1) _⟩

/-- **`iappend` is `writei` at the end of the file**: on the image as the kernel sees it, with the inode locked, both do the
same; and where the file would be larger than a file can be, `iappend` stops. -/
theorem iappend_hold (h : Blank s) (hi : i < ninodes) (hc : InCall (s.hold i (s.img.dinode i)) i) (src : Nat → Byte)
    (hn : 0 < n) :
    if (s.img.dinode i).size.toNat + n ≤ maxFile * bsize then ∃ s' ev, iappend i src n s = ⟨.ok (), s', []⟩ ∧
      writei i src (s.img.dinode i).size (BitVec.ofNat 32 n) (s.hold i (s.img.dinode i)) =
        ⟨.ok n, s'.hold i (s'.img.dinode i), ev⟩ ∧
      Blank s' ∧ s'.freeinode = s.freeinode ∧ (∀ m < nmeta, m ≠ iblock i → s'.img m = s.img m) ∧
      ((∀ o, (s.img.dinode i).size.toNat ≤ o → s.look.byteAt i o = 0) →
        ∀ o, (s.img.dinode i).size.toNat + n ≤ o → s'.look.byteAt i o = 0) ∧
      (Tight s.look.onDisk i (s.img.dinode i).size.toNat → Tight s'.look.onDisk i ((s.img.dinode i).size.toNat + n) ∧
        s'.freeblock + blocks (s.img.dinode i).size.toNat = s.freeblock + blocks ((s.img.dinode i).size.toNat + n))
    else (iappend i src n s).res = .error .maxFile := by
  have hlim : maxFile * bsize = 71680 := rfl
  obtain ⟨d, hd⟩ : ∃ d, d = s.img.dinode i := ⟨_, rfl⟩
  rw [← hd] at hc ⊢
  have hdisk : (s.hold i d).dinode i = d := (hold_dinode hi).trans hd.symm
  have hready := hc.ready
  have hsize : d.size.toNat ≤ maxFile * bsize := hdisk ▸ (hc.good.filled i (hc.good.ip hc.held).2).size_le
  have hloop := appendLoop_hold n src d.size.toNat n d s (Nat.le_refl n) h hready hsize
  unfold iappend
  rw [Prog.bind_run_nil (rinode_run hi), ← hd]
  by_cases hfits : d.size.toNat + n ≤ maxFile * bsize
  · rw [if_pos hfits] at hloop ⊢
    obtain ⟨d₁, s₁, ev₁, hrun, hwrite, h₁, hends₁, htight₁⟩ := hloop
    have hn32 : (BitVec.ofNat 32 n).toNat = n := Nat.mod_eq_of_lt (by omega)
    have hsum : (d.size + BitVec.ofNat 32 n).toNat = d.size.toNat + n := by
      rw [BitVec.toNat_add, hn32]
      omega
    have hend : BitVec.ofNat 32 (d.size.toNat + n) = d.size + BitVec.ofNat 32 n :=
      BitVec.eq_of_toNat_eq ((Nat.mod_eq_of_lt (by omega)).trans hsum.symm)
    have hg := (Prog.wp.ok (writeLoop_wp n src d.size.toNat n _ (Nat.le_refl n) hready.exact hready.file)
      (congrArg Outcome.res hwrite)).1
    rw [hwrite] at hg
    have hsize₁ : d₁.size = d.size := by
      have := hg.size
      rwa [hold_ip, hold_ip] at this
    have hself : (s₁.setDinode i { d₁ with size := d.size + BitVec.ofNat 32 n }).img.dinode i =
        { d₁ with size := d.size + BitVec.ofNat 32 n } := (s₁.img.dinode_setDinode i i _).trans (if_pos rfl)
    refine ⟨s₁.setDinode i { d₁ with size := d.size + BitVec.ofNat 32 n }, ?_⟩
    rw [Prog.bind_run_nil hrun]
    dsimp only
    rw [hend, hself]
    have hlt : d₁.size < d.size + BitVec.ofNat 32 n := by
      rw [hsize₁, BitVec.lt_def, hsum]
      omega
    have hpos : 0 < BitVec.ofNat 32 n := by
      rw [BitVec.lt_def, hn32]
      exact hn
    obtain ⟨ev₂, hgrow⟩ := grow_hold (s := s₁) (d := d₁) hi hpos hlt
    have hon : (s.hold i d).addr i = s.look.onDisk := addr_eq_onDisk (hold_ip.trans hdisk.symm)
    have hon₁ : (s₁.setDinode i { d₁ with size := d.size + BitVec.ofNat 32 n }).look.onDisk = (s₁.hold i d₁).addr i := by
      unfold State.onDisk
      rw [look_setDinode hi, setDinode_dinode]
      refine addr_congr fun j => ?_
      by_cases hj : j = i
      · rw [hj, Function.update_self, table_self, hold_ip]
        exact ⟨rfl, rfl⟩
      · rw [Function.update_of_ne hj, table_of_ne hj]
        exact ⟨rfl, rfl⟩
    refine ⟨ev₁ ++ (ev₂ ++ []), winode_run hi _, ?_, h₁.blank.setDinode hi _, h₁.inodes, fun m hm hne => ?_,
      fun hends o ho => ?_, fun htight => ?_⟩
    · unfold writei
      rw [Prog.get_bind_run, hold_ip, if_neg (hdisk ▸ hc.file), if_neg, if_neg, hn32, Prog.bind_run_ok hwrite,
        Prog.bind_run_ok hgrow]
      · rfl
      · rw [BitVec.lt_def, hsum]
        exact Nat.not_lt.2 hfits
      · rw [BitVec.lt_def, BitVec.lt_def, hsum]
        omega
    · exact (s₁.img.setDinode_other _ hne).trans (h₁.low m hm)
    · have hold : Ends s i d d.size.toNat := fun o ho =>
        (memByte_eq (hold_ip.trans hdisk.symm) o).trans (hends o ho)
      unfold State.byteAt
      rw [hon₁, look_setDinode hi]
      exact hends₁ hold o ho
    · rw [hon₁]
      exact htight₁ (hon ▸ htight)
  · rw [if_neg hfits] at hloop ⊢
    exact bind_stop hloop

end Mkfs
end Xv6
