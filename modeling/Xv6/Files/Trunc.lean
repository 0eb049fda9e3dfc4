import Xv6.Files.Good
import Xv6.Lib.Traced
/-!
# Files.Trunc — `itrunc` and `iput`

A file is truncated: its blocks are freed one by one, each exactly once, and what is logged on the way.
-/
namespace Xv6
namespace Files

open Fs (Bno Block nlog)
open Prog (wp wpt wpt_bind wpt_read wpt_modify wpt_pure)

def Outside (o : Int) (e : Stop) : Prop := e = .panic "log_write outside of trans" ∧ o < 1

variable {s t : State} {i : Nat} {b : Bno} {o : Int}

theorem logWrite_wpt (ho : s.outstanding = o) (n : Nat) :
    wpt (logWrite n) (fun _ t l => t = s ∧ l = [.log n]) (Outside o) s := by
  unfold logWrite
  rw [wpt_bind, wpt_read]
  exact Prog.wpt_ite (fun h => ⟨rfl, ho ▸ h⟩) fun _ => ⟨rfl, rfl⟩

theorem bfree_wpt (ho : s.outstanding = o) (hb : s.bit b = true) :
    wpt (bfree b) (fun _ t l => t = s.setBit b false ∧ l = [.log (bblock b)]) (Outside o) s := by
  unfold bfree
  rw [wpt_bind, wpt_read, if_pos hb, wpt_bind, wpt_modify]
  exact logWrite_wpt (show (s.setBit b false).outstanding = o from ho) _

theorem iupdate_wpt (ho : s.outstanding = o) :
    wpt (iupdate i) (fun _ t l => t = s.setDinode i (s.ip i) ∧ l = [.log (iblock i)]) (Outside o) s := by
  unfold iupdate
  rw [wpt_bind, wpt_modify]
  exact logWrite_wpt (show (s.setDinode i (s.ip i)).outstanding = o from ho) _

/-! ## Clearing places -/

/-- `f` without what the places of the list hold. -/
def cleared (f : Place → Bno) (l : List Place) : Place → Bno := fun p => if p ∈ l then 0 else f p

def freed (a : Bno) : List Event := if a = 0 then [] else [.log (bblock a)]

theorem cleared_nil (f : Place → Bno) : cleared f [] = f := by
  funext p
  exact if_neg List.not_mem_nil

theorem cleared_cons (f : Place → Bno) (p : Place) (l : List Place) :
    cleared (Function.update f p 0) l = cleared f (p :: l) := by
  funext q
  simp only [cleared, Function.update_apply, List.mem_cons]
  by_cases hq : q = p
  · simp only [hq, true_or, if_true, ite_self]
  · simp only [hq, false_or, if_false]

theorem update_cleared (f : Place → Bno) (p : Place) (l : List Place) :
    Function.update (cleared f l) p 0 = cleared f (p :: l) := by
  funext q
  simp only [cleared, Function.update_apply, List.mem_cons]
  by_cases hq : q = p
  · simp only [hq, true_or, if_true]
  · simp only [hq, false_or, if_false]

theorem cleared_append (f : Place → Bno) (l m : List Place) : cleared (cleared f l) m = cleared f (l ++ m) := by
  funext q
  simp only [cleared, List.mem_append]
  by_cases hm : q ∈ m
  · simp only [hm, or_true, if_true]
  · simp only [hm, or_false, if_false]

theorem update_zero {f : Place → Bno} {p : Place} (h : f p = 0) : Function.update f p 0 = f := by
  rw [← h, Function.update_eq_self]

theorem freeWord_wpt (ho : s.outstanding = o) {f : Place → Bno} (h : Exact s.bit f) (p : Place) :
    wpt (Prog.when (f p ≠ 0) (bfree (f p))) (fun _ t l => t = { s with bit := t.bit } ∧
      Exact t.bit (Function.update f p 0) ∧ l = freed (f p)) (Outside o) s := by
  unfold freed
  refine Prog.wpt_when (fun hp => ?_) (fun hp => ?_)
  · refine (bfree_wpt ho (h.owned.set hp)).imp fun _ t l ⟨ht, hl⟩ => ?_
    subst ht
    refine ⟨rfl, ?_, by rw [hl, if_neg hp]⟩
    rw [setBit_bit]
    exact h.drop hp
  · rw [not_not] at hp
    rw [if_pos hp, update_zero hp]
    exact ⟨rfl, h, rfl⟩

theorem freeWords_wpt (a : Fin 128 → Bno) : ∀ (l : List (Fin 128)), l.Nodup → ∀ (s : State) (f : Place → Bno),
    s.outstanding = o → Exact s.bit f → (∀ j ∈ l, f (.word i j) = a j) →
    wpt (Prog.forEach l (fun j => Prog.when (a j ≠ 0) (bfree (a j)))) (fun _ t ev => t = { s with bit := t.bit } ∧
      Exact t.bit (cleared f (l.map (.word i))) ∧ ev = l.flatMap (fun j => freed (a j))) (Outside o) s
  | [], _, s, f, _, h, _ => ⟨rfl, (cleared_nil f).symm ▸ h, rfl⟩
  | j :: l, hnd, s, f, ho, h, ha => by
    obtain ⟨hj, hnd⟩ := List.nodup_cons.1 hnd
    rw [Prog.forEach_cons, wpt_bind]
    have hw := freeWord_wpt ho h (.word i j)
    rw [ha j List.mem_cons_self] at hw
    refine hw.imp fun _ t ev ⟨ht, hE, hev⟩ => ?_
    have hto : t.outstanding = o := by
      rw [ht]
      exact ho
    refine (freeWords_wpt a l hnd t _ hto hE fun k hk => ?_).imp fun _ u ev' ⟨hu, hE', hev'⟩ => ?_
    · rw [Function.update_of_ne]
      · exact ha k (List.mem_cons_of_mem j hk)
      · intro e
        injection e with _ e
        exact hj (e ▸ hk)
    · refine ⟨?_, ?_, ?_⟩
      · rw [hu, ht]
      · rwa [cleared_cons] at hE'
      · rw [hev, hev', List.flatMap_cons]

/-! ## The slots -/

def words (i : Nat) : List Place := (List.finRange nindirect).map (.word i)

def slots (i : Nat) : List Place := directs.map (.slot i)

theorem mem_words (j : Fin 128) : Place.word i j ∈ words i := List.mem_map_of_mem (List.mem_finRange j)

theorem setAddr_self (d : Dinode) (k : Fin 13) (b : Bno) : (d.setAddr k b).addrs k = b := by
  simp [Dinode.setAddr]

theorem setAddr_of_ne (d : Dinode) {k l : Fin 13} (h : l ≠ k) (b : Bno) : (d.setAddr k b).addrs l = d.addrs l := by
  simp [Dinode.setAddr, h]

theorem addr_unslot {D : Nat → Dinode} {data : Bno → Block} {k : Fin 13} (hk : k ≠ 12) :
    addr (Function.update D i ((D i).setAddr k 0)) data = Function.update (addr D data) (.slot i k) 0 := by
  have h12 : ((D i).setAddr k 0).addrs 12 = (D i).addrs 12 := setAddr_of_ne _ (Ne.symm hk) 0
  funext p
  rw [Function.update_apply]
  cases p with
  | slot j l =>
    simp only [addr]
    by_cases hj : j = i
    · rw [hj, Function.update_self]
      by_cases hl : l = k
      · rw [hl, if_pos rfl, setAddr_self, ite_self]
      · rw [if_neg (show Place.slot i l ≠ .slot i k from fun h => hl (by injection h))]
        rw [setAddr_of_ne _ hl]
        rfl
    · rw [Function.update_of_ne hj, if_neg (show Place.slot j l ≠ .slot i k from fun h => hj (by injection h))]
  | word j w =>
    rw [if_neg fun h => by cases h]
    simp only [addr]
    by_cases hj : j = i
    · rw [hj, Function.update_self, h12]
      rfl
    · rw [Function.update_of_ne hj]

theorem addr_unindirect {D : Nat → Dinode} {data : Bno → Block} :
    addr (Function.update D i ((D i).setAddr 12 0)) data = cleared (addr D data) (.slot i 12 :: words i) := by
  have h12 : ((D i).setAddr 12 0).addrs 12 = 0 := setAddr_self _ 12 0
  funext p
  unfold cleared
  cases p with
  | slot j l =>
    have hw : Place.slot j l ∉ words i := fun h => by simp [words] at h
    by_cases hj : j = i
    · subst hj
      simp only [addr, Function.update_self, List.mem_cons, hw, or_false, Place.slot.injEq, true_and]
      by_cases hl : l = 12
      · rw [if_pos hl, hl, h12, ite_self]
      · rw [if_neg hl]
        rw [setAddr_of_ne _ hl]
        rfl
    · simp only [addr, Function.update_of_ne hj, List.mem_cons, hw, or_false, Place.slot.injEq, hj, false_and, if_false]
  | word j w =>
    by_cases hj : j = i
    · subst hj
      simp only [addr, Function.update_self, h12, or_true, if_true, List.mem_cons, mem_words]
    · have hw : Place.word j w ∉ words i := fun h => by simp [words, Ne.symm hj] at h
      simp only [addr, Function.update_of_ne hj, List.mem_cons, hw, or_false, reduceCtorEq, if_false]

structure Shrinks (i : Nat) (s t : State) : Prop where
  rest : t.rest i = s.rest i
  disk : t.dinode = s.dinode
  data : t.data = s.data

theorem Shrinks.trans {u : State} (h : Shrinks i s t) (h' : Shrinks i t u) : Shrinks i s u :=
  ⟨h'.rest.trans h.rest, h'.disk.trans h.disk, h'.data.trans h.data⟩

theorem rest_outstanding (h : t.rest i = s.rest i) : t.outstanding = s.outstanding := congrArg (fun u => u.outstanding) h

theorem addr_unset {k : Fin 13} (v : Bool) (hk : k ≠ 12) :
    ((s.setBit b v).setAddr i k 0).addr i = Function.update (s.addr i) (.slot i k) 0 := by
  unfold State.addr
  rw [setAddr_eq, table_setIp, ← table_self]
  exact addr_unslot hk

theorem truncSlot_wpt (ho : s.outstanding = o) (h : Exact s.bit (s.addr i)) (hf : (s.ip i).type ≠ .free) {k : Fin 13}
    (hk : k ≠ 12) : wpt (truncSlot i k) (fun _ t l => Shrinks i s t ∧ Exact t.bit (t.addr i) ∧
      t.addr i = Function.update (s.addr i) (.slot i k) 0 ∧ l = freed (s.addr i (.slot i k))) (Outside o) s := by
  unfold truncSlot freed
  rw [wpt_bind, wpt_read, ← addr_slot_self hf k]
  refine Prog.wpt_when (fun hne => ?_) (fun hz => ?_)
  · rw [wpt_bind]
    refine (bfree_wpt ho (h.owned.set hne)).imp fun _ t l ⟨ht, hl⟩ => ?_
    subst ht
    rw [wpt_modify, addr_unset _ hk]
    refine ⟨⟨?_, rfl, rfl⟩, ?_, rfl, ?_⟩
    · rw [setAddr_eq]
      exact rest_setIp rfl
    · exact setBit_bit s _ false ▸ h.drop hne
    · rw [hl, if_neg hne]
      rfl
  · rw [not_not] at hz
    rw [update_zero hz, if_pos hz]
    exact ⟨⟨rfl, rfl, rfl⟩, h, rfl, rfl⟩

theorem truncSlots_wpt : ∀ (l : List (Fin 13)), l.Nodup → (∀ k ∈ l, k ≠ 12) → ∀ (s : State), s.outstanding = o →
    Exact s.bit (s.addr i) → (s.ip i).type ≠ .free →
    wpt (Prog.forEach l (truncSlot i)) (fun _ t ev => Shrinks i s t ∧ Exact t.bit (t.addr i) ∧
      t.addr i = cleared (s.addr i) (l.map (.slot i)) ∧ ev = l.flatMap (fun k => freed (s.addr i (.slot i k)))) (Outside o) s
  | [], _, _, s, _, h, _ => ⟨⟨rfl, rfl, rfl⟩, h, (cleared_nil _).symm, rfl⟩
  | k :: l, hnd, h12, s, ho, h, hf => by
    obtain ⟨hk, hnd⟩ := List.nodup_cons.1 hnd
    rw [Prog.forEach_cons, wpt_bind]
    refine (truncSlot_wpt ho h hf (h12 k List.mem_cons_self)).imp fun _ t ev ⟨hs, hE, haddr, hev⟩ => ?_
    refine (truncSlots_wpt l hnd (fun m hm => h12 m (List.mem_cons_of_mem k hm)) t
      ((rest_outstanding hs.rest).trans ho) hE (by rwa [rest_type hs.rest])).imp ?_
    rintro _ u ev' ⟨hs', hE', haddr', hev'⟩
    refine ⟨hs.trans hs', hE', ?_, ?_⟩
    · rw [haddr', haddr, cleared_cons, List.map_cons]
    · rw [hev, hev', List.flatMap_cons]
      congr 1
      refine List.flatMap_congr fun m hm => ?_
      rw [haddr, Function.update_of_ne]
      intro e
      injection e with _ e
      exact hk (e ▸ hm)

/-! ## `itrunc` -/

/-- The places of an inode, in the order in which they are freed. -/
def places (i : Nat) : List Place := slots i ++ (words i ++ [.slot i 12])

theorem mem_places {p : Place} : p ∈ places i ↔ p.inum = i := by
  constructor
  · intro hp
    simp only [places, slots, words, List.mem_append, List.mem_map, List.mem_singleton] at hp
    rcases hp with ⟨_, _, rfl⟩ | ⟨_, _, rfl⟩ | rfl <;> rfl
  · rintro rfl
    unfold places
    cases p with
    | slot j k =>
      by_cases hk : k = 12
      · simp [hk, Place.inum]
      · refine List.mem_append_left _ (List.mem_map_of_mem ?_)
        revert k
        decide
    | word j w => exact List.mem_append_right _ (List.mem_append_left _ (mem_words w))

def freeing (f : Place → Bno) (l : List Place) : List Event := l.flatMap (fun p => freed (f p))

theorem freeing_congr {f g : Place → Bno} {l : List Place} (h : ∀ p ∈ l, f p = g p) : freeing f l = freeing g l :=
  List.flatMap_congr fun p hp => by rw [h p hp]

theorem addr_unset_indirect : (s.setAddr i 12 0).addr i = cleared (s.addr i) (.slot i 12 :: words i) := by
  unfold State.addr
  rw [setAddr_eq, table_setIp, ← table_self]
  exact addr_unindirect

theorem truncIndirect_wpt (ho : s.outstanding = o) (h : Exact s.bit (s.addr i)) (hf : (s.ip i).type ≠ .free) :
    wpt (truncIndirect i) (fun _ t ev => Shrinks i s t ∧ Exact t.bit (t.addr i) ∧
      t.addr i = cleared (s.addr i) (.slot i 12 :: words i) ∧ ev = freeing (s.addr i) (words i ++ [.slot i 12]))
      (Outside o) s := by
  have hslot := addr_slot_self hf 12
  unfold truncIndirect
  rw [wpt_bind, wpt_read]
  refine Prog.wpt_when (fun hne => ?_) (fun hz => ?_)
  · rw [wpt_bind, wpt_read, wpt_bind]
    have ha : ∀ j ∈ List.finRange nindirect, s.addr i (.word i j) = s.data ((s.ip i).addrs 12) j :=
      fun j _ => addr_word_self hf hne j
    refine (freeWords_wpt _ _ (List.nodup_finRange _) s _ ho h ha).imp fun _ t ev ⟨ht, hE, hev⟩ => ?_
    change Exact t.bit (cleared (s.addr i) (words i)) at hE
    have hto : t.outstanding = o := by
      rw [ht]
      exact ho
    have h12 : cleared (s.addr i) (words i) (.slot i 12) = (s.ip i).addrs 12 := by
      rw [← hslot]
      exact if_neg fun e => by simp [words] at e
    have hne' : cleared (s.addr i) (words i) (.slot i 12) ≠ 0 := by rwa [h12]
    have hd := hE.drop hne'
    rw [update_cleared, h12] at hd
    rw [wpt_bind]
    refine (bfree_wpt hto (h12 ▸ hE.owned.set hne')).imp fun _ u ev' ⟨hu, hev'⟩ => ?_
    have haddr : (u.setAddr i 12 0).addr i = cleared (s.addr i) (.slot i 12 :: words i) := by
      rw [addr_unset_indirect, hu, ht]
      rfl
    rw [wpt_modify]
    refine ⟨⟨?_, ?_, ?_⟩, ?_, haddr, ?_⟩
    · rw [setAddr_eq, hu, ht]
      exact rest_setIp rfl
    · rw [hu, ht]
      rfl
    · rw [hu, ht]
      rfl
    · rw [haddr, hu]
      exact setBit_bit t _ false ▸ hd
    · have hwords : (List.finRange nindirect).flatMap (fun j => freed (s.data ((s.ip i).addrs 12) j)) =
          (words i).flatMap (fun p => freed (s.addr i p)) := by
        unfold words
        rw [List.flatMap_map]
        exact List.flatMap_congr fun j hj => by rw [ha j hj]
      have h12' : freed (s.addr i (.slot i 12)) = [.log (bblock ((s.ip i).addrs 12))] := by
        rw [hslot]
        exact if_neg hne
      unfold freeing
      rw [List.flatMap_append, List.flatMap_singleton, ← hwords, h12', ← hev, hev']
      simp only [List.nil_append, List.append_nil]
  · rw [not_not] at hz
    have hnone : ∀ p ∈ .slot i 12 :: words i, s.addr i p = 0 := by
      intro p hp
      rcases List.mem_cons.1 hp with rfl | hp
      · rw [hslot, hz]
      · obtain ⟨j, -, rfl⟩ := List.mem_map.1 hp
        show (if (s.table i i).type = .free ∨ (s.table i i).addrs 12 = 0 then 0 else _) = _
        rw [table_self, if_pos (.inr hz)]
    refine ⟨⟨rfl, rfl, rfl⟩, h, ?_, ?_⟩
    · funext p
      unfold cleared
      split_ifs with hp
      · exact hnone p hp
      · rfl
    · unfold freeing
      rw [eq_comm, List.nil_append, List.flatMap_eq_nil_iff]
      intro p hp
      refine if_pos (hnone p ?_)
      rcases List.mem_append.1 hp with hp | hp
      · exact List.mem_cons_of_mem _ hp
      · exact List.mem_singleton.1 hp ▸ List.mem_cons_self

theorem cleared_places (f : Place → Bno) {p : Place} (hp : p.inum ≠ i) : cleared f (places i) p = f p :=
  if_neg (mt mem_places.1 hp)

/-- What `itrunc` logs. -/
def truncLog (f : Place → Bno) (i : Nat) : List Event := freeing f (places i) ++ [.log (iblock i)]

/-- Inode `i` has lost its contents. -/
structure Emptied (i : Nat) (s t : State) : Prop where
  good  : Good t
  rest  : t.rest i = s.rest i
  size  : (t.ip i).size = 0
  empty : ∀ p : Place, p.inum = i → t.onDisk p = 0
  other : ∀ j, j ≠ i → Untouched j s t

theorem itrunc_wpt (h : Good s) (hl : (s.inode i).locked = true) (ho : s.outstanding = o) :
    wpt (itrunc i) (fun _ t ev => Emptied i s t ∧ ev = truncLog s.onDisk i) (Outside o) s := by
  obtain ⟨hip, hty⟩ := h.ip hl
  have hs := addr_eq_onDisk hip
  have hE : Exact s.bit (s.addr i) := hs ▸ h.exact
  have hf : (s.ip i).type ≠ .free := hip ▸ hty
  unfold itrunc
  rw [wpt_bind]
  refine (truncSlots_wpt directs (by decide) (by decide) s ho hE hf).imp fun _ t ev ⟨hst, hEt, hat, hev⟩ => ?_
  rw [wpt_bind]
  refine (truncIndirect_wpt ((rest_outstanding hst.rest).trans ho) hEt (by rwa [rest_type hst.rest])).imp ?_
  rintro _ u ev' ⟨htu, hEu, hau, hev'⟩
  have hsu := hst.trans htu
  have hau' : u.addr i = cleared s.onDisk (places i) := by
    rw [hau, hat, hs, cleared_append]
    funext p
    simp only [cleared, places, slots, words, List.mem_append, List.mem_cons, List.not_mem_nil, false_or, or_comm]
  rw [wpt_bind, wpt_modify]
  have huo : (u.setIp i { u.ip i with size := 0 }).outstanding = o := (rest_outstanding hsu.rest).trans ho
  refine (iupdate_wpt huo).imp fun _ v ev'' ⟨hv, hev''⟩ => ?_
  rw [ip_setIp] at hv
  have hon : v.onDisk = cleared s.onDisk (places i) := by
    rw [hv, onDisk_resized, hau']
  have hrest : v.rest i = s.rest i := by
    rw [hv, rest_setDinode]
    exact (rest_setIp (d := { u.ip i with size := 0 }) rfl).trans hsu.rest
  have hvip : v.ip i = { u.ip i with size := 0 } := hv ▸ ip_setIp _
  have hvd : v.dinode i = { u.ip i with size := 0 } := by
    rw [hv, setDinode_dinode, Function.update_self]
  have hvdata : v.data = s.data := hv ▸ hsu.data
  have hgood := h.within hl hrest ?_ (fun p hp => by rw [hon, cleared_places _ hp]) (fun p _ _ => by rw [hvdata])
    (hvip.trans hvd.symm) ?_
  · refine ⟨⟨hgood.1, hrest, by rw [hvip], fun p hp => ?_, hgood.2⟩, ?_⟩
    · rw [hon]
      exact if_pos (mem_places.2 hp)
    · have hsame : freeing (t.addr i) (words i ++ [.slot i 12]) = freeing s.onDisk (words i ++ [.slot i 12]) := by
        refine freeing_congr fun p hp => ?_
        rw [hat, hs]
        refine if_neg fun hm => ?_
        obtain ⟨k, hk, rfl⟩ := List.mem_map.1 hm
        simp only [words, List.mem_append, List.mem_map, reduceCtorEq, and_false, exists_false, false_or,
          List.mem_singleton, Place.slot.injEq, true_and] at hp
        subst hp
        exact absurd hk (by decide)
      have hslots : directs.flatMap (fun k => freed (s.onDisk (.slot i k))) = freeing s.onDisk (slots i) := by
        unfold freeing slots
        rw [List.flatMap_map]
      have hall : freeing s.onDisk (places i) = freeing s.onDisk (slots i) ++ freeing s.onDisk (words i ++ [.slot i 12]) :=
        List.flatMap_append
      rw [hev, hev', hev'', hsame, hs, hslots, truncLog, hall]
      simp only [List.append_assoc, List.nil_append]
  · rw [hon, ← hau', hv]
    exact hEu
  · rw [hvd]
    exact fun n hn => absurd hn (Nat.not_lt_zero _)

/-! ## `iput` -/

/-- The last reference to an inode without links is dropped. -/
def Frees (s : State) (i : Nat) : Prop := (s.inode i).valid = true ∧ (s.inode i).d.nlink = 0 ∧ (s.inode i).ref = 1

instance : Decidable (Frees s i) := inferInstanceAs (Decidable (_ ∧ _))

/-- What `iput` logs. -/
def putLog (s : State) (i : Nat) : List Event := if Frees s i then truncLog s.onDisk i ++ [.log (iblock i)] else []

/-- The rest of the file system after an `iput`. -/
structure Put (i : Nat) (s t : State) : Prop where
  good  : Good t
  other : ∀ j, j ≠ i → Untouched j s t ∧ t.inode j = s.inode j
  outstanding : t.outstanding = s.outstanding

/-- Asleep, or stopped by a write outside of a transaction. -/
def AsleepOr (o : Int) (e : Stop) : Prop := e = .asleep ∨ Outside o e

theorem Untouched.of_setInode {j : Nat} {n : Inode} (h : Untouched j (s.setInode i n) t) : Untouched j s t :=
  ⟨h.dinode, h.addrs, h.data⟩

theorem Emptied.free (h : Emptied i s t) {d : Dinode} (hd : d.type = .free) {n : Inode} (hv : n.valid = false)
    (hl : n.locked = false) (c : Nat) (o : Int) :
    Good { (t.setInode i n).setDinode i d with cached := c, outstanding := o } ∧
      ∀ j, j ≠ i → Untouched j s { (t.setInode i n).setDinode i d with cached := c, outstanding := o } := by
  have hon : (t.setDinode i d).onDisk = t.onDisk := by
    funext p
    by_cases hp : p.inum = i
    · have hdi : (t.setDinode i d).dinode i = d := by rw [setDinode_dinode, Function.update_self]
      have hfree : ((t.setDinode i d).dinode i).type = .free := by rw [hdi, hd]
      rw [h.empty p hp, onDisk_free hfree hp]
    · have hdp : (t.setDinode i d).dinode p.inum = t.dinode p.inum := if_neg hp
      exact onDisk_of_dinode hdp rfl rfl
  refine ⟨Good.counts (h.good.replace hon (fun e => absurd hd e) (fun _ e => ?_) (fun e => ?_)) c o, fun j hj => ?_⟩
  · rw [hv] at e
    cases e
  · rw [hl] at e
    cases e
  · have hjt := h.other j hj
    refine ⟨(if_neg hj).trans hjt.dinode, fun p hp => ?_, hjt.data⟩
    rw [← hjt.addrs p hp]
    exact congrFun hon p

theorem ifree_state (t : State) (i : Nat) (d : Dinode) (n : Inode) :
    (((t.setIp i d).setDinode i d).setInode i n).dropRef i = { (t.setInode i { n with ref := n.ref - 1 }).setDinode i d with
      cached := if n.ref = 1 then t.cached - 1 else t.cached, outstanding := t.outstanding } := by
  unfold State.dropRef
  rw [setInode_self, setInode_setInode]
  simp only [State.setIp, State.setInode, State.setDinode]
  congr 1
  funext j
  split_ifs <;> rfl

theorem iput_wpt (h : Good s) (ho : s.outstanding = o) :
    wpt (iput i) (fun _ t ev => Put i s t ∧ ev = putLog s i) (AsleepOr o) s := by
  unfold iput acquiresleep putLog
  rw [wpt_bind, wpt_bind, wpt_read]
  refine Prog.wpt_ite (fun _ => .inl rfl) fun hl => ?_
  rw [wpt_modify, wpt_bind, wpt_read, wpt_bind]
  have hself := setInode_self (s := s) (i := i) { s.inode i with locked := true }
  refine Prog.wpt_when (fun hc => ?_) (fun hc => ?_)
  · rw [hself] at hc
    change Frees s i at hc
    have hgood : Good (s.setInode i { s.inode i with locked := true }) := by
      have hpos : 0 < (s.inode i).ref := hc.2.2 ▸ Int.zero_lt_one
      exact h.setInode (h.sync i) (fun _ => ⟨hpos, hc.1⟩)
    rw [if_pos hc]
    unfold ifree releasesleep
    rw [wpt_bind]
    refine ((itrunc_wpt hgood (by rw [hself]) ho).mono (fun _ t ev ⟨he, hev⟩ => ?_) fun e he => .inr he)
    rw [wpt_bind, wpt_modify, wpt_bind]
    have hto : (t.setIp i { t.ip i with type := .free }).outstanding = o := (rest_outstanding he.rest).trans ho
    refine ((iupdate_wpt hto).mono (fun _ u ev' ⟨hu, hev'⟩ => ?_) fun e he => .inr he)
    rw [ip_setIp] at hu
    rw [wpt_modify, wpt_bind, wpt_modify, wpt_modify]
    subst hu
    rw [setInode_setInode, setInode_self, ifree_state]
    have hino : ∀ j, j ≠ i → t.inode j = s.inode j :=
      fun j hj => (rest_inode he.rest hj).trans (setInode_of_ne hj _)
    refine ⟨⟨(he.free rfl rfl rfl _ _).1, fun j hj => ⟨((he.free rfl rfl rfl _ _).2 j hj).of_setInode, ?_⟩, ?_⟩, ?_⟩
    · exact (if_neg hj).trans (hino j hj)
    · have hout := rest_outstanding he.rest
      exact hout
    · rw [hev, hev']
      simp only [List.nil_append, List.append_nil]
      rfl
  · rw [hself] at hc
    change ¬ Frees s i at hc
    rw [if_neg hc]
    unfold releasesleep
    rw [wpt_bind, wpt_modify, wpt_modify, setInode_setInode, hself]
    unfold State.dropRef
    rw [setInode_self, setInode_setInode]
    have hput : Good (s.setInode i { s.inode i with ref := (s.inode i).ref - 1, locked := false }) := by
      refine h.setInode (fun hr hv => h.sync i ?_ hv) fun e => (by cases e)
      change 0 < (s.inode i).ref - 1 at hr
      omega
    refine ⟨⟨hput.counts _ _, fun j hj => ⟨⟨rfl, fun _ _ => rfl, fun _ _ _ => rfl⟩, setInode_of_ne hj _⟩, rfl⟩, rfl⟩

end Files
end Xv6
