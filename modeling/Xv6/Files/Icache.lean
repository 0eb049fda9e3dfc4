import Xv6.Files.Inode
import Xv6.Lib.Counted
import Xv6.Lib.Locked
/-!
# Files.Icache — processes at the inode cache (fs.c)

Any number of processes call `iget`, `idup`, `ilock`, `iunlock`, `iput`, `ialloc` and `iupdate`.  A step is a section under
`icache.lock`, the end of an `acquiresleep`, a `releasesleep` or what lies between two of these under the lock of an inode.
`Inv` is what all of them keep.
-/
namespace Xv6
namespace Icache

open Files (Dinode FileType)

abbrev Key := Nat × Nat

/-- `struct inode`, without its lock. -/
structure Entry where
  dev   : Nat
  inum  : Nat
  ref   : Nat
  valid : Bool
  d     : Dinode

def Entry.key (e : Entry) : Key := (e.dev, e.inum)

inductive Pc (n : Nat) where
  | out
  /-- In `ialloc`, before `iget`. -/
  | allocated (k : Key)
  /-- In `ilock`, before `acquiresleep` returns. -/
  | locking (i : Fin n)
  /-- In `ilock`, before it has read the inode. -/
  | loading (i : Fin n)
  /-- In `iput`, before `acquiresleep` returns. -/
  | putting (i : Fin n)
  /-- Before `int r = ip->ref`. -/
  | checking (i : Fin n)
  /-- Before `itrunc`. -/
  | truncating (i : Fin n)
  /-- Before `ip->type = 0` and `iupdate`. -/
  | freeing (i : Fin n)
  /-- Before `ip->valid = 0`. -/
  | freed (i : Fin n)
  /-- Before `releasesleep`. -/
  | leaving (i : Fin n)
  /-- Before `ip->ref--`. -/
  | dropping (i : Fin n)
deriving DecidableEq

inductive Event (m : Nat) where
  | got (p : Fin m) (k : Key) (d : Dinode)
  | store (p : Fin m) (k : Key) (d : Dinode)
  | release (p : Fin m) (k : Key)
  /-- The free inode `d` becomes `d'`. -/
  | alloc (p : Fin m) (k : Key) (d d' : Dinode)
  /-- The inode becomes the free one `d`. -/
  | free (p : Fin m) (k : Key) (d : Dinode)

structure Sys (m n : Nat) where
  entry  : Fin n → Entry
  /-- Who has `ip->lock`. -/
  holder : Fin n → Option (Fin m)
  /-- The references a process has. -/
  refs   : Fin m → Multiset (Fin n)
  pc     : Fin m → Pc n
  disk   : Key → Dinode
  trace  : List (Event m)

inductive Act (m n : Nat) where
  | iget (p : Fin m) (k : Key)
  | ialloc (p : Fin m) (k : Key) (type : FileType)
  | idup (p : Fin m) (i : Fin n)
  | ilock (p : Fin m) (i : Fin n)
  | iunlock (p : Fin m) (i : Fin n)
  | iput (p : Fin m) (i : Fin n)
  /-- The fields are changed in memory. -/
  | edit (p : Fin m) (i : Fin n) (d : Dinode)
  | iupdate (p : Fin m) (i : Fin n)
  /-- A process goes on in the call that it is in. -/
  | next (p : Fin m)

inductive Panic where
  | igetNoInodes
  | ilock
  | ilockNoType
  | iunlock
deriving DecidableEq

variable {m n : Nat}

def Sys.goto (s : Sys m n) (p : Fin m) (w : Pc n) : Sys m n := { s with pc := Function.update s.pc p w }

def Sys.setEntry (s : Sys m n) (i : Fin n) (e : Entry) : Sys m n := { s with entry := Function.update s.entry i e }

def Sys.setHolder (s : Sys m n) (i : Fin n) (q : Option (Fin m)) : Sys m n :=
  { s with holder := Function.update s.holder i q }

def Sys.setRefs (s : Sys m n) (p : Fin m) (r : Multiset (Fin n)) : Sys m n := { s with refs := Function.update s.refs p r }

def Sys.setDisk (s : Sys m n) (k : Key) (d : Dinode) : Sys m n := { s with disk := Function.update s.disk k d }

def Sys.emit (s : Sys m n) (e : Event m) : Sys m n := { s with trace := s.trace ++ [e] }

def Sys.onDisk (s : Sys m n) (i : Fin n) : Dinode := s.disk (s.entry i).key

/-- `iupdate(ip)`. -/
def Sys.update (s : Sys m n) (i : Fin n) : Sys m n := s.setDisk (s.entry i).key (s.entry i).d

/-- The caller of `iget` or `idup` has one more reference. -/
def Sys.take (s : Sys m n) (p : Fin m) (i : Fin n) (e : Entry) : Sys m n :=
  ((s.setEntry i e).setRefs p (i ::ₘ s.refs p)).goto p .out

def Sys.iget (s : Sys m n) (p : Fin m) (k : Key) : Except Panic (Sys m n) :=
  match Fin.find? fun i => decide (0 < (s.entry i).ref ∧ (s.entry i).key = k) with
  | some i => .ok (s.take p i { s.entry i with ref := (s.entry i).ref + 1 })
  | none   =>
    match Fin.find? fun i => decide ((s.entry i).ref = 0) with
    | none   => .error .igetNoInodes
    | some i => .ok (s.take p i { s.entry i with dev := k.1, inum := k.2, ref := 1, valid := false })

def Sys.next (s : Sys m n) (p : Fin m) : Except Panic (Sys m n) :=
  match s.pc p with
  | .out          => .ok s
  | .allocated k  => s.iget p k
  | .locking i    =>
    if s.holder i ≠ none then .ok s
    else if (s.entry i).valid = true then
      .ok (((s.setHolder i (some p)).goto p .out).emit (.got p (s.entry i).key (s.entry i).d))
    else .ok ((s.setHolder i (some p)).goto p (.loading i))
  | .loading i    =>
    if (s.onDisk i).type = .free then .error .ilockNoType
    else .ok (((s.setEntry i { s.entry i with d := s.onDisk i, valid := true }).goto p .out).emit
      (.got p (s.entry i).key (s.onDisk i)))
  | .putting i    =>
    if s.holder i ≠ none then .ok s
    else if (s.entry i).valid = true ∧ (s.entry i).d.nlink = 0 then .ok ((s.setHolder i (some p)).goto p (.checking i))
    else .ok ((s.setHolder i (some p)).goto p (.leaving i))
  | .checking i   =>
    if (s.entry i).ref = 1 then .ok ((s.goto p (.truncating i)).emit (.got p (s.entry i).key (s.entry i).d))
    else .ok (s.goto p (.leaving i))
  | .truncating i =>
    let d := { (s.entry i).d with size := 0, addrs := fun _ => 0 }
    .ok ((((s.setEntry i { s.entry i with d := d }).update i).goto p (.freeing i)).emit (.store p (s.entry i).key d))
  | .freeing i    =>
    let d := { (s.entry i).d with type := .free }
    .ok ((((s.setEntry i { s.entry i with d := d }).update i).goto p (.freed i)).emit (.free p (s.entry i).key d))
  | .freed i      => .ok ((s.setEntry i { s.entry i with valid := false }).goto p (.leaving i))
  | .leaving i    => .ok ((s.setHolder i none).goto p (.dropping i))
  | .dropping i   =>
    .ok (((s.setEntry i { s.entry i with ref := (s.entry i).ref - 1 }).setRefs p ((s.refs p).erase i)).goto p .out)

/-- A process that is in no call starts one, with the references that it has. -/
def Sys.step (s : Sys m n) : Act m n → Except Panic (Sys m n)
  | .next p          => s.next p
  | .iget p k        => if s.pc p = .out then s.iget p k else .ok s
  | .ialloc p k type =>
    if s.pc p = .out ∧ (s.disk k).type = .free then
      .ok (((s.setDisk k { Dinode.zero with type := type }).goto p (.allocated k)).emit
        (.alloc p k (s.disk k) { Dinode.zero with type := type }))
    else .ok s
  | .idup p i        =>
    if s.pc p = .out ∧ i ∈ s.refs p then .ok (s.take p i { s.entry i with ref := (s.entry i).ref + 1 }) else .ok s
  | .ilock p i       =>
    if s.pc p = .out ∧ i ∈ s.refs p then
      if (s.entry i).ref < 1 then .error .ilock else .ok (s.goto p (.locking i))
    else .ok s
  | .iunlock p i     =>
    if s.pc p = .out ∧ i ∈ s.refs p then
      if s.holder i ≠ some p ∨ (s.entry i).ref < 1 then .error .iunlock
      else .ok ((s.setHolder i none).emit (.release p (s.entry i).key))
    else .ok s
  | .iput p i        => if s.pc p = .out ∧ i ∈ s.refs p then .ok (s.goto p (.putting i)) else .ok s
  | .edit p i d      =>
    if s.pc p = .out ∧ s.holder i = some p then .ok (s.setEntry i { s.entry i with d := d }) else .ok s
  | .iupdate p i     =>
    if s.pc p = .out ∧ s.holder i = some p then .ok ((s.update i).emit (.store p (s.entry i).key (s.entry i).d)) else .ok s

def Sys.run : Sys m n → List (Act m n) → Except Panic (Sys m n)
  | s, []      => .ok s
  | s, a :: as =>
    match s.step a with
    | .ok s    => s.run as
    | .error e => .error e

/-- The cache after `iinit`: its entries are zero. -/
def Sys.init (m n : Nat) (disk : Key → Dinode) : Sys m n :=
  ⟨fun _ => ⟨0, 0, 0, false, Dinode.zero⟩, fun _ => none, fun _ => 0, fun _ => .out, disk, []⟩

/-- What the callers promise: `iget` is of an inode that has links, or that the process has a reference to already (".");
an inode that is changed keeps a type, and is written to the disk before `iunlock`.  `dirlookup` of ".." in a directory that
has been removed does not keep the first of these. -/
def Act.allowed (s : Sys m n) : Act m n → Prop
  | .iget p k        => (s.disk k).nlink ≠ 0 ∨ ∃ i ∈ s.refs p, (s.entry i).key = k
  | .ialloc _ _ type => type ≠ .free
  | .edit _ _ d      => d.type ≠ .free
  | .iunlock p i     => s.pc p = .out → s.holder i = some p → (s.entry i).d = s.onDisk i
  | _                => True

def Sys.Allowed (s : Sys m n) : List (Act m n) → Prop
  | []      => True
  | a :: as => a.allowed s ∧ ∀ t, s.step a = .ok t → t.Allowed as

section Fields

variable {s : Sys m n} {i j : Fin n} {p q : Fin m} {w : Pc n} {k : Key} {e : Entry} {d : Dinode} {r : Multiset (Fin n)}

@[simp] theorem goto_pc_self : (s.goto p w).pc p = w := Function.update_self ..
theorem goto_pc_other (hq : q ≠ p) : (s.goto p w).pc q = s.pc q := Function.update_of_ne hq ..
@[simp] theorem setEntry_self : (s.setEntry i e).entry i = e := Function.update_self ..
theorem setEntry_other (hj : j ≠ i) : (s.setEntry i e).entry j = s.entry j := Function.update_of_ne hj ..
@[simp] theorem setHolder_self {o : Option (Fin m)} : (s.setHolder i o).holder i = o := Function.update_self ..
theorem setHolder_other {o : Option (Fin m)} (hj : j ≠ i) : (s.setHolder i o).holder j = s.holder j :=
  Function.update_of_ne hj ..
@[simp] theorem setDisk_self : (s.setDisk k d).disk k = d := Function.update_self ..
theorem setDisk_other {l : Key} (hl : l ≠ k) : (s.setDisk k d).disk l = s.disk l := Function.update_of_ne hl ..
@[simp] theorem setRefs_self : (s.setRefs p r).refs p = r := Function.update_self ..
theorem setRefs_other (hq : q ≠ p) : (s.setRefs p r).refs q = s.refs q := Function.update_of_ne hq ..

end Fields

/-! ## The invariant -/

def Pc.about : Pc n → Option (Fin n)
  | .out | .allocated _ => none
  | .locking i | .loading i | .putting i | .checking i | .truncating i | .freeing i | .freed i | .leaving i | .dropping i =>
    some i

def Pc.locks : Pc n → Option (Fin n)
  | .loading i | .checking i | .truncating i | .freeing i | .freed i | .leaving i => some i
  | _                                                                             => none

/-- The entry whose reference `iput` is about to drop. -/
def Pc.drops : Pc n → Option (Fin n)
  | .freed i | .leaving i | .dropping i => some i
  | _                                   => none

def Clean (e : Entry) (d : Dinode) : Prop := e.d = d ∧ d.type ≠ .free

/-- The inode in memory and the one on the disk have a type. -/
def Typed (e : Entry) (d : Dinode) : Prop := e.valid = true ∧ e.d.type ≠ .free ∧ d.type ≠ .free

/-- What holds of an entry and its inode on the disk, by where the call stands that has the lock. -/
def Pc.Stage : Pc n → Entry → Dinode → Prop
  | .loading _, e, _                   => e.valid = false
  | .checking _, e, d                  => e.valid = true ∧ Clean e d ∧ e.d.nlink = 0
  | .truncating _, e, d | .freeing _, e, d => Typed e d ∧ e.d.nlink = 0 ∧ d.nlink = 0 ∧ e.ref = 1
  | .freed _, _, _                     => True
  | .leaving _, e, d                   => e.valid = true → Clean e d
  | _, _, _                            => True

def Sys.Content (s : Sys m n) (i : Fin n) : Prop :=
  match s.holder i with
  | none   => (s.entry i).valid = true → Clean (s.entry i) (s.onDisk i)
  | some p => if (s.pc p).locks = some i then (s.pc p).Stage (s.entry i) (s.onDisk i) else Typed (s.entry i) (s.onDisk i)

def Sys.At (s : Sys m n) (p : Fin m) : Prop :=
  match s.pc p with
  | .out | .allocated _     => True
  | .locking i | .putting i => i ∈ s.refs p
  | .dropping i             => i ∈ s.refs p ∧ s.holder i ≠ some p
  | .loading i | .checking i | .truncating i | .freeing i | .freed i | .leaving i => s.holder i = some p

/-- An inode that is free, or that `ialloc` has just made one: it has no links, and no references but the one that `iput` has
still to drop. -/
def Sys.Gone (s : Sys m n) (k : Key) : Prop := (s.disk k).type = .free ∨ ∃ q, s.pc q = .allocated k

structure Inv (s : Sys m n) : Prop where
  unique  : ∀ i j, 0 < (s.entry i).ref → 0 < (s.entry j).ref → (s.entry i).key = (s.entry j).key → i = j
  counted : Counted (fun i => (s.entry i).ref) (∑ p, s.refs p)
  place   : ∀ p, s.At p
  owner   : ∀ i p, s.holder i = some p → i ∈ s.refs p
  content : ∀ i, 0 < (s.entry i).ref → s.Content i
  linked  : ∀ k, s.Gone k → (s.disk k).nlink = 0
  gone    : ∀ i, s.Gone (s.entry i).key → (s.entry i).ref ≤ 1 ∧ ∀ p, i ∈ s.refs p → (s.pc p).drops = some i
  made    : ∀ p k, s.pc p = .allocated k → (s.disk k).type ≠ .free ∧ ∀ q, s.pc q = .allocated k → q = p

variable {s t : Sys m n} {i j : Fin n} {p q : Fin m} {k : Key}

theorem content_free (hh : s.holder i = none) :
    s.Content i ↔ ((s.entry i).valid = true → Clean (s.entry i) (s.onDisk i)) := by
  unfold Sys.Content
  rw [hh]

theorem content_call (hh : s.holder i = some p) (hl : (s.pc p).locks = some i) :
    s.Content i ↔ (s.pc p).Stage (s.entry i) (s.onDisk i) := by
  unfold Sys.Content
  rw [hh]
  simp only [hl, if_true]

theorem content_got (hh : s.holder i = some p) (hl : (s.pc p).locks ≠ some i) :
    s.Content i ↔ Typed (s.entry i) (s.onDisk i) := by
  unfold Sys.Content
  rw [hh]
  simp only [hl, if_false]

theorem Inv.pos (h : Inv s) (hi : i ∈ s.refs p) : 0 < (s.entry i).ref := h.counted.pos (Counted.mem_sum hi)

theorem Inv.mem_of_locks (h : Inv s) (hp : (s.pc p).locks = some i) : s.holder i = some p := by
  have hat := h.place p
  unfold Sys.At at hat
  cases hpc : s.pc p with
  | out | allocated k | locking j | putting j | dropping j => simp [hpc, Pc.locks] at hp
  | loading j | checking j | truncating j | freeing j | freed j | leaving j =>
    rw [hpc] at hp hat
    cases hp
    exact hat

theorem Inv.kept (h : Inv s) (hi : i ∈ s.refs p) (hp : (s.pc p).drops ≠ some i) : ¬ s.Gone (s.entry i).key := fun hk =>
  hp ((h.gone i hk).2 p hi)

theorem locks_about {w : Pc n} (h : w.locks = some i) : w.about = some i := by
  cases w <;> first | exact h | cases h

theorem drops_about {w : Pc n} (h : w.drops = some i) : w.about = some i := by
  cases w <;> first | exact h | cases h

theorem about_of_locks {w : Pc n} (h : w = .out ∨ w.locks = some i) :
    (∀ j, w.about = some j → j = i) ∧ ∀ k, w ≠ .allocated k := by
  rcases h with rfl | h
  · exact ⟨nofun, nofun⟩
  · refine ⟨fun j hj => ?_, fun k hk => by rw [hk] at h; cases h⟩
    exact Option.some.inj (hj.symm.trans (locks_about h))

/-- **A step of one process in a call about one entry**, whose reference count and inode stay: what is to be seen is how it
leaves that process and that entry. -/
theorem Inv.frame (h : Inv s) (hi : i ∈ s.refs p) (hentry : ∀ j, j ≠ i → t.entry j = s.entry j)
    (hkey : (t.entry i).key = (s.entry i).key) (href : (t.entry i).ref = (s.entry i).ref) (hrefs : t.refs = s.refs)
    (hpc : ∀ q, q ≠ p → t.pc q = s.pc q) (hdisk : ∀ k, k ≠ (s.entry i).key → t.disk k = s.disk k)
    (hholder : ∀ j q, q ≠ p ∨ j ≠ i → (t.holder j = some q ↔ s.holder j = some q))
    (hs : ∀ j, (s.pc p).about = some j → j = i) (ht : ∀ j, (t.pc p).about = some j → j = i)
    (hnot : ∀ k, t.pc p ≠ .allocated k) (hat : t.At p) (hcontent : t.Content i)
    (hlinked : t.Gone (s.entry i).key → (t.disk (s.entry i).key).nlink = 0)
    (hgone : t.Gone (s.entry i).key → (s.entry i).ref ≤ 1 ∧ ∀ q, i ∈ s.refs q → (t.pc q).drops = some i)
    (hmade : t.disk (s.entry i).key = s.disk (s.entry i).key ∨ ¬ s.Gone (s.entry i).key) : Inv t := by
  have hkeys : ∀ j, (t.entry j).key = (s.entry j).key := fun j => by
    by_cases hj : j = i
    · rw [hj, hkey]
    · rw [hentry j hj]
  have hrefc : ∀ j, (t.entry j).ref = (s.entry j).ref := fun j => by
    by_cases hj : j = i
    · rw [hj, href]
    · rw [hentry j hj]
  have hne : ∀ j, j ≠ i → 0 < (s.entry j).ref → (s.entry j).key ≠ (s.entry i).key := fun j hj hpos he =>
    hj (h.unique j i hpos (h.pos hi) he)
  have hsame : ∀ j, j ≠ i → 0 < (s.entry j).ref → t.onDisk j = s.onDisk j := fun j hj hpos => by
    unfold Sys.onDisk
    rw [hentry j hj, hdisk _ (hne j hj hpos)]
  have hgones : ∀ k, k ≠ (s.entry i).key → t.Gone k → s.Gone k := fun k hk hg => by
    rcases hg with hg | ⟨q, hq⟩
    · exact .inl (by rwa [hdisk k hk] at hg)
    · have hqp : q ≠ p := fun e => hnot k (e ▸ hq)
      exact .inr ⟨q, by rwa [hpc q hqp] at hq⟩
  refine ⟨fun j l hj hl he => ?_, ?_, fun q => ?_, fun j q hq => ?_, fun j hj => ?_, fun k hk => ?_, fun j hk => ?_,
    fun q k hq => ?_⟩
  · rw [hrefc] at hj hl
    rw [hkeys, hkeys] at he
    exact h.unique j l hj hl he
  · rw [hrefs]
    exact fun j => (hrefc j).trans (h.counted j)
  · by_cases hq : q = p
    · exact hq ▸ hat
    · have hatq := h.place q
      unfold Sys.At at hatq ⊢
      rw [hpc q hq, hrefs]
      cases hw : s.pc q <;> rw [hw] at hatq <;> simp only at hatq ⊢ <;>
        first
          | exact hatq
          | exact (hholder _ q (.inl hq)).2 hatq
          | exact ⟨hatq.1, fun e => hatq.2 ((hholder _ q (.inl hq)).1 e)⟩
  · rw [hrefs]
    by_cases hjq : q ≠ p ∨ j ≠ i
    · exact h.owner j q ((hholder j q hjq).1 hq)
    · rw [not_or, not_not, not_not] at hjq
      rw [hjq.1, hjq.2]
      exact hi
  · by_cases hji : j = i
    · exact hji ▸ hcontent
    · rw [hrefc] at hj
      have hc := h.content j hj
      have hh : t.holder j = s.holder j := Option.ext fun q => hholder j q (.inr hji)
      cases hq : s.holder j with
      | none =>
        rw [content_free hq] at hc
        rwa [content_free (hh.trans hq), hentry j hji, hsame j hji hj]
      | some q =>
        by_cases hqp : q = p
        · rw [content_got hq (hqp ▸ fun e => hji (hs j (locks_about e)))] at hc
          rwa [content_got (hh.trans hq) (hqp ▸ fun e => hji (ht j (locks_about e))), hentry j hji, hsame j hji hj]
        · have hcq : t.Content j ↔ s.Content j := by
            unfold Sys.Content
            rw [hh, hq, hentry j hji, hsame j hji hj]
            simp only [hpc q hqp]
          exact hcq.2 hc
  · by_cases hki : k = (s.entry i).key
    · rw [hki] at hk ⊢
      exact hlinked hk
    · rw [hdisk k hki]
      exact h.linked k (hgones k hki hk)
  · rw [hkeys] at hk
    rw [hrefc, hrefs]
    by_cases hji : j = i
    · rw [hji] at hk ⊢
      exact hgone hk
    · by_cases hpos : 0 < (s.entry j).ref
      · obtain ⟨hle, hdrops⟩ := h.gone j (hgones _ (hne j hji hpos) hk)
        refine ⟨hle, fun q hq => ?_⟩
        have hd := hdrops q hq
        rwa [hpc q fun e => hji (hs j (drops_about (e ▸ hd)))]
      · exact ⟨by omega, fun q hq => absurd (h.pos hq) hpos⟩

  · have hqs : ∀ q, t.pc q = .allocated k → s.pc q = .allocated k := fun q hq => by
      rwa [hpc q fun e => hnot k (e ▸ hq)] at hq
    obtain ⟨htype, hone⟩ := h.made q k (hqs q hq)
    refine ⟨?_, fun u hu => hone u (hqs u hu)⟩
    by_cases hk : k = (s.entry i).key
    · rcases hmade with hm | hm
      · rwa [hk, hm, ← hk]
      · exact absurd (.inr ⟨q, hk ▸ hqs q hq⟩) hm
    · rwa [hdisk k hk]

theorem Inv.quiet (h : Inv s) (hi : i ∈ s.refs p) (hentry : ∀ j, j ≠ i → t.entry j = s.entry j)
    (hkey : (t.entry i).key = (s.entry i).key) (href : (t.entry i).ref = (s.entry i).ref) (hrefs : t.refs = s.refs)
    (hpc : ∀ q, q ≠ p → t.pc q = s.pc q) (hdisk : t.disk = s.disk)
    (hholder : ∀ j q, q ≠ p ∨ j ≠ i → (t.holder j = some q ↔ s.holder j = some q))
    (hs : ∀ j, (s.pc p).about = some j → j = i) (ht : ∀ j, (t.pc p).about = some j → j = i)
    (hnot : ∀ k, t.pc p ≠ .allocated k) (hdrops : (s.pc p).drops = some i → (t.pc p).drops = some i) (hat : t.At p)
    (hcontent : t.Content i) : Inv t := by
  have hgones : ∀ k, t.Gone k → s.Gone k := fun k hk => by
    rcases hk with hk | ⟨q, hq⟩
    · exact .inl (by rwa [hdisk] at hk)
    · exact .inr ⟨q, by rwa [hpc q fun e => hnot k (e ▸ hq)] at hq⟩
  refine h.frame hi hentry hkey href hrefs hpc (fun k _ => by rw [hdisk]) hholder hs ht hnot hat hcontent
    (fun hk => ?_) (fun hk => ?_) (.inl (by rw [hdisk]))
  · rw [hdisk]
    exact h.linked _ (hgones _ hk)
  · obtain ⟨hle, hall⟩ := h.gone i (hgones _ hk)
    refine ⟨hle, fun q hq => ?_⟩
    by_cases hqp : q = p
    · exact hqp ▸ hdrops (hqp ▸ hall q hq)
    · rw [hpc q hqp]
      exact hall q hq

theorem content_goto {w : Pc n} (hs : (s.pc p).locks ≠ some i) (hw : w.locks ≠ some i) :
    (s.goto p w).Content i ↔ s.Content i := by
  have hh : (s.goto p w).holder = s.holder := rfl
  cases hq : s.holder i with
  | none => rw [content_free hq, content_free (hh ▸ hq)]; rfl
  | some q =>
    by_cases hqp : q = p
    · rw [hqp] at hq
      rw [content_got hq hs, content_got (hh ▸ hq) (by rwa [goto_pc_self])]
      rfl
    · unfold Sys.Content
      rw [hh, hq]
      simp only [goto_pc_other hqp]
      rfl

theorem Inv.ask {w : Pc n} (h : Inv s) (hp : s.pc p = .out) (hi : i ∈ s.refs p) (hw : w = .locking i ∨ w = .putting i) :
    Inv (s.goto p w) := by
  have hlocks : w.locks ≠ some i ∧ (∀ j, w.about = some j → j = i) ∧ (∀ k, w ≠ .allocated k) := by
    rcases hw with rfl | rfl
    · exact ⟨nofun, fun j hj => (Option.some.inj hj).symm, nofun⟩
    · exact ⟨nofun, fun j hj => (Option.some.inj hj).symm, nofun⟩
  refine h.quiet hi (fun _ _ => rfl) rfl rfl rfl (fun q hq => goto_pc_other hq) rfl (fun _ _ _ => Iff.rfl) ?_ ?_ ?_ ?_ ?_ ?_
  · rw [hp]
    nofun
  · rw [goto_pc_self]
    exact hlocks.2.1
  · rw [goto_pc_self]
    exact hlocks.2.2
  · rw [hp]
    nofun
  · unfold Sys.At
    rw [goto_pc_self]
    rcases hw with rfl | rfl <;> exact hi
  · rw [content_goto (by rw [hp]; nofun) hlocks.1]
    exact h.content i (h.pos hi)

theorem Inv.lock {w : Pc n} (h : Inv s) (hi : i ∈ s.refs p) (hp : s.pc p = .locking i ∨ s.pc p = .putting i)
    (hfree : s.holder i = none) (hout : w = .out ∨ w.locks = some i)
    (hc : ((s.setHolder i (some p)).goto p w).Content i) : Inv ((s.setHolder i (some p)).goto p w) := by
  obtain ⟨hw, hnot⟩ := about_of_locks hout
  have hself : ((s.setHolder i (some p)).goto p w).holder i = some p := setHolder_self
  have hs : (∀ j, (s.pc p).about = some j → j = i) ∧ (s.pc p).drops ≠ some i := by
    rcases hp with hp | hp
    · rw [hp]
      exact ⟨fun j hj => (Option.some.inj hj).symm, nofun⟩
    · rw [hp]
      exact ⟨fun j hj => (Option.some.inj hj).symm, nofun⟩
  refine h.quiet hi (fun _ _ => rfl) rfl rfl rfl (fun q hq => goto_pc_other hq) rfl (fun j q hjq => ?_) hs.1 ?_ ?_
    (fun e => absurd e hs.2) ?_ hc
  · by_cases hj : j = i
    · rw [hj, hself, hfree]
      refine ⟨fun e => ?_, nofun⟩
      exact absurd (Option.some.inj e).symm (hjq.resolve_right (not_not.2 hj))
    · exact iff_of_eq (congrArg (· = some q) (setHolder_other hj))
  · rw [goto_pc_self]
    exact hw
  · rw [goto_pc_self]
    exact hnot
  · unfold Sys.At
    rw [goto_pc_self]
    rcases hout with rfl | hl
    · trivial
    · cases w <;> cases hl <;> exact hself

theorem Inv.go {w : Pc n} {e : Entry} (h : Inv s) (hh : s.holder i = some p) (hs : s.pc p = .out ∨ (s.pc p).locks = some i)
    (hkey : e.key = (s.entry i).key) (href : e.ref = (s.entry i).ref) (hout : w = .out ∨ w.locks = some i)
    (hdrops : (s.pc p).drops = some i → w.drops = some i) (hc : ((s.setEntry i e).goto p w).Content i) :
    Inv ((s.setEntry i e).goto p w) := by
  obtain ⟨hw, hnot⟩ := about_of_locks hout
  refine h.quiet (h.owner i p hh) (fun j hj => setEntry_other hj) ?_ ?_ rfl (fun q hq => goto_pc_other hq) rfl
    (fun _ _ _ => Iff.rfl) (about_of_locks hs).1 ?_ ?_ ?_ ?_ hc
  · exact (congrArg Entry.key setEntry_self).trans hkey
  · exact (congrArg Entry.ref setEntry_self).trans href
  · rw [goto_pc_self]
    exact hw
  · rw [goto_pc_self]
    exact hnot
  · rw [goto_pc_self]
    exact hdrops
  · unfold Sys.At
    rw [goto_pc_self]
    rcases hout with rfl | hl
    · trivial
    · cases w <;> cases hl <;> exact hh

theorem setEntry_entry (s : Sys m n) (i : Fin n) : s.setEntry i (s.entry i) = s := by
  unfold Sys.setEntry
  rw [Function.update_eq_self]

theorem write_entry {w : Pc n} {d : Dinode} :
    (((s.setEntry i { s.entry i with d := d }).update i).goto p w).entry i = { s.entry i with d := d } := setEntry_self

theorem write_disk {w : Pc n} {d : Dinode} : (((s.setEntry i { s.entry i with d := d }).update i).goto p w).disk =
    Function.update s.disk (s.entry i).key d := by
  have hentry : (s.setEntry i { s.entry i with d := d }).entry i = { s.entry i with d := d } := setEntry_self
  unfold Sys.update Sys.goto Sys.setDisk
  rw [hentry]
  rfl

theorem Inv.write {w : Pc n} {d : Dinode} (h : Inv s) (hh : s.holder i = some p)
    (hs : s.pc p = .out ∨ (s.pc p).locks = some i) (hkept : (s.pc p).drops ≠ some i) (hout : w = .out ∨ w.locks = some i)
    (hfree : d.type = .free → d.nlink = 0 ∧ (s.entry i).ref = 1 ∧ w.drops = some i)
    (hc : (((s.setEntry i { s.entry i with d := d }).update i).goto p w).Content i) :
    Inv (((s.setEntry i { s.entry i with d := d }).update i).goto p w) := by
  obtain ⟨hw, hnot⟩ := about_of_locks hout
  have hi := h.owner i p hh
  have hentry : (((s.setEntry i { s.entry i with d := d }).update i).goto p w).entry i = _ := write_entry
  have hdisk : (((s.setEntry i { s.entry i with d := d }).update i).goto p w).disk = _ := write_disk
  have hgone : (((s.setEntry i { s.entry i with d := d }).update i).goto p w).Gone (s.entry i).key → d.type = .free := by
    rintro (hk | ⟨q, hq⟩)
    · rwa [hdisk, Function.update_self] at hk
    · by_cases hqp : q = p
      · rw [hqp, goto_pc_self] at hq
        exact absurd hq (hnot _)
      · rw [goto_pc_other hqp] at hq
        exact absurd (.inr ⟨q, hq⟩) (h.kept hi hkept)
  refine h.frame hi (fun j hj => setEntry_other hj) ?_ ?_ rfl (fun q hq => goto_pc_other hq) (fun k hk => ?_)
    (fun _ _ _ => Iff.rfl) (about_of_locks hs).1 ?_ ?_ ?_ hc (fun hk => ?_) (fun hk => ?_) (.inr (h.kept hi hkept))
  · exact (congrArg Entry.key hentry).trans rfl
  · exact (congrArg Entry.ref hentry).trans rfl
  · rw [hdisk, Function.update_of_ne hk]
  · rw [goto_pc_self]
    exact hw
  · rw [goto_pc_self]
    exact hnot
  · unfold Sys.At
    rw [goto_pc_self]
    rcases hout with rfl | hl
    · trivial
    · cases w <;> cases hl <;> exact hh
  · rw [hdisk, Function.update_self]
    exact (hfree (hgone hk)).1
  · obtain ⟨-, href, hdrops⟩ := hfree (hgone hk)
    refine ⟨href.le, fun q hq => ?_⟩
    by_cases hqp : q = p
    · rwa [hqp, goto_pc_self]
    · exact absurd hq (h.counted.sum_only href hi hqp)

theorem Inv.unlock {w : Pc n} (h : Inv s) (hh : s.holder i = some p) (hw : s.pc p = .out ∧ w = .out ∨
      s.pc p = .leaving i ∧ w = .dropping i)
    (hc : (s.entry i).valid = true → Clean (s.entry i) (s.onDisk i)) : Inv ((s.setHolder i none).goto p w) := by
  have hi := h.owner i p hh
  have hself : ((s.setHolder i none).goto p w).holder i = none := setHolder_self
  refine h.quiet hi (fun _ _ => rfl) rfl rfl rfl (fun q hq => goto_pc_other hq) rfl (fun j q hjq => ?_) ?_ ?_ ?_ ?_ ?_
    ((content_free hself).2 hc)
  · by_cases hj : j = i
    · rw [hj, hself, hh]
      refine ⟨nofun, fun e => ?_⟩
      exact absurd (Option.some.inj e).symm (hjq.resolve_right (not_not.2 hj))
    · exact iff_of_eq (congrArg (· = some q) (setHolder_other hj))
  · rcases hw with ⟨hp, -⟩ | ⟨hp, -⟩
    · rw [hp]
      nofun
    · rw [hp]
      exact fun j hj => (Option.some.inj hj).symm
  · rw [goto_pc_self]
    rcases hw with ⟨-, rfl⟩ | ⟨-, rfl⟩
    · nofun
    · exact fun j hj => (Option.some.inj hj).symm
  · rw [goto_pc_self]
    rcases hw with ⟨-, rfl⟩ | ⟨-, rfl⟩ <;> nofun
  · rw [goto_pc_self]
    rcases hw with ⟨hp, -⟩ | ⟨-, rfl⟩
    · rw [hp]
      nofun
    · exact fun _ => rfl
  · unfold Sys.At
    rw [goto_pc_self]
    rcases hw with ⟨-, rfl⟩ | ⟨-, rfl⟩
    · trivial
    · exact ⟨hi, fun e => nomatch hself.symm.trans e⟩

theorem Inv.emit {e : Event m} (h : Inv s) : Inv (s.emit e) := ⟨h.1, h.2, h.3, h.4, h.5, h.6, h.7, h.8⟩

/-! ## References that come and go -/

section Take

variable {e : Entry}

@[simp] theorem take_entry_self : (s.take p i e).entry i = e := setEntry_self
theorem take_entry_other (hj : j ≠ i) : (s.take p i e).entry j = s.entry j := setEntry_other hj
@[simp] theorem take_refs_self : (s.take p i e).refs p = i ::ₘ s.refs p := setRefs_self
theorem take_refs_other (hq : q ≠ p) : (s.take p i e).refs q = s.refs q := setRefs_other hq
@[simp] theorem take_pc_self : (s.take p i e).pc p = .out := goto_pc_self
theorem take_pc_other (hq : q ≠ p) : (s.take p i e).pc q = s.pc q := goto_pc_other hq

theorem mem_take (hj : j ∈ s.refs q) : j ∈ (s.take p i e).refs q := by
  by_cases hq : q = p
  · rw [hq, take_refs_self]
    exact Multiset.mem_cons_of_mem (hq ▸ hj)
  · rwa [take_refs_other hq]

theorem of_mem_take (hj : j ∈ (s.take p i e).refs q) : j = i ∧ q = p ∨ j ∈ s.refs q := by
  by_cases hq : q = p
  · rw [hq, take_refs_self, Multiset.mem_cons] at hj
    exact hj.imp (fun e => ⟨e, hq⟩) fun e => hq ▸ e
  · exact .inr (by rwa [take_refs_other hq] at hj)

end Take

/-- **A process gets one more reference**, to an entry that was in use or to one that nobody used. -/
theorem Inv.take {e : Entry} (h : Inv s) (hp : s.pc p = .out ∨ s.pc p = .allocated e.key)
    (href : e.ref = (s.entry i).ref + 1) (hunique : ∀ j, j ≠ i → 0 < (s.entry j).ref → (s.entry j).key ≠ e.key)
    (hcontent : (s.take p i e).Content i) (hgone : ¬ (s.take p i e).Gone e.key) : Inv (s.take p i e) := by
  have hpc : ∀ q k, (s.take p i e).pc q = .allocated k → q ≠ p ∧ s.pc q = .allocated k := fun q k hq => by
    have hqp : q ≠ p := fun hqp => by
      rw [hqp, take_pc_self] at hq
      cases hq
    exact ⟨hqp, by rwa [take_pc_other hqp] at hq⟩
  have hgones : ∀ k, (s.take p i e).Gone k → s.Gone k := fun k hk => hk.imp id fun ⟨q, hq⟩ => ⟨q, (hpc q k hq).2⟩
  have habout : (s.pc p).locks = none ∧ (s.pc p).drops = none := by
    rcases hp with hp | hp <;> rw [hp] <;> exact ⟨rfl, rfl⟩
  refine ⟨fun j l hj hl he => ?_, ?_, fun q => ?_, fun j q hq => mem_take (h.owner j q hq), fun j hj => ?_,
    fun k hk => h.linked k (hgones k hk), fun j hk => ?_, fun q k hq => ?_⟩
  · by_cases hji : j = i
    · by_cases hli : l = i
      · rw [hji, hli]
      · rw [hji, take_entry_self, take_entry_other hli] at he
        rw [take_entry_other hli] at hl
        exact absurd he.symm (hunique l hli hl)
    · rw [take_entry_other hji] at hj he
      by_cases hli : l = i
      · rw [hli, take_entry_self] at he
        exact absurd he (hunique j hji hj)
      · rw [take_entry_other hli] at hl he
        exact h.unique j l hj hl he
  · have hsum : ∑ q, (s.take p i e).refs q = i ::ₘ ∑ q, s.refs q :=
      Counted.sum_cons take_refs_self fun q hq => take_refs_other hq
    rw [hsum]
    exact h.counted.add ((congrArg Entry.ref take_entry_self).trans href) fun j hj => congrArg Entry.ref
      (take_entry_other hj)
  · unfold Sys.At
    by_cases hq : q = p
    · rw [hq, take_pc_self]
      trivial
    · have hat := h.place q
      unfold Sys.At at hat
      rw [take_pc_other hq]
      rw [take_refs_other hq]
      exact hat
  · by_cases hji : j = i
    · exact hji ▸ hcontent
    · rw [take_entry_other hji] at hj
      have hcj : (s.take p i e).Content j ↔ s.Content j := by
        have hon : (s.take p i e).onDisk j = s.onDisk j := congrArg s.disk (congrArg Entry.key (take_entry_other hji))
        unfold Sys.Content
        rw [take_entry_other hji, hon]
        show (match s.holder j with | none => _ | some q => _) ↔ _
        cases hq : s.holder j with
        | none => rfl
        | some q =>
          simp only
          by_cases hqp : q = p
          · rw [hqp, take_pc_self, habout.1, if_neg nofun, if_neg nofun]
          · rw [take_pc_other hqp]
      exact hcj.2 (h.content j hj)
  · by_cases hji : j = i
    · rw [hji, take_entry_self] at hk
      exact absurd hk hgone
    · rw [take_entry_other hji] at hk ⊢
      obtain ⟨hle, hall⟩ := h.gone j (hgones _ hk)
      refine ⟨hle, fun q hq => ?_⟩
      have hd := hall q ((of_mem_take hq).resolve_left fun e => hji e.1)
      rwa [take_pc_other fun hqp => by rw [hqp, habout.2] at hd; cases hd]
  · obtain ⟨-, hq⟩ := hpc q k hq
    obtain ⟨htype, hone⟩ := h.made q k hq
    exact ⟨htype, fun u hu => hone u (hpc u k hu).2⟩

theorem Inv.frees_one (h : Inv s) (hp : s.pc p = .truncating i ∨ s.pc p = .freeing i) :
    (s.entry i).ref = 1 ∧ (s.onDisk i).nlink = 0 ∧ i ∈ s.refs p ∧ ∀ q, q ≠ p → i ∉ s.refs q := by
  have hl : (s.pc p).locks = some i := by rcases hp with hp | hp <;> rw [hp] <;> rfl
  have hh := h.mem_of_locks hl
  have hi := h.owner i p hh
  have hc := (content_call hh hl).1 (h.content i (h.pos hi))
  have hstage : (s.onDisk i).nlink = 0 ∧ (s.entry i).ref = 1 := by
    rcases hp with hp | hp <;> rw [hp] at hc <;> exact hc.2.2
  exact ⟨hstage.2, hstage.1, hi, fun q hq => h.counted.sum_only hstage.2 hi hq⟩

theorem stage_ref {w : Pc n} {e e' : Entry} {d : Dinode} (hw : e'.ref = e.ref ∨ w ≠ .truncating i ∧ w ≠ .freeing i)
    (hl : w.locks = some i) (hv : e'.valid = e.valid) (hd : e'.d = e.d) : w.Stage e' d ↔ w.Stage e d := by
  rcases hw with hr | hw
  · cases w <;> simp only [Pc.Stage, Clean, Typed, hv, hd, hr]
  · cases w with
    | truncating j =>
      cases hl
      exact absurd rfl hw.1
    | freeing j =>
      cases hl
      exact absurd rfl hw.2
    | _ => simp only [Pc.Stage, Clean, hv, hd]

theorem content_ref (hentry : (t.entry i).valid = (s.entry i).valid ∧ (t.entry i).d = (s.entry i).d)
    (hon : t.onDisk i = s.onDisk i) (hh : t.holder i = s.holder i)
    (hpc : ∀ q, s.holder i = some q → t.pc q = s.pc q ∨ (s.pc q).locks ≠ some i ∧ (t.pc q).locks ≠ some i)
    (hno : (t.entry i).ref = (s.entry i).ref ∨ ∀ q, s.pc q ≠ .truncating i ∧ s.pc q ≠ .freeing i) :
    t.Content i ↔ s.Content i := by
  cases hq : s.holder i with
  | none =>
    rw [content_free hq, content_free (hh.trans hq), hentry.1, hon]
    simp only [Clean, hentry.2]
  | some q =>
    have hgot : (Typed (t.entry i) (t.onDisk i) ↔ Typed (s.entry i) (s.onDisk i)) := by
      simp only [Typed, hentry.1, hentry.2, hon]
    rcases hpc q hq with he | ⟨hs, ht⟩
    · by_cases hl : (s.pc q).locks = some i
      · rw [content_call hq hl, content_call (hh.trans hq) (he ▸ hl), he, hon]
        exact stage_ref (hno.imp id fun hno => hno q) hl hentry.1 hentry.2
      · rw [content_got hq hl, content_got (hh.trans hq) (he ▸ hl)]
        exact hgot
    · rw [content_got hq hs, content_got (hh.trans hq) ht]
      exact hgot

theorem Inv.drop (h : Inv s) (hp : s.pc p = .dropping i) :
    Inv (((s.setEntry i { s.entry i with ref := (s.entry i).ref - 1 }).setRefs p ((s.refs p).erase i)).goto p .out) := by
  generalize ht : ((s.setEntry i { s.entry i with ref := (s.entry i).ref - 1 }).setRefs p ((s.refs p).erase i)).goto p .out
    = t
  have hat : i ∈ s.refs p ∧ s.holder i ≠ some p := by
    have := h.place p
    unfold Sys.At at this
    rwa [hp] at this
  have hpos := h.pos hat.1
  have hself : t.entry i = { s.entry i with ref := (s.entry i).ref - 1 } := by rw [← ht]; exact setEntry_self
  have hother : ∀ j, j ≠ i → t.entry j = s.entry j := fun j hj => by rw [← ht]; exact setEntry_other hj
  have hrefs : t.refs p = (s.refs p).erase i := by rw [← ht]; exact setRefs_self
  have hrefs' : ∀ q, q ≠ p → t.refs q = s.refs q := fun q hq => by rw [← ht]; exact setRefs_other hq
  have hout : t.pc p = .out := by rw [← ht]; exact goto_pc_self
  have hpc : ∀ q, q ≠ p → t.pc q = s.pc q := fun q hq => by rw [← ht]; exact goto_pc_other hq
  have hrest : t.holder = s.holder ∧ t.disk = s.disk := by rw [← ht]; exact ⟨rfl, rfl⟩
  have hkey : ∀ j, (t.entry j).key = (s.entry j).key ∧ (t.entry j).valid = (s.entry j).valid ∧
      (t.entry j).d = (s.entry j).d ∧ (t.entry j).ref ≤ (s.entry j).ref := fun j => by
    by_cases hj : j = i
    · rw [hj, hself]
      exact ⟨rfl, rfl, rfl, Nat.sub_le _ _⟩
    · rw [hother j hj]
      exact ⟨rfl, rfl, rfl, Nat.le_refl _⟩
  have hsub : ∀ q j, j ∈ t.refs q → j ∈ s.refs q := fun q j hj => by
    by_cases hq : q = p
    · rw [hq, hrefs] at hj
      exact hq ▸ Multiset.mem_of_mem_erase hj
    · rwa [hrefs' q hq] at hj
  have hgones : ∀ k, t.Gone k → s.Gone k := fun k hk => by
    rcases hk with hk | ⟨q, hq⟩
    · exact .inl (by rwa [hrest.2] at hk)
    · have hqp : q ≠ p := fun e => by rw [e, hout] at hq; cases hq
      exact .inr ⟨q, by rwa [hpc q hqp] at hq⟩
  have hcounted : Counted (fun j => (t.entry j).ref) (∑ q, t.refs q) := by
    have hsum : ∑ q, s.refs q = i ::ₘ ∑ q, t.refs q :=
      Counted.sum_cons (by rw [hrefs, Multiset.cons_erase hat.1]) fun q hq => (hrefs' q hq).symm
    have hs := h.counted
    rw [hsum] at hs
    refine hs.drop ?_ fun j hj => congrArg Entry.ref (hother j hj)
    rw [hself]
    exact Nat.sub_add_cancel hpos
  refine ⟨fun j l hj hl he => ?_, hcounted, fun q => ?_, fun j q hq => ?_, fun j hj => ?_, fun k hk => ?_, fun j hk => ?_,
    fun q k hq => ?_⟩
  · rw [(hkey j).1, (hkey l).1] at he
    exact h.unique j l (Nat.lt_of_lt_of_le hj (hkey j).2.2.2) (Nat.lt_of_lt_of_le hl (hkey l).2.2.2) he
  · unfold Sys.At
    by_cases hq : q = p
    · rw [hq, hout]
      trivial
    · have hatq := h.place q
      unfold Sys.At at hatq
      rw [hpc q hq, hrefs' q hq, hrest.1]
      exact hatq
  · rw [hrest.1] at hq
    by_cases hqp : q = p
    · have hj : j ≠ i := fun e => hat.2 (by rw [← e, ← hqp, hq])
      rw [hqp, hrefs]
      exact (Multiset.mem_erase_of_ne hj).2 (h.owner j p (hqp ▸ hq))
    · rw [hrefs' q hqp]
      exact h.owner j q hq
  · have hposj := Nat.lt_of_lt_of_le hj (hkey j).2.2.2
    refine (content_ref ⟨(hkey j).2.1, (hkey j).2.2.1⟩ ?_ (congrFun hrest.1 j) (fun q hq => ?_) ?_).2 (h.content j hposj)
    · unfold Sys.onDisk
      rw [hrest.2, (hkey j).1]
    · by_cases hqp : q = p
      · rw [hqp, hp, hout]
        exact .inr ⟨nofun, nofun⟩
      · exact .inl (hpc q hqp)
    · by_cases hji : j = i
      · -- an entry that is being freed has no second reference to drop
        refine .inr fun q => not_or.1 fun hq => ?_
        obtain ⟨-, -, -, honly⟩ := h.frees_one hq
        by_cases hqp : q = p
        · rw [hqp, hp] at hq
          rcases hq with e | e <;> cases e
        · exact honly p (Ne.symm hqp) (hji ▸ hat.1)
      · exact .inl (congrArg Entry.ref (hother j hji))
  · rw [hrest.2]
    exact h.linked k (hgones k hk)
  · rw [(hkey j).1] at hk
    obtain ⟨hle, hall⟩ := h.gone j (hgones _ hk)
    refine ⟨Nat.le_trans (hkey j).2.2.2 hle, fun q hq => ?_⟩
    have hd := hall q (hsub q j hq)
    by_cases hqp : q = p
    · have hji : j = i := by
        rw [hqp, hp] at hd
        exact (Option.some.inj hd).symm
      have hpos' : 0 < (t.entry j).ref := hcounted.pos (Counted.mem_sum hq)
      rw [hji, hself] at hpos'
      rw [hji] at hle
      simp only at hpos'
      omega
    · rwa [hpc q hqp]
  · have hqs : ∀ q, t.pc q = .allocated k → s.pc q = .allocated k := fun q hq => by
      have hqp : q ≠ p := fun e => by rw [e, hout] at hq; cases hq
      rwa [hpc q hqp] at hq
    rw [hrest.2]
    obtain ⟨htype, hone⟩ := h.made q k (hqs q hq)
    exact ⟨htype, fun u hu => hone u (hqs u hu)⟩

theorem Inv.ialloc {d : Dinode} (h : Inv s) (hp : s.pc p = .out) (hfree : (s.disk k).type = .free) (htype : d.type ≠ .free)
    (hlink : d.nlink = 0) : Inv ((s.setDisk k d).goto p (.allocated k)) := by
  generalize ht : (s.setDisk k d).goto p (.allocated k) = t
  have hdisk : t.disk = Function.update s.disk k d := by rw [← ht]; rfl
  have hrest : t.entry = s.entry ∧ t.holder = s.holder ∧ t.refs = s.refs := by rw [← ht]; exact ⟨rfl, rfl, rfl⟩
  have hself : t.pc p = .allocated k := by rw [← ht]; exact goto_pc_self
  have hpc : ∀ q, q ≠ p → t.pc q = s.pc q := fun q hq => by rw [← ht]; exact goto_pc_other hq
  have hgone : s.Gone k := .inl hfree
  have hgones : ∀ l, t.Gone l → s.Gone l := fun l hl => by
    by_cases hlk : l = k
    · exact hlk ▸ hgone
    · rcases hl with hl | ⟨q, hq⟩
      · exact .inl (by rwa [hdisk, Function.update_of_ne hlk] at hl)
      · have hqp : q ≠ p := fun e => by
          rw [e, hself] at hq
          exact hlk (Pc.allocated.inj hq).symm
        exact .inr ⟨q, by rwa [hpc q hqp] at hq⟩
  refine ⟨fun i j hi hj he => ?_, ?_, fun q => ?_, fun i q hq => ?_, fun i hi => ?_, fun l hl => ?_, fun i hl => ?_,
    fun q l hq => ?_⟩
  · rw [hrest.1] at hi hj he
    exact h.unique i j hi hj he
  · rw [hrest.1, hrest.2.2]
    exact h.counted
  · unfold Sys.At
    by_cases hq : q = p
    · rw [hq, hself]
      trivial
    · have hat := h.place q
      unfold Sys.At at hat
      rw [hpc q hq, hrest.2.1, hrest.2.2]
      exact hat
  · rw [hrest.2.1] at hq
    rw [hrest.2.2]
    exact h.owner i q hq
  · rw [hrest.1] at hi
    have hc := h.content i hi
    by_cases hk : (s.entry i).key = k
    · -- the entry holds nothing of the inode that was free
      have hinvalid : ¬ Clean (s.entry i) (s.onDisk i) := fun hclean => by
        unfold Sys.onDisk at hclean
        rw [hk] at hclean
        exact hclean.2 hfree
      have hdrops := (h.gone i (hk ▸ hgone)).2
      cases hq : s.holder i with
      | none =>
        rw [content_free hq] at hc
        rw [content_free (hrest.2.1 ▸ hq), hrest.1]
        exact fun hv => absurd (hc hv) hinvalid
      | some q =>
        have hd := hdrops q (h.owner i q hq)
        have hqp : q ≠ p := fun e => by
          rw [e, hp] at hd
          cases hd
        have hat := h.place q
        unfold Sys.At at hat
        cases hw : s.pc q with
        | freed j =>
          rw [hw] at hd
          rw [content_call (hrest.2.1 ▸ hq) (by rw [hpc q hqp, hw]; exact hd), hpc q hqp, hw]
          trivial
        | leaving j =>
          rw [hw] at hd
          rw [content_call hq (by rw [hw]; exact hd), hw] at hc
          rw [content_call (hrest.2.1 ▸ hq) (by rw [hpc q hqp, hw]; exact hd), hpc q hqp, hw, hrest.1]
          exact fun hv => absurd (hc hv) hinvalid
        | dropping j =>
          rw [hw] at hd hat
          cases hd
          exact absurd hq hat.2
        | _ =>
          rw [hw] at hd
          cases hd
    · refine (content_ref ?_ ?_ (congrFun hrest.2.1 i) (fun q hq => ?_) (.inl ?_)).2 hc
      · rw [hrest.1]
        exact ⟨rfl, rfl⟩
      · unfold Sys.onDisk
        rw [hdisk, hrest.1, Function.update_of_ne hk]
      · by_cases hqp : q = p
        · rw [hqp, hp, hself]
          exact .inr ⟨nofun, nofun⟩
        · exact .inl (hpc q hqp)
      · rw [hrest.1]
  · by_cases hlk : l = k
    · rw [hlk, hdisk, Function.update_self]
      exact hlink
    · rw [hdisk, Function.update_of_ne hlk]
      exact h.linked l (hgones l hl)
  · rw [hrest.1] at hl ⊢
    rw [hrest.2.2]
    obtain ⟨hle, hall⟩ := h.gone i (hgones _ hl)
    refine ⟨hle, fun q hq => ?_⟩
    have hd := hall q hq
    have hqp : q ≠ p := fun e => by
      rw [e, hp] at hd
      cases hd
    rwa [hpc q hqp]
  · by_cases hlk : l = k
    · have hnew : ∀ u, t.pc u = .allocated k → u = p := fun u hu => by
        by_contra hup
        rw [hpc u hup] at hu
        exact (h.made u k hu).1 hfree
      rw [hlk] at hq ⊢
      rw [hdisk, Function.update_self]
      exact ⟨htype, fun u hu => (hnew u hu).trans (hnew q hq).symm⟩
    · have hqs : ∀ u, t.pc u = .allocated l → s.pc u = .allocated l := fun u hu => by
        have hup : u ≠ p := fun e => by
          rw [e, hself] at hu
          exact hlk (Pc.allocated.inj hu).symm
        rwa [hpc u hup] at hu
      rw [hdisk, Function.update_of_ne hlk]
      obtain ⟨hne, hone⟩ := h.made q l (hqs q hq)
      exact ⟨hne, fun u hu => hone u (hqs u hu)⟩

theorem Inv.again (h : Inv s) (hp : s.pc p = .out ∨ s.pc p = .allocated (s.entry i).key) (hpos : 0 < (s.entry i).ref)
    (hno : ∀ q, s.pc q ≠ .truncating i ∧ s.pc q ≠ .freeing i)
    (hgone : ¬ (s.take p i { s.entry i with ref := (s.entry i).ref + 1 }).Gone (s.entry i).key) :
    Inv (s.take p i { s.entry i with ref := (s.entry i).ref + 1 }) := by
  refine h.take hp rfl (fun j hj hposj he => hj (h.unique j i hposj hpos he)) ?_ hgone
  refine (content_ref (s := s) (t := s.take p i { s.entry i with ref := (s.entry i).ref + 1 }) ?_ ?_ rfl (fun q _ => ?_)
    (.inr hno)).2 (h.content i hpos)
  · rw [take_entry_self]
    exact ⟨rfl, rfl⟩
  · unfold Sys.onDisk
    rw [take_entry_self]
    rfl
  · by_cases hqp : q = p
    · rw [hqp, take_pc_self]
      rcases hp with hp | hp <;> rw [hp] <;> exact .inr ⟨nofun, nofun⟩
    · exact .inl (take_pc_other hqp)

/-- **`iget`** of an inode with links, or of the one that `ialloc` has just made. -/
theorem Inv.iget (h : Inv s) (hp : s.pc p = .out ∧ (s.disk k).nlink ≠ 0 ∨ s.pc p = .allocated k) (ht : s.iget p k = .ok t) :
    Inv t := by
  have hplace : s.pc p = .out ∨ s.pc p = .allocated k := hp.imp And.left id
  have hgone : ∀ i e, ¬ (s.take p i e).Gone k := fun i e hk => by
    have hqs : ∀ q, (s.take p i e).pc q = .allocated k → q ≠ p ∧ s.pc q = .allocated k := fun q hq => by
      have hqp : q ≠ p := fun e => by
        rw [e, take_pc_self] at hq
        cases hq
      exact ⟨hqp, by rwa [take_pc_other hqp] at hq⟩
    rcases hp with ⟨-, hlink⟩ | hp
    · exact hlink (h.linked k (hk.imp id fun ⟨q, hq⟩ => ⟨q, (hqs q hq).2⟩))
    · obtain ⟨htype, hone⟩ := h.made p k hp
      rcases hk with hk | ⟨q, hq⟩
      · exact htype hk
      · exact (hqs q hq).1 (hone q (hqs q hq).2)
  unfold Sys.iget at ht
  split at ht
  · rename_i i hfind
    rw [Fin.find?_eq_some_iff] at hfind
    obtain ⟨hpos, hkey⟩ := of_decide_eq_true hfind.1
    cases ht
    refine h.again (hplace.imp id fun e => e.trans (congrArg Pc.allocated hkey.symm)) hpos (fun q => not_or.1 fun hq => ?_)
      (hkey ▸ hgone i _)
    obtain ⟨-, hlink, hi, -⟩ := h.frees_one hq
    rcases hp with ⟨-, hne⟩ | hp
    · exact hne (by rwa [← hkey])
    · have hd := (h.gone i (.inr ⟨p, hkey ▸ hp⟩)).2 q hi
      rcases hq with hq | hq <;> rw [hq] at hd <;> cases hd
  · rename_i hnone
    rw [Fin.find?_eq_none_iff] at hnone
    split at ht
    · cases ht
    · rename_i i hfind
      rw [Fin.find?_eq_some_iff] at hfind
      have hzero := of_decide_eq_true hfind.1
      cases ht
      have hholder : s.holder i = none := by
        cases hq : s.holder i with
        | none => rfl
        | some q => exact absurd (h.pos (h.owner i q hq)) (by omega)
      refine h.take hplace (by rw [hzero]) (fun j hj hposj he => ?_) ?_ (hgone i _)
      · exact of_decide_eq_false (hnone j) ⟨hposj, he⟩
      · rw [content_free (show (s.take p i _).holder i = none from hholder), take_entry_self]
        nofun

theorem Inv.idup (h : Inv s) (hp : s.pc p = .out) (hi : i ∈ s.refs p) :
    Inv (s.take p i { s.entry i with ref := (s.entry i).ref + 1 }) := by
  refine h.again (.inl hp) (h.pos hi) (fun q => not_or.1 fun hq => ?_) fun hk => ?_
  · obtain ⟨-, -, -, honly⟩ := h.frees_one hq
    by_cases hqp : q = p
    · rw [hqp, hp] at hq
      rcases hq with e | e <;> cases e
    · exact honly p (Ne.symm hqp) hi
  · refine h.kept hi (by rw [hp]; nofun) (hk.imp id fun ⟨q, hq⟩ => ⟨q, ?_⟩)
    by_cases hqp : q = p
    · rw [hqp, take_pc_self] at hq
      cases hq
    · rwa [take_pc_other hqp] at hq

theorem Inv.iget_again (h : Inv s) (hi : i ∈ s.refs p) (hk : (s.entry i).key = k) (ht : s.iget p k = .ok t) :
    t = s.take p i { s.entry i with ref := (s.entry i).ref + 1 } := by
  unfold Sys.iget at ht
  split at ht
  · rename_i j hfind
    rw [Fin.find?_eq_some_iff] at hfind
    obtain ⟨hpos, hkey⟩ := of_decide_eq_true hfind.1
    cases ht
    rw [h.unique j i hpos (h.pos hi) (hkey.trans hk.symm)]
  · rename_i hnone
    rw [Fin.find?_eq_none_iff] at hnone
    exact absurd ⟨h.pos hi, hk⟩ (of_decide_eq_false (hnone i))

/-! ## Steps and runs -/

theorem Inv.at_call {w : Pc n} (h : Inv s) (hp : s.pc p = w) (hl : w.locks = some i) :
    s.holder i = some p ∧ w.Stage (s.entry i) (s.onDisk i) ∧ (s.pc p = .out ∨ (s.pc p).locks = some i) := by
  subst hp
  have hh := h.mem_of_locks hl
  exact ⟨hh, (content_call hh hl).1 (h.content i (h.pos (h.owner i p hh))), .inr hl⟩

theorem go_content {e : Entry} {w : Pc n} (hh : s.holder i = some p) (hkey : e.key = (s.entry i).key)
    (hw : w.locks = some i ∧ w.Stage e (s.onDisk i) ∨ w.locks ≠ some i ∧ Typed e (s.onDisk i)) :
    ((s.setEntry i e).goto p w).Content i := by
  have hentry : ((s.setEntry i e).goto p w).entry i = e := setEntry_self
  have hholder : ((s.setEntry i e).goto p w).holder i = some p := hh
  have hon : ((s.setEntry i e).goto p w).onDisk i = s.onDisk i := by
    unfold Sys.onDisk
    rw [hentry, hkey]
    rfl
  rcases hw with ⟨hl, hw⟩ | ⟨hl, hw⟩
  · rw [content_call hholder (by rwa [goto_pc_self]), hentry, hon, goto_pc_self]
    exact hw
  · rw [content_got hholder (by rwa [goto_pc_self]), hentry, hon]
    exact hw

theorem lock_content {w : Pc n} (hl : w.locks = some i) (hw : w.Stage (s.entry i) (s.onDisk i)) :
    ((s.setHolder i (some p)).goto p w).Content i := by
  have hholder : ((s.setHolder i (some p)).goto p w).holder i = some p := setHolder_self
  rw [content_call hholder (by rwa [goto_pc_self]), goto_pc_self]
  exact hw

theorem write_content {d : Dinode} {w : Pc n} (hh : s.holder i = some p)
    (hw : w.locks = some i ∧ w.Stage { s.entry i with d := d } d ∨ w.locks ≠ some i ∧ Typed { s.entry i with d := d } d) :
    (((s.setEntry i { s.entry i with d := d }).update i).goto p w).Content i := by
  have hon : (((s.setEntry i { s.entry i with d := d }).update i).goto p w).onDisk i = d := by
    unfold Sys.onDisk
    rw [write_disk, write_entry]
    exact Function.update_self ..
  have hholder : (((s.setEntry i { s.entry i with d := d }).update i).goto p w).holder i = some p := hh
  rcases hw with ⟨hl, hw⟩ | ⟨hl, hw⟩
  · rw [content_call hholder (by rwa [goto_pc_self]), hon, goto_pc_self, write_entry]
    exact hw
  · rw [content_got hholder (by rwa [goto_pc_self]), hon, write_entry]
    exact hw

theorem Inv.next (h : Inv s) (ht : s.next p = .ok t) : Inv t := by
  have hat := h.place p
  unfold Sys.At at hat
  unfold Sys.next at ht
  cases hp : s.pc p with
  | out =>
    rw [hp] at ht
    cases ht
    exact h
  | allocated k =>
    rw [hp] at ht
    exact h.iget (.inr hp) ht
  | locking i =>
    rw [hp] at ht hat
    simp only at ht
    split at ht
    · cases ht
      exact h
    · rename_i hfree
      rw [not_not] at hfree
      have hc := (content_free hfree).1 (h.content i (h.pos hat))
      split at ht
      · rename_i hv
        cases ht
        have hholder : ((s.setHolder i (some p)).goto p .out).holder i = some p := setHolder_self
        have htyped : Typed (s.entry i) (s.onDisk i) := ⟨hv, (congrArg Dinode.type (hc hv).1).trans_ne (hc hv).2, (hc hv).2⟩
        refine (h.lock hat (.inl hp) hfree (.inl rfl) ?_).emit
        exact (content_got hholder (by rw [goto_pc_self]; nofun)).2 htyped
      · rename_i hv
        cases ht
        exact h.lock hat (.inl hp) hfree (.inr rfl) (lock_content rfl (by simpa [Pc.Stage] using hv))
  | loading i =>
    obtain ⟨hh, -, hs⟩ := h.at_call hp rfl
    rw [hp] at ht
    simp only at ht
    split at ht
    · cases ht
    · rename_i htype
      cases ht
      exact (h.go (e := { s.entry i with d := s.onDisk i, valid := true }) hh hs rfl rfl (.inl rfl) (by rw [hp]; nofun)
        (go_content hh rfl (.inr ⟨nofun, rfl, htype, htype⟩))).emit
  | putting i =>
    rw [hp] at ht hat
    simp only at ht
    split at ht
    · cases ht
      exact h
    · rename_i hfree
      rw [not_not] at hfree
      have hc := (content_free hfree).1 (h.content i (h.pos hat))
      split at ht
      · rename_i hv
        cases ht
        exact h.lock hat (.inr hp) hfree (.inr rfl) (lock_content rfl ⟨hv.1, hc hv.1, hv.2⟩)
      · cases ht
        exact h.lock hat (.inr hp) hfree (.inr rfl) (lock_content rfl hc)
  | checking i =>
    obtain ⟨hh, ⟨hv, hclean, hlink⟩, hs⟩ := h.at_call hp rfl
    have hgo : ∀ w : Pc n, w.locks = some i → w.Stage (s.entry i) (s.onDisk i) → Inv (s.goto p w) := fun w hl hw => by
      have := h.go hh hs rfl rfl (.inr hl) (by rw [hp]; nofun) (go_content hh rfl (.inl ⟨hl, hw⟩))
      rwa [setEntry_entry] at this
    have htyped : Typed (s.entry i) (s.onDisk i) := ⟨hv, (congrArg Dinode.type hclean.1).trans_ne hclean.2, hclean.2⟩
    rw [hp] at ht
    simp only at ht
    split at ht
    · rename_i href
      cases ht
      exact (hgo (.truncating i) rfl ⟨htyped, hlink, hclean.1 ▸ hlink, href⟩).emit
    · cases ht
      exact hgo (.leaving i) rfl fun _ => hclean
  | truncating i =>
    obtain ⟨hh, ⟨htyped, hlink, -, href⟩, hs⟩ := h.at_call hp rfl
    rw [hp] at ht
    cases ht
    exact (h.write (w := .freeing i) (d := { (s.entry i).d with size := 0, addrs := fun _ => 0 }) hh hs
      (by rw [hp]; nofun) (.inr rfl) (fun e => absurd e htyped.2.1)
      (write_content hh (.inl ⟨rfl, ⟨htyped.1, htyped.2.1, htyped.2.1⟩, hlink, hlink, href⟩))).emit
  | freeing i =>
    obtain ⟨hh, ⟨-, hlink, -, href⟩, hs⟩ := h.at_call hp rfl
    rw [hp] at ht
    cases ht
    exact (h.write (w := .freed i) (d := { (s.entry i).d with type := .free }) hh hs (by rw [hp]; nofun) (.inr rfl)
      (fun _ => ⟨hlink, href, rfl⟩) (write_content hh (.inl ⟨rfl, trivial⟩))).emit
  | freed i =>
    obtain ⟨hh, -, hs⟩ := h.at_call hp rfl
    rw [hp] at ht
    cases ht
    exact h.go (e := { s.entry i with valid := false }) hh hs rfl rfl (.inr rfl) (fun _ => rfl)
      (go_content hh rfl (.inl ⟨rfl, nofun⟩))
  | leaving i =>
    obtain ⟨hh, hc, -⟩ := h.at_call hp rfl
    rw [hp] at ht
    cases ht
    exact h.unlock hh (.inr ⟨hp, rfl⟩) hc
  | dropping i =>
    rw [hp] at ht
    cases ht
    exact h.drop hp

theorem Inv.held (h : Inv s) (hp : s.pc p = .out) (hh : s.holder i = some p) : Typed (s.entry i) (s.onDisk i) :=
  (content_got hh (by rw [hp]; nofun)).1 (h.content i (h.pos (h.owner i p hh)))

theorem goto_same (s : Sys m n) (p : Fin m) : s.goto p (s.pc p) = s := by
  unfold Sys.goto
  rw [Function.update_eq_self]

theorem Inv.step {a : Act m n} (h : Inv s) (ha : a.allowed s) (ht : s.step a = .ok t) : Inv t := by
  cases a with
  | next p => exact h.next ht
  | iget p k =>
    simp only [Sys.step] at ht
    split at ht
    · rename_i hp
      rcases ha with hlink | ⟨i, hi, hk⟩
      · exact h.iget (.inl ⟨hp, hlink⟩) ht
      · rw [h.iget_again hi hk ht]
        exact h.idup hp hi
    · cases ht
      exact h
  | ialloc p k type =>
    simp only [Sys.step] at ht
    split at ht
    · rename_i hp
      cases ht
      exact (h.ialloc (d := { Dinode.zero with type := type }) hp.1 hp.2 ha rfl).emit
    · cases ht
      exact h
  | idup p i =>
    simp only [Sys.step] at ht
    split at ht
    · rename_i hp
      cases ht
      exact h.idup hp.1 hp.2
    · cases ht
      exact h
  | ilock p i =>
    simp only [Sys.step] at ht
    split at ht
    · rename_i hp
      split at ht
      · cases ht
      · cases ht
        exact h.ask hp.1 hp.2 (.inl rfl)
    · cases ht
      exact h
  | iunlock p i =>
    simp only [Sys.step] at ht
    split at ht
    · rename_i hp
      split at ht
      · cases ht
      · rename_i hh
        rw [not_or, not_not] at hh
        cases ht
        have hclean : Clean (s.entry i) (s.onDisk i) := ⟨ha hp.1 hh.1, (h.held hp.1 hh.1).2.2⟩
        have := h.unlock hh.1 (.inl ⟨hp.1, rfl⟩) fun _ => hclean
        have hsame : (s.setHolder i none).goto p .out = s.setHolder i none := hp.1 ▸ goto_same (s.setHolder i none) p
        exact (hsame ▸ this).emit
    · cases ht
      exact h
  | iput p i =>
    simp only [Sys.step] at ht
    split at ht
    · rename_i hp
      cases ht
      exact h.ask hp.1 hp.2 (.inr rfl)
    · cases ht
      exact h
  | edit p i d =>
    simp only [Sys.step] at ht
    split at ht
    · rename_i hp
      cases ht
      obtain ⟨hvalid, -, hdisk⟩ := h.held hp.1 hp.2
      have := h.go (e := { s.entry i with d := d }) hp.2 (.inl hp.1) rfl rfl (.inl rfl) (by rw [hp.1]; nofun)
        (go_content hp.2 rfl (.inr ⟨nofun, hvalid, ha, hdisk⟩))
      rwa [← hp.1, show (s.setEntry i _).goto p (s.pc p) = _ from goto_same (s.setEntry i _) p] at this
    · cases ht
      exact h
  | iupdate p i =>
    simp only [Sys.step] at ht
    split at ht
    · rename_i hp
      cases ht
      obtain ⟨hvalid, hmem, -⟩ := h.held hp.1 hp.2
      have := h.write (w := .out) (d := (s.entry i).d) hp.2 (.inl hp.1) (by rw [hp.1]; nofun) (.inl rfl)
        (fun e => absurd e hmem) (write_content hp.2 (.inr ⟨nofun, hvalid, hmem, hmem⟩))
      rw [show s.setEntry i { s.entry i with d := (s.entry i).d } = s from setEntry_entry s i] at this
      rw [← hp.1, show (s.update i).goto p (s.pc p) = s.update i from goto_same (s.update i) p] at this
      exact this.emit
    · cases ht
      exact h

theorem Inv.init (m n : Nat) {disk : Key → Dinode} (hdisk : ∀ k, (disk k).type = .free → (disk k).nlink = 0) :
    Inv (Sys.init m n disk) where
  unique i j hi := absurd hi (Nat.lt_irrefl 0)
  counted := by
    rw [show ∑ p : Fin m, (Sys.init m n disk).refs p = 0 from Finset.sum_const_zero]
    exact fun j => (Multiset.count_zero j).symm
  place _ := trivial
  owner _ _ := nofun
  content i hi := absurd hi (Nat.lt_irrefl 0)
  linked k hk := hdisk k (hk.resolve_right nofun)
  gone i _ := ⟨Nat.zero_le 1, fun p hi => absurd hi (Multiset.notMem_zero i)⟩
  made _ _ := nofun

theorem Inv.run {as : List (Act m n)} (h : Inv s) (ha : s.Allowed as) (ht : s.run as = .ok t) : Inv t := by
  induction as generalizing s with
  | nil =>
    cases ht
    exact h
  | cons a as ih =>
    simp only [Sys.run] at ht
    split at ht
    · rename_i u hu
      exact ih (h.step ha.1 hu) (ha.2 u hu) ht
    · cases ht

theorem iget_fails {e : Panic} (hs : s.iget p k = .error e) : e = .igetNoInodes ∧ ∀ i, 0 < (s.entry i).ref := by
  unfold Sys.iget at hs
  split at hs
  · cases hs
  · split at hs
    · rename_i hnone
      cases hs
      rw [Fin.find?_eq_none_iff] at hnone
      exact ⟨rfl, fun i => Nat.pos_of_ne_zero (of_decide_eq_false (hnone i))⟩
    · cases hs

/-- A call that goes on fails only in `iget`: an inode that is loaded has a type. -/
theorem Inv.next_fails {e : Panic} (h : Inv s) (hs : s.next p = .error e) :
    e = .igetNoInodes ∧ ∀ i, 0 < (s.entry i).ref := by
  unfold Sys.next at hs
  cases hp : s.pc p with
  | allocated k =>
    rw [hp] at hs
    exact iget_fails hs
  | loading i =>
    have hh := h.mem_of_locks (show (s.pc p).locks = some i by rw [hp]; rfl)
    rw [hp] at hs
    simp only at hs
    split at hs
    · rename_i htype
      exact absurd (.inl htype) (h.kept (h.owner i p hh) (by rw [hp]; nofun))
    · cases hs
  | locking i | putting i =>
    rw [hp] at hs
    simp only at hs
    split at hs
    · cases hs
    · split at hs <;> cases hs
  | checking i =>
    rw [hp] at hs
    simp only at hs
    split at hs <;> cases hs
  | _ =>
    rw [hp] at hs
    cases hs

theorem Inv.step_fails {a : Act m n} {e : Panic} (h : Inv s) (hs : s.step a = .error e) :
    (e = .igetNoInodes ∧ ∀ i, 0 < (s.entry i).ref) ∨ (e = .iunlock ∧ ∃ p i, a = .iunlock p i ∧ s.holder i ≠ some p) := by
  cases a with
  | next p => exact .inl (h.next_fails hs)
  | iget p k =>
    simp only [Sys.step] at hs
    split at hs
    · exact .inl (iget_fails hs)
    · cases hs
  | ilock p i =>
    simp only [Sys.step] at hs
    split at hs
    · rename_i hp
      split at hs
      · exact absurd (h.pos hp.2) (by omega)
      · cases hs
    · cases hs
  | iunlock p i =>
    simp only [Sys.step] at hs
    split at hs
    · rename_i hp
      split at hs
      · rename_i hh
        cases hs
        exact .inr ⟨rfl, p, i, rfl, hh.resolve_right (by have := h.pos hp.2; omega)⟩
      · cases hs
    · cases hs
  | _ =>
    simp only [Sys.step] at hs
    split at hs <;> cases hs

/-- **The inode cache is sound**: whatever the processes do and however their steps interleave, an inode has one entry,
`ref` counts the references that the processes have, and who gets an inode has it alone, with a type in memory and on
the disk; what fails is `iget` when every entry is in use, and `iunlock` by a process that has not locked the inode. -/
theorem icache_sound {disk : Key → Dinode} {as : List (Act m n)} {s : Sys m n}
    (hdisk : ∀ k, (disk k).type = .free → (disk k).nlink = 0) (ha : (Sys.init m n disk).Allowed as)
    (hs : (Sys.init m n disk).run as = .ok s) :
    (∀ i j, 0 < (s.entry i).ref → 0 < (s.entry j).ref → (s.entry i).key = (s.entry j).key → i = j) ∧
    (∀ i, (s.entry i).ref = ∑ p, (s.refs p).count i) ∧
    (∀ i p, s.holder i = some p → s.pc p = .out → 0 < (s.entry i).ref ∧ (s.entry i).valid = true ∧
      (s.entry i).d.type ≠ .free ∧ (s.onDisk i).type ≠ .free) ∧
    (∀ i, s.holder i = none → 0 < (s.entry i).ref → (s.entry i).valid = true → (s.entry i).d = s.onDisk i) ∧
    ∀ a e, s.step a = .error e → (e = .igetNoInodes ∧ ∀ i, 0 < (s.entry i).ref) ∨
      (e = .iunlock ∧ ∃ p i, a = .iunlock p i ∧ s.holder i ≠ some p) := by
  have h := (Inv.init m n hdisk).run ha hs
  refine ⟨h.unique, fun i => ?_, fun i p hh hp => ?_, fun i hh hpos hv => ?_, fun a e he => h.step_fails he⟩
  · exact (h.counted i).trans Multiset.count_sum'
  · obtain ⟨hvalid, hmem, hdisk⟩ := h.held hp hh
    exact ⟨h.pos (h.owner i p hh), hvalid, hmem, hdisk⟩
  · exact ((content_free hh).1 (h.content i hpos) hv).1

def files : Key → Dinode := fun _ => { Dinode.zero with type := .file, nlink := 1 }

theorem files_linked (k : Key) : (files k).nlink ≠ 0 ∧ (files k).type ≠ .free :=
  ⟨show (1 : BitVec 16) ≠ 0 by decide, nofun⟩

/-- Two processes take the same inode; the second one waits for its lock. -/
theorem icache_sound_two : ∃ s : Sys 2 1, (Sys.init 2 1 files).run
      [.iget 0 (1, 7), .iget 1 (1, 7), .ilock 0 0, .next 0, .next 0, .ilock 1 0, .next 1] = .ok s ∧
    (s.entry 0).ref = ∑ p, (s.refs p).count 0 := by
  obtain ⟨s, hs⟩ : ∃ s : Sys 2 1, (Sys.init 2 1 files).run
      [.iget 0 (1, 7), .iget 1 (1, 7), .ilock 0 0, .next 0, .next 0, .ilock 1 0, .next 1] = .ok s := ⟨_, rfl⟩
  have ha : (Sys.init 2 1 files).Allowed
      [.iget 0 (1, 7), .iget 1 (1, 7), .ilock 0 0, .next 0, .next 0, .ilock 1 0, .next 1] := by
    refine ⟨.inl (files_linked (1, 7)).1, fun _ hs => ⟨?_, fun _ _ => ⟨trivial,
      fun _ _ => ⟨trivial, fun _ _ => ⟨trivial, fun _ _ =>
      ⟨trivial, fun _ _ => ⟨trivial, fun _ _ => trivial⟩⟩⟩⟩⟩⟩⟩
    cases hs
    exact .inl (files_linked (1, 7)).1
  exact ⟨s, hs, (icache_sound (fun k hfree => absurd hfree (files_linked k).2) ha hs).2.1 0⟩

end Icache
end Xv6
