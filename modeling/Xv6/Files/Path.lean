import Xv6.Files.Entries
import Xv6.Lib.Fields
/-!
# Files.Path — path names

The scanner of `skipelem` and the loop of `namex` reduce to the list of the components of a path: `namei` looks them up one
after the other from the root or from the current directory, and `nameiparent` all but the last.  Slashes do not count beyond
the one in front.
-/
namespace Xv6
namespace Files

open Prog (wp wpt wp_bind wp_read wp_pure)

variable {s t u v : State} {i j : Nat}

/-! ## Components -/

/-- The names between the slashes, cut to `DIRSIZ` bytes. -/
def components (path : Path) : List Name := (path.fields slash).map (List.take dirsiz)

theorem components_cons (path : Path) : components (slash :: path) = components path := by simp [components]

theorem components_append (path path' : Path) : components (path ++ slash :: path') =
    components path ++ components path' := by
  simp [components]

theorem components_dropWhile (path : Path) : components (path.dropWhile fun b => b = slash) = components path := by
  unfold components
  rw [List.fields_dropWhile]

theorem components_eq_nil (path : Path) :
    components (path.dropWhile fun b => b = slash) = [] ↔ (path.dropWhile fun b => b = slash) = [] := by
  have hhead := List.head?_dropWhile_not (fun b => decide (b = slash)) path
  generalize path.dropWhile (fun b => decide (b = slash)) = rest at *
  cases rest with
  | nil => simp [components]
  | cons b rest =>
    have hb : b ≠ slash := by simpa using hhead
    unfold components
    rw [List.fields_cons hb]
    simp

/-- **`skipelem`** takes the first component and leaves a path of the others. -/
theorem skipelem_components (path : Path) : match skipelem path with
    | none              => components path = []
    | some (rest, elem) => components path = elem :: components rest ∧ (components rest = [] ↔ rest = []) ∧
        rest.length < path.length := by
  have hlen := (List.dropWhile_sublist (fun b => decide (b = slash)) (l := path)).length_le
  have hdrop := components_dropWhile path
  have hhead := List.head?_dropWhile_not (fun b => decide (b = slash)) path
  unfold skipelem
  generalize path.dropWhile (fun b => decide (b = slash)) = q at *
  cases q with
  | nil => exact hdrop.symm
  | cons b l =>
    have hb : b ≠ slash := by simpa using hhead
    refine ⟨?_, components_eq_nil _, ?_⟩
    · rw [← hdrop, components_dropWhile]
      unfold components
      rw [List.fields_cons hb]
      rfl
    · have hrest : ((b :: l).dropWhile fun b => b ≠ slash) = l.dropWhile fun b => b ≠ slash :=
        List.dropWhile_cons_of_pos (by simpa using hb)
      rw [hrest]
      have h1 := (List.dropWhile_sublist (fun b => decide (b = slash)) (l := l.dropWhile fun b => b ≠ slash)).length_le
      have h2 := (List.dropWhile_sublist (fun b => decide (b ≠ slash)) (l := l)).length_le
      rw [List.length_cons] at hlen
      omega

/-- `skipelem("///a//bb", name) = "bb"`. -/
example : skipelem [47, 47, 47, 97, 47, 47, 98, 98] = some ([98, 98], [97]) := by decide

/-- The loop of `namex` on the components that are left. -/
def follow (parent : Bool) : Nat → List Name → Name → F (Option (Nat × Name))
  | ip, [], name     =>
    if parent then do
      iput ip
      pure none
    else pure (some (ip, name))
  | ip, elem :: l, _ => do
    match ← walk parent ip (l.flatMap (slash :: ·)) elem with
    | .stop none     => pure none
    | .stop (some i) => pure (some (i, elem))
    | .next i        => follow parent i l elem

/-- **The loop of `namex` goes along the components.** -/
theorem namexLoop_eq (parent : Bool) (k ip : Nat) (path : Path) (name : Name) (hk : path.length < k) :
    namexLoop parent k ip path name = follow parent ip (components path) name := by
  induction k generalizing ip path name with
  | zero => exact absurd hk (Nat.not_lt_zero _)
  | succ k ih =>
    have hskip := skipelem_components path
    unfold namexLoop
    cases hs : skipelem path with
    | none =>
      rw [hs] at hskip
      rw [hskip]
      rfl
    | some e =>
      obtain ⟨rest, elem⟩ := e
      rw [hs] at hskip
      obtain ⟨hc, hnil, hlen⟩ := hskip
      have hwalk : walk parent ip rest elem = walk parent ip ((components rest).flatMap (slash :: ·)) elem := by
        have hiff : rest = [] ↔ (components rest).flatMap (slash :: ·) = [] := by
          rw [← hnil]
          cases components rest <;> simp
        unfold walk
        simp only [hiff]
      rw [hc, follow]
      dsimp only
      rw [hwalk]
      refine congrArg _ (funext fun w => ?_)
      cases w with
      | stop r => cases r <;> rfl
      | next i => exact ih i rest elem (by omega)

/-! ## The tree -/

/-- **A directory tree in order**, with no inode locked: directories of whole entries that name allocated inodes. -/
structure Tree (s : State) : Prop where
  good  : Good s
  whole : ∀ i, (s.dinode i).type = .dir → (s.dinode i).size.toNat % 16 = 0
  named : ∀ i, (s.dinode i).type = .dir → ∀ name j off, s.lookup i name = some (j, off) → (s.dinode j).type ≠ .free
  root  : (s.dinode rootIno).type ≠ .free
  kept  : NoOrphan s
  refs  : ∀ i, 0 ≤ s.refs i
  free  : ∀ i, (s.inode i).locked = false

def State.child (s : State) (i : Nat) (name : Name) : Option Nat :=
  if (s.dinode i).type = .dir then (s.lookup i name).map Prod.fst else none

def State.resolve (s : State) (i : Nat) (l : List Name) : Option Nat := l.foldlM s.child i

/-- The directory that all names but the last lead to, with the last. -/
def State.parent (s : State) (i : Nat) (l : List Name) : Option (Nat × Name) := do
  let name ← l.getLast?
  let dp ← s.resolve i l.dropLast
  if (s.dinode dp).type = .dir then pure (dp, name) else none

/-- The entry that inode `i` takes in the cache. -/
def State.entries (s : State) : Option Nat → Nat
  | none   => 0
  | some i => if 0 < s.refs i then 0 else 1

/-- Who holds inode `i` can get inode `j`. -/
def Fits (s : State) (i j : Nat) : Prop := 0 < s.refs j ∨ j = i ∨ s.cached + s.entries (some i) < ninode

/-- The cache has room for each of the inodes that the names lead to, one after the other. -/
def Roomy (s : State) : Nat → List Name → Prop
  | _, []        => True
  | i, name :: l => match s.child i name with
    | none   => True
    | some j => Fits s i j ∧ Roomy s j l

/-- **The state of a walk** that began at `s`: one more reference, and no lock. -/
structure Holds (s : State) (r : Option Nat) (t : State) : Prop where
  same   : SameDisk s t
  refs   : t.refs = s.refs + given r
  locks  : t.locks = s.locks
  cached : t.cached = s.cached + s.entries r

theorem Tree.isDir (h : Tree s) (ht : (s.dinode i).type = .dir) : IsDir s i := ⟨ht, h.whole i ht⟩

theorem SameDisk.isDir (h : SameDisk s t) (hd : IsDir s i) : IsDir t i := by
  obtain ⟨h1, h2⟩ := hd
  rw [← h.dinode] at h1 h2
  exact ⟨h1, h2⟩

theorem locked_iff : (s.inode i).locked = true ↔ s.locks i = 1 := by
  unfold State.locks
  split <;> simp_all

theorem Tree.locks (h : Tree s) : s.locks = 0 := funext fun j => if_neg (by simp [h.free j])

theorem Holds.free {r : Option Nat} (h : Holds s r t) (hs : Tree s) (j : Nat) : (t.inode j).locked = false := by
  rw [← Bool.not_eq_true, locked_iff, h.locks, hs.locks]
  exact zero_ne_one

/-! ## One turn -/

theorem ilock_run (h : Good t) (hr : 0 < t.refs i) (hl : (t.inode i).locked = false) (hty : (t.dinode i).type ≠ .free) :
    ∃ u, ilock i t = ⟨.ok (), u, []⟩ ∧ SameDisk t u ∧ (u.inode i).locked = true ∧ u.cached = t.cached := by
  have hr' : ¬ (t.inode i).ref < 1 := Int.not_lt.2 hr
  have hreturns : wpt (ilock i) (fun _ u ev => u.cached = t.cached ∧ ev = []) (fun _ => False) t := by
    unfold ilock readInode
    rw [Prog.wpt_bind, Prog.wpt_read, if_neg hr', Prog.wpt_bind]
    refine Prog.wpt_of_run (acquiresleep_run hl) ?_
    rw [Prog.wpt_bind, Prog.wpt_read, setInode_self]
    refine Prog.wpt_when (fun _ => ?_) fun _ => ⟨rfl, rfl⟩
    rw [Prog.wpt_bind, Prog.wpt_modify, Prog.wpt_bind, Prog.wpt_read, if_neg]
    · exact ⟨rfl, rfl⟩
    · unfold State.ip
      rw [setInode_self]
      exact hty
  obtain ⟨_, u, _, hrun, hcached, rfl⟩ := hreturns.run
  have hspec := ilock_wpt h i
  unfold wpt at hspec
  rw [hrun] at hspec
  exact ⟨u, hrun, hspec.1, hspec.2.1, hcached⟩

theorem iunlock_run (h : Good t) (hl : (t.inode i).locked = true) :
    iunlock i t = ⟨.ok (), t.setInode i { t.inode i with locked := false }, []⟩ := by
  have hr := (h.held i hl).1
  unfold iunlock
  rw [Prog.read_bind_run, if_neg]
  · rfl
  · rw [hl]
    simpa using Int.add_one_le_of_lt hr

theorem iunlockput_run (h : Good t) (hl : (t.inode i).locked = true) (hf : ¬ Frees t i) :
    ∃ v, iunlockput i t = ⟨.ok (), v, []⟩ ∧ SameDisk t v ∧
      v.cached = if t.refs i = 1 then t.cached - 1 else t.cached := by
  have hun := iunlock_run h hl
  have hsame := iunlock_wpt h i
  unfold wpt at hsame
  rw [hun] at hsame
  generalize hu : t.setInode i { t.inode i with locked := false } = u at hun hsame
  have hself : u.inode i = { t.inode i with locked := false } := hu ▸ setInode_self _
  have hlu : (u.inode i).locked = false := by rw [hself]
  have hfu : ¬ Frees u i := by
    unfold Frees at hf ⊢
    rw [hself]
    exact hf
  refine ⟨u.dropRef i, ?_, hsame.1.trans (dropRef_same hsame.1.good hlu hfu), ?_⟩
  · unfold iunlockput
    rw [Prog.bind_run_nil hun, iput_run hlu hfu]
  · unfold State.dropRef
    rw [hself, ← hu]
    rfl

structure Inside (s : State) (i : Nat) (u : State) : Prop where
  same   : SameDisk s u
  refs   : u.refs = s.refs + given (some i)
  locks  : u.locks = s.locks + Pi.single i 1
  cached : u.cached = s.cached + s.entries (some i)

theorem given_self (i : Nat) : given (some i) i = 1 := Pi.single_eq_same i 1

theorem given_of_ne (h : j ≠ i) : given (some i) j = 0 := Pi.single_eq_of_ne h 1

theorem Inside.held (h : Inside s i u) (hs : Tree s) : (u.inode i).locked = true := by
  rw [locked_iff, h.locks, hs.locks]
  simp

theorem Inside.ref (h : Inside s i u) : u.refs i = s.refs i + 1 := by
  rw [h.refs, Pi.add_apply, given_self]

theorem Inside.ref_of_ne (h : Inside s i u) (hj : j ≠ i) : u.refs j = s.refs j := by
  rw [h.refs, Pi.add_apply, given_of_ne hj, add_zero]

theorem Holds.enter (h : Holds s (some i) t) (hs : Tree s) (hty : (s.dinode i).type ≠ .free) :
    ∃ u, ilock i t = ⟨.ok (), u, []⟩ ∧ Inside s i u := by
  have hr : 0 < t.refs i := by
    have := hs.refs i
    rw [h.refs, Pi.add_apply, given_self]
    omega
  obtain ⟨u, hrun, hsame, -, hcached⟩ := ilock_run h.same.good hr (h.free hs i) (by rwa [h.same.dinode])
  have hacct := (ilock_moves i).of_run hrun
  refine ⟨u, hrun, h.same.trans hsame, ?_, ?_, hcached.trans h.cached⟩
  · rw [acct_refs hacct, ← h.refs]
    exact add_zero _
  · rw [acct_locks hacct, ← h.locks]
    rfl

theorem Inside.unlock (h : Inside s i u) (hs : Tree s) : ∃ v, iunlock i u = ⟨.ok (), v, []⟩ ∧ Holds s (some i) v := by
  have hrun := iunlock_run h.same.good (h.held hs)
  have hsame := iunlock_wpt h.same.good i
  have hacct := (iunlock_moves i).of_run hrun
  unfold wpt at hsame
  rw [hrun] at hsame
  refine ⟨_, hrun, h.same.trans hsame.1, ?_, ?_, h.cached⟩
  · rw [acct_refs hacct, ← h.refs]
    simp [lck]
  · rw [acct_locks hacct, h.locks]
    simp [lck]

theorem Inside.leave (h : Inside s i u) (hs : Tree s) : ∃ v, iunlockput i u = ⟨.ok (), v, []⟩ ∧ Holds s none v := by
  have hkept := OneMore.kept hs.kept h.same fun j => (congrFun h.refs j).ge
  obtain ⟨v, hrun, hsame, hcached⟩ := iunlockput_run h.same.good (h.held hs) hkept
  have hacct : v.acct = u.acct + (- lck i - Files.ref i) := (iunlockput_moves i).of_run hrun
  have hr := hs.refs i
  refine ⟨v, hrun, h.same.trans hsame, ?_, ?_, ?_⟩
  · rw [acct_refs hacct, h.refs]
    simp [lck, Files.ref, given]
  · rw [acct_locks hacct, h.locks]
    simp [lck, Files.ref]
  · rw [hcached, h.ref, h.cached]
    simp only [State.entries]
    split_ifs <;> omega

theorem Inside.gettable (h : Inside s i u) (hs : Tree s) (j : Nat) : Gettable u j ↔ Fits s i j := by
  have hr := hs.refs j
  unfold Gettable Fits
  rw [h.cached]
  change 0 < u.refs j ∨ _ ↔ _
  by_cases hj : j = i
  · subst hj
    rw [h.ref]
    simp
    omega
  · rw [h.ref_of_ne hj]
    simp [hj]

/-- **From one inode to the next.** -/
theorem Inside.next (h : Inside s i u) (hs : Tree s) (hf : Fits s i j) : ∃ w v,
    iget j u = ⟨.ok j, w, []⟩ ∧ iunlockput i w = ⟨.ok (), v, []⟩ ∧ Holds s (some j) v := by
  have hget := (h.gettable hs j).2 hf
  have hrun := iget_run u j
  rw [if_pos hget] at hrun
  have hsame := got_same h.same.good hget
  have hacct := (iget_moves j).of_run hrun
  have hw : (u.got j).cached = if 0 < u.refs j then u.cached else u.cached + 1 := by
    unfold State.got
    split_ifs <;> first | rfl | contradiction
  generalize u.got j = w at *
  have hrefs : w.refs = s.refs + given (some i) + given (some j) := by
    rw [acct_refs hacct, h.refs]
    rfl
  have hlocks : w.locks = s.locks + Pi.single i 1 := by
    rw [acct_locks hacct, h.locks]
    exact add_zero _
  have hkept := OneMore.kept hs.kept (h.same.trans hsame) fun k => by
    rw [hrefs]
    exact Int.le_add_of_nonneg_right (given_nonneg _ k)
  have hheld : (w.inode i).locked = true := by
    rw [locked_iff, hlocks, hs.locks]
    simp
  obtain ⟨v, hrun', hsame', hcached⟩ := iunlockput_run hsame.good hheld hkept
  have hacct' : v.acct = w.acct + (- lck i - Files.ref i) := (iunlockput_moves i).of_run hrun'
  refine ⟨w, v, hrun, hrun', (h.same.trans hsame).trans hsame', ?_, ?_, ?_⟩
  · rw [acct_refs hacct', hrefs]
    simp [lck, Files.ref, given]
    abel
  · rw [acct_locks hacct', hlocks]
    simp [lck, Files.ref]
  · rw [hcached, hw, h.cached]
    have hri := hs.refs i
    have hrj := hs.refs j
    have hwi : w.refs i = s.refs i + 1 + given (some j) i := by
      rw [hrefs, Pi.add_apply, Pi.add_apply, given_self]
    rw [hwi]
    by_cases hj : j = i
    · subst hj
      rw [h.ref, given_self]
      simp only [State.entries]
      split_ifs <;> omega
    · rw [h.ref_of_ne hj, given_of_ne (Ne.symm hj)]
      simp only [State.entries]
      split_ifs <;> omega

/-- What one turn of `namex` makes of the inode that it holds. -/
def State.turn (s : State) (parent : Bool) (i : Nat) (rest : Path) (name : Name) : Walk :=
  if (s.dinode i).type ≠ .dir then .stop none
  else if parent ∧ rest = [] then .stop (some i)
  else match s.child i name with
    | none   => .stop none
    | some j => .next j

def Walk.held : Walk → Option Nat
  | .stop r => r
  | .next j => some j

/-- **One turn of `namex`**: it panics only where the next inode does not fit. -/
theorem walk_wp (hs : Tree s) (ht : Holds s (some i) t) (hty : (s.dinode i).type ≠ .free) (parent : Bool) (rest : Path)
    (name : Name) : wp (walk parent i rest name)
      (fun w v => w = s.turn parent i rest name ∧ Holds s w.held v ∧ ∀ j, w = .next j → Fits s i j)
      (fun e => e = .panic "iget: no inodes" ∧ ∃ j, s.turn parent i rest name = .next j ∧ ¬ Fits s i j) t := by
  obtain ⟨u, hlock, hu⟩ := ht.enter hs hty
  obtain ⟨v, hleave, hv⟩ := hu.leave hs
  have hip : u.ip i = s.dinode i := by
    rw [(hu.same.good.ip (hu.held hs)).1, hu.same.dinode]
  unfold walk
  rw [wp_bind]
  refine Prog.wp_of_run hlock ?_
  rw [wp_bind, wp_read, hip]
  unfold State.turn
  by_cases hd : (s.dinode i).type = .dir
  · rw [if_neg (not_not.2 hd), if_neg (not_not.2 hd)]
    by_cases hp : parent = true ∧ rest = []
    · obtain ⟨w, hunlock, hw⟩ := hu.unlock hs
      rw [if_pos hp, if_pos hp, wp_bind]
      exact Prog.wp_of_run hunlock ⟨rfl, hw, fun _ h => by cases h⟩
    · rw [if_neg hp, if_neg hp, wp_bind]
      have hrun := dirlookup_run hu.same.good (hu.held hs) (hu.same.isDir (hs.isDir hd)) name
      rw [hu.same.lookup] at hrun
      unfold State.child
      rw [if_pos hd]
      cases hf : s.lookup i name with
      | none =>
        rw [hf] at hrun
        refine Prog.wp_of_run hrun ?_
        rw [wp_bind]
        exact Prog.wp_of_run hleave ⟨rfl, hv, fun _ h => by cases h⟩
      | some e =>
        obtain ⟨j, off⟩ := e
        rw [hf] at hrun
        by_cases hfit : Fits s i j
        · obtain ⟨w, v, hget, hput, hv⟩ := hu.next hs hfit
          refine Prog.wp_of_run (hrun.trans (Prog.bind_run_nil hget)) ?_
          dsimp only
          rw [wp_bind]
          refine Prog.wp_of_run hput ⟨rfl, hv, fun k hk => ?_⟩
          cases hk
          exact hfit
        · have hget := iget_run u j
          rw [if_neg fun h => hfit ((hu.gettable hs j).1 h)] at hget
          refine Prog.wp_of_stop (hrun.trans (Prog.bind_run_error hget)) ⟨rfl, j, rfl, hfit⟩
  · rw [if_pos hd, if_pos hd, wp_bind]
    exact Prog.wp_of_run hleave ⟨rfl, hv, fun _ h => by cases h⟩

/-! ## The walk -/

theorem resolve_cons (s : State) (i : Nat) (name : Name) (l : List Name) :
    s.resolve i (name :: l) = (s.child i name).bind fun j => s.resolve j l := rfl

theorem parent_singleton (s : State) (i : Nat) (name : Name) :
    s.parent i [name] = if (s.dinode i).type = .dir then some (i, name) else none := rfl

theorem parent_cons (s : State) (i : Nat) (name elem : Name) (l : List Name) :
    s.parent i (name :: elem :: l) = (s.child i name).bind fun j => s.parent j (elem :: l) := by
  unfold State.parent
  rw [List.getLast?_cons_cons, List.dropLast_cons_cons, resolve_cons]
  cases s.child i name with
  | none => cases (elem :: l).getLast? <;> rfl
  | some j => rfl

theorem Tree.child (hs : Tree s) {name : Name} (h : s.child i name = some j) : (s.dinode j).type ≠ .free := by
  unfold State.child at h
  split_ifs at h with hd
  obtain ⟨⟨_, off⟩, hf, rfl⟩ := Option.map_eq_some_iff.1 h
  exact hs.named i hd name _ off hf

theorem roomy_cons {name : Name} {l : List Name} (h : s.child i name = some j) :
    Roomy s i (name :: l) ↔ Fits s i j ∧ Roomy s j l := by
  rw [Roomy, h]

theorem roomy_cons_none {name : Name} (h : s.child i name = none) (l : List Name) : Roomy s i (name :: l) := by
  rw [Roomy, h]
  trivial

theorem turn_eq {parent : Bool} {rest : Path} (h : ¬ (parent = true ∧ rest = [])) (s : State) (i : Nat) (name : Name) :
    s.turn parent i rest name = match s.child i name with
      | none   => .stop none
      | some j => .next j := by
  unfold State.turn
  rw [if_neg h]
  by_cases hd : (s.dinode i).type = .dir
  · rw [if_neg (not_not.2 hd)]
  · rw [if_pos hd, State.child, if_neg hd]

theorem Holds.put (h : Holds s (some i) t) (hs : Tree s) : ∃ v, iput i t = ⟨.ok (), v, []⟩ ∧ Holds s none v := by
  have hkept := OneMore.kept hs.kept h.same fun j => (congrFun h.refs j).ge
  have hrun := iput_run (h.free hs i) hkept
  have hacct : (t.dropRef i).acct = t.acct + (- Files.ref i) := (iput_moves i).of_run hrun
  have hr := hs.refs i
  have hti : (t.inode i).ref = s.refs i + 1 := by
    have := congrFun h.refs i
    rwa [Pi.add_apply, given_self] at this
  refine ⟨_, hrun, h.same.trans (dropRef_same h.same.good (h.free hs i) hkept), ?_, ?_, ?_⟩
  · rw [acct_refs hacct, h.refs]
    simp [Files.ref, given]
  · rw [acct_locks hacct, h.locks]
    simp [Files.ref]
  · show (if (t.inode i).ref = 1 then t.cached - 1 else t.cached) = _
    rw [hti, h.cached]
    simp only [State.entries]
    split_ifs <;> omega

theorem follow_turn (hs : Tree s) (ht : Holds s (some i) t) (hty : (s.dinode i).type ≠ .free) {parent : Bool} {l : List Name}
    (hlast : ¬ (parent = true ∧ l = [])) {elem name : Name} {Q : Option (Nat × Name) → State → Prop} {E : Stop → Prop}
    (hnone : s.child i elem = none → ∀ v, Holds s none v → Q none v)
    (hsome : ∀ j, s.child i elem = some j → Fits s i j → ∀ v, Holds s (some j) v → wp (follow parent j l elem) Q E v)
    (hfull : ∀ j, s.child i elem = some j → ¬ Fits s i j → E (.panic "iget: no inodes")) :
    wp (follow parent i (elem :: l) name) Q E t := by
  have hrest : ¬ (parent = true ∧ l.flatMap (slash :: ·) = []) := fun h => hlast ⟨h.1, by
    cases l with
    | nil => rfl
    | cons c l => exact absurd h.2 (by simp)⟩
  have hturn := turn_eq hrest s i elem
  unfold follow
  rw [wp_bind]
  refine (walk_wp hs ht hty parent _ elem).mono (fun w v hw => ?_) fun e he => ?_
  · obtain ⟨rfl, hv, hfit⟩ := hw
    rw [hturn] at *
    cases hc : s.child i elem with
    | none =>
      rw [hc] at hv
      exact hnone hc v hv
    | some j =>
      rw [hc] at hv hfit
      exact hsome j hc (hfit j rfl) v hv
  · obtain ⟨rfl, j, hj, hfit⟩ := he
    rw [hturn] at hj
    cases hc : s.child i elem with
    | none => simp [hc] at hj
    | some k =>
      rw [hc] at hj
      cases hj
      exact hfull j hc hfit

/-- **`namei` goes along all components.** -/
theorem follow_wp (hs : Tree s) : ∀ (l : List Name) (i : Nat) (name : Name) (t : State), (s.dinode i).type ≠ .free →
    Holds s (some i) t → wp (follow false i l name)
      (fun r v => Roomy s i l ∧ r.map Prod.fst = s.resolve i l ∧ Holds s (r.map Prod.fst) v)
      (fun e => ¬ Roomy s i l ∧ e = .panic "iget: no inodes") t
  | [], _, _, _, _, ht            => ⟨trivial, rfl, ht⟩
  | elem :: l, i, name, t, hty, ht => by
    refine follow_turn hs ht hty (by simp) (fun hc v hv => ?_) (fun j hc hfit v hv => ?_) fun j hc hfit => ?_
    · rw [resolve_cons, hc]
      exact ⟨roomy_cons_none hc l, rfl, hv⟩
    · rw [resolve_cons, hc, roomy_cons hc]
      exact (follow_wp hs l j elem v (hs.child hc) hv).mono (fun r u hu => ⟨⟨hfit, hu.1⟩, hu.2⟩)
        fun e he => ⟨fun h => he.1 h.2, he.2⟩
    · rw [roomy_cons hc]
      exact ⟨fun h => hfit h.1, rfl⟩

/-- **`nameiparent` goes along all components but the last.** -/
theorem follow_parent_wp (hs : Tree s) : ∀ (l : List Name) (i : Nat) (name : Name) (t : State), (s.dinode i).type ≠ .free →
    Holds s (some i) t → wp (follow true i l name)
      (fun r v => Roomy s i l.dropLast ∧ r = s.parent i l ∧ Holds s (r.map Prod.fst) v)
      (fun e => ¬ Roomy s i l.dropLast ∧ e = .panic "iget: no inodes") t
  | [], i, name, t, _, ht                 => by
    obtain ⟨v, hput, hv⟩ := ht.put hs
    unfold follow
    rw [if_pos rfl, wp_bind]
    exact Prog.wp_of_run hput ⟨trivial, rfl, hv⟩
  | [elem], i, name, t, hty, ht           => by
    unfold follow
    rw [wp_bind]
    refine (walk_wp hs ht hty true _ elem).mono (fun w v hw => ?_) fun e he => ?_
    · obtain ⟨rfl, hv, -⟩ := hw
      rw [parent_singleton]
      unfold State.turn at hv ⊢
      by_cases hd : (s.dinode i).type = .dir
      · rw [if_neg (not_not.2 hd), if_pos ⟨rfl, rfl⟩] at hv ⊢
        rw [if_pos hd]
        exact ⟨trivial, rfl, hv⟩
      · rw [if_pos hd] at hv ⊢
        rw [if_neg hd]
        exact ⟨trivial, rfl, hv⟩
    · obtain ⟨-, j, hj, -⟩ := he
      unfold State.turn at hj
      split_ifs at hj with hd hl
      exact absurd ⟨rfl, rfl⟩ hl
  | elem :: elem' :: l, i, name, t, hty, ht => by
    rw [parent_cons, List.dropLast_cons_cons]
    refine follow_turn hs ht hty (by simp) (fun hc v hv => ?_) (fun j hc hfit v hv => ?_) fun j hc hfit => ?_
    · rw [hc]
      exact ⟨roomy_cons_none hc _, rfl, hv⟩
    · rw [hc, roomy_cons hc]
      exact (follow_parent_wp hs (elem' :: l) j elem v (hs.child hc) hv).mono (fun r u hu => ⟨⟨hfit, hu.1⟩, hu.2⟩)
        fun e he => ⟨fun h => he.1 h.2, he.2⟩
    · rw [roomy_cons hc]
      exact ⟨fun h => hfit h.1, rfl⟩

def State.origin (s : State) (p : Nat) (path : Path) : Nat := if path.head? = some slash then rootIno else s.cwd p

theorem Tree.origin (hs : Tree s) {p : Nat} (hty : (s.dinode (s.cwd p)).type ≠ .free) (path : Path) :
    (s.dinode (s.origin p path)).type ≠ .free := by
  unfold State.origin
  split_ifs
  · exact hs.root
  · exact hty

/-- The cache has room for a walk along the names from where the path begins. -/
def Enough (s : State) (p : Nat) (path : Path) (l : List Name) : Prop :=
  (path.head? = some slash → Gettable s rootIno) ∧ Roomy s (s.origin p path) l

theorem start_wp (hs : Tree s) {p : Nat} (hr : 0 < s.refs (s.cwd p)) (path : Path) : wp (start p path)
    (fun i t => i = s.origin p path ∧ Holds s (some i) t ∧ (path.head? = some slash → Gettable s rootIno))
    (fun e => (path.head? = some slash ∧ ¬ Gettable s rootIno) ∧ e = .panic "iget: no inodes") s := by
  unfold start State.origin
  rw [wp_bind, wp_read]
  by_cases hroot : path.head? = some slash
  · have hrun := iget_run s rootIno
    rw [if_pos hroot, if_pos hroot]
    by_cases hget : Gettable s rootIno
    · rw [if_pos hget] at hrun
      have hacct := (iget_moves rootIno).of_run hrun
      refine Prog.wp_of_run hrun ⟨rfl, ⟨got_same hs.good hget, acct_refs hacct, ?_, ?_⟩, fun _ => hget⟩
      · exact (acct_locks hacct).trans (add_zero _)
      · change (if 0 < (s.inode rootIno).ref then s.addRef rootIno else s.recycle rootIno).cached =
          s.cached + if 0 < (s.inode rootIno).ref then 0 else 1
        split_ifs <;> rfl
    · rw [if_neg hget] at hrun
      exact Prog.wp_of_stop hrun ⟨⟨hroot, hget⟩, rfl⟩
  · have hacct := addRef_acct (s := s) (i := s.cwd p)
    rw [if_neg hroot, if_neg hroot]
    refine ⟨rfl, ⟨⟨hs.good.addRef hr, rfl⟩, acct_refs hacct, (acct_locks hacct).trans (add_zero _), ?_⟩,
      fun h => absurd h hroot⟩
    simp [State.entries, hr]
    rfl

theorem namei_wp (hs : Tree s) {p : Nat} (hr : 0 < s.refs (s.cwd p)) (hty : (s.dinode (s.cwd p)).type ≠ .free)
    (path : Path) :
    wp (namei p path) (fun r t => Enough s p path (components path) ∧ r = s.resolve (s.origin p path) (components path) ∧
      Holds s r t) (fun e => ¬ Enough s p path (components path) ∧ e = .panic "iget: no inodes") s := by
  have horigin := hs.origin hty path
  unfold namei namex
  rw [wp_bind, wp_bind]
  refine (start_wp hs hr path).mono (fun i t ht => ?_) fun e he => ⟨fun h => he.1.2 (h.1 he.1.1), he.2⟩
  obtain ⟨rfl, ht, hget⟩ := ht
  rw [namexLoop_eq false _ _ _ _ (Nat.lt_succ_self _)]
  refine (follow_wp hs _ _ _ _ horigin ht).mono (fun r v hv => ?_) fun e he => ⟨fun h => he.1 h.2, he.2⟩
  obtain ⟨hroomy, hres, hv⟩ := hv
  cases r with
  | none => exact ⟨⟨hget, hroomy⟩, hres, hv⟩
  | some r => exact ⟨⟨hget, hroomy⟩, hres, hv⟩

theorem nameiparent_wp (hs : Tree s) {p : Nat} (hr : 0 < s.refs (s.cwd p)) (hty : (s.dinode (s.cwd p)).type ≠ .free)
    (path : Path) : wp (nameiparent p path)
      (fun r t => Enough s p path (components path).dropLast ∧ r = s.parent (s.origin p path) (components path) ∧
        Holds s (r.map Prod.fst) t)
      (fun e => ¬ Enough s p path (components path).dropLast ∧ e = .panic "iget: no inodes") s := by
  have horigin := hs.origin hty path
  unfold nameiparent namex
  rw [wp_bind]
  refine (start_wp hs hr path).mono (fun i t ht => ?_) fun e he => ⟨fun h => he.1.2 (h.1 he.1.1), he.2⟩
  obtain ⟨rfl, ht, hget⟩ := ht
  rw [namexLoop_eq true _ _ _ _ (Nat.lt_succ_self _)]
  exact (follow_parent_wp hs _ _ _ _ horigin ht).mono (fun r v hv => ⟨⟨hget, hv.1⟩, hv.2⟩)
    fun e he => ⟨fun h => he.1 h.2, he.2⟩

theorem namex_congr {path path' : Path} (hhead : path.head? = some slash ↔ path'.head? = some slash)
    (hc : components path = components path') (p : Nat) (parent : Bool) : namex p path parent = namex p path' parent := by
  unfold namex start
  simp only [hhead, namexLoop_eq parent _ _ _ _ (Nat.lt_succ_self _), hc]

theorem child_eq_none {name : Name} : s.child i name = none ↔ (s.dinode i).type ≠ .dir ∨ s.lookup i name = none := by
  unfold State.child
  split_ifs with hd
  · simp [hd]
  · simp [hd]

/-- **Where a walk fails**: at the first that is not a directory or does not have the name. -/
theorem resolve_eq_none (s : State) : ∀ (l : List Name) (i : Nat), s.resolve i l = none ↔
    ∃ pre name post j, l = pre ++ name :: post ∧ s.resolve i pre = some j ∧
      ((s.dinode j).type ≠ .dir ∨ s.lookup j name = none)
  | [], i     => by simp [State.resolve]
  | c :: l, i => by
    rw [resolve_cons]
    cases hc : s.child i c with
    | none => exact iff_of_true rfl ⟨[], c, l, i, rfl, rfl, child_eq_none.1 hc⟩
    | some k =>
      rw [Option.bind_some, resolve_eq_none s l k]
      constructor
      · rintro ⟨pre, name, post, j, rfl, hpre, hj⟩
        exact ⟨c :: pre, name, post, j, rfl, by rw [resolve_cons, hc]; exact hpre, hj⟩
      · rintro ⟨pre, name, post, j, hl, hpre, hj⟩
        cases pre with
        | nil =>
          obtain ⟨rfl, -⟩ := List.cons.inj hl
          cases hpre
          rw [child_eq_none.2 hj] at hc
          cases hc
        | cons d pre =>
          obtain ⟨rfl, rfl⟩ := List.cons.inj hl
          rw [resolve_cons, hc] at hpre
          exact ⟨pre, name, post, j, rfl, hpre, hj⟩

theorem parent_eq_none (s : State) (i : Nat) (l : List Name) : s.parent i l = none ↔
    l = [] ∨ s.resolve i l.dropLast = none ∨ ∃ j, s.resolve i l.dropLast = some j ∧ (s.dinode j).type ≠ .dir := by
  unfold State.parent
  cases l with
  | nil => simp
  | cons c l =>
    rw [List.getLast?_cons]
    cases s.resolve i (c :: l).dropLast with
    | none => simp
    | some j => by_cases hd : (s.dinode j).type = .dir <;> simp [hd]

/-- **Path resolution follows the component list**, and panics where the cache has no room for an inode on the way: `namei`
returns the inode that the components lead to, `nameiparent` the directory that all but the last lead to, with the last; both
fail where one on the way is not a directory or does not have the name; and slashes do not count beyond the one in front. -/
theorem path_components (hs : Tree s) {p : Nat} (hr : 0 < s.refs (s.cwd p)) (hty : (s.dinode (s.cwd p)).type ≠ .free) :
    (∀ path, wp (namei p path)
      (fun r t => Enough s p path (components path) ∧ r = s.resolve (s.origin p path) (components path) ∧ Holds s r t)
      (fun e => ¬ Enough s p path (components path) ∧ e = .panic "iget: no inodes") s) ∧
    (∀ path, wp (nameiparent p path)
      (fun r t => Enough s p path (components path).dropLast ∧ r = s.parent (s.origin p path) (components path) ∧
        Holds s (r.map Prod.fst) t)
      (fun e => ¬ Enough s p path (components path).dropLast ∧ e = .panic "iget: no inodes") s) ∧
    (∀ i l, s.resolve i l = none ↔ ∃ pre name post j, l = pre ++ name :: post ∧ s.resolve i pre = some j ∧
      ((s.dinode j).type ≠ .dir ∨ s.lookup j name = none)) ∧
    (∀ i l, s.parent i l = none ↔ l = [] ∨ s.resolve i l.dropLast = none ∨
      ∃ j, s.resolve i l.dropLast = some j ∧ (s.dinode j).type ≠ .dir) ∧
    (∀ path path' parent, namex p (path ++ slash :: slash :: path') parent = namex p (path ++ slash :: path') parent) ∧
    ∀ path parent, path ≠ [] → namex p (path ++ [slash]) parent = namex p path parent := by
  refine ⟨namei_wp hs hr hty, nameiparent_wp hs hr hty, fun i l => resolve_eq_none s l i, parent_eq_none s,
    fun path path' parent => namex_congr ?_ ?_ p parent, fun path parent hne => namex_congr ?_ ?_ p parent⟩
  · cases path <;> simp
  · rw [components_append, components_append, components_cons]
  · cases path with
    | nil => exact absurd rfl hne
    | cons b l => simp
  · rw [components_append]
    exact List.append_nil _

theorem empty_tree (hb : s.bit = bareDisk.bit) (ha : ∀ i k, (s.dinode i).addrs k = 0) (hsize : ∀ i, (s.dinode i).size = 0)
    (hv : ∀ i, (s.inode i).valid = false) (hl : ∀ i, (s.inode i).locked = false) (hroot : (s.dinode rootIno).type ≠ .free)
    (hn : ∀ i, (s.dinode i).type ≠ .free → (s.dinode i).nlink ≠ 0) (hr : ∀ i, 0 ≤ s.refs i) : Tree s := by
  have hnone : ∀ p, s.onDisk p = 0 := fun p => onDisk_empty (ha p.inum) rfl
  have hbare : ∀ p, bareDisk.onDisk p = 0 := fun p => onDisk_empty (bareDisk_addrs p.inum) rfl
  have hon : s.onDisk = bareDisk.onDisk := funext fun p => (hnone p).trans (hbare p).symm
  refine ⟨⟨?_, fun i _ n hlt => ?_, fun i _ h => ?_, fun i h => ?_⟩, fun i _ => ?_, fun i _ name j off hf => ?_, hroot,
    fun i hf h0 => absurd h0 (hn i hf), hr, hl⟩
  · rw [hb, hon]
    exact bareDisk_good.exact
  · rw [hsize] at hlt
    exact absurd hlt (Nat.not_lt_zero _)
  · rw [hv i] at h
    cases h
  · rw [hl i] at h
    cases h
  · rw [hsize]
    rfl
  · unfold State.lookup at hf
    rw [hsize] at hf
    cases hf

theorem bareDisk_nlink (i : Nat) : (bareDisk.dinode i).type ≠ .free → (bareDisk.dinode i).nlink ≠ 0 := by
  show (if i = rootIno then _ else Dinode.zero).type ≠ .free → (if i = rootIno then _ else Dinode.zero).nlink ≠ 0
  split_ifs
  · exact fun _ => by decide
  · exact fun h => absurd rfl h

theorem bareDisk_tree : Tree bareDisk := by
  refine empty_tree rfl bareDisk_addrs bareDisk_size (fun _ => rfl) (fun _ => rfl) (by decide) bareDisk_nlink fun i => ?_
  show 0 ≤ if i = rootIno then (1 : Int) else 0
  split_ifs <;> decide

variable {n cached : Nat} {e : Nat → List Dirent} {refs : Nat → Int}

theorem directories_tree (hn : nmeta + n ≤ fsSize) (hl : ∀ i, (e i).length ≤ 32) (hr : ∀ i, 0 ≤ refs i) (h1 : 1 ≤ n)
    (hnamed : ∀ i, 1 ≤ i → i ≤ n → ∀ off ∈ offsets ((directories n e refs cached).dinode i).size,
      ((directories n e refs cached).direntAt i off).inum ≠ 0 → 
        ((directories n e refs cached).dinode ((directories n e refs cached).direntAt i off).inum.toNat).type = .dir) :
    Tree (directories n e refs cached) := by
  obtain ⟨s, hs⟩ : ∃ s, s = directories n e refs cached := ⟨_, rfl⟩
  rw [← hs] at hnamed ⊢
  have hd : ∀ i, s.dinode i = if 1 ≤ i ∧ i ≤ n then ⟨.dir, 0, 0, 1, BitVec.ofNat 32 (16 * (e i).length), fun k =>
      if k = 0 then BitVec.ofNat 32 (nmeta + i - 1) else 0⟩ else Dinode.zero := fun i => by rw [hs]; rfl
  have hin : ∀ i, (s.dinode i).type ≠ .free → 1 ≤ i ∧ i ≤ n := fun i hi => by
    by_contra hno
    rw [hd, if_neg hno] at hi
    exact hi rfl
  have hdir : ∀ i, (s.dinode i).type = .dir → 1 ≤ i ∧ i ≤ n := fun i hi => hin i (by rw [hi]; decide)
  refine ⟨by rw [hs]; exact directories_good hn hl, fun i hi => ?_, fun i hi name j off hf => ?_, ?_, fun i hi h0 => ?_,
    fun i => by rw [hs]; exact hr i, fun i => by rw [hs]; rfl⟩
  · rw [hd, if_pos (hdir i hi)]
    have := hl i
    show (BitVec.ofNat 32 (16 * (e i).length)).toNat % 16 = 0
    rw [BitVec.toNat_ofNat]
    omega
  · unfold State.lookup at hf
    obtain ⟨o, ho, he⟩ := Option.map_eq_some_iff.1 hf
    obtain ⟨rfl, rfl⟩ := Prod.mk.inj he
    have htest := List.find?_some ho
    rw [Bool.and_eq_true, decide_eq_true_eq] at htest
    rw [hnamed i (hdir i hi).1 (hdir i hi).2 o (List.mem_of_find?_eq_some ho) htest.1]
    decide
  · rw [hd, if_pos ⟨Nat.le_refl 1, h1⟩]
    exact fun h => by cases h
  · rw [hd, if_pos (hin i hi)] at h0
    exact absurd h0 (show (1#16) ≠ 0 by decide)

theorem nested_tree : Tree nested := by
  refine directories_tree (by decide) nestedEntries_length (fun i => ?_) (by decide) fun i h1 h3 => ?_
  · split_ifs <;> decide
  · revert i
    decide +kernel

theorem roomy_of_lt {s : State} (h : s.cached + 1 < ninode) : ∀ (l : List Name) (i : Nat), Roomy s i l
  | [], _        => trivial
  | name :: l, i => by
    unfold Roomy
    cases s.child i name with
    | none => trivial
    | some j =>
      have hle : s.entries (some i) ≤ 1 := by
        show (if 0 < s.refs i then 0 else 1) ≤ 1
        split_ifs <;> decide
      exact ⟨.inr (.inr (by omega)), roomy_of_lt h l j⟩

/-- `/d/./f` is a directory, `/d/x` is nothing, and `/d/x` is to be made in `/d`. -/
theorem nested_components :
    ((namei 0 [slash, 100, slash, 46, slash, 102] nested).res = .ok (some 3) ∧
      Holds nested (some 3) (namei 0 [slash, 100, slash, 46, slash, 102] nested).st) ∧
    ((namei 0 [slash, 100, slash, 120] nested).res = .ok none ∧
      Holds nested none (namei 0 [slash, 100, slash, 120] nested).st) ∧
    (nameiparent 0 [slash, 100, slash, 120] nested).res = .ok (some (2, [120])) ∧
      Holds nested (some 2) (nameiparent 0 [slash, 100, slash, 120] nested).st := by
  obtain ⟨s, hs⟩ : ∃ s, s = nested := ⟨_, rfl⟩
  have hcwd : s.cwd 0 = rootIno := by rw [hs]; rfl
  have hroot : 0 < s.refs rootIno := by rw [hs]; decide
  have hty : (s.dinode rootIno).type ≠ .free := by rw [hs]; decide
  have hcached : s.cached + 1 < ninode := by rw [hs]; decide
  have h3 : s.resolve (s.origin 0 [slash, 100, slash, 46, slash, 102]) (components [slash, 100, slash, 46, slash, 102]) =
      some 3 := by
    rw [hs]
    decide +kernel
  have h0 : s.resolve (s.origin 0 [slash, 100, slash, 120]) (components [slash, 100, slash, 120]) = none := by
    rw [hs]
    decide +kernel
  have h2 : s.parent (s.origin 0 [slash, 100, slash, 120]) (components [slash, 100, slash, 120]) = some (2, [120]) := by
    rw [hs]
    decide +kernel
  have htree : Tree s := hs ▸ nested_tree
  rw [← hs]
  obtain ⟨hnamei, hparent, -⟩ := path_components htree (p := 0) (by rwa [hcwd]) (by rwa [hcwd])
  have henough : ∀ path l, Enough s 0 path l := fun _ _ => ⟨fun _ => .inl hroot, roomy_of_lt hcached _ _⟩
  have hends : ∀ {α : Type} {c : F α} {Q : α → State → Prop} {path : Path} {l : List Name},
      wp c Q (fun e => ¬ Enough s 0 path l ∧ e = .panic "iget: no inodes") s →
        ∃ a, (c s).res = .ok a ∧ Q a (c s).st := fun h =>
    (h.mono (fun _ _ hq => hq) fun e he => he.1 (henough _ _)).returns
  obtain ⟨_, hrun₁, -, ha, hholds₁⟩ := hends (hnamei [slash, 100, slash, 46, slash, 102])
  obtain ⟨_, hrun₂, -, hb, hholds₂⟩ := hends (hnamei [slash, 100, slash, 120])
  obtain ⟨_, hrun₃, -, hc, hholds₃⟩ := hends (hparent [slash, 100, slash, 120])
  rw [h3] at ha
  rw [h0] at hb
  rw [h2] at hc
  subst ha hb hc
  exact ⟨⟨hrun₁, hholds₁⟩, ⟨hrun₂, hholds₂⟩, hrun₃, hholds₃⟩

/-- 52 directories, of which the root has the last as `d`. -/
def crowdedEntries : Nat → List Dirent
  | 1 => [⟨1, dot⟩, ⟨1, dotDot⟩, ⟨52, [100]⟩]
  | i => [⟨BitVec.ofNat 16 i, dot⟩, ⟨1, dotDot⟩]

/-- The first 50 are referred to, the root as the current directory of every process. -/
def crowded : State := directories 52 crowdedEntries (fun i => if 1 ≤ i ∧ i ≤ 50 then 1 else 0) 50

theorem crowded_panics : Tree crowded ∧ 0 < crowded.refs (crowded.cwd 0) ∧ (crowded.dinode (crowded.cwd 0)).type = .dir ∧
    crowded.resolve (crowded.origin 0 [slash, 100]) (components [slash, 100]) = some 52 ∧
    (namei 0 [slash, 100] crowded).res = .error (.panic "iget: no inodes") := by
  refine ⟨directories_tree (by decide) (fun i => ?_) (fun i => ?_) (by decide) fun i h1 h3 => ?_, by decide, by decide,
    by decide +kernel, ?_⟩
  · unfold crowdedEntries
    split <;> simp
  · split_ifs <;> decide
  · revert i
    decide +kernel
  · rfl

end Files
end Xv6
