import Xv6.Files.Icache
/-!
# Files.Inodes — the inode cache is a memory of inodes (fs.c)

What the callers see are the events of a memory of locked cells, one for each inode.  `ialloc` takes a cell that is free,
`iput` gives one back that has no links.
-/
namespace Xv6
namespace Icache

open Files (Dinode FileType)

variable {m n : Nat} {s t : Sys m n} {i j : Fin n} {p q : Fin m} {k : Key} {w : Pc n}

abbrev Cells (m : Nat) := Locked (Fin m) Key Dinode

def Event.locked : Event m → List (LockedEvent (Fin m) Key Dinode)
  | .got p k d      => [.got p k d]
  | .store p k d    => [.store p k d]
  | .release p k    => [.release p k]
  | .alloc p k d d' => [.got p k d, .store p k d', .release p k]
  | .free p k d     => [.store p k d, .release p k]

/-- What an event says of the inodes as they are before it. -/
def Event.Fits (cell : Key → Dinode) : Event m → Prop
  | .got _ k d      => cell k = d ∧ d.type ≠ .free
  | .store _ k d    => (cell k).type ≠ .free ∧ d.type ≠ .free
  | .release _ k    => (cell k).type ≠ .free
  | .alloc _ k d d' => cell k = d ∧ d.type = .free ∧ d'.type ≠ .free
  | .free _ k d     => (cell k).type ≠ .free ∧ (cell k).nlink = 0 ∧ d.type = .free

inductive Ran (M : Cells m) : List (Event m) → Cells m → Prop where
  | nil : Ran M [] M
  | snoc {es : List (Event m)} {e : Event m} {N N' : Cells m} (h : Ran M es N) (hfits : e.Fits N.cell)
      (he : N.Run e.locked N') :
    Ran M (es ++ [e]) N'

/-- The entry that the call has the lock of, but not the inode. -/
def Pc.without : Pc n → Option (Fin n)
  | .loading i | .checking i | .freed i | .leaving i => some i
  | _                                                => none

def Sys.Has (s : Sys m n) (p : Fin m) (i : Fin n) : Prop := s.holder i = some p ∧ (s.pc p).without ≠ some i

structure Stored (s : Sys m n) (M : Cells m) : Prop where
  cell : M.cell = s.disk
  held : ∀ k p, M.held k = some p ↔ ∃ i, s.Has p i ∧ (s.entry i).key = k

theorem Inv.has_pos (h : Inv s) (hp : s.Has p i) : 0 < (s.entry i).ref := h.pos (h.owner i p hp.1)

theorem Inv.has_inj (h : Inv s) (hi : 0 < (s.entry i).ref) (hq : s.Has q j)
    (he : (s.entry j).key = (s.entry i).key) : j = i :=
  h.unique j i (h.has_pos hq) hi he

/-! ## Who has what -/

theorem has_goto : (s.goto p w).Has q j ↔ s.holder j = some q ∧ (if q = p then w else s.pc q).without ≠ some j := by
  by_cases hq : q = p
  · rw [hq, if_pos rfl, Sys.Has, goto_pc_self]
    rfl
  · rw [if_neg hq, Sys.Has, goto_pc_other hq]
    rfl

theorem has_same (hw : w.without = (s.pc p).without) : (s.goto p w).Has q j ↔ s.Has q j := by
  rw [has_goto]
  by_cases hq : q = p
  · rw [if_pos hq, hw, hq]
    rfl
  · rw [if_neg hq]
    rfl

theorem has_enter (hh : s.holder i = some p) (hp : (s.pc p).without = some i) (hw : w.without = none) :
    (s.goto p w).Has q j ↔ s.Has q j ∨ q = p ∧ j = i := by
  rw [has_goto, Sys.Has]
  by_cases hq : q = p
  · rw [if_pos hq, hq, hp, hw]
    by_cases hj : j = i
    · rw [hj]
      simp [hh]
    · simp [hj, Ne.symm hj]
  · simp [hq]

theorem has_exit (hh : s.holder i = some p) (hp : (s.pc p).without = none) (hw : w.without = some i) :
    (s.goto p w).Has q j ↔ s.Has q j ∧ j ≠ i := by
  rw [has_goto, Sys.Has]
  by_cases hq : q = p
  · rw [if_pos hq, hq, hp, hw]
    simp [eq_comm]
  · rw [if_neg hq, and_assoc, and_congr_right_iff]
    intro hj
    have hne : j ≠ i := fun e => hq (Option.some.inj ((e ▸ hj).symm.trans hh))
    simp [hne]

theorem has_lock (hfree : s.holder i = none) (hp : (s.pc p).without = none) (hw : w.without = none ∨ w.without = some i) :
    ((s.setHolder i (some p)).goto p w).Has q j ↔ s.Has q j ∨ w.without = none ∧ q = p ∧ j = i := by
  rw [has_goto, Sys.Has]
  by_cases hj : j = i
  · rw [hj, setHolder_self, hfree]
    by_cases hq : q = p
    · rcases hw with hw | hw <;> simp [hq, hw]
    · simp [hq, Ne.symm hq]
  · rw [setHolder_other hj]
    by_cases hq : q = p
    · rw [if_pos hq, hq, hp]
      rcases hw with hw | hw <;> simp [hw, hj, Ne.symm hj]
    · simp only [hq, hj, if_false, and_false, or_false]
      rfl

theorem has_unlock (hp : (s.pc p).without = none ∨ (s.pc p).without = some i) (hw : w.without = none) :
    ((s.setHolder i none).goto p w).Has q j ↔ s.Has q j ∧ j ≠ i := by
  rw [has_goto, Sys.Has]
  by_cases hj : j = i
  · rw [hj, setHolder_self]
    simp
  · rw [setHolder_other hj]
    by_cases hq : q = p
    · rw [if_pos hq, hq, hw]
      rcases hp with hp | hp <;> simp [hp, hj, Ne.symm hj]
    · simp only [hq, if_false, ne_eq, hj, not_false_eq_true, and_true]
      rfl

/-! ## The cells after a step -/

variable {M : Cells m}

theorem Stored.keep (hM : Stored s M) (hdisk : t.disk = s.disk) (hhas : ∀ q j, t.Has q j ↔ s.Has q j)
    (hkey : ∀ q j, s.Has q j → (t.entry j).key = (s.entry j).key) : Stored t M where
  cell := hM.cell.trans hdisk.symm
  held k q := by
    rw [hM.held]
    refine exists_congr fun j => ?_
    rw [hhas]
    exact and_congr_right fun hj => by rw [hkey q j hj]

theorem Stored.gain (h : Inv s) (hM : Stored s M) (hi : 0 < (s.entry i).ref) (hno : ∀ q, ¬ s.Has q i)
    (hdisk : t.disk = s.disk)
    (hhas : ∀ q j, t.Has q j ↔ s.Has q j ∨ q = p ∧ j = i) (hkey : ∀ j, (t.entry j).key = (s.entry j).key) :
    ∃ M', M.Run [.got p (s.entry i).key (s.onDisk i)] M' ∧ Stored t M' := by
  have hheld : M.held (s.entry i).key = none := by
    cases hq : M.held (s.entry i).key with
    | none => rfl
    | some q =>
      obtain ⟨j, hj, hk⟩ := (hM.held _ q).1 hq
      exact absurd (h.has_inj hi hj hk ▸ hj) (hno q)
  have hstep := Locked.Step.got (s := M) p hheld
  rw [show M.cell (s.entry i).key = s.onDisk i from congrFun hM.cell _] at hstep
  refine ⟨_, .snoc (.nil _) hstep, hM.cell.trans hdisk.symm, fun k q => ?_⟩
  simp only [hhas, hkey]
  by_cases hk : k = (s.entry i).key
  · subst hk
    rw [Function.update_self]
    constructor
    · exact fun e => ⟨i, .inr ⟨(Option.some.inj e).symm, rfl⟩, rfl⟩
    · rintro ⟨j, hj | ⟨rfl, -⟩, hk⟩
      · exact absurd (h.has_inj hi hj hk ▸ hj) (hno q)
      · rfl
  · rw [Function.update_of_ne hk, hM.held]
    constructor
    · exact fun ⟨j, hj, he⟩ => ⟨j, .inl hj, he⟩
    · rintro ⟨j, hj | ⟨-, rfl⟩, he⟩
      · exact ⟨j, hj, he⟩
      · exact absurd he.symm hk

theorem Stored.lose (hM : Stored s M) (hp : s.Has p i) (hone : ∀ q j, s.Has q j → (s.entry j).key = (s.entry i).key → j = i)
    (hdisk : t.disk = s.disk) (hhas : ∀ q j, t.Has q j ↔ s.Has q j ∧ j ≠ i) (hkey : ∀ j, (t.entry j).key = (s.entry j).key) :
    ∃ M', M.Run [.release p (s.entry i).key] M' ∧ Stored t M' := by
  refine ⟨_, .snoc (.nil _) (.release ((hM.held _ p).2 ⟨i, hp, rfl⟩)), hM.cell.trans hdisk.symm, fun k q => ?_⟩
  simp only [hhas, hkey]
  by_cases hk : k = (s.entry i).key
  · subst hk
    rw [Function.update_self]
    refine iff_of_false nofun ?_
    rintro ⟨j, ⟨hj, hne⟩, he⟩
    exact hne (hone q j hj he)
  · rw [Function.update_of_ne hk, hM.held]
    refine exists_congr fun j => ?_
    constructor
    · exact fun ⟨hj, he⟩ => ⟨⟨hj, fun e => hk (e ▸ he.symm)⟩, he⟩
    · exact fun ⟨hj, he⟩ => ⟨hj.1, he⟩

theorem Stored.store {d : Dinode} (hM : Stored s M) (hp : s.Has p i)
    (hdisk : t.disk = Function.update s.disk (s.entry i).key d)
    (hhas : ∀ q j, t.Has q j ↔ s.Has q j) (hkey : ∀ j, (t.entry j).key = (s.entry j).key) :
    ∃ M', M.Run [.store p (s.entry i).key d] M' ∧ Stored t M' := by
  refine ⟨_, .snoc (.nil _) (.store d ((hM.held _ p).2 ⟨i, hp, rfl⟩)), ?_, fun k q => ?_⟩
  · rw [hdisk, ← hM.cell]
  · simp only [hhas, hkey]
    exact hM.held k q

theorem Stored.typed (hM : Stored s M) (hi : (s.onDisk i).type ≠ .free) : (M.cell (s.entry i).key).type ≠ .free := by
  rwa [hM.cell]

theorem Stored.quiet (hM : Stored t M) (htrace : t.trace = s.trace) : ∃ M', Stored t M' ∧
    (t.trace = s.trace ∧ M' = M ∨ ∃ e, t.trace = s.trace ++ [e] ∧ M.Run e.locked M' ∧ e.Fits M.cell) :=
  ⟨M, hM, .inl ⟨htrace, rfl⟩⟩

theorem Stored.seen {e : Event m} (hM : ∃ M', M.Run e.locked M' ∧ Stored t M') (hfits : e.Fits M.cell) :
    ∃ M', Stored (t.emit e) M' ∧ ((t.emit e).trace = t.trace ∧ M' = M ∨
      ∃ e', (t.emit e).trace = t.trace ++ [e'] ∧ M.Run e'.locked M' ∧ e'.Fits M.cell) := by
  obtain ⟨M', hrun, hM'⟩ := hM
  exact ⟨M', ⟨hM'.cell, hM'.held⟩, .inr ⟨e, rfl, hrun, hfits⟩⟩

theorem Stored.take {e : Entry} (h : Inv s) (hM : Stored s M) (hp : (s.pc p).without = none)
    (hkey : 0 < (s.entry i).ref → e.key = (s.entry i).key) : Stored (s.take p i e) M := by
  refine hM.keep rfl (fun q j => has_same (s := (s.setEntry i e).setRefs p _) hp.symm) fun q j hj => ?_
  by_cases hji : j = i
  · rw [hji, take_entry_self]
    exact hkey (hji ▸ h.has_pos hj)
  · rw [take_entry_other hji]

theorem Stored.iget (h : Inv s) (hM : Stored s M) (hp : (s.pc p).without = none) (ht : s.iget p k = .ok t) :
    Stored t M ∧ t.trace = s.trace := by
  unfold Sys.iget at ht
  split at ht
  · cases ht
    exact ⟨hM.take h hp fun _ => rfl, rfl⟩
  · split at ht
    · cases ht
    · rename_i i hfind
      rw [Fin.find?_eq_some_iff] at hfind
      have hzero := of_decide_eq_true hfind.1
      cases ht
      exact ⟨hM.take h hp fun hpos => absurd hpos (by omega), rfl⟩

theorem setEntry_key {e : Entry} (hi : e.key = (s.entry i).key) : ((s.setEntry i e).entry j).key = (s.entry j).key := by
  by_cases hj : j = i
  · rw [hj, setEntry_self, hi]
  · rw [setEntry_other hj]

theorem Stored.next (h : Inv s) (hM : Stored s M) (ht : s.next p = .ok t) : ∃ M', Stored t M' ∧
    (t.trace = s.trace ∧ M' = M ∨ ∃ e, t.trace = s.trace ++ [e] ∧ M.Run e.locked M' ∧ e.Fits M.cell) := by
  have hat := h.place p
  unfold Sys.At at hat
  unfold Sys.next at ht
  cases hp : s.pc p with
  | out =>
    rw [hp] at ht
    cases ht
    exact hM.quiet rfl
  | allocated k =>
    rw [hp] at ht
    obtain ⟨hM', htrace⟩ := hM.iget h (by rw [hp]; rfl) ht
    exact hM'.quiet htrace
  | locking i =>
    have hout : (s.pc p).without = none := by rw [hp]; rfl
    rw [hp] at ht hat
    simp only at ht
    split at ht
    · cases ht
      exact hM.quiet rfl
    · rename_i hfree
      rw [not_not] at hfree
      have hpos := h.pos hat
      split at ht
      · rename_i hv
        cases ht
        obtain ⟨hmem, htype⟩ := (content_free hfree).1 (h.content i hpos) hv
        rw [hmem]
        exact Stored.seen (hM.gain h hpos (fun q hq => nomatch hfree.symm.trans hq.1) rfl
          (fun q j => (has_lock hfree hout (.inl rfl)).trans (or_congr_right (and_iff_right rfl)))
          fun _ => rfl) ⟨congrFun hM.cell _, htype⟩
      · cases ht
        refine (hM.keep (t := (s.setHolder i (some p)).goto p (.loading i)) rfl (fun q j => ?_) fun _ _ _ => rfl).quiet rfl
        exact (has_lock hfree hout (.inr rfl)).trans (or_iff_left fun e => nomatch e.1)
  | loading i =>
    obtain ⟨hh, -, -⟩ := h.at_call hp rfl
    have hl : (s.pc p).without = some i := by rw [hp]; rfl
    rw [hp] at ht
    simp only at ht
    split at ht
    · cases ht
    · rename_i htype
      cases ht
      refine Stored.seen (hM.gain h (h.pos (h.owner i p hh)) (fun q hq => ?_) rfl
        (fun q j => has_enter (s := s.setEntry i _) hh hl rfl) fun j => ?_) ⟨congrFun hM.cell _, htype⟩
      · obtain rfl := Option.some.inj (hq.1.symm.trans hh)
        exact hq.2 hl
      · exact setEntry_key rfl
  | putting i =>
    have hout : (s.pc p).without = none := by rw [hp]; rfl
    rw [hp] at ht hat
    simp only at ht
    split at ht
    · cases ht
      exact hM.quiet rfl
    · rename_i hfree
      rw [not_not] at hfree
      have hlock : ∀ w : Pc n, w.without = some i → Stored ((s.setHolder i (some p)).goto p w) M := fun w hw =>
        hM.keep rfl (fun q j => (has_lock hfree hout (.inr hw)).trans (or_iff_left fun e => nomatch hw.symm.trans e.1))
          fun _ _ _ => rfl
      split at ht
      · cases ht
        exact (hlock (.checking i) rfl).quiet rfl
      · cases ht
        exact (hlock (.leaving i) rfl).quiet rfl
  | checking i =>
    obtain ⟨hh, ⟨-, hclean, -⟩, -⟩ := h.at_call hp rfl
    have hl : (s.pc p).without = some i := by rw [hp]; rfl
    rw [hp] at ht
    simp only at ht
    split at ht
    · cases ht
      rw [hclean.1]
      refine Stored.seen (hM.gain h (h.pos (h.owner i p hh)) (fun q hq => ?_) rfl (fun q j => has_enter hh hl rfl)
        fun _ => rfl) ⟨congrFun hM.cell _, hclean.2⟩
      obtain rfl := Option.some.inj (hq.1.symm.trans hh)
      exact hq.2 hl
    · cases ht
      exact (hM.keep (t := s.goto p (.leaving i)) rfl (fun q j => has_same hl.symm) fun _ _ _ => rfl).quiet rfl
  | truncating i =>
    obtain ⟨hh, ⟨htyped, -⟩, -⟩ := h.at_call hp rfl
    have hl : (s.pc p).without = none := by rw [hp]; rfl
    rw [hp] at ht
    cases ht
    exact Stored.seen (hM.store ⟨hh, by rw [hl]; nofun⟩ write_disk
      (fun q j => has_same (s := (s.setEntry i _).update i) hl.symm) fun j => setEntry_key rfl)
      ⟨hM.typed htyped.2.2, htyped.2.1⟩
  | freeing i =>
    obtain ⟨hh, ⟨htyped, -, hlink, -⟩, -⟩ := h.at_call hp rfl
    have hl : (s.pc p).without = none := by rw [hp]; rfl
    rw [hp] at ht
    cases ht
    have hhas : s.Has p i := ⟨hh, by rw [hl]; nofun⟩
    have hkey : ∀ j, (((s.setEntry i { s.entry i with d := { (s.entry i).d with type := .free } }).update i).entry j).key =
        (s.entry j).key := fun j => setEntry_key rfl
    -- the inode goes to the disk as a free one, then to nobody
    obtain ⟨M₁, hrun₁, hM₁⟩ := hM.store
      (t := (s.setEntry i { s.entry i with d := { (s.entry i).d with type := .free } }).update i)
      hhas (write_disk (p := p) (w := .out)) (fun _ _ => Iff.rfl) hkey
    obtain ⟨M₂, hrun₂, hM₂⟩ := hM₁.lose (t := Sys.goto _ p (.freed i)) hhas
      (fun q j hq he => h.has_inj (h.has_pos hhas) hq (by rwa [hkey, hkey] at he)) rfl
      (fun q j => has_exit (s := (s.setEntry i _).update i) hh hl rfl) fun _ => rfl
    refine Stored.seen (e := .free p (s.entry i).key { (s.entry i).d with type := .free }) ⟨M₂, hrun₁.append ?_, hM₂⟩ ?_
    · rwa [hkey] at hrun₂
    · rw [Event.Fits, hM.cell]
      exact ⟨htyped.2.2, hlink, rfl⟩
  | freed i =>
    have hl : (s.pc p).without = some i := by rw [hp]; rfl
    rw [hp] at ht
    cases ht
    exact (hM.keep (t := (s.setEntry i { s.entry i with valid := false }).goto p (.leaving i)) rfl
      (fun q j => has_same (s := s.setEntry i _) hl.symm) fun _ _ _ => setEntry_key rfl).quiet rfl
  | leaving i =>
    have hl : (s.pc p).without = some i := by rw [hp]; rfl
    obtain ⟨hh, -, -⟩ := h.at_call hp rfl
    rw [hp] at ht
    cases ht
    refine (hM.keep (t := (s.setHolder i none).goto p (.dropping i)) rfl (fun q j => ?_) fun _ _ _ => rfl).quiet rfl
    refine (has_unlock (.inr hl) rfl).trans (and_iff_left_of_imp fun hq => ?_)
    rintro rfl
    obtain rfl := Option.some.inj (hq.1.symm.trans hh)
    exact hq.2 hl
  | dropping i =>
    have hl : (s.pc p).without = none := by rw [hp]; rfl
    rw [hp] at ht
    cases ht
    exact (hM.keep (t := ((s.setEntry i { s.entry i with ref := (s.entry i).ref - 1 }).setRefs p _).goto p .out) rfl
      (fun q j => has_same (s := (s.setEntry i _).setRefs p _) hl.symm) fun _ _ _ => setEntry_key rfl).quiet rfl

theorem Stored.step {a : Act m n} (h : Inv s) (hM : Stored s M) (ha : a.allowed s) (ht : s.step a = .ok t) :
    ∃ M', Stored t M' ∧
    (t.trace = s.trace ∧ M' = M ∨ ∃ e, t.trace = s.trace ++ [e] ∧ M.Run e.locked M' ∧ e.Fits M.cell) := by
  cases a with
  | next p => exact hM.next h ht
  | iget p k =>
    simp only [Sys.step] at ht
    split at ht
    · rename_i hp
      obtain ⟨hM', htrace⟩ := hM.iget h (by rw [hp]; rfl) ht
      exact hM'.quiet htrace
    · cases ht
      exact hM.quiet rfl
  | ialloc p k type =>
    simp only [Sys.step] at ht
    split at ht
    · rename_i hp
      cases ht
      have hheld : M.held k = none := by
        cases hq : M.held k with
        | none => rfl
        | some q =>
          obtain ⟨i, hi, rfl⟩ := (hM.held _ q).1 hq
          have hd := (h.gone i (.inl hp.2)).2 q (h.owner i q hi.1)
          have hat := h.place q
          unfold Sys.At at hat
          cases hw : s.pc q with
          | dropping j =>
            rw [hw] at hd hat
            cases hd
            exact absurd hi.1 hat.2
          | _ =>
            rw [hw] at hd
            first
              | cases hd; done
              | exact absurd (hw ▸ hd) hi.2
      have hrun := Locked.Run.visit M p { Dinode.zero with type := type } hheld
      rw [show M.cell k = s.disk k from congrFun hM.cell k] at hrun
      refine Stored.seen (t := (s.setDisk k _).goto p (.allocated k)) (e := .alloc p k (s.disk k) _)
        ⟨_, hrun, ?_, fun l q => ?_⟩ ⟨congrFun hM.cell k, hp.2, ha⟩
      · exact congrArg (Function.update · k _) hM.cell
      · refine (hM.held l q).trans (exists_congr fun j => and_congr_left fun _ => ?_)
        exact (has_same (s := s.setDisk k _) (by rw [show (s.setDisk k _).pc p = s.pc p from rfl, hp.1]; rfl)).symm
    · cases ht
      exact hM.quiet rfl
  | idup p i =>
    simp only [Sys.step] at ht
    split at ht
    · rename_i hp
      cases ht
      exact (hM.take (e := { s.entry i with ref := (s.entry i).ref + 1 }) h (by rw [hp.1]; rfl) fun _ => rfl).quiet rfl
    · cases ht
      exact hM.quiet rfl
  | ilock p i =>
    simp only [Sys.step] at ht
    split at ht
    · rename_i hp
      split at ht
      · cases ht
      · cases ht
        exact (hM.keep (t := s.goto p (.locking i)) rfl (fun q j => has_same (by rw [hp.1]; rfl)) fun _ _ _ => rfl).quiet rfl
    · cases ht
      exact hM.quiet rfl
  | iput p i =>
    simp only [Sys.step] at ht
    split at ht
    · rename_i hp
      cases ht
      exact (hM.keep (t := s.goto p (.putting i)) rfl (fun q j => has_same (by rw [hp.1]; rfl)) fun _ _ _ => rfl).quiet rfl
    · cases ht
      exact hM.quiet rfl
  | iunlock p i =>
    simp only [Sys.step] at ht
    split at ht
    · rename_i hp
      split at ht
      · cases ht
      · rename_i hh
        rw [not_or, not_not] at hh
        cases ht
        have hhas : s.Has p i := ⟨hh.1, by simp [hp.1, Pc.without]⟩
        have hlose := hM.lose (t := (s.setHolder i none).goto p .out) hhas (fun q j hq => h.has_inj (h.has_pos hhas) hq) rfl
          (fun q j => has_unlock (.inl (by rw [hp.1]; rfl)) rfl) fun _ => rfl
        rw [← hp.1, show (s.setHolder i none).goto p (s.pc p) = _ from goto_same (s.setHolder i none) p] at hlose
        exact Stored.seen hlose (hM.typed (h.held hp.1 hh.1).2.2)
    · cases ht
      exact hM.quiet rfl
  | edit p i d =>
    simp only [Sys.step] at ht
    split at ht
    · cases ht
      exact (hM.keep (t := s.setEntry i { s.entry i with d := d }) rfl (fun _ _ => Iff.rfl)
        fun _ _ _ => setEntry_key rfl).quiet rfl
    · cases ht
      exact hM.quiet rfl
  | iupdate p i =>
    simp only [Sys.step] at ht
    split at ht
    · rename_i hp
      cases ht
      exact Stored.seen (hM.store ⟨hp.2, by simp [hp.1, Pc.without]⟩ rfl (fun _ _ => Iff.rfl) fun _ => rfl)
        ⟨hM.typed (h.held hp.1 hp.2).2.2, (h.held hp.1 hp.2).2.1⟩
    · cases ht
      exact hM.quiet rfl

theorem Stored.run : ∀ {as : List (Act m n)} {s : Sys m n} {M M₀ : Cells m}, Inv s →
    Stored s M → Ran M₀ s.trace M → s.Allowed as →
    s.run as = .ok t → ∃ M', Stored t M' ∧ Ran M₀ t.trace M'
  | [], _, M, _, _, hM, hR, _, ht => by
    cases ht
    exact ⟨M, hM, hR⟩
  | a :: as, s, M, M₀, h, hM, hR, ha, ht => by
    simp only [Sys.run] at ht
    split at ht
    · rename_i u hu
      obtain ⟨M', hM', ⟨htrace, rfl⟩ | ⟨e, htrace, hrun, hfits⟩⟩ := hM.step h ha.1 hu
      · exact Stored.run (h.step ha.1 hu) hM' (by rwa [htrace]) (ha.2 u hu) ht
      · exact Stored.run (h.step ha.1 hu) hM' (by rw [htrace]; exact hR.snoc hfits hrun) (ha.2 u hu) ht
    · cases ht

/-! ## Free inodes -/

def cells (disk : Key → Dinode) (es : List (Event m)) : Key → Dinode := (es.flatMap Event.locked).foldl Locked.put disk

/-- How many of the events make a free inode one with a type. -/
def allocs (k : Key) (es : List (Event m)) : Nat := es.countP fun
  | .alloc _ l _ _ => l = k
  | _              => false

def frees (k : Key) (es : List (Event m)) : Nat := es.countP fun
  | .free _ l _ => l = k
  | _           => false

def typed (d : Dinode) : Nat := if d.type = .free then 0 else 1

theorem typed_free {d : Dinode} (h : d.type = .free) : typed d = 0 := if_pos h

theorem typed_one {d : Dinode} (h : d.type ≠ .free) : typed d = 1 := if_neg h

theorem Ran.run {M N : Cells m} {es : List (Event m)} (h : Ran M es N) : M.Run (es.flatMap Event.locked) N := by
  induction h with
  | nil => exact .nil M
  | snoc _ _ he ih =>
    rw [List.flatMap_append, List.flatMap_singleton]
    exact ih.append he

theorem Ran.cells {M N : Cells m} {es : List (Event m)} (h : Ran M es N) : N.cell = cells M.cell es := h.run.cell

theorem Ran.split {M N : Cells m} {es es' : List (Event m)} (h : Ran M (es ++ es') N) :
    ∃ N', Ran M es N' ∧ ∀ e l, es' = e :: l → e.Fits N'.cell := by
  induction es' using List.reverseRecOn generalizing N with
  | nil => exact ⟨N, by rwa [List.append_nil] at h, nofun⟩
  | append_singleton es' e ih =>
    rw [← List.append_assoc] at h
    generalize hl : es ++ es' ++ [e] = l at h
    cases h with
    | nil => simp at hl
    | snoc h hfits he =>
      obtain ⟨rfl, heq⟩ := List.append_inj' hl rfl
      cases heq
      cases es' with
      | nil => exact ⟨_, by rwa [List.append_nil] at h, fun e l hl => (List.cons.inj hl).1 ▸ hfits⟩
      | cons e' l =>
        obtain ⟨N', hN', hfirst⟩ := ih h
        exact ⟨N', hN', fun e'' l' hl => hfirst e'' l ((List.cons.inj hl).1 ▸ rfl)⟩

theorem Event.balance {e : Event m} {cell : Key → Dinode} (h : e.Fits cell) (k : Key) :
    allocs k [e] + Icache.typed (cell k) = frees k [e] + Icache.typed (e.locked.foldl Locked.put cell k) := by
  cases e with
  | got p l d | release p l => rfl
  | store p l d =>
    by_cases hk : k = l
    · subst hk
      simp [Event.locked, Locked.put, allocs, frees, typed_one h.1, typed_one h.2]
    · simp [Event.locked, Locked.put, allocs, frees, hk]
  | alloc p l d d' =>
    by_cases hk : k = l
    · subst hk
      simp [Event.locked, Locked.put, allocs, frees, typed_one h.2.2, h.1, typed_free h.2.1]
    · simp [Event.locked, Locked.put, allocs, frees, hk, Ne.symm hk]
  | free p l d =>
    by_cases hk : k = l
    · subst hk
      simp [Event.locked, Locked.put, allocs, frees, typed_one h.1, typed_free h.2.2]
    · simp [Event.locked, Locked.put, allocs, frees, hk, Ne.symm hk]

theorem Ran.balance {M N : Cells m} {es : List (Event m)} (h : Ran M es N) (k : Key) :
    allocs k es + Icache.typed (M.cell k) = frees k es + Icache.typed (N.cell k) := by
  induction h with
  | nil => rfl
  | snoc _ hfits he ih =>
    have hone := Event.balance hfits k
    rw [← he.cell] at hone
    unfold allocs frees at ih hone ⊢
    rw [List.countP_append, List.countP_append]
    omega

theorem Stored.init (disk : Key → Dinode) : Stored (Sys.init m n disk) (Locked.start disk) where
  cell := rfl
  held _ _ := iff_of_false nofun fun ⟨_, hi, _⟩ => nomatch hi.1

/-- **The inode cache is a memory of inodes**: in every run, whatever its interleaving, what the callers see are the
events of locked cells that start with the disk and end with it, and every event fits the inodes that the events before
it leave: an inode that `ilock` gives is as it was last written, `ialloc` takes one that is free, and `iput` frees one
without links. -/
theorem icache_memory {disk : Key → Dinode} {as : List (Act m n)} {s : Sys m n}
    (hdisk : ∀ k, (disk k).type = .free → (disk k).nlink = 0) (ha : (Sys.init m n disk).Allowed as)
    (hs : (Sys.init m n disk).run as = .ok s) :
    (∃ M, (Locked.start disk).Run (s.trace.flatMap Event.locked) M ∧ M.cell = s.disk) ∧
      ∀ es e es', s.trace = es ++ e :: es' → e.Fits (cells disk es) := by
  obtain ⟨M, hM, hR⟩ := (Stored.init disk).run (Inv.init m n hdisk) .nil ha hs
  refine ⟨⟨M, hR.run, hM.cell⟩, fun es e es' he => ?_⟩
  rw [he] at hR
  obtain ⟨N, hN, hfits⟩ := hR.split
  exact hN.cells ▸ hfits e es' rfl

theorem allowed_cons {a : Act m n} {as : List (Act m n)} (ha : a.allowed s) (hs : s.step a = .ok t) (h : t.Allowed as) :
    s.Allowed (a :: as) := by
  refine ⟨ha, fun u hu => ?_⟩
  rw [hs] at hu
  cases hu
  exact h

/-- A process loads an inode, changes it, writes it and unlocks it. -/
theorem icache_memory_one : ∃ s : Sys 1 1, (Sys.init 1 1 files).run
      [.iget 0 (1, 7), .ilock 0 0, .next 0, .next 0, .edit 0 0 { Dinode.zero with type := .file }, .iupdate 0 0,
        .iunlock 0 0] = .ok s ∧
    ∃ M, (Locked.start files).Run (s.trace.flatMap Event.locked) M ∧ M.cell = s.disk := by
  obtain ⟨s, hs⟩ : ∃ s : Sys 1 1, (Sys.init 1 1 files).run
      [.iget 0 (1, 7), .ilock 0 0, .next 0, .next 0, .edit 0 0 { Dinode.zero with type := .file }, .iupdate 0 0,
        .iunlock 0 0] = .ok s := ⟨_, rfl⟩
  have ha : (Sys.init 1 1 files).Allowed
      [.iget 0 (1, 7), .ilock 0 0, .next 0, .next 0, .edit 0 0 { Dinode.zero with type := .file }, .iupdate 0 0,
        .iunlock 0 0] :=
    allowed_cons (.inl (files_linked (1, 7)).1) rfl (allowed_cons trivial rfl
      (allowed_cons trivial rfl (allowed_cons trivial rfl
      (allowed_cons nofun rfl (allowed_cons trivial rfl (allowed_cons (fun _ _ => rfl) rfl trivial))))))
  exact ⟨s, hs, (icache_memory (fun k hfree => absurd hfree (files_linked k).2) ha hs).1⟩

/-- **What `iput` frees nobody else has**: an inode is made and freed in turn; the process that frees one has the only
reference to it, and no links are left; and a reference to a free inode is one that `iput` is about to drop. -/
theorem icache_frees {disk : Key → Dinode} {as : List (Act m n)} {s : Sys m n}
    (hdisk : ∀ k, (disk k).type = .free → (disk k).nlink = 0) (ha : (Sys.init m n disk).Allowed as)
    (hs : (Sys.init m n disk).run as = .ok s) :
    (∀ es, es <+: s.trace → ∀ k, allocs k es + typed (disk k) = frees k es + typed (cells disk es k)) ∧
    (∀ p i, s.pc p = .truncating i ∨ s.pc p = .freeing i →
      (s.entry i).ref = 1 ∧ (s.onDisk i).nlink = 0 ∧ i ∈ s.refs p ∧ ∀ q, q ≠ p → i ∉ s.refs q) ∧
    ∀ p i, i ∈ s.refs p → (s.onDisk i).type = .free → (s.pc p).drops = some i := by
  have h := (Inv.init m n hdisk).run ha hs
  obtain ⟨M, hM, hR⟩ := (Stored.init disk).run (Inv.init m n hdisk) .nil ha hs
  refine ⟨fun es ⟨es', he⟩ k => ?_, fun p i hp => h.frees_one hp, fun p i hi hfree => (h.gone i (.inl hfree)).2 p hi⟩
  rw [← he] at hR
  obtain ⟨N, hN, -⟩ := hR.split
  exact hN.cells ▸ hN.balance k

/-- A file without links is put: the process is about to free it. -/
theorem icache_frees_one : ∃ s : Sys 1 1, (Sys.init 1 1 files).run
      [.iget 0 (1, 7), .ilock 0 0, .next 0, .next 0, .edit 0 0 { Dinode.zero with type := .file }, .iupdate 0 0,
        .iunlock 0 0, .iput 0 0, .next 0, .next 0, .next 0] = .ok s ∧
    s.pc 0 = .freeing 0 ∧ (s.onDisk 0).nlink = 0 := by
  obtain ⟨s, hs, hp⟩ : ∃ s : Sys 1 1, (Sys.init 1 1 files).run
      [.iget 0 (1, 7), .ilock 0 0, .next 0, .next 0, .edit 0 0 { Dinode.zero with type := .file }, .iupdate 0 0,
        .iunlock 0 0, .iput 0 0, .next 0, .next 0, .next 0] = .ok s ∧ s.pc 0 = .freeing 0 := ⟨_, rfl, rfl⟩
  have ha : (Sys.init 1 1 files).Allowed
      [.iget 0 (1, 7), .ilock 0 0, .next 0, .next 0, .edit 0 0 { Dinode.zero with type := .file }, .iupdate 0 0,
        .iunlock 0 0, .iput 0 0, .next 0, .next 0, .next 0] :=
    allowed_cons (.inl (files_linked (1, 7)).1) rfl (allowed_cons trivial rfl
      (allowed_cons trivial rfl (allowed_cons trivial rfl
      (allowed_cons nofun rfl (allowed_cons trivial rfl (allowed_cons (fun _ _ => rfl) rfl (allowed_cons trivial rfl
        (allowed_cons trivial rfl (allowed_cons trivial rfl (allowed_cons trivial rfl trivial))))))))))
  exact ⟨s, hs, hp, ((icache_frees (fun k hfree => absurd hfree (files_linked k).2) ha hs).2.1 0 0 (.inr hp)).2.1⟩

end Icache
end Xv6
