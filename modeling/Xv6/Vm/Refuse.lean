import Xv6.Vm.Undo
/-!
# Vm.Refuse — calls that fail

What `mmap` and the page fault leave behind where they fail.  A request that the arguments, an area in the way or the
area's protection exclude is refused before anything is stored; a file that does not permit it is found out when the
entry and the file's offset have been written; and a `kalloc` that fails is noticed nowhere.
-/
namespace Xv6
namespace Vm

open Mem
open Prog (wp Quiet)
open Sched (nproc)

variable {s t : Sys} {p : Fin nproc} {i : Fin nmaps} {f : FileRef} {addr length prot flags fd offset : Word}

/-! ## The file of a new area -/

/-- `f->off = off`. -/
def Sys.seek (s : Sys) (p : Fin nproc) (f : FileRef) (off : Word) : Sys :=
  match f with
  | .file j => s.setFile j { s.file j with off := off }
  | .null   =>
    match s.lowPage p with
    | some lo => { s with phys := s.phys.setPage lo (setWord (s.phys.mem lo) 5 off) }
    | none    => s
  | .wild   => s

/-- What `compare_prot` says of the file, where its pointer leads anywhere. -/
def Sys.permits (s : Sys) (p : Fin nproc) (f : FileRef) (prot : Word) : Option Bool :=
  match f with
  | .file j => some (prot.sle (s.file j).flags)
  | .null   =>
    match s.lowPage p with
    | some lo =>
      some (prot.sle ((if s.phys.mem lo 8 != 0 then 1 else 0) ||| (if s.phys.mem lo 9 != 0 then 2 else 0)))
    | none    => none
  | .wild   => none

/-- The entry and the file after the check, with its result. -/
def Sys.opened (s : Sys) (p : Fin nproc) (i : Fin nmaps) (f : FileRef) (offset : Word) (b : Bool) : Sys :=
  (s.seek p f offset).setArea i ((s.maps i).opened f offset b)

theorem seek_maps (s : Sys) (f : FileRef) (off : Word) : (s.seek p f off).maps = s.maps := by
  unfold Sys.seek
  cases f with
  | null => cases s.lowPage p <;> rfl
  | file j => rfl
  | wild => rfl

theorem seek_setArea (a : Area) (off : Word) : (s.setArea i a).seek p f off = (s.seek p f off).setArea i a := by
  unfold Sys.seek
  cases f with
  | null =>
    show (match s.lowPage p with
      | some lo => { s.setArea i a with phys := s.phys.setPage lo (setWord (s.phys.mem lo) 5 off) }
      | none    => s.setArea i a) = _
    cases s.lowPage p <;> rfl
  | file j => rfl
  | wild => rfl

theorem setOff_run {b : Bool} (hb : s.permits p f prot = some b) (off : Word) :
    setOff p f off s = ⟨.ok (), s.seek p f off, []⟩ := by
  unfold Sys.permits at hb
  cases f with
  | null =>
    cases hlo : s.lowPage p with
    | none =>
      rw [hlo] at hb
      cases hb
    | some lo =>
      unfold setOff Sys.seek
      dsimp only
      rw [Prog.bind_run_nil (follow_run hlo), hlo]
      rfl
  | file j => rfl
  | wild => cases hb

theorem compareProt_run {b : Bool} (hb : s.permits p (s.maps i).f (s.maps i).prot = some b) :
    compareProt p i s = ⟨.ok b, s, []⟩ := by
  unfold compareProt
  rw [Prog.read_bind_run]
  unfold Sys.permits at hb
  cases hf : (s.maps i).f with
  | null =>
    rw [hf] at hb
    cases hlo : s.lowPage p with
    | none =>
      rw [hlo] at hb
      cases hb
    | some lo =>
      rw [hlo] at hb
      have hr : fileReadable p .null s = ⟨.ok (s.phys.mem lo 8 != 0), s, []⟩ := Prog.bind_run_nil (follow_run hlo)
      have hw : fileWritable p .null s = ⟨.ok (s.phys.mem lo 9 != 0), s, []⟩ := Prog.bind_run_nil (follow_run hlo)
      rw [Prog.bind_run_nil hr, Prog.bind_run_nil hw, ← Option.some.inj hb]
      rfl
  | file j =>
    rw [hf] at hb
    rw [← Option.some.inj hb]
    rfl
  | wild =>
    rw [hf] at hb
    cases hb

/-- The two flags of a null file are not the word that is written. -/
theorem permits_seek (off : Word) : (s.seek p f off).permits p f prot = s.permits p f prot := by
  cases f with
  | null =>
    cases hlo : s.lowPage p with
    | none =>
      unfold Sys.seek
      rw [hlo]
    | some lo =>
      have hpage : s.seek p .null off = { s with phys := s.phys.setPage lo (setWord (s.phys.mem lo) 5 off) } := by
        unfold Sys.seek
        rw [hlo]
      have hlo' : (s.seek p .null off).lowPage p = some lo := by rw [hpage]; exact hlo
      have hmem : ∀ o : BitVec 12, o.extractLsb' 2 10 ≠ 5#10 → (s.seek p .null off).phys.mem lo o = s.phys.mem lo o := by
        intro o ho
        rw [hpage]
        exact (congrFun (if_pos rfl) o).trans (if_neg ho)
      unfold Sys.permits
      rw [hlo, hlo']
      dsimp only
      rw [hmem 8 (by decide), hmem 9 (by decide)]
  | file j =>
    have hflags : ((s.seek p (.file j) off).file j).flags = (s.file j).flags := by
      have hj : (s.seek p (.file j) off).file j = { s.file j with off := off } := if_pos rfl
      rw [hj]
      rfl
    exact congrArg (fun w => some (prot.sle w)) hflags
  | wild => rfl

theorem openArea_run {b : Bool} (hb : s.permits p (s.ofileAt p fd) (s.maps i).prot = some b) :
    openArea p i fd offset s = ⟨.ok b, s.opened p i (s.ofileAt p fd) offset b, []⟩ := by
  unfold openArea
  rw [Prog.modify_bind_run, Prog.read_bind_run, setArea_maps]
  generalize s.ofileAt p fd = f at hb
  have hset : (s.setArea i { s.maps i with f := f, offset := offset }).permits p f (s.maps i).prot = some b := hb
  rw [Prog.bind_run_nil (setOff_run hset offset), seek_setArea]
  have hcheck : ((s.seek p f offset).setArea i { s.maps i with f := f, offset := offset }).permits p
      (((s.seek p f offset).setArea i { s.maps i with f := f, offset := offset }).maps i).f
      (((s.seek p f offset).setArea i { s.maps i with f := f, offset := offset }).maps i).prot = some b := by
    rw [setArea_maps]
    exact (permits_seek offset).trans hb
  rw [Prog.bind_run_nil (compareProt_run hcheck)]
  unfold Sys.opened Area.opened
  cases b with
  | true => rfl
  | false =>
    show (⟨_, ((s.seek p f offset).setArea i _).setArea i _, _⟩ : Outcome Stop Sys Event Bool) = _
    rw [setArea_maps, setArea_setArea]
    rfl

theorem setOff_wild (hb : s.permits p f prot = none) (off : Word) : setOff p f off s = ⟨.error .wild, s, []⟩ := by
  unfold Sys.permits at hb
  cases f with
  | null =>
    cases hlo : s.lowPage p with
    | none => exact Prog.bind_run_error (follow_wild hlo)
    | some lo =>
      rw [hlo] at hb
      cases hb
  | file j => cases hb
  | wild => rfl

theorem openArea_wild (hb : s.permits p (s.ofileAt p fd) (s.maps i).prot = none) :
    (openArea p i fd offset s).res = .error .wild := by
  unfold openArea
  rw [Prog.modify_bind_run, Prog.read_bind_run, setArea_maps]
  generalize s.ofileAt p fd = f at hb
  have hset : (s.setArea i { s.maps i with f := f, offset := offset }).permits p f (s.maps i).prot = none := hb
  rw [Prog.bind_run_error (setOff_wild hset offset)]

/-! ## Failures -/

/-- The calls of `kalloc` that have returned 0: each takes one from `freemems` and none from the list. -/
def Phys.misses (k : Phys) : Int := k.freelist.length - k.freemems

/-- A call of `kalloc` between `k` and `k'` has returned 0. -/
def Short (k k' : Phys) : Prop := k.misses < k'.misses

/-- What a failing call is to leave as it is. -/
structure Same (p : Fin nproc) (s t : Sys) : Prop where
  pgdir    : t.pgdir p = s.pgdir p
  maps     : t.maps = s.maps
  freelist : t.phys.freelist = s.phys.freelist
  off      : ∀ j, (t.file j).off = (s.file j).off

/-- The calls that map pages: `mmap`, and `page_fault_handler`. -/
inductive MapOp where
  | mmap (addr length prot flags fd offset : Word)
  | fault (va : Addr) (io : Word)

/-- `mmap` opens a file, as it does for all but a populated anonymous area. -/
def opensFile (flags : Word) : Prop := flags &&& mapPopulate = 0 ∨ flags &&& mapAnonymous = 0

/-- The call fails: it is refused, or the table, the file or the memory does not allow it. -/
def MapOp.Fails (s : Sys) (p : Fin nproc) : MapOp → Prop
  | .mmap addr length prot flags fd offset => validArgs addr length prot flags fd offset = false ∨
      s.clash p addr = true ∨ s.free = none ∨ opensFile flags ∧ s.permits p (s.ofileAt p fd) prot = some false ∨
        Short s.phys (Vm.mmap p addr length prot flags fd offset s).st.phys
  | .fault va io => s.findArea (Area.faults p (pgRoundDown va)) = none ∨
      (∃ i, s.findArea (Area.faults p (pgRoundDown va)) = some i ∧ (s.maps i).prot.slt io = true) ∨
        Short s.phys (pageFaultHandler p va io s).st.phys

def MapOp.Traceless (s : Sys) (p : Fin nproc) : MapOp → Prop
  | .mmap addr length prot flags fd offset => (Vm.mmap p addr length prot flags fd offset s).res = .ok 0 ∧
      Same p s (Vm.mmap p addr length prot flags fd offset s).st
  | .fault va io => (pageFaultHandler p va io s).res = .ok (-1) ∧ Same p s (pageFaultHandler p va io s).st

/-- The entry `i` and the file are already as a refused request leaves them. -/
def Rewritten (s : Sys) (p : Fin nproc) (i : Fin nmaps) (addr length prot flags fd offset : Word) : Prop :=
  s.maps i = ((s.maps i).init p addr length prot flags).opened (s.ofileAt p fd) offset false ∧
    ∀ j, s.ofileAt p fd = .file j → (s.file j).off = offset

/-- **The condition**: the call is refused before it stores anything, or for its file, where what it has stored by then
is what stood there. -/
def MapOp.Stainless (s : Sys) (p : Fin nproc) : MapOp → Prop
  | .mmap addr length prot flags fd offset => validArgs addr length prot flags fd offset = false ∨
      s.clash p addr = true ∨ ∃ i, s.free = some i ∧ opensFile flags ∧
        s.permits p (s.ofileAt p fd) prot = some false ∧ Rewritten s p i addr length prot flags fd offset
  | .fault va io => ∀ i, s.findArea (Area.faults p (pgRoundDown va)) = some i → (s.maps i).prot.slt io = true

/-! ## mmap -/

theorem seek_same (off : Word) : (s.seek p f off).pgdir = s.pgdir ∧ (s.seek p f off).phys.freelist = s.phys.freelist ∧
    ∀ j, ((s.seek p f off).file j).off = if f = .file j then off else (s.file j).off := by
  unfold Sys.seek
  cases f with
  | null => cases s.lowPage p <;> exact ⟨rfl, rfl, fun _ => rfl⟩
  | file k =>
    refine ⟨rfl, rfl, fun j => ?_⟩
    show (if j = k then _ else _ : File).off = _
    simp only [FileRef.file.injEq]
    by_cases hjk : j = k
    · rw [if_pos hjk, if_pos hjk.symm]
    · rw [if_neg hjk, if_neg (Ne.symm hjk)]
  | wild => exact ⟨rfl, rfl, fun _ => rfl⟩

theorem mapArea_refused (ho : opensFile flags) (hb : s.permits p (s.ofileAt p fd) (s.maps i).prot = some false) :
    mapArea p i addr flags fd offset s = ⟨.ok 0, s.opened p i (s.ofileAt p fd) offset false, []⟩ := by
  unfold mapArea
  have hrun : openArea p i fd offset s = ⟨.ok false, s.opened p i (s.ofileAt p fd) offset false, []⟩ := openArea_run hb
  by_cases hpop : flags &&& mapPopulate = 0
  · rw [if_neg (not_not.2 hpop), Prog.bind_run_nil hrun]
    rfl
  · rw [if_pos hpop, if_neg (not_not.2 (ho.resolve_left hpop)), Prog.bind_run_nil hrun]
    rfl

theorem mapArea_using (hs : (s.maps i).state = .using) (hno : ¬ (opensFile flags ∧
    s.permits p (s.ofileAt p fd) (s.maps i).prot = some false)) : wp (mapArea p i addr flags fd offset)
      (fun _ t => (t.maps i).state = .using) (fun _ => True) s := by
  have hopen : opensFile flags → wp (openArea p i fd offset) (fun b t => b = true ∧ (t.maps i).state = .using)
      (fun _ => True) s := by
    intro ho
    cases hb : s.permits p (s.ofileAt p fd) (s.maps i).prot with
    | none =>
      unfold wp
      rw [openArea_wild hb]
      trivial
    | some b =>
      cases b with
      | false => exact absurd ⟨ho, hb⟩ hno
      | true =>
        refine Prog.wp_of_run (openArea_run hb) ⟨rfl, ?_⟩
        unfold Sys.opened
        rw [setArea_maps]
        exact hs
  have hmaps : ∀ {c : M Unit} {t : Sys}, Quiet Sys.maps Filled c → (t.maps i).state = .using →
      wp c (fun _ u => (u.maps i).state = .using) (fun _ => True) t := fun hc ht =>
    (Quiet.keeps hc _).imp fun _ u hu => by rw [hu]; exact ht
  unfold mapArea
  refine Prog.wp_ite (fun hpop => Prog.wp_ite (fun _ => ?_) fun hanon => ?_) fun hpop => ?_
  · rw [Prog.wp_bind]
    exact hmaps (mapPopulateAnonymous_fills unfaulted_maps i) hs
  · rw [Prog.wp_bind]
    refine (hopen (.inr (not_not.1 hanon))).imp fun b t ht => ?_
    obtain ⟨rfl, ht⟩ := ht
    rw [if_pos rfl, Prog.wp_bind]
    exact hmaps (mapPopulateFile_fills unfaulted_maps i) ht
  · rw [Prog.wp_bind]
    refine (hopen (.inl (not_not.1 hpop))).imp fun b t ht => ?_
    obtain ⟨rfl, ht⟩ := ht
    exact ht

/-- **A request refused for its file**: the entry and the file have been written. -/
theorem mmap_refused (hv : validArgs addr length prot flags fd offset = true) (hl : s.locked = false)
    (hc : s.clash p addr = false) (hi : s.free = some i) (ho : opensFile flags)
    (hb : s.permits p (s.ofileAt p fd) prot = some false) : (mmap p addr length prot flags fd offset s).res = .ok 0 ∧
      (mmap p addr length prot flags fd offset s).st =
        (s.setArea i ((s.maps i).init p addr length prot flags)).opened p i (s.ofileAt p fd) offset false := by
  obtain ⟨u, hu⟩ : ∃ u, u = s.setArea i ((s.maps i).init p addr length prot flags) := ⟨_, rfl⟩
  have hui : u.maps i = (s.maps i).init p addr length prot flags := by rw [hu, setArea_maps]
  have hperm : u.permits p (u.ofileAt p fd) (u.maps i).prot = some false := by
    rw [hui, hu]
    exact hb
  rw [mmap_made hv hl hc hi, Prog.emit_bind_run, ← hu]
  dsimp only
  rw [mapArea_refused ho hperm, show u.ofileAt p fd = s.ofileAt p fd by rw [hu]; rfl]
  exact ⟨rfl, rfl⟩

theorem opened_same {a : Area} (f : FileRef) : Same p s (((s.setArea i a)).opened p i f offset false) ↔
    s.maps i = a.opened f offset false ∧ ∀ j, f = .file j → (s.file j).off = offset := by
  obtain ⟨hpgdir, hfree, hoff⟩ := seek_same (s := s.setArea i a) (p := p) (f := f) offset
  have hmaps : ((s.setArea i a).opened p i f offset false).maps = (s.setArea i (a.opened f offset false)).maps := by
    unfold Sys.opened
    rw [seek_setArea, setArea_maps, setArea_setArea]
    show (fun j => if j = i then _ else (s.seek p f offset).maps j) = _
    rw [seek_maps]
    rfl
  refine ⟨fun h => ⟨?_, fun j hj => ?_⟩, fun ⟨ha, hf⟩ => ⟨congrFun hpgdir p, ?_, hfree, fun j => ?_⟩⟩
  · rw [← congrFun h.maps i, hmaps, setArea_maps]
  · rw [← h.off j]
    exact (hoff j).trans (if_pos hj)
  · rw [hmaps, ← ha]
    funext j
    by_cases hji : j = i
    · rw [hji, setArea_maps]
    · exact setArea_other hji
  · refine (hoff j).trans ?_
    split
    · exact (hf j ‹_›).symm
    · rfl

theorem mmap_traceless (hl : s.locked = false) :
    (MapOp.mmap addr length prot flags fd offset).Traceless s p ↔
      (MapOp.mmap addr length prot flags fd offset).Stainless s p := by
  have hrefl : Same p s s := ⟨rfl, rfl, rfl, fun _ => rfl⟩
  unfold MapOp.Traceless MapOp.Stainless
  dsimp only
  cases hv : validArgs addr length prot flags fd offset with
  | false =>
    rw [mmap_invalid hv]
    exact iff_of_true ⟨rfl, hrefl⟩ (.inl rfl)
  | true =>
    cases hc : s.clash p addr with
    | true =>
      rw [mmap_clash hv hl hc]
      exact iff_of_true ⟨rfl, hrefl⟩ (.inr (.inl rfl))
    | false =>
      cases hi : s.free with
      | none =>
        rw [mmap_full hv hl hc hi]
        refine iff_of_false (fun h => by cases h.1) fun h => ?_
        rcases h with h | h | ⟨i, h, -⟩ <;> cases h
      | some i =>
        have hfree : (s.maps i).state = .unusing := of_decide_eq_true (findArea_some.1 hi).1
        by_cases href : opensFile flags ∧ s.permits p (s.ofileAt p fd) prot = some false
        · -- the file does not permit the request
          obtain ⟨hres, hst⟩ := mmap_refused hv hl hc hi href.1 href.2
          rw [hres, hst, opened_same]
          refine ⟨fun h => .inr (.inr ⟨i, rfl, href.1, href.2, h.2⟩), fun h => ⟨rfl, ?_⟩⟩
          rcases h with h | h | ⟨j, hj, -, -, h⟩
          · cases h
          · cases h
          · obtain rfl := Option.some.inj hj
            exact h
        · -- a call that returns has made the area
          have hui : (s.setArea i ((s.maps i).init p addr length prot flags)).maps i =
              (s.maps i).init p addr length prot flags := setArea_maps _ _ _
          have hwp : wp (mapArea p i addr flags fd offset) (fun _ t => (t.maps i).state = .using) (fun _ => True)
              (s.setArea i ((s.maps i).init p addr length prot flags)) := mapArea_using (by rw [hui]; rfl)
            fun hno => href ⟨hno.1, by rw [← hno.2, hui]; rfl⟩
          rw [mmap_made hv hl hc hi, Prog.emit_bind_run]
          refine iff_of_false (fun h => ?_) fun h => ?_
          · have hstate := hwp.ok h.1
            have hmaps := h.2.maps
            dsimp only at hstate hmaps
            rw [hmaps, hfree] at hstate
            cases hstate
          · rcases h with h | h | ⟨j, -, ho, hb, -⟩
            · cases h
            · cases h
            · exact href ⟨ho, hb⟩

/-! ## The page fault -/

section Fault

variable {va : Addr} {io : Word}

theorem fault_traceless (hl : s.locked = false) :
    (MapOp.fault va io).Traceless s p ↔ (MapOp.fault va io).Stainless s p := by
  unfold MapOp.Traceless MapOp.Stainless
  dsimp only
  constructor
  · intro h i hi
    by_contra hio
    have hone := (pageFaultHandler_grants hi (Bool.eq_false_iff.2 hio)).ok h.1
    omega
  · intro h
    rw [pageFaultHandler_refuses hl h]
    exact ⟨rfl, rfl, rfl, rfl, fun _ => rfl⟩

end Fault

theorem MapOp.Stainless.fails {op : MapOp} (h : op.Stainless s p) : op.Fails s p := by
  cases op with
  | mmap addr length prot flags fd offset =>
    rcases h with h | h | ⟨i, -, ho, hb, -⟩
    · exact .inl h
    · exact .inr (.inl h)
    · exact .inr (.inr (.inr (.inl ⟨ho, hb⟩)))
  | fault va io =>
    cases hi : s.findArea (Area.faults p (pgRoundDown va)) with
    | none => exact .inl hi
    | some i => exact .inr (.inl ⟨i, hi, h i hi⟩)

/-- **A failing call leaves no trace** where it is refused before anything is stored: what `mmap` has written into the
entry and the file's offset when `compare_prot` says no stays, and a `kalloc` that returns 0 is used as a page. -/
theorem MapOp.traceless_iff {op : MapOp} (hl : s.locked = false) :
    op.Fails s p ∧ op.Traceless s p ↔ op.Stainless s p := by
  have hiff : op.Traceless s p ↔ op.Stainless s p := by
    cases op with
    | mmap addr length prot flags fd offset => exact mmap_traceless hl
    | fault va io => exact fault_traceless hl
  exact ⟨fun h => hiff.1 h.2, fun h => ⟨h.fails, hiff.2 h⟩⟩

def readOnly : Sys := sample.setFile 0 { sampleFile with writable := false }

/-- The request that it does not permit, made again: the entry and the offset stand as the first left them. -/
def refusedOnce : Sys := (mmap 0 0 4096 (protRead ||| protWrite) 0 3 4096 readOnly).st

theorem refusedTwice_traceless : (MapOp.mmap 0 4096 (protRead ||| protWrite) 0 3 4096).Fails refusedOnce 0 ∧
    (MapOp.mmap 0 4096 (protRead ||| protWrite) 0 3 4096).Traceless refusedOnce 0 := by
  have hv : validArgs 0 4096 (protRead ||| protWrite) 0 3 4096 = true := by decide
  have hst : refusedOnce = _ := (mmap_refused (s := readOnly) (p := 0) (i := 0) hv rfl (by decide) (by decide)
    (.inl (by decide)) (by decide)).2
  have hmap : refusedOnce.maps 0 = _ := (congrFun (congrArg Sys.maps hst) 0).trans (setArea_maps _ _ _)
  refine (MapOp.traceless_iff (by decide +kernel)).2 (.inr (.inr ⟨0, by decide +kernel, .inl (by decide), ?_, ?_, ?_⟩))
  · decide +kernel
  · have hofile : refusedOnce.ofileAt 0 3 = readOnly.ofileAt 0 3 := by decide +kernel
    rw [hmap, hofile]
    rfl
  · intro j hj
    have hofile : refusedOnce.ofileAt 0 3 = .file 0 := by decide +kernel
    rw [hofile] at hj
    obtain rfl := FileRef.file.inj hj
    decide +kernel

/-- The first request is refused with the file's offset moved, and without a free frame the request stops. -/
theorem refusedOnce_moves : (MapOp.mmap 0 4096 (protRead ||| protWrite) 0 3 4096).Fails readOnly 0 ∧
    ¬ (MapOp.mmap 0 4096 (protRead ||| protWrite) 0 3 4096).Traceless readOnly 0 := by
  refine ⟨.inr (.inr (.inr (.inl ⟨.inl (by decide), by decide +kernel⟩))), fun h => ?_⟩
  have hoff : (refusedOnce.file 0).off = (readOnly.file 0).off := h.2.off 0
  revert hoff
  decide +kernel

end Vm
end Xv6
