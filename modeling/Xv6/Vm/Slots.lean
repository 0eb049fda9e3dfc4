import Xv6.Vm.Calls
import Xv6.Vm.Faults
import Xv6.Lib.Wp
import Xv6.Lib.History
/-!
# Vm.Slots — mmap on several CPUs at once

`mmap` cut into the steps that no lock makes one: each section under `mtable.lock`, each assignment to the area that
`mallock` returned, each page.  A run is any interleaving of such steps of any number of processes.  `mallock` returns an
entry that is free, but the entry stays free until `mmap` stores `USING`: two calls that are between the two get the same.
-/
namespace Xv6
namespace Vm

open Mem
open Prog (Quiet)
open Sched (nproc)

/-- The arguments of `mmap`. -/
structure Args where
  addr   : Word
  length : Word
  prot   : Word
  flags  : Word
  fd     : Word
  offset : Word
  deriving DecidableEq

def Args.valid (x : Args) : Bool := validArgs x.addr x.length x.prot x.flags x.fd x.offset
def Args.populate (x : Args) : Bool := decide (x.flags &&& mapPopulate ≠ 0)

/-- `MAP_POPULATE` and `MAP_ANONYMOUS`, the only path that sets up no file. -/
def Args.plain (x : Args) : Bool := x.populate && decide (x.flags &&& mapAnonymous ≠ 0)

/-- An assignment of `mmap` after `mallock`. -/
inductive Store where
  | nullFile | addr | length | prot | flags | proc | using
  | offset
  /-- `mmap->f = mmap->p->ofile[fd]`. -/
  | file
  /-- `mmap->f->off = offset`. -/
  | fileOff
  deriving DecidableEq

/-- The assignments of step 4, with `MAP_POPULATE` the offset before the file. -/
def Args.fileStores (x : Args) : List Store :=
  if x.plain then [] else if x.populate then [.offset, .file, .fileOff] else [.file, .offset, .fileOff]

def Args.stores (x : Args) : List Store :=
  .nullFile :: .addr :: .length :: .prot :: .flags :: .proc :: .using :: x.fileStores

/-- What an assignment of `p` leaves of the area, where `ofile` says what a descriptor holds. -/
def Store.area (ofile : Fin nproc → Word → FileRef) (p : Fin nproc) (x : Args) (a : Area) : Store → Area
  | .nullFile => { a with f := .null }
  | .addr     => { a with addr := x.addr + mmapBase }
  | .length   => { a with length := x.length }
  | .prot     => { a with prot := x.prot }
  | .flags    => { a with flags := x.flags }
  | .proc     => { a with p := some p }
  | .using    => { a with state := .using }
  | .offset   => { a with offset := x.offset }
  | .file     => match a.p with
    | some q => { a with f := ofile q x.fd }
    | none   => a
  | .fileOff  => a

def Store.run (p : Fin nproc) (x : Args) (i : Fin nmaps) : Store → M Unit
  | .fileOff => do setOff p (← Prog.read (fun s => (s.maps i).f)) x.offset
  | .file    => do
    match ← Prog.read (fun s => (s.maps i).p) with
    | none   => Prog.stop .wild
    | some q => Prog.modify (fun s => s.setArea i { s.maps i with f := s.ofileAt q x.fd })
  | st       => Prog.modify (fun s => s.setArea i (st.area s.ofileAt p x (s.maps i)))

inductive Pc where
  | check
  | alloc
  /-- The assignments that are left. -/
  | store (i : Fin nmaps) (l : List Store)
  /-- `compare_prot` has refused the area. -/
  | refuse (i : Fin nmaps)
  | populate (i : Fin nmaps) (pteW : Pte) (n : Nat)
  | ret (i : Fin nmaps)

def Pc.slot : Pc → Option (Fin nmaps)
  | .check | .alloc => none
  | .store i _ | .refuse i | .populate i _ _ | .ret i => some i

/-- The kernel, and the calls of `mmap` that processes are in. -/
structure Mmaps where
  sys  : Sys
  call : Fin nproc → Option (Args × Pc)

inductive MmapEvent where
  | kernel (e : Event)
  /-- The call of `p` has returned the address of the area `i`. -/
  | mapped (p : Fin nproc) (x : Args) (i : Fin nmaps)

abbrev R := Prog Stop Mmaps MmapEvent

def kernel {α : Type} (c : M α) : R α := Prog.zoom Mmaps.sys (fun m s => { m with sys := s }) MmapEvent.kernel c

def Mmaps.goto (m : Mmaps) (p : Fin nproc) (c : Option (Args × Pc)) : Mmaps :=
  { m with call := fun q => if q = p then c else m.call q }

def goto (p : Fin nproc) (c : Option (Args × Pc)) : R Unit := Prog.modify (·.goto p c)

/-- Step 2 of `mmap`, under the lock. -/
def checkArea (p : Fin nproc) (x : Args) : M Bool := do
  acquire
  let clash ← Prog.read (·.findArea (fun a => a.covers (x.addr + mmapBase) && a.ownedBy p))
  release
  pure clash.isSome

/-- One page of `map_populate` or `map_populate_annonymous`. -/
def populatePage (p : Fin nproc) (x : Args) (a : Area) (pteW : Pte) (n : Nat) : M Unit := do
  let page ← zeroedPage
  Prog.when (x.plain = false) (do
    readPage p a.f page
    setOff p a.f a.offset)
  mapPage p (a.page n) page (pteW ||| pteU)

def advance (p : Fin nproc) (x : Args) : Pc → R Unit
  | .check              => do
    if !x.valid then goto p none
    else if ← kernel (checkArea p x) then goto p none
    else goto p (some (x, .alloc))
  | .alloc              => do
    match ← kernel mallock with
    | none   => Prog.stop .wild
    | some i => goto p (some (x, .store i x.stores))
  | .store i (st :: l)  => do
    kernel (st.run p x i)
    goto p (some (x, .store i l))
  | .store i []         => do
    let a ← kernel (Prog.read (·.maps i))
    let pteW : Pte := if a.prot &&& protWrite ≠ 0 then Mem.pteW else 0
    if x.plain then goto p (some (x, .populate i pteW 0))
    else if ← kernel (compareProt p i) then
      goto p (some (x, if x.populate then .populate i pteW 0 else .ret i))
    else goto p (some (x, .refuse i))
  | .refuse i           => do
    kernel (Prog.modify (fun s => s.setArea i { s.maps i with state := .unusing }))
    goto p none
  | .populate i pteW n  => do
    let a ← kernel (Prog.read (·.maps i))
    if n < a.npages then
      kernel (populatePage p x a pteW n)
      goto p (some (x, .populate i pteW (n + 1)))
    else goto p (some (x, .ret i))
  | .ret i              => do
    Prog.emit (.mapped p x i)
    goto p none

/-- A process calls `mmap`, or takes the next step of its call. -/
inductive Turn where
  | call (p : Fin nproc) (x : Args)
  | next (p : Fin nproc)

def turn : Turn → R Unit
  | .call p x => do
    match ← Prog.read (·.call p) with
    | some _ => pure ()
    | none   => goto p (some (x, .check))
  | .next p   => do
    match ← Prog.read (·.call p) with
    | none         => pure ()
    | some (x, pc) => advance p x pc

def mmapRun (turns : List Turn) : R Unit := Prog.forEach turns turn

def mapped (h : List MmapEvent) : List (Fin nproc × Args × Fin nmaps) :=
  h.filterMap fun e => match e with | .mapped p x i => some (p, x, i) | .kernel _ => none

/-- The area `i` has been given to the call `q` is in. -/
def Mmaps.owns (m : Mmaps) (q : Fin nproc) (i : Fin nmaps) : Bool :=
  match m.call q with
  | some (_, pc) => decide (pc.slot = some i)
  | none         => false

/-- `mallock` is about to return an entry; it has not been given to another call, which is still to store `USING` in it,
and, where no offset will be stored, it has the offset 0.  At a full table `mallock` returns 0, and `mmap` would go on with
the user's page 0 for an area. -/
def Mmaps.fresh (m : Mmaps) (p : Fin nproc) : Bool :=
  match m.call p, m.sys.free with
  | some (x, .alloc), some i =>
    (List.finRange nproc).all (fun q => !m.owns q i) && (!x.plain || decide ((m.sys.maps i).offset = 0))
  | some (_, .alloc), none   => false
  | _, _                     => true

def Unshared (m : Mmaps) : Turn → Prop
  | .call .. => True
  | .next p  => m.fresh p = true

instance (m : Mmaps) : (t : Turn) → Decidable (Unshared m t)
  | .call .. => .isTrue trivial
  | .next p  => inferInstanceAs (Decidable (m.fresh p = true))

/-! ## What a step does -/

variable {p : Fin nproc} {x : Args} {m m' : Mmaps}

/-- A step of `p` that leaves its call at `c`: of the areas only `k` may differ. -/
structure Moved (p : Fin nproc) (c : Option (Args × Pc)) (k : Option (Fin nmaps)) (m m' : Mmaps) : Prop where
  call  : m'.call = (m.goto p c).call
  maps  : ∀ j, k ≠ some j → m'.sys.maps j = m.sys.maps j
  ofile : m'.sys.ofileAt = m.sys.ofileAt

theorem kernel_wp {α : Type} {c : M α} {Q : α → Mmaps → Prop} (hc : Quiet Sys.slots (fun _ => True) c)
    (hQ : ∀ a m', m'.call = m.call → m'.sys.maps = m.sys.maps → m'.sys.ofileAt = m.sys.ofileAt → Q a m') :
    Prog.wp (kernel c) Q (fun _ => True) m := by
  unfold kernel
  rw [Prog.wp_zoom]
  unfold Prog.wp
  have hs := (hc m.sys).1
  unfold Sys.slots at hs
  simp only [Prod.mk.injEq] at hs
  split
  · exact hQ _ _ rfl hs.1 (ofileAt_congr hs.2.1 hs.2.2)
  · trivial

theorem checkArea_quiet : Quiet Sys.slots (fun _ => True) (checkArea p x) :=
  Quiet.bind (acquire_quiet fun _ _ => rfl) (fun _ => Quiet.bind (Quiet.read _) (fun _ =>
    Quiet.bind (release_quiet fun _ _ => rfl) (fun _ => Quiet.pure _)))

theorem populatePage_quiet (a : Area) (w : Pte) (n : Nat) : Quiet Sys.slots (fun _ => True) (populatePage p x a w n) :=
  Quiet.bind (zeroedPage_quiet slots_view) (fun page => Quiet.bind
    (Quiet.when (fun _ => Quiet.bind (readPage_quiet slots_view p a.f page (fun _ => trivial)) (fun _ =>
      setOff_quiet slots_view p a.f _))) (fun _ =>
        mapPage_quiet slots_view (fun _ _ _ => rfl) p page _ (fun _ _ => mappages_walks (fun _ => trivial))))

theorem mallock_wp {s : Sys} : Prog.wp mallock (fun r t => r = s.free ∧ t = s) (fun _ => True) s := by
  cases hl : s.locked with
  | false => exact Prog.wp_of_run (mallock_run hl) ⟨rfl, rfl⟩
  | true => exact Prog.wp_of_stop (Prog.bind_run_error (acquire_panic hl)) trivial

theorem Moved.goto {c : Option (Args × Pc)} {k : Option (Fin nmaps)} (hc : m'.call = m.call)
    (hm : ∀ j, k ≠ some j → m'.sys.maps j = m.sys.maps j) (ho : m'.sys.ofileAt = m.sys.ofileAt) :
    Moved p c k m (m'.goto p c) where
  call  := by
    unfold Mmaps.goto
    rw [hc]
  maps  := hm
  ofile := ho

theorem Moved.same {c : Option (Args × Pc)} (hc : m'.call = m.call) (hm : m'.sys.maps = m.sys.maps)
    (ho : m'.sys.ofileAt = m.sys.ofileAt) : Moved p c none m (m'.goto p c) := .goto hc (fun j _ => congrFun hm j) ho

theorem Store.run_wp {i : Fin nmaps} (st : Store) {Q : Unit → Mmaps → Prop}
    (hQ : ∀ m', m'.call = m.call → (∀ j, j ≠ i → m'.sys.maps j = m.sys.maps j) → m'.sys.ofileAt = m.sys.ofileAt →
      m'.sys.maps i = st.area m.sys.ofileAt p x (m.sys.maps i) → Q () m') :
    Prog.wp (kernel (st.run p x i)) Q (fun _ => True) m := by
  have hset : ∀ a, a = st.area m.sys.ofileAt p x (m.sys.maps i) → Q () { m with sys := m.sys.setArea i a } := by
    intro a ha
    exact hQ _ rfl (fun j hj => if_neg hj) rfl ((if_pos rfl).trans ha)
  cases st with
  | fileOff =>
    refine kernel_wp (Quiet.bind (Quiet.read _) fun f => setOff_quiet slots_view p f _) fun a m' hc hm ho => ?_
    exact hQ m' hc (fun j _ => congrFun hm j) ho (congrFun hm i)
  | file =>
    unfold kernel Store.run
    rw [Prog.wp_zoom, Prog.wp_bind, Prog.wp_read]
    cases hp : (m.sys.maps i).p with
    | none => trivial
    | some q =>
      refine hset _ ?_
      simp [Store.area, hp]
  | _ => exact hset _ rfl

/-- What the next step of a call does, by where the call stands. -/
def Next (p : Fin nproc) (x : Args) (m m' : Mmaps) : Pc → Prop
  | .check            => ∃ c, (c = none ∨ x.valid = true ∧ c = some (x, .alloc)) ∧ Moved p c none m m'
  | .alloc            => ∃ i, m.sys.free = some i ∧ Moved p (some (x, .store i x.stores)) none m m'
  | .store i (st :: l) => Moved p (some (x, .store i l)) (some i) m m' ∧
    m'.sys.maps i = st.area m.sys.ofileAt p x (m.sys.maps i)
  | .store i []       => ∃ pc, (pc = .ret i ∨ pc = .refuse i ∨ ∃ w, pc = .populate i w 0) ∧
    Moved p (some (x, pc)) none m m'
  | .refuse i         => Moved p none (some i) m m'
  | .populate i w n   => ∃ pc, (pc = .ret i ∨ pc = .populate i w (n + 1)) ∧ Moved p (some (x, pc)) none m m'
  | .ret _            => Moved p none none m m'

theorem advance_wp (pc : Pc) : Prog.wp (advance p x pc) (fun _ m' => Next p x m m' pc) (fun _ => True) m := by
  cases pc with
  | check =>
    refine Prog.wp_ite (fun _ => ⟨none, .inl rfl, .same rfl rfl rfl⟩) fun hv => ?_
    rw [Prog.wp_bind]
    refine kernel_wp checkArea_quiet fun b m' hc hm ho => Prog.wp_ite (fun _ => ?_) fun _ => ?_
    · exact ⟨none, .inl rfl, .same hc hm ho⟩
    · exact ⟨_, .inr ⟨by simpa using hv, rfl⟩, .same hc hm ho⟩
  | alloc =>
    unfold advance kernel
    rw [Prog.wp_bind, Prog.wp_zoom]
    refine mallock_wp.imp fun r s hr => ?_
    obtain ⟨rfl, rfl⟩ := hr
    cases hf : m.sys.free with
    | none => trivial
    | some i => exact ⟨i, hf, .same rfl rfl rfl⟩
  | store i l =>
    cases l with
    | nil =>
      have hread : ∀ m' : Mmaps, m'.call = m.call → m'.sys.maps = m.sys.maps → m'.sys.ofileAt = m.sys.ofileAt →
          ∀ pc, (pc = .ret i ∨ pc = .refuse i ∨ ∃ w, pc = .populate i w 0) →
            Next p x m (m'.goto p (some (x, pc))) (.store i []) :=
        fun m' hc hm ho pc hpc => ⟨pc, hpc, .same hc hm ho⟩
      unfold advance
      rw [Prog.wp_bind]
      refine kernel_wp (Quiet.read _) fun a m₁ hc hm ho => Prog.wp_ite (fun _ => ?_) fun _ => ?_
      · exact hread m₁ hc hm ho _ (.inr (.inr ⟨_, rfl⟩))
      · rw [Prog.wp_bind]
        refine kernel_wp (compareProt_quiet p i) fun b m₂ hc' hm' ho' => Prog.wp_ite (fun _ => ?_) fun _ => ?_
        · refine hread m₂ (hc'.trans hc) (hm'.trans hm) (ho'.trans ho) _ ?_
          split
          · exact .inr (.inr ⟨_, rfl⟩)
          · exact .inl rfl
        · exact hread m₂ (hc'.trans hc) (hm'.trans hm) (ho'.trans ho) _ (.inr (.inl rfl))
    | cons st l =>
      unfold advance
      rw [Prog.wp_bind]
      refine Store.run_wp st fun m' hc hm ho hi => ⟨.goto hc (fun j hj => hm j ?_) ho, hi⟩
      rintro rfl
      exact hj rfl
  | refuse i =>
    have hset : ∀ a j, some i ≠ some j → (m.sys.setArea i a).maps j = m.sys.maps j := by
      intro a j hj
      refine if_neg ?_
      rintro rfl
      exact hj rfl
    exact ⟨rfl, hset _, rfl⟩
  | populate i w n =>
    unfold advance
    rw [Prog.wp_bind]
    refine kernel_wp (Quiet.read _) fun a m₁ hc hm ho => Prog.wp_ite (fun _ => ?_) fun _ => ?_
    · rw [Prog.wp_bind]
      refine kernel_wp (populatePage_quiet a w n) fun _ m₂ hc' hm' ho' => ?_
      exact ⟨_, .inr rfl, .same (hc'.trans hc) (hm'.trans hm) (ho'.trans ho)⟩
    · exact ⟨_, .inl rfl, .same hc hm ho⟩
  | ret i => exact Moved.same rfl rfl rfl

/-! ## Every run -/

variable {O : Fin nproc → Word → FileRef} {l : List (Fin nproc × Args × Fin nmaps)}

/-- The area that `p` asks for. -/
def Args.area (O : Fin nproc → Word → FileRef) (p : Fin nproc) (x : Args) : Area :=
  ⟨if x.plain then .null else O p x.fd, x.addr + mmapBase, x.length, x.offset, x.prot, x.flags, some p, .using⟩

theorem plain_offset (hv : x.valid = true) (hp : x.plain = true) : x.offset = 0 := by
  unfold Args.plain at hp
  rw [Bool.and_eq_true, decide_eq_true_eq] at hp
  unfold Args.valid validArgs at hv
  rw [if_pos hp.2] at hv
  simp only [Bool.and_eq_true, decide_eq_true_eq] at hv
  exact hv.2.2

theorem stores_area (hv : x.valid = true) (b : Area) (hb : x.plain = true → b.offset = 0) :
    x.stores.foldl (Store.area O p x) b = x.area O p := by
  unfold Args.stores Args.fileStores Args.area
  cases hp : x.plain with
  | true =>
    have ho := plain_offset hv hp
    rw [if_pos rfl, if_pos rfl, ho, ← hb hp]
    rfl
  | false =>
    rw [if_neg Bool.false_ne_true, if_neg Bool.false_ne_true]
    cases x.populate <;> rfl

def Held (O : Fin nproc → Word → FileRef) (p : Fin nproc) (x : Args) (maps : Fin nmaps → Area) : Pc → Prop
  | .check          => True
  | .alloc          => x.valid = true
  | .store i l      => x.valid = true ∧ ∃ done b, done ++ l = x.stores ∧
    maps i = done.foldl (Store.area O p x) b ∧ (x.plain = true → b.offset = 0)
  | .refuse _       => True
  | .populate i _ _ => maps i = x.area O p
  | .ret i          => maps i = x.area O p

theorem held_congr {maps maps' : Fin nmaps → Area} {pc : Pc} (h : ∀ i, pc.slot = some i → maps' i = maps i) :
    Held O p x maps pc → Held O p x maps' pc := by
  cases pc with
  | check => exact id
  | alloc => exact id
  | refuse i => exact id
  | store i l =>
    rintro ⟨hv, done, b, hd, ha, hb⟩
    exact ⟨hv, done, b, hd, (h i rfl).trans ha, hb⟩
  | populate i w n => exact fun hi => (h i rfl).trans hi
  | ret i => exact fun hi => (h i rfl).trans hi

theorem owns_iff {q : Fin nproc} {i : Fin nmaps} :
    m.owns q i = true ↔ ∃ y pc, m.call q = some (y, pc) ∧ pc.slot = some i := by
  unfold Mmaps.owns
  split
  · rename_i y pc h
    simp [h]
  · rename_i h
    simp [h]

/-- The invariant: a call that has been given an area has stored in it what `Held` says, no two calls have been given
the same, and those that have returned theirs, all different, left them as asked for and to themselves. -/
structure Apart (O : Fin nproc → Word → FileRef) (l : List (Fin nproc × Args × Fin nmaps)) (m : Mmaps) : Prop where
  ofile : m.sys.ofileAt = O
  held  : ∀ p x pc, m.call p = some (x, pc) → Held O p x m.sys.maps pc
  own   : ∀ p q i, m.owns p i = true → m.owns q i = true → p = q
  back  : ∀ r ∈ l, m.sys.maps r.2.2 = r.2.1.area O r.1 ∧ ∀ q, m.owns q r.2.2 = false
  apart : l.Pairwise fun r r' => r.2.2 ≠ r'.2.2

theorem Apart.moved {c : Option (Args × Pc)} {k : Option (Fin nmaps)} (hA : Apart O l m) (hm : Moved p c k m m')
    (hk : ∀ i, k = some i → m.owns p i = true) (hh : ∀ y pc, c = some (y, pc) → Held O p y m'.sys.maps pc)
    (hc : ∀ i, m'.owns p i = true → m.owns p i = true ∨ (∀ q, m.owns q i = false) ∧ ∀ r ∈ l, r.2.2 ≠ i) :
    Apart O l m' := by
  have hp : m'.call p = c := by
    rw [hm.call]
    exact if_pos rfl
  have hq : ∀ q, q ≠ p → m'.call q = m.call q := by
    intro q hne
    rw [hm.call]
    exact if_neg hne
  have howns : ∀ q i, q ≠ p → m'.owns q i = m.owns q i := by
    intro q i hne
    unfold Mmaps.owns
    rw [hq q hne]
  have hsame : ∀ q i, q ≠ p → m.owns q i = true → m'.sys.maps i = m.sys.maps i := by
    intro q i hne hqi
    exact hm.maps i fun h => hne (hA.own q p i hqi (hk i h))
  have hpq : ∀ q i, q ≠ p → m'.owns q i = true → m'.owns p i = true → False := by
    intro q i hne hqi hpi
    rw [howns q i hne] at hqi
    rcases hc i hpi with h | h
    · exact hne (hA.own q p i hqi h)
    · rw [h.1 q] at hqi
      cases hqi
  refine ⟨hm.ofile.trans hA.ofile, fun q y pc hqc => ?_, fun q q' i hqi hqi' => ?_, fun r hr => ⟨?_, fun q => ?_⟩,
    hA.apart⟩
  · by_cases hne : q = p
    · subst hne
      exact hh y pc (hp.symm.trans hqc)
    · rw [hq q hne] at hqc
      exact held_congr (fun i hi => hsame q i hne (owns_iff.2 ⟨y, pc, hqc, hi⟩)) (hA.held q y pc hqc)
  · by_cases hne : q = p
    · subst hne
      by_contra hne'
      exact hpq q' i (fun h => hne' h.symm) hqi' hqi
    · by_cases hne' : q' = p
      · subst hne'
        exact (hpq q i hne hqi hqi').elim
      · rw [howns q i hne] at hqi
        rw [howns q' i hne'] at hqi'
        exact hA.own q q' i hqi hqi'
  · obtain ⟨ha, ho⟩ := hA.back r hr
    refine (hm.maps r.2.2 fun h => ?_).trans ha
    have hown := hk _ h
    rw [ho p] at hown
    cases hown
  · by_cases hne : q = p
    · subst hne
      by_contra hqi
      rcases hc r.2.2 (by simpa using hqi) with h | h
      · rw [(hA.back r hr).2 q] at h
        cases h
      · exact h.2 r hr rfl
    · rw [howns q _ hne]
      exact (hA.back r hr).2 q

theorem Moved.owns {c : Option (Args × Pc)} {k : Option (Fin nmaps)} (hm : Moved p c k m m') {i : Fin nmaps}
    (h : m'.owns p i = true) : ∃ y pc, c = some (y, pc) ∧ pc.slot = some i := by
  obtain ⟨y, pc, hc, hi⟩ := owns_iff.1 h
  rw [hm.call, show (m.goto p c).call p = c from if_pos rfl] at hc
  exact ⟨y, pc, hc, hi⟩

theorem fresh_alloc (hA : Apart O l m) (hp : m.call p = some (x, .alloc)) {i : Fin nmaps} (hi : m.sys.free = some i)
    (hf : m.fresh p = true) : ((∀ q, m.owns q i = false) ∧ ∀ r ∈ l, r.2.2 ≠ i) ∧
      (x.plain = true → (m.sys.maps i).offset = 0) := by
  unfold Mmaps.fresh at hf
  rw [hp, hi] at hf
  simp only [Bool.and_eq_true, List.all_eq_true, List.mem_finRange, Bool.not_eq_true', forall_const, Bool.or_eq_true,
    decide_eq_true_eq] at hf
  refine ⟨⟨hf.1, fun r hr h => ?_⟩, fun hx => hf.2.resolve_left (by rw [hx]; decide)⟩
  -- a returned area is in use
  have hfree := (findArea_some.1 hi).1
  rw [← h, (hA.back r hr).1] at hfree
  cases (of_decide_eq_true hfree : MemState.using = .unusing)

theorem advance_apart {pc : Pc} (hA : Apart O l m) (hp : m.call p = some (x, pc)) (hf : m.fresh p = true)
    (hn : Next p x m m' pc) (hr : ∀ i, pc ≠ .ret i) : Apart O l m' := by
  have hown : ∀ i, pc.slot = some i → m.owns p i = true := fun i hi => owns_iff.2 ⟨x, pc, hp, hi⟩
  have hheld := hA.held p x pc hp
  cases pc with
  | check =>
    obtain ⟨c, hc, hm⟩ := hn
    refine hA.moved hm (fun i h => by cases h) (fun y pc h => ?_) fun i h => ?_
    · rcases hc with rfl | ⟨hv, rfl⟩
      · cases h
      · cases h
        exact hv
    · obtain ⟨y, pc, h, hi⟩ := hm.owns h
      rcases hc with rfl | ⟨-, rfl⟩ <;> cases h
      cases hi
  | alloc =>
    obtain ⟨i, hi, hm⟩ := hn
    obtain ⟨hnone, hoff⟩ := fresh_alloc hA hp hi hf
    refine hA.moved hm (fun i h => by cases h) (fun y pc h => ?_) fun j h => ?_
    · cases h
      rw [show m'.sys.maps = m.sys.maps from funext fun j => hm.maps j (by simp)]
      exact ⟨hheld, [], _, rfl, rfl, hoff⟩
    · obtain ⟨y, pc, h, hj⟩ := hm.owns h
      cases h
      cases hj
      exact .inr hnone
  | store i l =>
    cases l with
    | nil =>
      obtain ⟨pc, hpc, hm⟩ := hn
      obtain ⟨hv, done, b, hd, ha, hb⟩ := hheld
      rw [List.append_nil] at hd
      rw [hd, stores_area hv b hb] at ha
      have ha' : m'.sys.maps i = x.area O p := (hm.maps i (by simp)).trans ha
      refine hA.moved hm (fun i h => by cases h) (fun y pc h => ?_) fun j h => .inl (hown j ?_)
      · cases h
        rcases hpc with rfl | rfl | ⟨w, rfl⟩
        · exact ha'
        · trivial
        · exact ha'
      · obtain ⟨y, pc, h, hj⟩ := hm.owns h
        cases h
        rcases hpc with rfl | rfl | ⟨w, rfl⟩ <;> exact hj
    | cons st l =>
      obtain ⟨hm, hi⟩ := hn
      obtain ⟨hv, done, b, hd, ha, hb⟩ := hheld
      refine hA.moved hm (fun j h => hown j h) (fun y pc h => ?_) fun j h => .inl (hown j ?_)
      · cases h
        refine ⟨hv, done ++ [st], b, by rw [← hd, List.append_assoc]; rfl, ?_, hb⟩
        rw [hi, ha, List.foldl_append, hA.ofile]
        rfl
      · obtain ⟨y, pc, h, hj⟩ := hm.owns h
        cases h
        exact hj
  | refuse i =>
    refine hA.moved hn (fun j h => hown j h) (fun y pc h => by cases h) fun j h => ?_
    obtain ⟨y, pc, h, -⟩ := hn.owns h
    cases h
  | populate i w n =>
    obtain ⟨pc, hpc, hm⟩ := hn
    have ha' : m'.sys.maps i = x.area O p := (hm.maps i (by simp)).trans hheld
    refine hA.moved hm (fun i h => by cases h) (fun y pc h => ?_) fun j h => .inl (hown j ?_)
    · cases h
      rcases hpc with rfl | rfl <;> exact ha'
    · obtain ⟨y, pc, h, hj⟩ := hm.owns h
      cases h
      rcases hpc with rfl | rfl <;> exact hj
  | ret i => exact absurd rfl (hr i)

theorem ret_apart {i : Fin nmaps} (hA : Apart O l m) (hp : m.call p = some (x, .ret i)) :
    Apart O (l ++ [(p, x, i)]) (m.goto p none) := by
  have hm : Moved p none none m (m.goto p none) := .same rfl rfl rfl
  have hown : m.owns p i = true := owns_iff.2 ⟨x, _, hp, rfl⟩
  have hnone : ∀ j, (m.goto p none).owns p j = false := by
    intro j
    by_contra h
    obtain ⟨y, pc, h, -⟩ := hm.owns (by simpa using h)
    cases h
  have hA' : Apart O l (m.goto p none) := by
    refine hA.moved hm (fun i h => by cases h) (fun y pc h => by cases h) fun j h => ?_
    rw [hnone j] at h
    cases h
  refine ⟨hA'.ofile, hA'.held, hA'.own, fun r hr => ?_, ?_⟩
  · rcases List.mem_append.1 hr with hr | hr
    · exact hA'.back r hr
    · obtain rfl := List.mem_singleton.1 hr
      refine ⟨hA.held p x _ hp, fun q => ?_⟩
      by_cases hq : q = p
      · subst hq
        exact hnone i
      · by_contra h
        have hqi : m.owns q i = true := by
          have hgoto : (m.goto p none).owns q i = true := by simpa using h
          obtain ⟨y, pc, hc, hi⟩ := owns_iff.1 hgoto
          exact owns_iff.2 ⟨y, pc, (if_neg hq).symm.trans hc, hi⟩
        exact hq (hA.own q p i hqi hown)
  · refine List.pairwise_append.2 ⟨hA.apart, List.pairwise_singleton _ _, fun r hr r' hr' h => ?_⟩
    obtain rfl := List.mem_singleton.1 hr'
    have hback := (hA.back r hr).2 p
    rw [h, hown] at hback
    cases hback

theorem advance_quiet {pc : Pc} (hr : ∀ i, pc ≠ .ret i) :
    Quiet (fun _ => ()) (fun e => ∃ e', e = .kernel e') (advance p x pc) := by
  have hk : ∀ {α : Type} (c : M α), Quiet (fun _ => ()) (fun e => ∃ e', e = .kernel e') (kernel c) :=
    fun c => Quiet.zoom (fun _ e _ => ⟨e, rfl⟩) (fun _ _ => rfl)
  have hg : ∀ c, Quiet (fun _ => ()) (fun e => ∃ e', e = .kernel e') (goto p c) := fun c => Quiet.modify fun _ => rfl
  cases pc with
  | check =>
    exact Quiet.ite (fun _ => hg _) fun _ => Quiet.bind (hk _) fun _ => Quiet.ite (fun _ => hg _) fun _ => hg _
  | alloc =>
    refine Quiet.bind (hk _) fun o => ?_
    cases o with
    | none => exact Quiet.stop _
    | some i => exact hg _
  | store i l =>
    cases l with
    | nil =>
      exact Quiet.bind (hk _) fun _ => Quiet.ite (fun _ => hg _) fun _ => Quiet.bind (hk _) fun _ =>
        Quiet.ite (fun _ => hg _) fun _ => hg _
    | cons st l => exact Quiet.bind (hk _) fun _ => hg _
  | refuse i => exact Quiet.bind (hk _) fun _ => hg _
  | populate i w n =>
    exact Quiet.bind (hk _) fun _ => Quiet.ite (fun _ => Quiet.bind (hk _) fun _ => hg _) fun _ => hg _
  | ret i => exact absurd rfl (hr i)

theorem mapped_kernel {h : List MmapEvent} (hk : ∀ e ∈ h, ∃ e', e = .kernel e') : mapped h = [] := by
  refine List.filterMap_eq_nil_iff.2 fun e he => ?_
  obtain ⟨e', rfl⟩ := hk e he
  rfl

theorem turn_call_run : turn (.call p x) m = match m.call p with
    | some _ => ⟨.ok (), m, []⟩
    | none   => ⟨.ok (), m.goto p (some (x, .check)), []⟩ := by
  simp only [turn, Prog.read_bind_run]
  cases m.call p <;> rfl

theorem turn_next_run : turn (.next p) m = match m.call p with
    | none         => ⟨.ok (), m, []⟩
    | some (x, pc) => advance p x pc m := by
  simp only [turn, Prog.read_bind_run]
  cases m.call p <;> rfl

theorem turn_apart {h : List MmapEvent} {t : Turn} (hA : Apart O (mapped h) m) (hf : Unshared m t)
    (hok : (turn t m).res = .ok ()) : Apart O (mapped (h ++ (turn t m).tr)) (turn t m).st := by
  cases t with
  | call p x =>
    rw [turn_call_run]
    cases hp : m.call p with
    | some c => simpa using hA
    | none =>
      rw [List.append_nil]
      have hm : Moved p (some (x, .check)) none m (m.goto p (some (x, .check))) := .same rfl rfl rfl
      refine hA.moved hm (fun i h => by cases h) (fun y pc h => ?_) fun i h => ?_
      · cases h
        trivial
      · obtain ⟨y, pc, h, hi⟩ := hm.owns h
        cases h
        cases hi
  | next p =>
    rw [turn_next_run] at hok ⊢
    cases hp : m.call p with
    | none => simpa using hA
    | some c =>
      obtain ⟨x, pc⟩ := c
      rw [hp] at hok
      by_cases hr : ∃ i, pc = .ret i
      · obtain ⟨i, rfl⟩ := hr
        have hmap : mapped (h ++ [.mapped p x i]) = mapped h ++ [(p, x, i)] := by
          unfold mapped
          rw [List.filterMap_append]
          rfl
        have := ret_apart hA hp
        rw [← hmap] at this
        exact this
      · have hne : ∀ i, pc ≠ .ret i := fun i h => hr ⟨i, h⟩
        have hmap : mapped (h ++ (advance p x pc m).tr) = mapped h := by
          unfold mapped
          rw [List.filterMap_append]
          exact (congrArg (mapped h ++ ·) (mapped_kernel (advance_quiet hne m).2)).trans (List.append_nil _)
        have hstep := advance_apart hA hp hf ((advance_wp pc).ok hok) hne
        rw [← hmap] at hstep
        exact hstep

/-! ## Steps that stop -/

theorem kernel_maps {α : Type} {c : M α} (hc : Quiet Sys.slots (fun _ => True) c) :
    Quiet (fun m : Mmaps => m.sys.maps) (fun _ => True) (kernel c) :=
  fun m => ⟨congrArg Prod.fst (hc m.sys).1, fun _ _ => trivial⟩

theorem goto_maps {c : Option (Args × Pc)} : Quiet (fun m : Mmaps => m.sys.maps) (fun _ => True) (goto p c) :=
  Quiet.modify fun _ => rfl

theorem Store.run_stopped {st : Store} {i : Fin nmaps} {s : Sys} {e : Stop} (he : (st.run p x i s).res = .error e) :
    (st.run p x i s).st.maps = s.maps := by
  cases st with
  | fileOff =>
    have hquiet : Quiet Sys.slots (fun _ => True) (Store.run p x i .fileOff) :=
      Quiet.bind (Quiet.read _) fun f => setOff_quiet slots_view p f _
    exact congrArg Prod.fst (hquiet s).1
  | file =>
    simp only [Store.run, Prog.read_bind_run] at he ⊢
    cases hp : (s.maps i).p with
    | none => rfl
    | some q =>
      rw [hp] at he
      cases he
  | _ => cases he

theorem advance_stopped {pc : Pc} {e : Stop} (he : (advance p x pc m).res = .error e) :
    (advance p x pc m).st.sys.maps = m.sys.maps := by
  cases pc with
  | check =>
    exact (Quiet.ite (fun _ => goto_maps) (fun _ => Quiet.bind (kernel_maps checkArea_quiet) fun _ =>
      Quiet.ite (fun _ => goto_maps) fun _ => goto_maps) m).1
  | alloc =>
    refine (Quiet.bind (kernel_maps (mallock_quiet fun _ _ => rfl)) (fun o => ?_) m).1
    cases o with
    | none => exact Quiet.stop _
    | some i => exact goto_maps
  | store i l =>
    cases l with
    | nil =>
      exact (Quiet.bind (kernel_maps (Quiet.read _)) (fun _ => Quiet.ite (fun _ => goto_maps) fun _ =>
        Quiet.bind (kernel_maps (compareProt_quiet p i)) fun _ => Quiet.ite (fun _ => goto_maps) fun _ => goto_maps) m).1
    | cons st l =>
      -- of the two parts only the assignment can stop
      cases hr : (st.run p x i m.sys).res with
      | error e' =>
        have hrun : advance p x (.store i (st :: l)) m = ⟨.error e', { m with sys := (st.run p x i m.sys).st }, _⟩ :=
          Prog.bind_run_error (congrArg (Outcome.mk · _ _) hr)
        rw [hrun]
        exact Store.run_stopped hr
      | ok _ =>
        have hrun : advance p x (.store i (st :: l)) m = _ := Prog.bind_run_ok (congrArg (Outcome.mk · _ _) hr)
        rw [hrun] at he
        cases he
  | refuse i => cases he
  | populate i w n =>
    exact (Quiet.bind (kernel_maps (Quiet.read _)) (fun a => Quiet.ite
      (fun _ => Quiet.bind (kernel_maps (populatePage_quiet a w n)) fun _ => goto_maps) fun _ => goto_maps) m).1
  | ret i => cases he

theorem turn_stopped {t : Turn} {e : Stop} (he : (turn t m).res = .error e) :
    (turn t m).st.sys.maps = m.sys.maps ∧ mapped (turn t m).tr = [] := by
  cases t with
  | call p x =>
    rw [turn_call_run] at he
    cases hp : m.call p with
    | _ => rw [hp] at he; cases he
  | next p =>
    rw [turn_next_run] at he ⊢
    cases hp : m.call p with
    | none => rw [hp] at he; cases he
    | some c =>
      obtain ⟨x, pc⟩ := c
      rw [hp] at he
      refine ⟨advance_stopped he, mapped_kernel (advance_quiet (fun i h => ?_) m).2⟩
      subst h
      cases he

/-- The areas returned differ, and the table has each of them as asked for. -/
structure Kept (O : Fin nproc → Word → FileRef) (l : List (Fin nproc × Args × Fin nmaps))
    (maps : Fin nmaps → Area) : Prop where
  apart : l.Pairwise fun r r' => r.2.2 ≠ r'.2.2
  area  : ∀ r ∈ l, maps r.2.2 = r.2.1.area O r.1

theorem Apart.kept {l : List (Fin nproc × Args × Fin nmaps)} (h : Apart O l m) : Kept O l m.sys.maps :=
  ⟨h.apart, fun r hr => (h.back r hr).1⟩

theorem turn_traced (t : Turn) : Prog.Traced (fun h m => Apart O (mapped h) m ∧ Unshared m t) (turn t)
    (fun _ h m => Apart O (mapped h) m) (fun _ h m => Kept O (mapped h) m.sys.maps) := by
  rintro h m ⟨hA, hf⟩
  refine ⟨fun _ hok => turn_apart hA hf hok, fun e he => ?_⟩
  obtain ⟨hmaps, hnone⟩ := turn_stopped he
  have hmap : mapped (h ++ (turn t m).tr) = mapped h := by
    unfold mapped at hnone ⊢
    rw [List.filterMap_append, hnone, List.append_nil]
  rw [hmap, hmaps]
  exact hA.kept

theorem mmapRun_kept {h : List MmapEvent} {turns : List Turn} (hA : Apart O (mapped h) m)
    (hc : Prog.Admits Unshared turn turns m) :
    Kept O (mapped (h ++ (mmapRun turns m).tr)) (mmapRun turns m).st.sys.maps := by
  obtain ⟨hok, hstop⟩ := Prog.Traced.admits turn_traced turns h m ⟨hA, hc⟩
  cases hr : (mmapRun turns m).res with
  | ok a    => exact (hok a hr).kept
  | error e => exact hstop e hr

/-- Every process has one file open for reading, and no area is in use. -/
def idle : Mmaps where
  sys  := { sample with ofile := fun _ => sample.ofile 0 }
  call := fun _ => none

def askOne : Args := ⟨0, 4096, protRead, 0, 3, 0⟩
def askTwo : Args := ⟨0x10000#32, 8192, protRead, 0, 3, 4096⟩

def steps (n : Nat) (p : Fin nproc) : List Turn := List.replicate n (.next p)

/-- Two processes call `mmap`; the second looks for an entry when the first has stored `USING`. -/
def takeTurns : List Turn :=
  .call 0 askOne :: .call 1 askTwo :: .next 1 :: (steps 9 0 ++ steps 13 1 ++ steps 5 0)

/-- The same, where both have looked for an entry before one stores anything. -/
def race : List Turn :=
  .call 0 askOne :: .call 1 askTwo :: (steps 2 0 ++ steps 2 1 ++ steps 12 0 ++ steps 12 1)

end Vm
end Xv6
