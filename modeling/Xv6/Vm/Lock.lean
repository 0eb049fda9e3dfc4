import Xv6.Vm.Calls
import Xv6.Vm.Faults
import Xv6.Vm.Pages
/-!
# Vm.Lock — who holds mtable.lock

`mmap`, `munmap` and the page fault acquire `mtable.lock` when they do not hold it, release it before they call
`fileread`, and return without it.  `map_fork` calls `mallock`, which acquires it again: it ends in a panic as soon as
the parent has an area.
-/
namespace Xv6
namespace Vm

open Mem
open Prog (Stops)
open Sched (nproc)

/-- A stop that is not the lock's. -/
def Other (e : Stop) : Prop := e ≠ .panic "acquire" ∧ e ≠ .panic "release"

/-- `fileread` is called without the lock. -/
def Calm (e : Event) : Prop := ∀ b, e = .fileread b → b = false

/-- From the lock held as `b` says, `c` ends with it held as `b'` says, if at all; it is not stopped at the lock, and
does not call `fileread` with it. -/
def Locks {α : Type} (b b' : Bool) (c : M α) : Prop :=
  ∀ s, s.locked = b → Prog.wp c (fun _ t => t.locked = b') Other s ∧ ∀ e ∈ (c s).tr, Calm e

theorem other_wild : Other .wild := ⟨nofun, nofun⟩
theorem other_diverge : Other .diverge := ⟨nofun, nofun⟩
theorem other_remap : Other (.panic "remap") := by unfold Other; decide
theorem other_kfree : Other (.panic "kfree") := by unfold Other; decide
theorem other_fileread : Other (.panic "fileread") := by unfold Other; decide

namespace Locks

variable {α β : Type} {b b' b'' : Bool}

protected theorem pure (a : α) : Locks b b (pure a : M α) := fun _ hs => ⟨hs, fun e he => by cases he⟩
protected theorem read (g : Sys → α) : Locks b b (Prog.read g : M α) := fun _ hs => ⟨hs, fun e he => by cases he⟩
protected theorem get : Locks b b (Prog.get : M Sys) := fun _ hs => ⟨hs, fun e he => by cases he⟩

protected theorem stop {e : Stop} (h : Other e) : Locks b b' (Prog.stop e : M α) :=
  fun _ _ => ⟨h, fun e he => by cases he⟩

protected theorem modify {f : Sys → Sys} (h : ∀ s, (f s).locked = s.locked) : Locks b b (Prog.modify f : M Unit) :=
  fun s hs => ⟨(h s).trans hs, fun e he => by cases he⟩

protected theorem emit {e : Event} (h : Calm e) : Locks b b (Prog.emit e : M Unit) :=
  fun s hs => ⟨hs, fun e' he => by rw [List.mem_singleton.1 he]; exact h⟩

protected theorem bind {c : M α} {f : α → M β} (hc : Locks b b' c) (hf : ∀ a, Locks b' b'' (f a)) :
    Locks b b'' (c >>= f) := by
  intro s hs
  obtain ⟨h1, h2⟩ := hc s hs
  refine ⟨Prog.wp_bind.2 (h1.imp fun a t ht => (hf a t ht).1), ?_⟩
  rw [Prog.bind_run]
  rcases hcs : c s with ⟨r, t, l⟩
  rw [hcs] at h2
  cases r with
  | error e => exact h2
  | ok a =>
    have ht : t.locked = b' := by
      have hok := h1.ok (a := a) (by rw [hcs])
      rwa [hcs] at hok
    intro e he
    rcases List.mem_append.1 he with he | he
    · exact h2 e he
    · exact (hf a t ht).2 e he

theorem ite {P : Prop} [Decidable P] {c d : M α} (hc : P → Locks b b' c) (hd : ¬ P → Locks b b' d) :
    Locks b b' (if P then c else d) := by
  split
  · exact hc ‹_›
  · exact hd ‹_›

theorem when {P : Prop} [Decidable P] {c : M Unit} (hc : P → Locks b b c) : Locks b b (Prog.when P c) :=
  ite hc fun _ => Locks.pure ()

protected theorem forEach {body : β → M Unit} : ∀ l : List β, (∀ x ∈ l, Locks b b (body x)) →
    Locks b b (Prog.forEach l body)
  | [], _     => Locks.pure ()
  | x :: l, h => (h x List.mem_cons_self).bind fun _ => Locks.forEach l fun y hy => h y (List.mem_cons_of_mem x hy)

theorem mm {c : V α} (hc : Stops Other c) : Locks b b (mm c) := by
  intro s hs
  refine ⟨(hc s.phys).imp fun _ _ _ => hs, fun e he => ?_⟩
  obtain ⟨x, -, rfl⟩ := List.mem_map.1 he
  exact fun b h => by cases h

theorem follow (f : Sys → Option α) : Locks b b (follow f) := by
  refine Locks.bind (Locks.read f) fun o => ?_
  cases o with
  | none => exact Locks.stop other_wild
  | some a => exact Locks.pure a

theorem acquire : Locks false true acquire := by
  intro s hs
  rw [acquire_run hs]
  exact ⟨Prog.wp_of_run (acquire_run hs) rfl, fun e he => by cases he⟩

theorem release : Locks true false release := by
  intro s hs
  rw [release_run hs]
  exact ⟨Prog.wp_of_run (release_run hs) rfl, fun e he => by cases he⟩

theorem mallock : Locks false false mallock :=
  Locks.bind Locks.acquire fun _ => Locks.bind (Locks.read _) fun _ => Locks.bind Locks.release fun _ => Locks.pure _

/-! ## The functions of the mapping calls -/

variable {p : Fin nproc}

theorem fileReadable (f : FileRef) : Locks b b (fileReadable p f) := by
  cases f with
  | null => exact Locks.bind (Locks.follow _) fun _ => Locks.read _
  | file i => exact Locks.read _
  | wild => exact Locks.stop other_wild

theorem fileWritable (f : FileRef) : Locks b b (fileWritable p f) := by
  cases f with
  | null => exact Locks.bind (Locks.follow _) fun _ => Locks.read _
  | file i => exact Locks.read _
  | wild => exact Locks.stop other_wild

theorem setOff (f : FileRef) (off : Word) : Locks b b (setOff p f off) := by
  cases f with
  | null => exact Locks.bind (Locks.follow _) fun _ => Locks.modify fun _ => rfl
  | file i => exact Locks.modify fun _ => rfl
  | wild => exact Locks.stop other_wild

theorem fileread (f : FileRef) (n : Word) : Locks b b (fileread p f n) := by
  cases f with
  | file i =>
    refine Locks.bind (Locks.read _) fun fl => Locks.ite (fun _ => Locks.pure _) fun _ => ?_
    cases fl.kind with
    | none => exact Locks.stop other_fileread
    | pipe q => exact Locks.bind (Locks.modify fun _ => rfl) fun _ => Locks.pure _
    | inode data _ => exact Locks.bind (Locks.modify fun _ => rfl) fun _ => Locks.pure _
    | dev q => exact Locks.bind (Locks.modify fun _ => rfl) fun _ => Locks.pure _
  | _ => exact Locks.bind (Locks.fileReadable _) fun _ => Locks.ite (fun _ => Locks.stop other_wild) fun _ => Locks.pure _

theorem readPage (f : FileRef) (page : Frame) : Locks false false (readPage p f page) := by
  intro s hs
  have hcalm : Calm (.fileread s.locked) := fun b h => by cases h; exact hs
  refine Locks.bind (Locks.emit hcalm) (fun _ => Locks.bind (Locks.fileread f pgsize) fun o => ?_) s hs
  cases o with
  | none => exact Locks.pure ()
  | some bytes => exact Locks.modify fun _ => rfl

theorem zeroedPage : Locks b b zeroedPage :=
  Locks.bind (Locks.mm (kallocPage_stops other_wild)) fun page =>
    Locks.bind (Locks.mm (memset_stops page 0)) fun _ => Locks.pure _

theorem mapPage (va : Addr) (page : Frame) (perm : Pte) : Locks b b (mapPage p va page perm) :=
  Locks.bind (Locks.follow _) fun g => Locks.bind (Locks.mm (mappages_stops other_diverge other_remap g va pgsize _ perm))
    fun _ =>
    Locks.modify fun _ => rfl

theorem compareProt (i : Fin nmaps) : Locks b b (compareProt p i) :=
  Locks.bind (Locks.read _) fun _ => Locks.bind (Locks.fileReadable _) fun _ => Locks.bind (Locks.fileWritable _)
    fun _ => Locks.pure _

theorem openArea (i : Fin nmaps) (fd offset : Word) : Locks b b (openArea p i fd offset) :=
  Locks.bind (Locks.modify fun _ => rfl) fun _ => Locks.bind (Locks.read _)
    fun f => Locks.bind (Locks.setOff f offset) fun _ =>
    Locks.bind (Locks.compareProt i) fun _ => Locks.ite (fun _ => Locks.pure _) fun _ =>
      Locks.bind (Locks.modify fun _ => rfl) fun _ => Locks.pure _

theorem populateAnonymous (i : Fin nmaps) : Locks b b (mapPopulateAnonymous p i) :=
  Locks.bind (Locks.read _) fun _ => Locks.forEach _ fun _ _ => Locks.bind Locks.zeroedPage fun _ => Locks.mapPage _ _ _

theorem populateFile (i : Fin nmaps) : Locks false false (mapPopulateFile p i) :=
  Locks.bind (Locks.read _) fun _ => Locks.forEach _ fun _ _ => Locks.bind Locks.zeroedPage fun _ =>
    Locks.bind (Locks.readPage _ _) fun _ => Locks.bind (Locks.setOff _ _) fun _ => Locks.mapPage _ _ _

theorem mmap (addr length prot flags fd offset : Word) :
    Locks false false (mmap p addr length prot flags fd offset) := by
  refine Locks.ite (fun _ => Locks.pure _) fun _ => Locks.bind Locks.acquire fun _ => Locks.bind (Locks.read _) fun _ =>
    Locks.bind Locks.release fun _ => Locks.ite (fun _ => Locks.pure _) fun _ => Locks.bind Locks.mallock fun o => ?_
  cases o with
  | none => exact Locks.stop other_wild
  | some i =>
    refine Locks.bind (Locks.modify fun _ => rfl) fun _ => Locks.bind (Locks.emit fun b h => by cases h) fun _ =>
      Locks.ite (fun _ => Locks.ite (fun _ => ?_) fun _ => ?_) fun _ => ?_
    · exact Locks.bind (Locks.populateAnonymous i) fun _ => Locks.pure _
    · exact Locks.bind (Locks.openArea i fd offset) fun _ =>
        Locks.ite (fun _ => Locks.bind (Locks.populateFile i) fun _ => Locks.pure _) fun _ => Locks.pure _
    · exact Locks.bind (Locks.openArea i fd offset) fun _ => Locks.ite (fun _ => Locks.pure _) fun _ => Locks.pure _

theorem unmapPage (va : Addr) : Locks b b (unmapPage p va) := by
  refine Locks.bind (Locks.follow _) fun g => Locks.bind (Locks.mm (walkpgdir_stops g va)) fun o => ?_
  cases o with
  | none => exact Locks.pure _
  | some q =>
    exact Locks.when fun _ => Locks.bind (Locks.mm (memset_stops _ 1)) fun _ =>
      Locks.bind (Locks.mm (kfree_stops other_kfree _)) fun _ => Locks.modify fun _ => rfl

theorem munmap (addr : Addr) : Locks false false (munmap p addr) := by
  refine Locks.bind Locks.acquire fun _ => Locks.bind (Locks.read _)
    fun _ => Locks.bind (Locks.emit fun b h => by cases h) fun _ =>
    Locks.bind (Locks.read _) fun o => ?_
  cases o with
  | none => exact Locks.bind Locks.release fun _ => Locks.pure _
  | some i =>
    exact Locks.bind (Locks.read _) fun a => Locks.bind (Locks.forEach _ fun n _ => Locks.unmapPage _) fun _ =>
      Locks.bind (Locks.modify fun _ => rfl) fun _ => Locks.bind Locks.release fun _ => Locks.pure _

theorem pageFaultHandler (addr : Addr) (io : Word) : Locks false false (pageFaultHandler p addr io) := by
  refine Locks.bind Locks.acquire fun _ => Locks.bind (Locks.read _) fun o => ?_
  cases o with
  | none => exact Locks.bind Locks.release fun _ => Locks.pure _
  | some i =>
    refine Locks.bind (Locks.read _) fun a => Locks.ite (fun _ => Locks.bind Locks.release fun _ => Locks.pure _) fun _ => ?_
    have hfile : ∀ (f : FileRef) (mark : Sys → Frame → M Unit), (∀ s page, Locks false false (mark s page)) →
        Locks true false (do
          let page ← Vm.zeroedPage
          Vm.release
          let s ← Prog.get
          Vm.readPage p f page
          mark s page
          Vm.setOff p f a.offset
          Vm.acquire
          Vm.mapPage p (pgRoundDown addr) page ((if (1#32).slt a.prot then pteW else 0) ||| pteU)
          Vm.release
          pure (1 : Int) : M Int) := fun f mark hmark =>
      Locks.bind Locks.zeroedPage fun page => Locks.bind Locks.release fun _ => Locks.bind Locks.get fun s =>
        Locks.bind (Locks.readPage f page) fun _ => Locks.bind (hmark s page) fun _ => Locks.bind (Locks.setOff f _) fun _ =>
          Locks.bind Locks.acquire fun _ => Locks.bind (Locks.mapPage _ page _)
            fun _ => Locks.bind Locks.release fun _ => Locks.pure _
    cases a.f with
    | null =>
      exact Locks.bind Locks.zeroedPage fun page => Locks.bind (Locks.mapPage _ page _) fun _ =>
        Locks.bind Locks.release fun _ => Locks.pure _
    | file j =>
      exact hfile (.file j) (fun s page => do
        let filled ← Prog.read (·.phys.mem page)
        Prog.emit (.fill ⟨a, pgRoundDown addr, s.file j, filled⟩))
        fun s page => Locks.bind (Locks.read _) fun _ => Locks.emit fun b h => by cases h
    | wild => exact hfile .wild (fun _ _ => pure ()) fun _ _ => Locks.pure ()

end Locks

/-! ## map_fork -/

variable {p np : Fin nproc} {s : Sys}

theorem mapFork_none (hs : s.locked = false) (h : ∀ i, (s.maps i).ownedBy p = false) :
    mapFork p np s = ⟨.ok (), s, []⟩ := by
  have hloop : ∀ l, Prog.forEach l (forkArea mallock p np) s.lock = ⟨.ok (), s.lock, []⟩ := by
    intro l
    induction l with
    | nil => rfl
    | cons i l ih =>
      have hskip : forkArea mallock p np i s.lock = ⟨.ok (), s.lock, []⟩ := forkArea_skip (h i)
      rw [Prog.forEach_cons, Prog.bind_run_nil hskip, ih]
  rw [mapFork_eq, Prog.bind_run_nil (acquire_run hs), Prog.bind_run_nil (hloop areas), release_run rfl, unlock_lock hs]

/-- **`map_fork` of a process with an area** ends at `mallock`. -/
theorem mapFork_stop (hs : s.locked = false) {i : Fin nmaps} (h : (s.maps i).ownedBy p = true) :
    mapFork p np s = ⟨.error (.panic "acquire"), s.lock, []⟩ := by
  have hloop : ∀ l, i ∈ l → Prog.forEach l (forkArea mallock p np) s.lock =
      ⟨.error (.panic "acquire"), s.lock, []⟩ := by
    intro l
    induction l with
    | nil => exact fun hi => by cases hi
    | cons j l ih =>
      intro hi
      rw [Prog.forEach_cons]
      cases hj : (s.maps j).ownedBy p with
      | true => exact Prog.bind_run_error (forkArea_error (s := s.lock) hj (mallock_panic rfl))
      | false =>
        rcases List.mem_cons.1 hi with rfl | hi
        · rw [h] at hj
          cases hj
        · have hskip : forkArea mallock p np j s.lock = ⟨.ok (), s.lock, []⟩ := forkArea_skip hj
          rw [Prog.bind_run_nil hskip, ih hi]
  rw [mapFork_eq, Prog.bind_run_nil (acquire_run hs), Prog.bind_run_error (hloop areas (List.mem_finRange i))]

theorem mapFork_panic (hs : s.locked = false) {i : Fin nmaps} (h : (s.maps i).ownedBy p = true) :
    (mapFork p np s).res = .error (.panic "acquire") := by
  rw [mapFork_stop hs h]

/-! ## Every state -/

theorem wp_any {α : Type} (c : M α) (s : Sys) : Prog.wp c (fun _ _ => True) (fun _ => True) s := by
  unfold Prog.wp
  split <;> trivial

/-- A program that ends, when it starts without the lock, without it. -/
def Frees (α : Type) (c : M α) : Prop :=
  ∀ s : Sys, s.locked = false → Prog.wp c (fun _ t => t.locked = false) (fun _ => True) s

theorem frees_walk : Walk Frees where
  pure _ := fun _ hs => hs
  stop _ := fun _ _ => trivial
  read _ := fun _ hs => hs
  bind hc hf := fun s hs => Prog.wp_bind.2 ((hc s hs).imp fun a t ht => hf a t ht)
  modify _ _ hl := fun s hs => (hl s).trans hs
  vm c := fun s hs => by
    unfold Prog.wp
    split
    · exact hs
    · trivial
  table a := fun s hs => by
    unfold Prog.wp
    split
    · exact hs
    · trivial
  space _ := fun _ hs => hs
  freed _ _ := fun _ hs => hs

theorem Locks.frees {α : Type} {c : M α} (h : Locks false false c) : Frees α c :=
  fun s hs => (h s hs).1.mono (fun _ _ ht => ht) fun _ _ => trivial

theorem mapFork_frees (p np : Fin nproc) : Frees Unit (mapFork p np) := by
  intro s hs
  unfold mapFork
  rw [Prog.wp_bind]
  refine (wp_any _ s).imp fun _ t _ => ?_
  rw [Prog.wp_bind]
  refine (wp_any _ t).imp fun _ u _ => ?_
  cases hu : u.locked with
  | true => exact Prog.wp_of_run (release_run hu) rfl
  | false =>
    unfold release
    rw [Prog.wp_bind, Prog.wp_read, hu]
    trivial

theorem mmStep_frees (c : MmCall) : Frees Unit (mmStep c) := by
  cases c with
  | mmap p addr length prot flags fd offset =>
    exact frees_walk.bind (Locks.mmap addr length prot flags fd offset).frees fun _ => frees_walk.pure ()
  | munmap p addr => exact frees_walk.bind (Locks.munmap addr).frees fun _ => frees_walk.pure ()
  | touch p va write =>
    exact frees_walk.bind (frees_walk.follow _) fun g => frees_walk.ite (fun _ => frees_walk.pure ()) fun _ =>
      frees_walk.bind (Locks.pageFaultHandler va _).frees fun _ => frees_walk.pure ()

theorem run_locked {s : Sys} (hs : s.locked = false) (calls : List Call) :
    Prog.wp (run calls) (fun _ t => t.locked = false) (fun _ => True) s :=
  frees_walk.forEach calls (fun c _ => frees_walk.step mmStep_frees mapFork_frees c) s hs

end Vm
end Xv6
