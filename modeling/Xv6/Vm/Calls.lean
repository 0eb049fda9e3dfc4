import Xv6.Vm.Frame
import Xv6.Lib.Wp
/-!
# Vm.Calls — what one call does

`mmap`, `munmap` and the page fault read the table of areas before they touch anything.  Each is given here by cases of
what it finds there: a run that stops or returns at once, or the work that is left.
-/
namespace Xv6
namespace Vm

open Mem
open Prog (Quiet Triple)
open Sched (nproc)

variable {p : Fin nproc} {s t : Sys}

/-! ## The lock -/

def Sys.lock (s : Sys) : Sys := { s with locked := true }
def Sys.unlock (s : Sys) : Sys := { s with locked := false }

theorem unlock_lock (hs : s.locked = false) : s.lock.unlock = s := by
  cases s
  cases hs
  rfl

theorem acquire_run (hs : s.locked = false) : acquire s = ⟨.ok (), s.lock, []⟩ := by
  unfold acquire
  rw [Prog.read_bind_run, hs]
  rfl

theorem acquire_panic (hs : s.locked = true) : acquire s = ⟨.error (.panic "acquire"), s, []⟩ := by
  unfold acquire
  rw [Prog.read_bind_run, hs]
  rfl

theorem release_run (hs : s.locked = true) : release s = ⟨.ok (), s.unlock, []⟩ := by
  unfold release
  rw [Prog.read_bind_run, hs]
  rfl

def Sys.free (s : Sys) : Option (Fin nmaps) := s.findArea (fun a => decide (a.state = .unusing))

theorem mallock_run (hs : s.locked = false) : mallock s = ⟨.ok s.free, s, []⟩ := by
  unfold mallock
  rw [Prog.bind_run_nil (acquire_run hs), Prog.read_bind_run, Prog.bind_run_nil (release_run rfl), unlock_lock hs]
  rfl

theorem mallock_panic (hs : s.locked = true) : mallock s = ⟨.error (.panic "acquire"), s, []⟩ :=
  Prog.bind_run_error (acquire_panic hs)

/-! ## mmap -/

/-- Step 4 of `mmap`. -/
def mapArea (p : Fin nproc) (i : Fin nmaps) (addr flags fd offset : Word) : M Addr := do
  if flags &&& mapPopulate ≠ 0 then
    if flags &&& mapAnonymous ≠ 0 then
      mapPopulateAnonymous p i
      pure (addr + mmapBase)
    else if ← openArea p i fd offset then
      mapPopulateFile p i
      pure (addr + mmapBase)
    else pure 0
  else if ← openArea p i fd offset then pure (addr + mmapBase)
  else pure 0

def Sys.clash (s : Sys) (p : Fin nproc) (addr : Word) : Bool :=
  (s.findArea (fun a => a.covers (addr + mmapBase) && a.ownedBy p)).isSome

section Mmap

theorem clash_lock {addr : Word} : (s.lock.findArea (fun a => a.covers (addr + mmapBase) && a.ownedBy p)).isSome =
    s.clash p addr := rfl

variable {addr length prot flags fd offset : Word}

theorem mmap_invalid (hv : validArgs addr length prot flags fd offset = false) :
    mmap p addr length prot flags fd offset s = ⟨.ok 0, s, []⟩ := by
  unfold mmap
  rw [if_pos (by rw [hv]; rfl)]
  rfl

theorem mmap_locked (hv : validArgs addr length prot flags fd offset = true) (hs : s.locked = true) :
    mmap p addr length prot flags fd offset s = ⟨.error (.panic "acquire"), s, []⟩ := by
  unfold mmap
  rw [if_neg (by rw [hv]; decide), Prog.bind_run_error (acquire_panic hs)]

theorem mmap_clash (hv : validArgs addr length prot flags fd offset = true) (hs : s.locked = false)
    (hc : s.clash p addr = true) : mmap p addr length prot flags fd offset s = ⟨.ok 0, s, []⟩ := by
  unfold mmap
  rw [if_neg (by rw [hv]; decide), Prog.bind_run_nil (acquire_run hs), Prog.read_bind_run,
    Prog.bind_run_nil (release_run rfl), unlock_lock hs, if_pos (clash_lock.trans hc)]
  rfl

theorem mmap_full (hv : validArgs addr length prot flags fd offset = true) (hs : s.locked = false)
    (hc : s.clash p addr = false) (hi : s.free = none) :
    mmap p addr length prot flags fd offset s = ⟨.error .wild, s, []⟩ := by
  unfold mmap
  rw [if_neg (by rw [hv]; decide), Prog.bind_run_nil (acquire_run hs), Prog.read_bind_run,
    Prog.bind_run_nil (release_run rfl), unlock_lock hs, if_neg (ne_true_of_eq_false (clash_lock.trans hc)),
    Prog.bind_run_nil (mallock_run hs), hi]
  rfl

theorem mmap_made (hv : validArgs addr length prot flags fd offset = true) (hs : s.locked = false)
    (hc : s.clash p addr = false) {i : Fin nmaps} (hi : s.free = some i) :
    mmap p addr length prot flags fd offset s =
      (do Prog.emit (.made p i); mapArea p i addr flags fd offset : M Addr)
        (s.setArea i ((s.maps i).init p addr length prot flags)) := by
  unfold mmap
  rw [if_neg (by rw [hv]; decide), Prog.bind_run_nil (acquire_run hs), Prog.read_bind_run,
    Prog.bind_run_nil (release_run rfl), unlock_lock hs, if_neg (ne_true_of_eq_false (clash_lock.trans hc)),
    Prog.bind_run_nil (mallock_run hs), hi]
  rfl

end Mmap

/-! ## The page fault -/

section Fault

variable {addr : Addr} {io : Word}

theorem pageFaultHandler_refuses (hl : s.locked = false)
    (h : ∀ i, s.findArea (Area.faults p (pgRoundDown addr)) = some i → (s.maps i).prot.slt io = true) :
    pageFaultHandler p addr io s = ⟨.ok (-1), s, []⟩ := by
  have hfind : s.lock.findArea (Area.faults p (pgRoundDown addr)) = s.findArea (Area.faults p (pgRoundDown addr)) := rfl
  unfold pageFaultHandler
  dsimp only
  rw [Prog.bind_run_nil (acquire_run hl), Prog.read_bind_run, hfind]
  cases hi : s.findArea (Area.faults p (pgRoundDown addr)) with
  | none =>
    dsimp only
    rw [Prog.bind_run_nil (release_run rfl), unlock_lock hl]
    rfl
  | some i =>
    dsimp only
    rw [Prog.read_bind_run, if_pos (show (s.lock.maps i).prot.slt io = true from h i hi),
      Prog.bind_run_nil (release_run rfl), unlock_lock hl]
    rfl

theorem pageFaultHandler_grants (hi : s.findArea (Area.faults p (pgRoundDown addr)) = some i)
    (hio : (s.maps i).prot.slt io = false) : Prog.wp (pageFaultHandler p addr io) (fun r _ => r = 1) (fun _ => True) s := by
  have hfind : s.lock.findArea (Area.faults p (pgRoundDown addr)) = some i := hi
  cases hl : s.locked with
  | true =>
    unfold pageFaultHandler Prog.wp
    dsimp only
    rw [Prog.bind_run_error (acquire_panic hl)]
    trivial
  | false =>
    unfold pageFaultHandler
    dsimp only
    rw [Prog.wp_bind]
    refine Prog.wp_of_run (acquire_run hl) ?_
    rw [Prog.wp_bind, Prog.wp_read, hfind]
    dsimp only
    rw [Prog.wp_bind, Prog.wp_read, if_neg (show ¬ (s.lock.maps i).prot.slt io = true from ne_true_of_eq_false hio)]
    cases (s.lock.maps i).f with
    | null =>
      exact Prog.wp_bind_any fun page _ => Prog.wp_bind_any fun _ _ => Prog.wp_bind_any fun _ _ => rfl
    | file j =>
      exact Prog.wp_bind_any fun page _ => Prog.wp_bind_any fun _ _ => Prog.wp_bind_any fun _ _ =>
        Prog.wp_bind_any fun _ _ => Prog.wp_bind_any fun _ _ => Prog.wp_bind_any fun _ _ =>
        Prog.wp_bind_any fun _ _ => Prog.wp_bind_any fun _ _ => Prog.wp_bind_any fun _ _ => Prog.wp_bind_any fun _ _ => rfl
    | wild =>
      exact Prog.wp_bind_any fun page _ => Prog.wp_bind_any fun _ _ => Prog.wp_bind_any fun _ _ =>
        Prog.wp_bind_any fun _ _ => Prog.wp_bind_any fun _ _ => Prog.wp_bind_any fun _ _ => Prog.wp_bind_any fun _ _ =>
        Prog.wp_bind_any fun _ _ => rfl

end Fault

/-! ## munmap -/

section Munmap

variable {addr : Addr}

theorem munmap_none (hs : s.locked = false) (hi : s.findArea (Area.reaches p (addr + mmapBase)) = none) :
    munmap p addr s = ⟨.ok (-1), s, [.unmap p (addr + mmapBase) s.maps]⟩ := by
  have hi' : s.lock.findArea (Area.reaches p (addr + mmapBase)) = none := hi
  unfold munmap
  rw [Prog.bind_run_nil (acquire_run hs), Prog.read_bind_run, Prog.bind_run_ok (Prog.emit_run _ _), Prog.read_bind_run,
    hi']
  dsimp only
  rw [Prog.bind_run_nil (release_run rfl), unlock_lock hs]
  rfl

/-- The rest of `munmap`, once it has found the area. -/
def unmapArea (p : Fin nproc) (i : Fin nmaps) : M Int := do
  let a ← Prog.read (·.maps i)
  Prog.forEach (List.range a.npages) (fun n => unmapPage p (a.page n))
  Prog.modify (·.setArea i Area.cleared)
  release
  pure 1

theorem munmap_some (hs : s.locked = false) {i : Fin nmaps}
    (hi : s.findArea (Area.reaches p (addr + mmapBase)) = some i) : munmap p addr s =
      (do Prog.emit (.unmap p (addr + mmapBase) s.maps); unmapArea p i : M Int) s.lock := by
  have hi' : s.lock.findArea (Area.reaches p (addr + mmapBase)) = some i := hi
  unfold munmap
  rw [Prog.bind_run_nil (acquire_run hs), Prog.read_bind_run, Prog.bind_run_ok (Prog.emit_run _ _), Prog.read_bind_run,
    hi', Prog.bind_run_ok (Prog.emit_run _ _)]
  rfl

end Munmap

/-! ## map_fork -/

section MapFork

variable {np : Fin nproc} {alloc : M (Option (Fin nmaps))} {i : Fin nmaps}

/-- One turn of `map_fork`'s loop, where `alloc` is what it calls for a new entry. -/
def forkArea (alloc : M (Option (Fin nmaps))) (p np : Fin nproc) (i : Fin nmaps) : M Unit := do
  let a ← Prog.read (·.maps i)
  Prog.when (a.ownedBy p) (do
    match ← alloc with
    | none   => Prog.stop .wild
    | some j =>
      Prog.modify (·.setArea j { a with p := some np, state := .using })
      Prog.emit (.inherited np j)
      Prog.when (a.f ≠ .null) (setOff p a.f a.offset)
      Prog.forEach (List.range a.npages) (fun n => forkPage p np a (a.page n)))

theorem mapFork_eq : mapFork p np = (do
    acquire
    Prog.forEach areas (forkArea mallock p np)
    release) := rfl

theorem forkArea_skip (h : (s.maps i).ownedBy p = false) : forkArea alloc p np i s = ⟨.ok (), s, []⟩ := by
  unfold forkArea
  rw [Prog.read_bind_run, Prog.when_neg (by rw [h]; decide)]
  rfl

theorem forkArea_error (h : (s.maps i).ownedBy p = true) {e : Stop} (ha : alloc s = ⟨.error e, s, []⟩) :
    forkArea alloc p np i s = ⟨.error e, s, []⟩ := by
  unfold forkArea
  rw [Prog.read_bind_run, Prog.when_pos h, Prog.bind_run_error ha]

end MapFork

end Vm
end Xv6
