import Xv6.Vm.Machine
/-!
# Vm.Frame — what the functions keep, and the events they cause

Most functions change at most the memory and how far a file has been read.  Each is quiet for every view `π` of the
rest, for events `R` that include its own: a call of `walkpgdir` at a page it is given, a call of `kfree`.
-/
namespace Xv6
namespace Vm

open Mem
open Prog (Quiet)
open Sched (nproc)

/-! ## Page tables -/

section Phys

variable {R : PhysEvent → Prop}

def Phys.symbols (k : Phys) : Addr × Addr := (k.kend, k.kdata)

/-- Every event of `c` meets `R`. -/
abbrev Only {α : Type} (R : PhysEvent → Prop) (c : V α) : Prop := Quiet Phys.symbols R c

theorem memset_only (f : Frame) (b : BitVec 8) : Only R (memset f b) := Quiet.modify (fun _ => rfl)

theorem kalloc_only : Only R kalloc := by
  refine Quiet.bind (Quiet.read _) (fun l => ?_)
  cases l with
  | nil => exact Quiet.bind (Quiet.modify (fun _ => rfl)) (fun _ => Quiet.pure _)
  | cons f l => exact Quiet.bind (Quiet.modify (fun _ => rfl)) (fun _ => Quiet.pure _)

theorem kallocPage_only : Only R kallocPage := by
  refine Quiet.bind kalloc_only (fun o => ?_)
  cases o with
  | none => exact Quiet.stop _
  | some f => exact Quiet.pure _

theorem kfree_only {f : Frame} (h : R (.kfree f)) : Only R (kfree f) := by
  refine Quiet.bind (Quiet.emit h) (fun _ => Quiet.bind (Quiet.read _) (fun b => ?_))
  cases b with
  | true => exact Quiet.modify (fun _ => rfl)
  | false => exact Quiet.stop _

theorem walkpgdir_only {g : Space} {va : Addr} (h : R (.walk va)) : Only R (walkpgdir g va) :=
  Quiet.bind (Quiet.emit h) (fun _ => Quiet.pure _)

theorem walkpgdirAlloc_only {g : Space} {va : Addr} (h : R (.walk va)) : Only R (walkpgdirAlloc g va) := by
  refine Quiet.bind (Quiet.emit h) (fun _ => Quiet.ite (fun _ => Quiet.pure _) (fun _ => ?_))
  refine Quiet.bind kalloc_only (fun o => ?_)
  cases o with
  | none => exact Quiet.pure _
  | some t => exact Quiet.bind (memset_only t 0) (fun _ => Quiet.pure _)

theorem mappages_only {g : Space} {va pa : Addr} {perm : Pte} (ha : pgRoundDown va = va) (h : R (.walk va)) :
    Only R (mappages g va pgsize pa perm) := by
  unfold mappages
  rw [pgRoundDown_last ha, ha]
  refine Quiet.bind (walkpgdirAlloc_only h) (fun o => ?_)
  cases o with
  | none => exact Quiet.pure _
  | some g => exact Quiet.ite (fun _ => Quiet.stop _) (fun _ => Quiet.ite (fun _ => Quiet.pure _) (fun hn => absurd rfl hn))

theorem mappages_walks {g : Space} {va size pa : Addr} {perm : Pte} (h : ∀ x, R (.walk x)) :
    Only R (mappages g va size pa perm) := by
  unfold mappages
  generalize maxPages = n
  generalize pgRoundDown va = a
  induction n generalizing g a pa with
  | zero => exact Quiet.stop _
  | succ n ih =>
    refine Quiet.bind (walkpgdirAlloc_only (h a)) (fun o => ?_)
    cases o with
    | none => exact Quiet.pure _
    | some g => exact Quiet.ite (fun _ => Quiet.stop _) (fun _ => Quiet.ite (fun _ => Quiet.pure _) (fun _ => ih _))

end Phys

/-! ## The kernel -/

theorem follow_run {α : Type} {f : Sys → Option α} {s : Sys} {a : α} (h : f s = some a) : follow f s = ⟨.ok a, s, []⟩ := by
  unfold follow
  rw [Prog.read_bind_run, h]
  rfl

theorem follow_wild {α : Type} {f : Sys → Option α} {s : Sys} (h : f s = none) : follow f s = ⟨.error .wild, s, []⟩ := by
  unfold follow
  rw [Prog.read_bind_run, h]
  rfl

section Sys

/-- Two states that differ in the memory and in how far their files have been read, at most. -/
structure Alike (s t : Sys) : Prop where
  phys   : s.phys.symbols = t.phys.symbols
  maps   : s.maps = t.maps
  tab    : s.tab = t.tab
  locked : s.locked = t.locked
  ofile  : s.ofile = t.ofile
  pgdir  : s.pgdir = t.pgdir
  sz     : s.sz = t.sz
  mode   : ∀ j, (s.file j).mode = (t.file j).mode
  source : ∀ j, (s.file j).source = (t.file j).source

variable {ρ : Type} {π : Sys → ρ} {R : Event → Prop} {α : Type}
variable (hπ : ∀ s t : Sys, Alike s t → π s = π t)
variable (hg : ∀ (s : Sys) p g, π (s.setSpace p g) = π s)
variable (hl : ∀ (s : Sys) (b : Bool), π { s with locked := b } = π s)

theorem alike_phys (s : Sys) {k : Phys} (h : k.symbols = s.phys.symbols) : Alike { s with phys := k } s :=
  ⟨h, rfl, rfl, rfl, rfl, rfl, rfl, fun _ => rfl, fun _ => rfl⟩

theorem alike_setFile {s : Sys} {i : Nat} {f : File} (h : f.mode = (s.file i).mode)
    (h' : f.source = (s.file i).source) : Alike (s.setFile i f) s := by
  refine ⟨rfl, rfl, rfl, rfl, rfl, rfl, rfl, fun j => ?_, fun j => ?_⟩
  all_goals by_cases hj : j = i
  · rw [show (s.setFile i f).file j = f from if_pos hj, hj, h]
  · rw [show (s.setFile i f).file j = s.file j from if_neg hj]
  · rw [show (s.setFile i f).file j = f from if_pos hj, hj, h']
  · rw [show (s.setFile i f).file j = s.file j from if_neg hj]

theorem alike_seek (s : Sys) (i : Nat) (off : Word) : Alike (s.setFile i { s.file i with off := off }) s :=
  alike_setFile rfl rfl

include hπ

theorem mm_quiet {c : V α} (hc : Only (fun e => R (.mm e)) c) : Quiet π R (mm c) := fun s =>
  ⟨hπ _ _ (alike_phys s (hc s.phys).1), fun e he => by
    obtain ⟨x, hx, rfl⟩ := List.mem_map.1 he
    exact (hc s.phys).2 x hx⟩

omit hπ in
theorem vm_quiet {c : V α} (hc : ∀ e, R (.vm e)) (h : ∀ (s : Sys) (k : Phys), π { s with phys := k } = π s) :
    Quiet π R (vm c) := Quiet.zoom (fun _ e _ => hc e) h

omit hπ in
theorem follow_quiet (f : Sys → Option α) : Quiet π R (follow f) := by
  refine Quiet.bind (Quiet.read f) (fun o => ?_)
  cases o with
  | none => exact Quiet.stop _
  | some a => exact Quiet.pure a

omit hπ in
include hl in
theorem acquire_quiet : Quiet π R acquire :=
  Quiet.bind (Quiet.read _) (fun _ => Quiet.ite (fun _ => Quiet.stop _) (fun _ => Quiet.modify (fun s => hl s true)))

omit hπ in
include hl in
theorem release_quiet : Quiet π R release :=
  Quiet.bind (Quiet.read _) (fun _ => Quiet.ite (fun _ => Quiet.modify (fun s => hl s false)) (fun _ => Quiet.stop _))

omit hπ in
include hl in
theorem mallock_quiet : Quiet π R mallock :=
  Quiet.bind (acquire_quiet hl) (fun _ => Quiet.bind (Quiet.read _) (fun _ =>
    Quiet.bind (release_quiet hl) (fun _ => Quiet.pure _)))

omit hπ in
theorem fileReadable_quiet (p : Fin nproc) (f : FileRef) : Quiet π R (fileReadable p f) := by
  cases f with
  | null => exact Quiet.bind (follow_quiet _) (fun _ => Quiet.read _)
  | file i => exact Quiet.read _
  | wild => exact Quiet.stop _

omit hπ in
theorem fileWritable_quiet (p : Fin nproc) (f : FileRef) : Quiet π R (fileWritable p f) := by
  cases f with
  | null => exact Quiet.bind (follow_quiet _) (fun _ => Quiet.read _)
  | file i => exact Quiet.read _
  | wild => exact Quiet.stop _

theorem setOff_quiet (p : Fin nproc) (f : FileRef) (off : Word) : Quiet π R (setOff p f off) := by
  cases f with
  | null => exact Quiet.bind (follow_quiet _) (fun _ => Quiet.modify (fun s => hπ _ _ (alike_phys s rfl)))
  | file i => exact Quiet.modify (fun s => hπ _ _ (alike_seek s i off))
  | wild => exact Quiet.stop _

theorem fileread_quiet (p : Fin nproc) (f : FileRef) (n : Word) : Quiet π R (fileread p f n) := by
  cases f with
  | file i =>
    intro s
    unfold fileread
    dsimp only
    rw [Prog.read_bind_run]
    by_cases hr : (!(s.file i).readable) = true
    · rw [if_pos hr]
      exact ⟨rfl, fun e he => by cases he⟩
    · rw [if_neg hr]
      have hmode : ∀ (f : File), f.mode = (s.file i).mode → f.source = (s.file i).source → ∀ b : Option (List Byte),
          π ((do Prog.modify (·.setFile i f); pure b : M (Option (List Byte))) s).st = π s ∧
            ∀ e ∈ ((do Prog.modify (·.setFile i f); pure b : M (Option (List Byte))) s).tr, R e :=
        fun f hf hf' b => ⟨hπ _ _ (alike_setFile hf hf'), fun e he => by cases he⟩
      cases hk : (s.file i).kind with
      | none => exact ⟨rfl, fun e he => by cases he⟩
      | pipe q => exact hmode _ (by simp [File.mode, hk]) (by simp [File.source, hk]) _
      | inode data size => exact hmode _ (by simp [File.mode, hk]) (by simp [File.source, hk]) _
      | dev q => exact hmode _ (by simp [File.mode, hk]) (by simp [File.source, hk]) _
  | _ => exact Quiet.bind (fileReadable_quiet p _) (fun _ => Quiet.ite (fun _ => Quiet.stop _) (fun _ => Quiet.pure _))

theorem readPage_quiet (p : Fin nproc) (f : FileRef) (page : Frame) (hr : ∀ b, R (.fileread b)) :
    Quiet π R (readPage p f page) := by
  refine Quiet.bind (Quiet.read _) (fun b => Quiet.bind (Quiet.emit (hr b)) (fun _ =>
    Quiet.bind (fileread_quiet hπ p f pgsize) (fun o => ?_)))
  cases o with
  | none => exact Quiet.pure _
  | some bytes => exact Quiet.modify (fun s => hπ _ _ (alike_phys s rfl))

omit hπ in
theorem compareProt_quiet (p : Fin nproc) (i : Fin nmaps) : Quiet π R (compareProt p i) :=
  Quiet.bind (Quiet.read _) (fun a => Quiet.bind (fileReadable_quiet p a.f) (fun _ =>
    Quiet.bind (fileWritable_quiet p a.f) (fun _ => Quiet.pure _)))

theorem zeroedPage_quiet : Quiet π R zeroedPage :=
  Quiet.bind (mm_quiet hπ kallocPage_only) (fun page =>
    Quiet.bind (mm_quiet hπ (memset_only page 0)) (fun _ => Quiet.pure _))

include hg

theorem mapPage_quiet (p : Fin nproc) {va : Addr} (page : Frame) (perm : Pte)
    (hm : ∀ g pa, Only (fun e => R (.mm e)) (mappages g va pgsize pa perm)) : Quiet π R (mapPage p va page perm) :=
  Quiet.bind (follow_quiet _) (fun _ => Quiet.bind (mm_quiet hπ (hm _ _)) (fun _ =>
    Quiet.modify (fun s => hg s p _)))

theorem unmapPage_quiet (p : Fin nproc) {va : Addr} (h : R (.mm (.walk va))) (hk : ∀ f, R (.mm (.kfree f))) :
    Quiet π R (unmapPage p va) := by
  refine Quiet.bind (follow_quiet _) (fun g => Quiet.bind (mm_quiet hπ (walkpgdir_only h)) (fun o => ?_))
  cases o with
  | none => exact Quiet.pure _
  | some q =>
    exact Quiet.when (fun _ => Quiet.bind (mm_quiet hπ (memset_only _ 1)) (fun _ =>
      Quiet.bind (mm_quiet hπ (kfree_only (hk _))) (fun _ => Quiet.modify (fun s => hg s p _))))

theorem forkPage_quiet (p np : Fin nproc) (a : Area) {va : Addr} (h : R (.mm (.walk va)))
    (hm : ∀ g pa perm, Only (fun e => R (.mm e)) (mappages g va pgsize pa perm)) (hr : ∀ b, R (.fileread b)) :
    Quiet π R (forkPage p np a va) := by
  refine Quiet.bind (follow_quiet _) (fun g => Quiet.bind (mm_quiet hπ (walkpgdirAlloc_only h)) (fun o => ?_))
  cases o with
  | none => exact Quiet.pure _
  | some g =>
    refine Quiet.bind (Quiet.modify (fun s => hg s p g)) (fun _ => Quiet.when (fun _ =>
      Quiet.bind (zeroedPage_quiet hπ) (fun page => Quiet.bind (Quiet.when (fun _ => ?_)) (fun _ =>
        mapPage_quiet hπ hg np page _ (fun g pa => hm g pa _)))))
    refine Quiet.bind (readPage_quiet hπ p a.f page hr) (fun _ => ?_)
    cases a.f with
    | file j => exact Quiet.modify (fun s => hπ _ _ (alike_seek s j _))
    | _ => exact Quiet.stop _

end Sys

def Sys.slots (s : Sys) : (Fin nmaps → Area) × Sched.State × (Fin nproc → Fin 16 → Option Nat) := (s.maps, s.tab, s.ofile)

theorem slots_view : ∀ s t : Sys, Alike s t → s.slots = t.slots := by
  intro s t h
  unfold Sys.slots
  rw [h.maps, h.tab, h.ofile]

theorem ofileAt_congr {s t : Sys} (ht : s.tab = t.tab) (ho : s.ofile = t.ofile) : s.ofileAt = t.ofileAt := by
  funext q fd
  unfold Sys.ofileAt
  rw [ht, ho]

end Vm
end Xv6
