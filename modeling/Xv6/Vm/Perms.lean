import Xv6.Vm.Apart
import Xv6.Vm.Copy
import Xv6.Vm.Lock
/-!
# Vm.Perms — what a mapping lets a process do

`filealloc` (file.c), `fdalloc` and `sys_open` (sysfile.c), and the runs of `open`, `mmap`, `munmap`, `fork` and page
faults.  `compare_prot` compares two masks as numbers, so it takes a file that is open for writing only for one that may
be read.  The four places that map a page of an area agree.
-/
namespace Xv6
namespace Vm

open Mem
open Prog (wp Quiet Admits)
open Sched (nproc)

/-! ## open -/

/-- `NFILE`. -/
def nfile : Nat := 100

def filealloc : M (Option Nat) := do
  match ← Prog.read (fun s => (List.range nfile).find? (fun i => decide ((s.file i).ref = 0))) with
  | none   => pure none
  | some i =>
    Prog.modify (fun s => s.setFile i { s.file i with ref := 1 })
    pure (some i)

def fdalloc (p : Fin nproc) (i : Nat) : M (Option (Fin 16)) := do
  match ← Prog.read (fun s => fds.find? (fun fd => (s.ofile p fd).isNone)) with
  | none    => pure none
  | some fd =>
    Prog.modify (·.setFd p fd (some i))
    pure (some fd)

def oWronly : Word := 1#32
def oRdwr : Word := 2#32

/-- `sys_open`, where `ip` is what the inode of the path holds, or the path is refused. -/
def sysOpen (p : Fin nproc) (ip : Option FileKind) (omode : Word) : M Int := do
  match ip with
  | none      => pure (-1)
  | some kind =>
    match ← filealloc with
    | none   => pure (-1)
    | some i =>
      match ← fdalloc p i with
      | none    =>
        fileclose i
        pure (-1)
      | some fd =>
        Prog.modify (fun s => s.setFile i { s.file i with
          kind     := kind
          off      := 0
          readable := decide (omode &&& oWronly = 0)
          writable := decide (omode &&& oWronly ≠ 0) || decide (omode &&& oRdwr ≠ 0) })
        pure fd.val

/-! ## Runs -/

inductive PermCall where
  | sysOpen (p : Fin nproc) (ip : Option FileKind) (omode : Word)
  | mm (c : MmCall)
  | fork (p : Fin nproc)
  /-- Any step of the process table. -/
  | table (a : Sched.Act)

def permStep : PermCall → M Unit
  | .sysOpen p ip omode => do let _ ← Vm.sysOpen p ip omode
  | .mm c               => mmStep c
  | .fork p             => do let _ ← Vm.fork p
  | .table a            => Vm.table a

/-- A file that is open for writing only is not mapped for reading. -/
def Readable (s : Sys) (p : Fin nproc) (prot fd : Word) : Prop :=
  match s.ofileAt p fd with
  | .file j => prot = protRead → (s.file j).readable = true ∨ (s.file j).writable = false
  | _       => True

/-- **The condition on a call**: an area that `mmap` makes has an entry and fits, and its file may be read. -/
def Allows (s : Sys) : PermCall → Prop
  | .mm (.mmap p addr length prot flags fd offset) =>
    validArgs addr length prot flags fd offset = true → s.clash p addr = false →
      s.free.isSome = true ∧ FitsRange s p addr length ∧ Readable s p prot fd
  | _ => True

instance (s : Sys) (p : Fin nproc) (prot fd : Word) : Decidable (Readable s p prot fd) :=
  match h : s.ofileAt p fd with
  | .file j => decidable_of_iff (prot = protRead → (s.file j).readable = true ∨ (s.file j).writable = false)
    (by unfold Readable; rw [h])
  | .null   => isTrue (by unfold Readable; rw [h]; trivial)
  | .wild   => isTrue (by unfold Readable; rw [h]; trivial)

instance (s : Sys) (p : Fin nproc) (addr length : Word) : Decidable (FitsRange s p addr length) :=
  inferInstanceAs (Decidable (_ ∧ _))

instance (s : Sys) : DecidablePred (Allows s)
  | .mm (.mmap p addr length _ _ fd _) => inferInstanceAs (Decidable (_ → _ → _ ∧ FitsRange s p addr length ∧
      Readable s p _ fd))
  | .mm (.munmap ..)                   => isTrue trivial
  | .mm (.touch ..)                    => isTrue trivial
  | .sysOpen ..                        => isTrue trivial
  | .fork _                            => isTrue trivial
  | .table _                           => isTrue trivial

/-- What a mapping grants, the file was opened for; and the pages of an area grant what the area does. -/
structure Permitted (s : Sys) : Prop where
  file : ∀ i j, (s.maps i).state = .using → (s.maps i).f = .file j →
    ((s.maps i).prot &&& protRead ≠ 0 → (s.file j).readable = true) ∧
      ((s.maps i).prot &&& protWrite ≠ 0 → (s.file j).writable = true)
  page : ∀ p g i n, s.pgdir p = some g → (s.maps i).ownedBy p = true → (s.maps i).holds (n.toNat * 4096) →
    g.mapped n = true → Granted (s.maps i) (g.pte n)

/-- The kernel with its programs below `MMAPBASE`, and no area yet. -/
structure Started (s : Sys) : Prop where
  clean  : Clean s
  sizes  : ∀ p, (s.sz p).toNat ≤ 1073741824
  linked : s.phys.Linked
  opened : ∀ p fd j, s.ofile p fd = some j → 0 < (s.file j).ref

def Backed (s : Sys) (a : Area) : Prop := ∀ j, a.f = .file j → 0 < (s.file j).ref ∧
  (a.prot &&& protRead ≠ 0 → (s.file j).readable = true) ∧ (a.prot &&& protWrite ≠ 0 → (s.file j).writable = true)

structure Lawful (s : Sys) : Prop where
  tidy   : Tidy s
  sizes  : ∀ p, (s.sz p).toNat ≤ 1073741824
  linked : s.phys.Linked
  opened : ∀ p fd j, s.ofile p fd = some j → 0 < (s.file j).ref
  backed : ∀ i, (s.maps i).state = .using → Backed s (s.maps i)

variable {s t : Sys} {p : Fin nproc}

theorem Started.lawful (h : Started s) : Lawful s where
  tidy   := h.clean.tidy
  sizes  := h.sizes
  linked := h.linked
  opened := h.opened
  backed i hi := by
    rw [h.clean.maps i] at hi
    cases hi

theorem Lawful.permitted (h : Lawful s) : Permitted s where
  file i j hi hj := (h.backed i hi j hj).2
  page p g i n hg hi hx hm := by
    obtain ⟨j, hj, hxj, hgr⟩ := h.tidy.pages p g n hg ((h.tidy.shape i (ownedBy_iff.1 hi).1).upper hx) hm
    obtain rfl := h.tidy.apart p i j _ hi hj hx hxj
    exact hgr

/-! ## The mapping calls -/

theorem Backed.mode {a : Area} (h : Backed s a) (hm : ∀ j, (t.file j).mode = (s.file j).mode) : Backed t a := by
  intro j hj
  have hmode := hm j
  unfold File.mode at hmode
  simp only [Prod.mk.injEq] at hmode
  obtain ⟨hr, hw, href, -⟩ := hmode
  rw [hr, hw, href]
  exact h j hj

/-- **`compare_prot`** accepts what the file was opened for, and a file that is open for writing only. -/
theorem accepted_backed {f : File} {prot : Word} (hp : prot = protRead ∨ prot = protRead ||| protWrite)
    (ha : prot.sle f.flags = true) (hr : prot = protRead → f.readable = true ∨ f.writable = false) :
    (prot &&& protRead ≠ 0 → f.readable = true) ∧ (prot &&& protWrite ≠ 0 → f.writable = true) := by
  unfold File.flags at ha
  rcases hp with rfl | rfl <;> cases hfr : f.readable <;> cases hfw : f.writable <;> rw [hfr, hfw] at ha hr
  all_goals revert ha hr; decide

theorem Lawful.follows {c : MmCall} (h : Lawful s) (ht : Tidy t) (hf : Follows c s t)
    (hsym : t.phys.symbols = s.phys.symbols)
    (hr : ∀ j prot, c.opens s (.file j) prot → 0 < (s.file j).ref ∧
      (prot = protRead → (s.file j).readable = true ∨ (s.file j).writable = false)) : Lawful t where
  tidy   := ht
  sizes  := by rw [hf.sz]; exact h.sizes
  linked := by
    have hk : t.phys.kdata = s.phys.kdata := congrArg Prod.snd hsym
    unfold Phys.Linked
    rw [hk]
    exact h.linked
  opened q fd j hj := by
    rw [hf.ofile] at hj
    have hmode : (t.file j).ref = (s.file j).ref := congrArg (fun x => x.2.2.1) (hf.mode j)
    rw [hmode]
    exact h.opened q fd j hj
  backed i hi := by
    rcases hf.maps i hi with hold | ⟨-, hopens, hacc⟩
    · rw [hold] at hi ⊢
      exact (h.backed i hi).mode hf.mode
    · refine Backed.mode (s := s) (fun j hj => ?_) hf.mode
      rw [hj] at hopens
      obtain ⟨href, hread⟩ := hr j _ hopens
      exact ⟨href, accepted_backed (ht.shape i hi).prot (hacc j hj) hread⟩

theorem ofileAt_file {fd : Word} {j : Nat} (h : s.ofileAt p fd = .file j) : ∃ n, s.ofile p n = some j := by
  unfold Sys.ofileAt at h
  split at h
  · rename_i hfd
    refine ⟨⟨fd.toNat, hfd⟩, ?_⟩
    cases ho : s.ofile p ⟨fd.toNat, hfd⟩ with
    | none => rw [ho] at h; cases h
    | some i => rw [ho] at h; cases h; rfl
  · split at h <;> cases h

theorem mmStep_lawful (c : MmCall) (h : Lawful s) (hc : Allows s (.mm c)) :
    wp (mmStep c) (fun _ t => Lawful t) (fun _ => True) s := by
  have hsym := Quiet.keeps (mmStep_fills unseen_symbols c) s
  cases c with
  | mmap p addr length prot flags fd offset =>
    cases hv : validArgs addr length prot flags fd offset with
    | false => exact Prog.wp_bind.2 (Prog.wp_of_run (mmap_invalid hv) h)
    | true =>
      cases hcl : s.clash p addr with
      | true =>
        cases hl : s.locked with
        | true => exact Prog.wp_bind.2 (Prog.wp_of_stop (mmap_locked hv hl) trivial)
        | false => exact Prog.wp_bind.2 (Prog.wp_of_run (mmap_clash hv hl hcl) h)
      | false =>
        obtain ⟨-, hfit, hread⟩ := hc hv hcl
        have hwp : wp (mmStep (.mmap p addr length prot flags fd offset))
            (fun _ t => Tidy t ∧ Follows (.mmap p addr length prot flags fd offset) s t) NoRemap s :=
          Prog.wp_bind.2 ((mmap_wp h.tidy fun _ _ => hfit).imp fun _ t ht => ⟨ht.1, ht.2.1⟩)
        refine (hwp.and hsym).mono (fun _ t ht => h.follows ht.1.1 ht.1.2 ht.2 ?_) fun _ _ => trivial
        rintro j prot' ⟨rfl, hnull | hfile⟩
        · cases hnull
        · obtain ⟨n, hn⟩ := ofileAt_file hfile.symm
          unfold Readable at hread
          rw [← hfile] at hread
          exact ⟨h.opened p n j hn, hread⟩
  | munmap p addr =>
    have hwp : wp (mmStep (.munmap p addr)) (fun _ t => Tidy t ∧ Follows (.munmap p addr) s t) NoRemap s :=
      Prog.wp_bind.2 ((munmap_wp h.tidy addr).imp fun _ t ht => ⟨ht.1, ht.2.1⟩)
    exact (hwp.and hsym).mono (fun _ t ht => h.follows ht.1.1 ht.1.2 ht.2 fun _ _ hn => hn.elim) fun _ _ => trivial
  | touch p va write =>
    refine ((touch_wp h.tidy va write).and hsym).mono (fun _ t ht => ?_) fun _ _ => trivial
    exact h.follows (c := .touch p va write) (h.tidy.adds ht.1) ht.1.follows ht.2 fun _ _ hn => hn.elim

/-! ## open -/

/-- Only the file `i`, that nobody refers to, has changed, and who refers to it now finds it open. -/
structure Opened (i : Nat) (s t : Sys) : Prop where
  maps  : t.maps = s.maps
  pgdir : t.pgdir = s.pgdir
  sz    : t.sz = s.sz
  phys  : t.phys = s.phys
  file  : ∀ j, j ≠ i → t.file j = s.file j
  ofile : ∀ q fd j, t.ofile q fd = some j → s.ofile q fd = some j ∨ 0 < (t.file j).ref

theorem Tidy.congr (h : Tidy s) (hm : t.maps = s.maps) (hg : t.pgdir = s.pgdir) : Tidy t where
  shape := by rw [hm]; exact h.shape
  apart := by rw [hm]; exact h.apart
  pages := by rw [hm, hg]; exact h.pages

theorem Lawful.opens {i : Nat} (h : Lawful s) (hi : (s.file i).ref = 0) (ht : Opened i s t) : Lawful t where
  tidy   := h.tidy.congr ht.maps ht.pgdir
  sizes  := by rw [ht.sz]; exact h.sizes
  linked := by rw [ht.phys]; exact h.linked
  opened q fd j hj := by
    rcases ht.ofile q fd j hj with hold | hnew
    · have href := h.opened q fd j hold
      have hji : j ≠ i := by
        rintro rfl
        omega
      rw [ht.file j hji]
      exact href
    · exact hnew
  backed k hk j hj := by
    rw [ht.maps] at hk hj ⊢
    have hold := h.backed k hk j hj
    have hji : j ≠ i := by
      rintro rfl
      omega
    rw [ht.file j hji]
    exact hold

theorem setFile_file (s : Sys) (i : Nat) (f : File) : (s.setFile i f).file i = f := if_pos rfl

theorem setFile_other {i j : Nat} {f : File} (h : j ≠ i) : (s.setFile i f).file j = s.file j := if_neg h

theorem fileclose_last {i : Nat} (h : (s.file i).ref = 1) :
    fileclose i s = ⟨.ok (), s.setFile i { s.file i with ref := 0, kind := .none }, []⟩ := by
  unfold fileclose
  rw [Prog.read_bind_run, h, if_neg (by decide), if_neg (by decide)]
  rfl

theorem setFd_ofile (s : Sys) (p : Fin nproc) (fd : Fin 16) (f : Option Nat) : (s.setFd p fd f).ofile p fd = f := by
  unfold Sys.setFd
  dsimp only
  rw [if_pos rfl, if_pos rfl]

theorem setFd_other {fd fd' : Fin 16} {q : Fin nproc} (s : Sys) (f : Option Nat) (h : ¬ (q = p ∧ fd' = fd)) :
    (s.setFd p fd f).ofile q fd' = s.ofile q fd' := by
  unfold Sys.setFd
  dsimp only
  by_cases hq : q = p
  · have hfd : fd' ≠ fd := fun hfd => h ⟨hq, hfd⟩
    rw [if_pos hq, if_neg hfd, hq]
  · rw [if_neg hq]

theorem sysOpen_lawful (h : Lawful s) (ip : Option FileKind) (omode : Word) :
    wp (sysOpen p ip omode) (fun _ t => Lawful t) (fun _ => True) s := by
  unfold sysOpen
  cases ip with
  | none => exact h
  | some kind =>
    dsimp only
    unfold filealloc
    rw [Prog.wp_bind, Prog.wp_bind, Prog.wp_read]
    cases hi : (List.range nfile).find? (fun i => decide ((s.file i).ref = 0)) with
    | none => exact h
    | some i =>
      have href : (s.file i).ref = 0 := of_decide_eq_true (List.find?_some (p := fun i => decide ((s.file i).ref = 0)) hi)
      dsimp only
      rw [Prog.wp_bind, Prog.wp_modify, Prog.wp_pure]
      dsimp only
      unfold fdalloc
      rw [Prog.wp_bind, Prog.wp_bind, Prog.wp_read]
      cases hfd : fds.find? (fun fd => ((s.setFile i { s.file i with ref := 1 }).ofile p fd).isNone) with
      | none =>
        dsimp only
        rw [Prog.wp_pure]
        dsimp only
        refine Prog.wp_bind.2 (Prog.wp_of_run (fileclose_last (congrArg File.ref (setFile_file s i _))) ?_)
        exact h.opens href ⟨rfl, rfl, rfl, rfl, fun j hj => (setFile_other hj).trans (setFile_other hj),
          fun _ _ _ hj => .inl hj⟩
      | some fd =>
        dsimp only
        rw [Prog.wp_bind, Prog.wp_modify, Prog.wp_pure]
        dsimp only
        rw [Prog.wp_bind, Prog.wp_modify, Prog.wp_pure]
        refine h.opens href ⟨rfl, rfl, rfl, rfl, fun j hj => ?_, fun q fd' j hj => ?_⟩
        · rw [setFile_other hj]
          exact setFile_other hj
        · by_cases hq : q = p ∧ fd' = fd
          · obtain ⟨rfl, rfl⟩ := hq
            have hji : i = j := Option.some.inj ((setFd_ofile _ q fd' (some i)).symm.trans hj)
            refine .inr ?_
            rw [← hji, setFile_file]
            show 0 < ((s.setFile i { s.file i with ref := 1 }).file i).ref
            rw [setFile_file]
            exact Int.one_pos
          · exact .inl ((setFd_other _ (some i) hq).symm.trans hj)

/-! ## fork -/

/-- What a process table's step, a kernel stack and a page allocated leave as it is. -/
def Sys.grants (s : Sys) : (Fin nmaps → Area) × (Fin nproc → Option Space) × (Fin nproc → Addr) × (Nat → File) ×
    (Fin nproc → Fin 16 → Option Nat) × (Addr × Addr) := (s.maps, s.pgdir, s.sz, s.file, s.ofile, s.phys.symbols)

theorem Lawful.grants (h : Lawful s) (ht : t.grants = s.grants) : Lawful t := by
  unfold Sys.grants at ht
  simp only [Prod.mk.injEq] at ht
  obtain ⟨hm, hg, hsz, hf, ho, hk⟩ := ht
  have hkdata : t.phys.kdata = s.phys.kdata := congrArg Prod.snd hk
  refine ⟨h.tidy.congr hm hg, ?_, ?_, ?_, ?_⟩
  · rw [hsz]
    exact h.sizes
  · unfold Phys.Linked
    rw [hkdata]
    exact h.linked
  · rw [ho, hf]
    exact h.opened
  · unfold Backed
    rw [hm, hf]
    exact h.backed

theorem table_grants (a : Sched.Act) : Quiet Sys.grants (fun _ => True) (table a) :=
  fun _ => ⟨rfl, fun _ _ => trivial⟩

theorem vm_grants {α : Type} {c : V α} (hc : Plain c) : Quiet Sys.grants (fun _ => True) (vm c) := by
  intro s
  refine ⟨?_, fun _ _ => trivial⟩
  have hk := (hc s.phys).1
  unfold Sys.grants vm Prog.zoom
  dsimp only
  rw [hk]

theorem allocproc_grants : Quiet Sys.grants (fun _ => True) allocproc := by
  refine Quiet.bind (Quiet.read _) (fun o => ?_)
  cases o with
  | none => exact Quiet.pure none
  | some p =>
    refine Quiet.bind (table_grants _) (fun _ => Quiet.bind (vm_grants kalloc_only) (fun k => ?_))
    cases k with
    | none => exact Quiet.bind (table_grants _) (fun _ => Quiet.pure none)
    | some k => exact Quiet.bind (Quiet.modify fun _ => rfl) (fun _ => Quiet.pure (some p))

theorem Lawful.image {d : Space} {sz : Addr} (h : Lawful s) (hsz : sz.toNat ≤ 1073741824)
    (hd : ∀ m, d.mapped m = true → copiedPage sz m) :
    Lawful { s.setSpace p d with sz := fun q => if q = p then sz else s.sz q } where
  tidy := by
    refine ⟨h.tidy.shape, h.tidy.apart, fun q g n hg hn hm => ?_⟩
    by_cases hq : q = p
    · obtain rfl : d = g := Option.some.inj ((if_pos hq).symm.trans hg)
      have hpage := hd n hm
      unfold copiedPage kernelPage at hpage
      unfold upper within at hn
      omega
    · exact h.tidy.pages q g n ((if_neg hq).symm.trans hg) hn hm
  sizes q := by
    dsimp only
    split
    · exact hsz
    · exact h.sizes q
  linked := h.linked
  opened := h.opened
  backed := h.backed

theorem filedup_lawful (h : Lawful s) (np : Fin nproc) (fd : Fin 16) (i : Nat) :
    wp (do filedup i; Prog.modify (·.setFd np fd (some i)) : M Unit) (fun _ t => Lawful t) (fun _ => True) s := by
  unfold filedup
  rw [Prog.wp_bind, Prog.wp_bind, Prog.wp_read]
  refine Prog.wp_ite (fun _ => trivial) fun hlt => ?_
  have hfile : ∀ j, 0 < (s.file j).ref → 0 < ((s.setFile i { s.file i with ref := (s.file i).ref + 1 }).file j).ref := by
    intro j hj
    by_cases hji : j = i
    · rw [hji, setFile_file]
      dsimp only
      omega
    · rw [setFile_other hji]
      exact hj
  have hperm : ∀ j, ((s.setFile i { s.file i with ref := (s.file i).ref + 1 }).file j).readable = (s.file j).readable ∧
      ((s.setFile i { s.file i with ref := (s.file i).ref + 1 }).file j).writable = (s.file j).writable := by
    intro j
    by_cases hji : j = i
    · rw [hji, setFile_file]
      exact ⟨rfl, rfl⟩
    · rw [setFile_other hji]
      exact ⟨rfl, rfl⟩
  rw [Prog.wp_modify, Prog.wp_modify]
  refine ⟨h.tidy.congr rfl rfl, h.sizes, h.linked, fun q fd' j hj => ?_, fun k hk j hj => ?_⟩
  · by_cases hq : q = np ∧ fd' = fd
    · obtain ⟨rfl, rfl⟩ := hq
      obtain rfl : i = j := Option.some.inj ((setFd_ofile _ q fd' (some i)).symm.trans hj)
      exact hfile i (by omega)
    · exact hfile j (h.opened q fd' j ((setFd_other _ (some i) hq).symm.trans hj))
  · obtain ⟨href, hr, hw⟩ := h.backed k hk j hj
    exact ⟨hfile j href, fun hp => (hperm j).1.trans (hr hp), fun hp => (hperm j).2.trans (hw hp)⟩

theorem mapFork_wp (p np : Fin nproc) : wp (mapFork p np) (fun _ t => t = s) (fun _ => True) s := by
  cases hl : s.locked with
  | true => exact Prog.wp_of_stop (Prog.bind_run_error (acquire_panic hl)) trivial
  | false =>
    by_cases h : ∃ i, (s.maps i).ownedBy p = true
    · obtain ⟨i, hi⟩ := h
      unfold Prog.wp
      rw [mapFork_panic hl hi]
      trivial
    · refine Prog.wp_of_run (mapFork_none hl fun i => ?_) rfl
      cases hi : (s.maps i).ownedBy p with
      | false => rfl
      | true => exact absurd ⟨i, hi⟩ h

theorem fork_lawful (h : Lawful s) : wp (fork p) (fun _ t => Lawful t) (fun _ => True) s := by
  unfold fork
  rw [Prog.wp_bind]
  refine (Quiet.keeps allocproc_grants s).imp fun o t ht => ?_
  have hL : Lawful t := h.grants ht
  cases o with
  | none => exact hL
  | some np =>
    dsimp only
    rw [Prog.wp_bind]
    refine follow_wp trivial fun g _ => ?_
    rw [Prog.wp_bind, Prog.wp_read, Prog.wp_bind]
    have hsz := hL.sizes p
    have hcopy : wp (vm (copyuvm g (t.sz p)))
        (fun o _ => ∀ d, o = some d → ∀ m, d.mapped m = true → copiedPage (t.sz p) m) (fun _ => True) t :=
      copyuvm_pages hL.linked (by omega)
    refine (hcopy.and (Quiet.keeps (vm_grants (copyuvm_plain g (t.sz p))) t)).mono (fun o u hu => ?_) fun _ _ => trivial
    obtain ⟨hpages, hu⟩ := hu
    have hL : Lawful u := hL.grants hu
    cases o with
    | none =>
      dsimp only
      rw [Prog.wp_bind]
      refine follow_wp trivial fun k _ => ?_
      have hrest : Quiet Sys.grants (fun _ => True) (do
          vm (kfree k)
          Prog.modify (·.setKstack np none)
          table (.allocFail np)
          pure none : M (Option (Fin nproc))) :=
        Quiet.bind (vm_grants (kfree_only trivial)) (fun _ => Quiet.bind (Quiet.modify fun _ => rfl) (fun _ =>
          Quiet.bind (table_grants _) (fun _ => Quiet.pure none)))
      exact (Quiet.keeps hrest u).imp fun _ v hv => hL.grants hv
    | some d =>
      dsimp only
      unfold setImage
      rw [Prog.wp_bind, Prog.wp_bind, Prog.wp_modify, Prog.wp_emit]
      have hL := hL.image (p := np) hsz (hpages d rfl)
      have hfields : Quiet Sys.grants (fun _ => True) (Prog.forEach forkFields fun f => table (.forkCopy np p f)) :=
        Quiet.forEach _ fun f _ => table_grants _
      rw [Prog.wp_bind]
      refine (Quiet.keeps hfields _).imp fun _ v hv => ?_
      have hL : Lawful v := hL.grants hv
      rw [Prog.wp_bind]
      refine (Prog.wp_forEach (I := Lawful) fds v hL fun fd _ w hw => ?_).imp fun _ w hL => ?_
      · rw [Prog.wp_bind, Prog.wp_read]
        cases w.ofile p fd with
        | none => exact hw
        | some i => exact filedup_lawful hw np fd i
      · rw [Prog.wp_bind]
        refine (Quiet.keeps (table_grants _) w).imp fun _ x hx => ?_
        rw [Prog.wp_bind]
        refine (mapFork_wp p np).imp fun _ y hy => ?_
        rw [hy]
        exact hL.grants hx

/-! ## Runs -/

theorem permStep_lawful (c : PermCall) (h : Lawful s) (hc : Allows s c) :
    wp (permStep c) (fun _ t => Lawful t) (fun _ => True) s := by
  cases c with
  | sysOpen p ip omode => exact Prog.wp_bind.2 ((sysOpen_lawful h ip omode).imp fun _ _ ht => ht)
  | mm c => exact mmStep_lawful c h hc
  | fork p => exact Prog.wp_bind.2 ((fork_lawful h).imp fun _ _ ht => ht)
  | table a => exact (Quiet.keeps (table_grants a) s).imp fun _ _ ht => h.grants ht

/-- The kernel with the first process's descriptor 3 on a file of one byte. -/
def permSample : Sys :=
  { sample with
    phys := { sample.phys with kdata := 0x80101000#32 }
    file := fun i => if i = 0 then sampleFile else { sampleFile with kind := .none, ref := 0 } }

theorem permSample_started : Started permSample where
  clean := ⟨sample_clean.maps, sample_clean.pages⟩
  sizes _ := Nat.zero_le _
  linked := by decide
  opened p fd j hj := by
    change (if p = 0 ∧ fd = 3 then some 0 else none) = some j at hj
    split at hj
    · obtain rfl : 0 = j := Option.some.inj hj
      decide
    · cases hj

/-- A file is opened for both, and mapped for both; the other one is mapped for reading. -/
def mapBoth : List PermCall :=
  [.sysOpen 0 (some (.inode [7#8, 8#8] (by decide))) oRdwr, .mm (.mmap 0 0 8192 (protRead ||| protWrite) mapPopulate 0 0),
    .mm (.mmap 0 16384 4096 protRead 0 3 0), .mm (.touch 0 0x40004000#32 false), .mm (.munmap 0 0)]

theorem oneByte_fits : ([7#8] : List Byte).length ≤ maxFileSize := by decide

/-- A file that is opened for writing only is mapped for reading. -/
def mapWriteOnly : List PermCall :=
  [.sysOpen 0 (some (.inode [7#8] oneByte_fits)) oWronly, .mm (.mmap 0 0 4096 protRead 0 0 0)]

end Vm
end Xv6
