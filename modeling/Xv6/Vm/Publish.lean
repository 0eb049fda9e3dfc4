import Xv6.Vm.Lock
import Xv6.Lib.Along
import Xv6.Sched.Scheduler
/-!
# Vm.Publish — the child may run before it has its areas

`fork` on one CPU, from the store of RUNNABLE on, and the schedulers of the other CPUs.  `ptable.lock` is held for the
store only, and `map_fork` comes after: a scheduler that takes the child in between runs a process without areas.
-/
namespace Xv6
namespace Vm

open Mem
open Prog (Quiet Along)
open Sched (nproc schedScan)

/-- What `map_fork` calls for an entry: `mallock`, or what it would find if the lock it takes could be taken. -/
def newArea (relock : Bool) : M (Option (Fin nmaps)) := if relock then mallock else Prog.read Sys.free

/-- Where `fork` stands: before the store, before the release of `ptable.lock`, in `map_fork`. -/
inductive ForkPc where
  | ready | unlock | acquire
  /-- The entries of the table that are left. -/
  | areas (l : List (Fin nmaps))
  | done
  /-- Its CPU has panicked. -/
  | stuck
  deriving DecidableEq

structure Forking where
  sys : Sys
  pc  : ForkPc

/-- A step of `fork`, or of a scheduler at the RUNNABLE `q`. -/
inductive ForkTurn where
  | parent
  | dispatch (q : Fin nproc)

/-- Its CPU runs `c`. -/
def Forking.exec (m : Forking) (c : M Unit) (next : ForkPc) : Forking :=
  ⟨(c m.sys).st, match (c m.sys).res with | .ok _ => next | .error _ => .stuck⟩

def Forking.next (relock : Bool) (p np : Fin nproc) (m : Forking) : Forking :=
  match m.pc with
  | .ready          => m.exec (table (.ready np)) .unlock
  | .unlock         => { m with pc := .acquire }
  | .acquire        => m.exec acquire (.areas areas)
  | .areas (i :: l) => m.exec (forkArea (newArea relock) p np i) (.areas l)
  | .areas []       => m.exec release .done
  | .done           => m
  | .stuck          => m

/-- A scheduler needs `ptable.lock`. -/
def Forking.dispatch (m : Forking) (q : Fin nproc) : Forking :=
  match m.pc with
  | .unlock => m
  | _       => { m with sys := (table (.dispatch q) m.sys).st }

def forkTurn (relock : Bool) (p np : Fin nproc) (t : ForkTurn) : Prog Stop Forking Event Unit :=
  Prog.modify fun m => match t with | .parent => m.next relock p np | .dispatch q => m.dispatch q

def forkRun (relock : Bool) (p np : Fin nproc) (turns : List ForkTurn) : Prog Stop Forking Event Unit :=
  Prog.forEach turns (forkTurn relock p np)

/-- A scheduler that would choose the child finds `map_fork` at its end, unless there was nothing for it to do. -/
def Waits (s₀ : Sys) (p np : Fin nproc) (m : Forking) : ForkTurn → Prop
  | .parent     => True
  | .dispatch q => (schedScan m.sys.tab q).1 = np → m.pc = .done ∨ ∀ i, (s₀.maps i).ownedBy p = false

instance (s₀ : Sys) (p np : Fin nproc) (m : Forking) : (t : ForkTurn) → Decidable (Waits s₀ p np m t)
  | .parent     => .isTrue trivial
  | .dispatch q => inferInstanceAs (Decidable ((schedScan m.sys.tab q).1 = np → m.pc = .done ∨ _))

/-- The child has an area with the range of the parent's area `a`. -/
def Copied (np : Fin nproc) (a : Area) (s : Sys) : Prop :=
  ∃ j, (s.maps j).ownedBy np = true ∧ (s.maps j).addr = a.addr ∧ (s.maps j).length = a.length

def Published (s₀ : Sys) (p np : Fin nproc) (s : Sys) : Prop :=
  ∀ i, (s₀.maps i).ownedBy p = true → Copied np (s₀.maps i) s

/-! ## map_fork's loop -/

/-- The table of processes, and the areas in use, are as before. -/
def Keeps (s t : Sys) : Prop := t.tab = s.tab ∧ ∀ i, (s.maps i).state = .using → t.maps i = s.maps i

theorem keeps_frame : Prog.Frame Keeps where
  refl _ := ⟨rfl, fun _ _ => rfl⟩
  trans h h' := ⟨h'.1.trans h.1, fun i hi => (h'.2 i (by rw [h.2 i hi]; exact hi)).trans (h.2 i hi)⟩

theorem keeps_quiet {α : Type} {c : M α} (hc : Quiet Sys.slots (fun _ => True) c) : Along Keeps c := by
  refine Along.quiet hc fun s t h => ?_
  unfold Sys.slots at h
  simp only [Prod.mk.injEq] at h
  exact ⟨h.2.1, fun i _ => congrFun h.1 i⟩

variable {relock : Bool} {p np : Fin nproc} {s s₀ t : Sys}

theorem Copied.keeps {a : Area} (h : Copied np a s) (hk : Keeps s t) : Copied np a t := by
  obtain ⟨j, hj, ha, hl⟩ := h
  have hjt := hk.2 j (ownedBy_iff.1 hj).1
  exact ⟨j, by rw [hjt]; exact hj, by rw [hjt]; exact ha, by rw [hjt]; exact hl⟩

theorem newArea_run (relock : Bool) (s : Sys) : newArea relock s = ⟨.ok s.free, s, []⟩ ∨
    newArea relock s = ⟨.error (.panic "acquire"), s, []⟩ := by
  cases relock with
  | false => exact .inl rfl
  | true =>
    cases hl : s.locked with
    | false => exact .inl (mallock_run hl)
    | true => exact .inr (mallock_panic hl)

/-- What a turn of the loop does once it has the entry `j`. -/
def inherit (p np : Fin nproc) (a : Area) (j : Fin nmaps) : M Unit := do
  Prog.emit (.inherited np j)
  Prog.when (a.f ≠ .null) (setOff p a.f a.offset)
  Prog.forEach (List.range a.npages) (fun n => forkPage p np a (a.page n))

theorem inherit_quiet (a : Area) (j : Fin nmaps) : Quiet Sys.slots (fun _ => True) (inherit p np a j) :=
  Quiet.bind (Quiet.emit trivial) (fun _ => Quiet.bind (Quiet.when fun _ => setOff_quiet slots_view p a.f _) (fun _ =>
    Quiet.forEach _ (fun _ _ => forkPage_quiet slots_view (fun _ _ _ => rfl) p np a trivial
      (fun _ _ _ => mappages_walks (fun _ => trivial)) (fun _ => trivial))))

/-- **One turn** keeps the areas in use, and where it runs to its end the child has a copy of the area. -/
theorem forkArea_keeps (i : Fin nmaps) : Keeps s (forkArea (newArea relock) p np i s).st ∧
    ((forkArea (newArea relock) p np i s).res = .ok () → (s.maps i).ownedBy p = true →
      Copied np (s.maps i) (forkArea (newArea relock) p np i s).st) := by
  cases ho : (s.maps i).ownedBy p with
  | false =>
    rw [forkArea_skip ho]
    exact ⟨keeps_frame.refl s, fun _ h => by cases h⟩
  | true =>
    rcases newArea_run relock s with ha | ha
    · cases hf : s.free with
      | none =>
        have hrun : forkArea (newArea relock) p np i s = ⟨.error .wild, s, []⟩ := by
          unfold forkArea
          rw [Prog.read_bind_run, Prog.when_pos ho, Prog.bind_run_nil ha, hf]
          rfl
        rw [hrun]
        exact ⟨keeps_frame.refl s, fun h => by cases h⟩
      | some j =>
        have hrun : forkArea (newArea relock) p np i s =
            inherit p np (s.maps i) j (s.setArea j { s.maps i with p := some np, state := .using }) := by
          unfold forkArea
          rw [Prog.read_bind_run, Prog.when_pos ho, Prog.bind_run_nil ha, hf]
          rfl
        have hfree := of_decide_eq_true (findArea_some.1 hf).1
        have hset : Keeps s (s.setArea j { s.maps i with p := some np, state := .using }) := by
          refine ⟨rfl, fun k hk => if_neg ?_⟩
          rintro rfl
          rw [hfree] at hk
          cases hk
        have hcopy : Copied np (s.maps i) (s.setArea j { s.maps i with p := some np, state := .using }) :=
          ⟨j, ownedBy_iff.2 (by simp [Sys.setArea]), by simp [Sys.setArea], by simp [Sys.setArea]⟩
        have hinherit : Along Keeps (inherit p np (s.maps i) j) := keeps_quiet (inherit_quiet (s.maps i) j)
        have hrest := hinherit (s.setArea j { s.maps i with p := some np, state := .using })
        rw [hrun]
        exact ⟨keeps_frame.trans hset hrest, fun _ _ => hcopy.keeps hrest⟩
    · rw [forkArea_error ho ha]
      exact ⟨keeps_frame.refl s, fun h => by cases h⟩

/-! ## Every interleaving -/

/-- The entry `i`, with the parent's area `a`, is still to come or has been copied. -/
def Passed (np : Fin nproc) (a : Area) (i : Fin nmaps) (s : Sys) : ForkPc → Prop
  | .areas l => i ∈ l ∨ Copied np a s
  | .done    => Copied np a s
  | _        => True

/-- The areas of the parent are as `fork` found them; those that `map_fork` has passed are copied; and the child runs
only if all are. -/
structure Forked (s₀ : Sys) (p np : Fin nproc) (m : Forking) : Prop where
  own  : ∀ i, (s₀.maps i).ownedBy p = true → m.sys.maps i = s₀.maps i
  past : ∀ i, (s₀.maps i).ownedBy p = true → Passed np (s₀.maps i) i m.sys m.pc
  runs : (m.sys.tab.proc np).state = .running → Published s₀ p np m.sys

theorem own_keeps {m : Forking} (h : Forked s₀ p np m) (hk : Keeps m.sys t) :
    ∀ i, (s₀.maps i).ownedBy p = true → t.maps i = s₀.maps i := by
  intro i hi
  have hm := h.own i hi
  rw [hk.2 i (by rw [hm]; exact (ownedBy_iff.1 hi).1), hm]

theorem Published.keeps (h : Published s₀ p np s) (hk : Keeps s t) : Published s₀ p np t :=
  fun i hi => (h i hi).keeps hk

theorem Forked.exec {m : Forking} (h : Forked s₀ p np m) {c : M Unit} {next : ForkPc} (hk : Keeps m.sys (c m.sys).st)
    (hp : ∀ i, (s₀.maps i).ownedBy p = true → (c m.sys).res = .ok () →
      Passed np (s₀.maps i) i (c m.sys).st next) : Forked s₀ p np (m.exec c next) where
  own  := own_keeps h hk
  past := by
    intro i hi
    unfold Forking.exec
    cases hr : (c m.sys).res with
    | ok => exact hp i hi hr
    | error e => trivial
  runs := by
    intro hrun
    have hrun' : ((c m.sys).st.tab.proc np).state = .running := hrun
    rw [hk.1] at hrun'
    exact (h.runs hrun').keeps hk

theorem acquire_keeps : Along Keeps acquire := keeps_quiet (acquire_quiet fun _ _ => rfl)

theorem release_keeps : Along Keeps release := keeps_quiet (release_quiet fun _ _ => rfl)

theorem ready_running (h : ((Sched.step (.ready np) s.tab).st.proc np).state = .running) :
    (s.tab.proc np).state = .running := by
  by_cases he : (s.tab.proc np).state = .embryo
  · rw [Sched.step_ready he, Sched.setProc_proc, if_pos rfl] at h
    cases h
  · rwa [Sched.step_run, if_neg (show ¬ Sched.Act.enabled s.tab (.ready np) = true from
      fun hen => he (of_decide_eq_true hen))] at h

theorem dispatch_other {q : Fin nproc} (h : (schedScan s.tab q).1 ≠ np) :
    ((Sched.step (.dispatch q) s.tab).st.proc np).state = (s.tab.proc np).state := by
  by_cases he : (s.tab.proc q).state = .runnable
  · rw [Sched.step_dispatch he, Sched.setProc_proc, if_neg fun hn => h hn.symm]
  · rw [Sched.step_run, if_neg (show ¬ Sched.Act.enabled s.tab (.dispatch q) = true from
      fun hen => he (of_decide_eq_true hen))]

theorem forked_next {m : Forking} (h : Forked s₀ p np m) : Forked s₀ p np (m.next relock p np) := by
  have hpast := h.past
  unfold Forking.next
  cases hpc : m.pc with
  | ready =>
    have hpc' : ∀ i (r : Except Stop Unit), Passed np (s₀.maps i) i (table (.ready np) m.sys).st
        (match r with | .ok _ => .unlock | .error _ => .stuck) := fun i r => by cases r <;> trivial
    exact ⟨h.own, fun i _ => hpc' i _, fun hrun => h.runs (ready_running hrun)⟩
  | unlock => exact ⟨h.own, fun i hi => trivial, h.runs⟩
  | acquire => exact h.exec (acquire_keeps m.sys) fun i _ _ => .inl (List.mem_finRange i)
  | areas l =>
    cases l with
    | nil =>
      refine h.exec (release_keeps m.sys) fun i hi _ => ?_
      have hi' := hpast i hi
      rw [hpc] at hi'
      exact (hi'.resolve_left List.not_mem_nil).keeps (release_keeps m.sys)
    | cons j l =>
      obtain ⟨hk, hc⟩ : Keeps m.sys (forkArea (newArea relock) p np j m.sys).st ∧ _ := forkArea_keeps j
      refine h.exec hk fun i hi hok => ?_
      have hi' := hpast i hi
      rw [hpc] at hi'
      rcases hi' with hmem | hcopy
      · rcases List.mem_cons.1 hmem with rfl | hmem
        · rw [← h.own i hi]
          exact .inr (hc hok (by rw [h.own i hi]; exact hi))
        · exact .inl hmem
      · exact .inr (hcopy.keeps hk)
  | done => exact h
  | stuck => exact h

theorem forked_dispatch {m : Forking} (h : Forked s₀ p np m) {q : Fin nproc} (hw : Waits s₀ p np m (.dispatch q)) :
    Forked s₀ p np (m.dispatch q) := by
  have hruns : ((Sched.step (.dispatch q) m.sys.tab).st.proc np).state = .running → Published s₀ p np m.sys := by
    intro hrun
    by_cases hq : (schedScan m.sys.tab q).1 = np
    · rcases hw hq with hdone | hnone
      · intro i hi
        have hp := h.past i hi
        rwa [hdone] at hp
      · intro i hi
        rw [hnone i] at hi
        cases hi
    · rw [dispatch_other hq] at hrun
      exact h.runs hrun
  unfold Forking.dispatch
  split
  · exact h
  · exact ⟨h.own, h.past, hruns⟩

/-- **The page fault of an address in an area** is answered with -1 only where the area's protection refuses it. -/
theorem pageFaultHandler_finds {va : Addr} {io : Word} {j : Fin nmaps} (hj : (s.maps j).faults np (pgRoundDown va) = true)
    (hp : ∀ k, (s.maps k).faults np (pgRoundDown va) = true → (s.maps k).prot.slt io = false) :
    Prog.wp (pageFaultHandler np va io) (fun r _ => r ≠ -1) (fun _ => True) s := by
  cases hl : s.locked with
  | true => exact Prog.wp_of_stop (Prog.bind_run_error (acquire_panic hl)) trivial
  | false =>
    cases hi : s.lock.findArea (Area.faults np (pgRoundDown va)) with
    | none =>
      have hnone : (s.maps j).faults np (pgRoundDown va) = false := findArea_none.1 hi j
      rw [hj] at hnone
      cases hnone
    | some i =>
      refine (pageFaultHandler_grants (s := s) hi (hp i (findArea_some.1 hi).1)).imp fun r _ hr => ?_
      rw [hr]
      decide

/-- **A refused fault changes nothing**: no area of the process has the address, or the first that has it does not
allow the access. -/
theorem pageFaultHandler_refused {va : Addr} {io : Word} (h : (pageFaultHandler np va io s).res = .ok (-1)) :
    pageFaultHandler np va io s = ⟨.ok (-1), s, []⟩ := by
  cases hl : s.locked with
  | true =>
    rw [pageFaultHandler, Prog.bind_run_error (acquire_panic hl)] at h
    cases h
  | false =>
    refine pageFaultHandler_refuses hl fun i hi => ?_
    by_contra hslt
    have hone := (pageFaultHandler_grants hi (Bool.eq_false_iff.2 hslt)).ok h
    cases hone

theorem Published.answers (h : Published s₀ p np s) {i : Fin nmaps} {va : Addr} {io : Word}
    (hi : (s₀.maps i).faults p (pgRoundDown va) = true)
    (hprot : ∀ j, (s.maps j).faults np (pgRoundDown va) = true → (s.maps j).prot.slt io = false) :
    (pageFaultHandler np va io s).res ≠ .ok (-1) := by
  unfold Area.faults at hi
  rw [Bool.and_eq_true] at hi
  obtain ⟨j, hj, ha, hl⟩ := h i hi.2
  have hfaults : (s.maps j).faults np (pgRoundDown va) = true := by
    unfold Area.faults Area.covers
    rw [ha, hl, hj, Bool.and_true]
    exact hi.1
  exact fun hres => (pageFaultHandler_finds hfaults hprot).ok hres rfl

/-- **The child finds its areas.**  In every interleaving in which no scheduler takes the child before `map_fork` has
ended, unless the parent had no area, a child that runs has an area for each of the parent's, and no fault that the
protection allows is answered with -1 there. -/
theorem forkRun_published (relock : Bool) (s₀ : Sys) (p np : Fin nproc) (hnp : (s₀.tab.proc np).state = .embryo)
    (turns : List ForkTurn) (hc : Prog.Admits (Waits s₀ p np) (forkTurn relock p np) turns ⟨s₀, .ready⟩) (s : Sys)
    (hs : (forkRun relock p np turns ⟨s₀, .ready⟩).st.sys = s) (hrun : (s.tab.proc np).state = .running) :
    Published s₀ p np s ∧ ∀ i va io, (s₀.maps i).faults p (pgRoundDown va) = true →
      (∀ j, (s.maps j).faults np (pgRoundDown va) = true → (s.maps j).prot.slt io = false) →
      (pageFaultHandler np va io s).res ≠ .ok (-1) := by
  have hstart : Forked s₀ p np ⟨s₀, .ready⟩ := by
    refine ⟨fun _ _ => rfl, fun _ _ => trivial, fun hrun => ?_⟩
    rw [hnp] at hrun
    cases hrun
  have hstep : ∀ t m, Forked s₀ p np m → Waits s₀ p np m t → Forked s₀ p np (forkTurn relock p np t m).st := by
    intro t m hm hw
    cases t with
    | parent => exact forked_next hm
    | dispatch q => exact forked_dispatch hm hw
  have hend := (Prog.forEach_admits (R := fun _ => True) (fun t m hm hw => ⟨fun _ _ => trivial, hstep t m hm hw⟩)
    turns _ hstart hc).2
  have hpub : Published s₀ p np s := hs ▸ hend.runs (by rw [← hs] at hrun; exact hrun)
  exact ⟨hpub, fun i va io hi hprot => hpub.answers hi hprot⟩

/-- A process with an anonymous page that it has not touched, and its child to be. -/
def forking : Sys :=
  { boot ⟨fun _ => zeroPage, [300#20], 1, 0x80100000#32, 0x80100000#32⟩ (fun _ => sampleFile) with
    maps := fun i => if i = 0 then ⟨.null, mmapBase, 4096, 0, protRead, mapAnonymous, some 0, .using⟩ else Area.cleared
    tab := { Sched.boot with proc := fun p =>
      { Sched.unusedProc with state := if p = 0 then .running else if p = 1 then .embryo else .unused } }
    pgdir := fun p => if p = 0 then some sampleSpace else none }

def arealess : Sys := forking.setArea 0 { forking.maps 0 with p := some 2 }

/-- A scheduler takes the child when `map_fork` has ended. -/
def dispatchLast : List ForkTurn := List.replicate 68 .parent ++ [.dispatch 1]

def dispatchFirst : List ForkTurn := [.parent, .parent, .dispatch 1]

/-- The code's `map_fork` (`relock`) comes to its end only for a parent without an area, and then the child may be taken at
any time; with the area it ends only if `mallock` could take the lock, as it cannot in the code. -/
theorem dispatchLast_published : Published arealess 0 1 (forkRun true 0 1 dispatchFirst ⟨arealess, .ready⟩).st.sys ∧
    (forkRun true 0 1 dispatchLast ⟨arealess, .ready⟩).st.pc = .done ∧
    Published arealess 0 1 (forkRun true 0 1 dispatchLast ⟨arealess, .ready⟩).st.sys ∧
    Published forking 0 1 (forkRun false 0 1 dispatchLast ⟨forking, .ready⟩).st.sys :=
  ⟨(forkRun_published true arealess 0 1 rfl dispatchFirst (by decide +kernel) _ rfl (by decide +kernel)).1,
    by decide +kernel,
    (forkRun_published true arealess 0 1 rfl dispatchLast (by decide +kernel) _ rfl (by decide +kernel)).1,
    (forkRun_published false forking 0 1 rfl dispatchLast (by decide +kernel) _ rfl (by decide +kernel)).1⟩

/-- The child runs, and its first access to the page is answered with -1. -/
theorem dispatchFirst_lost :
    ((forkRun true 0 1 dispatchFirst ⟨forking, .ready⟩).st.sys.tab.proc 1).state = .running ∧
    ((forking.maps 0).faults 0 mmapBase = true) ∧
    (pageFaultHandler 1 mmapBase 1 (forkRun true 0 1 dispatchFirst ⟨forking, .ready⟩).st.sys).res.toOption = some (-1) := by
  decide +kernel

end Vm
end Xv6
