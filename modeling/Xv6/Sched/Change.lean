import Xv6.Sched.Vruntime
/-!
# Sched.Change — what one step does to one slot

`Change s a r q` lists the values `q` that a step `a` from the table `s` may leave in slot `r`, with the guard under
which the code writes them.  `step_change` is the one place where the operations are unfolded for it; the invariants of
the life cycle, of the weights and of the pids are case analyses of `Change`.  `exit` walks the table and may wake its
parent and `initproc` on the way, so its change is stated by fields (`ExitsTo`).
-/
namespace Xv6
namespace Sched

open Prog (Triple)

def firstUnused (s : State) : Option (Fin nproc) := slots.find? (fun p => decide ((s.proc p).state = .unused))

/-- The first zombie child of `c`. -/
def zombieChild (s : State) (c : Fin nproc) : Option (Fin nproc) :=
  slots.find? (fun p => decide ((s.proc p).parent = some c) && decide ((s.proc p).state = .zombie))

/-- The slot as `allocproc` initialises it. -/
def allocated (pid : Int) (q : Proc) : Proc := { q with
  state := .embryo, pid := pid, nice := 20, weight := weightAt 20, vruntimeHigh := 0, vruntimeLow := 0, aruntime := 0,
  aruntimePrev := 0, timeslice := 0 }

/-- The child after one assignment of `fork`. -/
def copied (curproc : Fin nproc) (c q : Proc) : ForkField → Proc
  | .parent       => { q with parent := some curproc }
  | .vruntimeHigh => { q with vruntimeHigh := c.vruntimeHigh }
  | .vruntimeLow  => { q with vruntimeLow := c.vruntimeLow }
  | .aruntime     => { q with aruntime := 0 }
  | .aruntimePrev => { q with aruntimePrev := 0 }
  | .nice         => { q with nice := c.nice }
  | .weight       => { q with weight := c.weight }

def killedProc (q : Proc) : Proc :=
  { q with killed := true, state := if q.state = .sleeping then .runnable else q.state }

/-- The sleepers an exit of `c` has woken when its loop is behind the slots `l`: those on its parent, and those on
`initproc` once it has left it a zombie. -/
def roused (s : State) (c : Fin nproc) (l : List (Fin nproc)) (q : Proc) : Prop :=
  q.state = .sleeping ∧ (q.chan = chanOf (s.proc c).parent ∨
    q.chan = chanOf s.initproc ∧ ∃ z ∈ l, (s.proc z).parent = some c ∧ (s.proc z).state = .zombie)

/-- What an exit of `c` leaves in slot `r`, up to the accounting of a process it wakes. -/
structure ExitsTo (s : State) (c r : Fin nproc) (q : Proc) : Prop where
  pid    : q.pid = (s.proc r).pid
  nice   : q.nice = (s.proc r).nice
  weight : q.weight = (s.proc r).weight
  killed : q.killed = (s.proc r).killed
  chan   : q.chan = (s.proc r).chan
  parent : q.parent = if (s.proc r).parent = some c then s.initproc else (s.proc r).parent
  self   : r = c → q.state = .zombie
  woken  : r ≠ c → roused s c slots (s.proc r) → q.state = .runnable
  other  : r ≠ c → ¬ roused s c slots (s.proc r) → q.state = (s.proc r).state

inductive Change (s : State) : Act → Fin nproc → Proc → Prop
  | same (a r) : Change s a r (s.proc r)
  | userinit (r) : s.initproc = none → firstUnused s = some r →
      Change s .userinit r { allocated s.nextpid (s.proc r) with state := .runnable }
  | alloc (r) : firstUnused s = some r → Change s .allocproc r (allocated s.nextpid (s.proc r))
  | fail (r) : (s.proc r).state = .embryo → Change s (.allocFail r) r { s.proc r with state := .unused }
  | copy (r c f) : (s.proc r).state = .embryo → (s.proc c).state = .running →
      Change s (.forkCopy r c f) r (copied c (s.proc c) (s.proc r) f)
  | ready (r) : (s.proc r).state = .embryo → Change s (.ready r) r { s.proc r with state := .runnable }
  | sleep (r chan) : (s.proc r).state = .running →
      Change s (.sleep r chan) r { s.proc r with chan := chan, state := .sleeping }
  | sleepReturn (r) : (s.proc r).state = .running → Change s (.sleepReturn r) r { s.proc r with chan := .null }
  | wakeup (chan r) : (s.proc r).state = .sleeping → (s.proc r).chan = chan →
      Change s (.wakeup chan) r (woken (minRunnable s) (s.proc r))
  | kill (pid r) : findPid s pid = some r → Change s (.kill pid) r (killedProc (s.proc r))
  | setnice (pid v r) : 0 ≤ v → v ≤ 39 → 0 < pid → findPid s pid = some r →
      Change s (.setnice pid v) r { s.proc r with nice := v, weight := weightAt v }
  | exit (c r q) : (s.proc c).state = .running → s.initproc ≠ some c → ExitsTo s c r q → Change s (.exit c) r q
  | wait (c r) : (s.proc c).state = .running → zombieChild s c = some r →
      Change s (.wait c) r { s.proc r with pid := 0, parent := none, killed := false, state := .unused }
  | tick (r) : (s.proc r).state = .running → Change s (.tick r) r (ticked (s.proc r))
  | dispatch (p r) : (s.proc p).state = .runnable → (schedScan s p).1 = r →
      Change s (.dispatch p) r (dispatched (schedScan s p).2 (s.proc r))

/-! ## The scans -/

theorem find_slots {P : Fin nproc → Bool} {p : Fin nproc} (h : slots.find? P = some p) : P p = true :=
  List.find?_some h

theorem find_slots_none {P : Fin nproc → Bool} (h : slots.find? P = none) (p : Fin nproc) : P p = false := by
  simpa using List.find?_eq_none.1 h p (List.mem_finRange p)

theorem firstUnused_state {s : State} {p : Fin nproc} (h : firstUnused s = some p) : (s.proc p).state = .unused :=
  of_decide_eq_true (find_slots h)

theorem findPid_pid {s : State} {pid : Int} {p : Fin nproc} (h : findPid s pid = some p) : (s.proc p).pid = pid :=
  of_decide_eq_true (find_slots h)

theorem findPid_none {s : State} {pid : Int} (h : findPid s pid = none) (p : Fin nproc) : (s.proc p).pid ≠ pid :=
  of_decide_eq_false (find_slots_none h p)

theorem zombieChild_some {s : State} {c p : Fin nproc} (h : zombieChild s c = some p) :
    (s.proc p).parent = some c ∧ (s.proc p).state = .zombie := by
  have := find_slots h
  simpa using this

theorem zombieChild_none {s : State} {c : Fin nproc} (h : zombieChild s c = none) (p : Fin nproc)
    (hp : (s.proc p).parent = some c) : (s.proc p).state ≠ .zombie := by
  have := find_slots_none h p
  simpa [hp] using this

theorem firstUnused_none {s : State} (h : firstUnused s = none) (p : Fin nproc) : (s.proc p).state ≠ .unused :=
  of_decide_eq_false (find_slots_none h p)

theorem sleepsOn_iff {chan : Chan} {q : Proc} : sleepsOn chan q = true ↔ q.state = .sleeping ∧ q.chan = chan := by
  unfold sleepsOn
  simp only [Bool.and_eq_true, decide_eq_true_eq]

/-! ## The operations that are one write -/

theorem step_run (a : Act) (s : State) : step a s = if a.enabled s then a.exec s else ⟨.ok (), s, []⟩ := by
  unfold step
  rw [Prog.get_bind_run]
  split <;> rfl

theorem allocproc_run (s : State) : allocproc s = match firstUnused s with
    | none   => ⟨.ok none, s, []⟩
    | some p => ⟨.ok (some p), { s.setProc p (allocated s.nextpid (s.proc p)) with nextpid := s.nextpid + 1 }, []⟩ := by
  unfold allocproc firstUnused
  rw [Prog.get_bind_run]
  cases slots.find? (fun p => decide ((s.proc p).state = .unused)) <;> rfl

theorem wakeup1_run (chan : Chan) (s : State) : wakeup1 chan s = ⟨.ok (), { s with
    proc := fun p => if sleepsOn chan (s.proc p) then woken (minRunnable s) (s.proc p) else s.proc p }, [⟨s, chan⟩]⟩ := rfl

theorem kill_run (pid : Int) (s : State) : kill pid s = match findPid s pid with
    | none   => ⟨.ok (-1), s, []⟩
    | some p => ⟨.ok 0, s.setProc p (killedProc (s.proc p)), []⟩ := by
  unfold kill
  rw [Prog.get_bind_run]
  cases findPid s pid <;> rfl

theorem setnice_run (pid v : Int) (s : State) : setnice pid v s = if v < 0 ∨ 39 < v ∨ pid ≤ 0 then ⟨.ok (-1), s, []⟩
    else match findPid s pid with
      | none   => ⟨.ok (-1), s, []⟩
      | some p => ⟨.ok 0, s.setProc p { s.proc p with nice := v, weight := weightAt v }, []⟩ := by
  unfold setnice
  split
  · rfl
  · rw [Prog.get_bind_run]
    cases findPid s pid <;> rfl

theorem waitReap_run (c : Fin nproc) (s : State) : waitReap c s = match zombieChild s c with
    | none   => ⟨.ok (-1), s, []⟩
    | some p => ⟨.ok (s.proc p).pid,
        s.setProc p { s.proc p with pid := 0, parent := none, killed := false, state := .unused }, []⟩ := by
  unfold waitReap zombieChild
  rw [Prog.get_bind_run]
  cases slots.find? (fun p => decide ((s.proc p).parent = some c) && decide ((s.proc p).state = .zombie)) <;> rfl

theorem drop_run {α : Type} (c : SchedM α) (s : State) : ((do let _ ← c) : SchedM Unit) s = match c s with
    | ⟨.ok _, s', t⟩    => ⟨.ok (), s', t ++ []⟩
    | ⟨.error e, s', t⟩ => ⟨.error e, s', t⟩ := by
  rw [Prog.bind_run]
  rcases c s with ⟨r, s', t⟩
  cases r <;> rfl

/-! ## Exit -/

/-- One turn of the loop of `exit`. -/
def adopt (c p : Fin nproc) : SchedM Unit := do
  let s ← Prog.get
  if (s.proc p).parent = some c then
    update p (fun q => { q with parent := s.initproc })
    if (s.proc p).state = .zombie then wakeup1 (chanOf s.initproc)
  else pure ()

theorem exit_eq (c : Fin nproc) : exit c = (do
    let s ← Prog.get
    if s.initproc = some c then Prog.stop (.panic "init exiting")
    else
      wakeup1 (chanOf (s.proc c).parent)
      Prog.forEach slots (adopt c)
      update c (fun q => { q with state := .zombie })) := rfl

/-- The table `t` in the section of `exit`: the slots `l` are adopted and the sleepers `W` are woken. -/
structure Adopting (s : State) (c : Fin nproc) (l : List (Fin nproc)) (W : Proc → Prop) (t : State) : Prop where
  nextpid  : t.nextpid = s.nextpid
  initproc : t.initproc = s.initproc
  kept     : ∀ r, (t.proc r).pid = (s.proc r).pid ∧ (t.proc r).nice = (s.proc r).nice ∧
    (t.proc r).weight = (s.proc r).weight ∧ (t.proc r).killed = (s.proc r).killed ∧ (t.proc r).chan = (s.proc r).chan
  parent   : ∀ r, (t.proc r).parent = if r ∈ l ∧ (s.proc r).parent = some c then s.initproc else (s.proc r).parent
  woken    : ∀ r, W (s.proc r) → (t.proc r).state = .runnable
  other    : ∀ r, ¬ W (s.proc r) → (t.proc r).state = (s.proc r).state

theorem woken_kept (m : Option (uint × uint)) (q : Proc) : (woken m q).pid = q.pid ∧ (woken m q).nice = q.nice ∧
    (woken m q).weight = q.weight ∧ (woken m q).killed = q.killed ∧ (woken m q).chan = q.chan ∧
    (woken m q).parent = q.parent ∧ (woken m q).state = .runnable := by
  rw [woken_eq]
  exact ⟨rfl, rfl, rfl, rfl, rfl, rfl, rfl⟩

theorem wakeup1_slot (chan : Chan) (t : State) (r : Fin nproc) :
    (sleepsOn chan (t.proc r) = true ∧ (wakeup1 chan t).st.proc r = woken (minRunnable t) (t.proc r)) ∨
      (¬ sleepsOn chan (t.proc r) = true ∧ (wakeup1 chan t).st.proc r = t.proc r) := by
  rw [wakeup1_run]
  dsimp only
  split
  · exact .inl ⟨‹_›, rfl⟩
  · exact .inr ⟨‹_›, rfl⟩

section Exit

variable {s t : State} {c : Fin nproc} {l : List (Fin nproc)} {W : Proc → Prop}

theorem adopting_self (s : State) (c : Fin nproc) : Adopting s c [] (fun _ => False) s where
  nextpid  := rfl
  initproc := rfl
  kept _   := ⟨rfl, rfl, rfl, rfl, rfl⟩
  parent r := by rw [if_neg (fun h => by cases h.1)]
  woken _ h := h.elim
  other _ _ := rfl

theorem Adopting.wake (h : Adopting s c l W t) (chan : Chan) :
    Adopting s c l (fun q => W q ∨ q.state = .sleeping ∧ q.chan = chan) (wakeup1 chan t).st := by
  refine ⟨h.nextpid, h.initproc, fun r => ?_, fun r => ?_, fun r hw => ?_, fun r ho => ?_⟩
  · obtain ⟨-, he⟩ | ⟨-, he⟩ := wakeup1_slot chan t r
    · obtain ⟨h1, h2, h3, h4, h5, -, -⟩ := woken_kept (minRunnable t) (t.proc r)
      obtain ⟨g1, g2, g3, g4, g5⟩ := h.kept r
      rw [he]
      exact ⟨h1.trans g1, h2.trans g2, h3.trans g3, h4.trans g4, h5.trans g5⟩
    · rw [he]; exact h.kept r
  · rw [← h.parent r]
    obtain ⟨-, he⟩ | ⟨-, he⟩ := wakeup1_slot chan t r
    · rw [he]; exact (woken_kept _ _).2.2.2.2.2.1
    · rw [he]
  · obtain ⟨-, he⟩ | ⟨hs, he⟩ := wakeup1_slot chan t r
    · rw [he]; exact (woken_kept _ _).2.2.2.2.2.2
    · -- not asleep on the channel any more, so it was woken before
      rw [he]
      by_cases hb : W (s.proc r)
      · exact h.woken r hb
      · obtain ⟨hst, hch⟩ := hw.resolve_left hb
        exact absurd (sleepsOn_iff.2 ⟨(h.other r hb).trans hst, (h.kept r).2.2.2.2.trans hch⟩) hs
  · have hb : ¬ W (s.proc r) := fun hb => ho (.inl hb)
    obtain ⟨hs, -⟩ | ⟨-, he⟩ := wakeup1_slot chan t r
    · obtain ⟨hst, hch⟩ := sleepsOn_iff.1 hs
      exact absurd (.inr ⟨(h.other r hb).symm.trans hst, (h.kept r).2.2.2.2.symm.trans hch⟩) ho
    · rw [he]; exact h.other r hb

theorem Adopting.congr {W' : Proc → Prop} (h : Adopting s c l W t) (hW : ∀ q, W q ↔ W' q) : Adopting s c l W' t where
  nextpid   := h.nextpid
  initproc  := h.initproc
  kept      := h.kept
  parent    := h.parent
  woken r w := h.woken r ((hW _).2 w)
  other r w := h.other r (fun g => w ((hW _).1 g))

theorem Adopting.store (h : Adopting s c l W t) {p : Fin nproc} (hp : (t.proc p).parent = some c) :
    Adopting s c (l ++ [p]) W (t.setProc p { t.proc p with parent := t.initproc }) := by
  have hslot : ∀ r, ((t.setProc p { t.proc p with parent := t.initproc }).proc r) =
      if r = p then { t.proc r with parent := t.initproc } else t.proc r := by
    intro r
    rw [setProc_proc]
    split
    · rename_i hr; rw [hr]
    · rfl
  refine ⟨h.nextpid, h.initproc, fun r => ?_, fun r => ?_, fun r w => ?_, fun r w => ?_⟩
  · rw [hslot]; split <;> exact h.kept r
  · rw [hslot]
    by_cases hr : r = p
    · subst hr
      rw [if_pos rfl]
      show t.initproc = _
      rw [h.initproc]
      -- a child now: one already adopted, whose parent is then initproc, or one still to be
      by_cases hs : (s.proc r).parent = some c
      · rw [if_pos ⟨by simp, hs⟩]
      · rw [if_neg (fun g => hs g.2)]
        rw [h.parent r, if_neg (fun g => hs g.2)] at hp
        exact absurd hp hs
    · rw [if_neg hr, h.parent r]
      simp only [List.mem_append, List.mem_singleton, hr, or_false]
  · rw [hslot]; split <;> exact h.woken r w
  · rw [hslot]; split <;> exact h.other r w

theorem Adopting.skip (h : Adopting s c l W t) {p : Fin nproc} (hp : (t.proc p).parent ≠ some c) (hl : p ∉ l) :
    Adopting s c (l ++ [p]) W t ∧ (s.proc p).parent ≠ some c := by
  have hs : (s.proc p).parent ≠ some c := by
    rw [h.parent p, if_neg (fun g => hl g.1)] at hp
    exact hp
  refine ⟨⟨h.nextpid, h.initproc, h.kept, fun r => ?_, h.woken, h.other⟩, hs⟩
  rw [h.parent r]
  by_cases hr : r = p
  · subst hr; rw [if_neg (fun g => hs g.2), if_neg (fun g => hs g.2)]
  · simp only [List.mem_append, List.mem_singleton, hr, or_false]

def Within (s : State) (c : Fin nproc) (t : State) : Prop := ∃ l l', Adopting s c l (roused s c l') t

theorem Adopting.zombie_iff (h : Adopting s c l (roused s c l) t) (p : Fin nproc) :
    (t.proc p).state = .zombie ↔ (s.proc p).state = .zombie := by
  by_cases hb : roused s c l (s.proc p)
  · rw [h.woken p hb, hb.1]; exact ⟨nofun, nofun⟩
  · rw [h.other p hb]

theorem roused_append (p : Fin nproc) (q : Proc) : roused s c (l ++ [p]) q ↔ roused s c l q ∨
    q.state = .sleeping ∧ q.chan = chanOf s.initproc ∧ (s.proc p).parent = some c ∧ (s.proc p).state = .zombie := by
  unfold roused
  constructor
  · rintro ⟨hst, hch | ⟨hch, z, hz, hzp, hzs⟩⟩
    · exact .inl ⟨hst, .inl hch⟩
    · rcases List.mem_append.1 hz with hz | hz
      · exact .inl ⟨hst, .inr ⟨hch, z, hz, hzp, hzs⟩⟩
      · rw [List.mem_singleton.1 hz] at hzp hzs
        exact .inr ⟨hst, hch, hzp, hzs⟩
  · rintro (⟨hst, hch | ⟨hch, z, hz, hzp, hzs⟩⟩ | ⟨hst, hch, hpp, hps⟩)
    · exact ⟨hst, .inl hch⟩
    · exact ⟨hst, .inr ⟨hch, z, List.mem_append_left _ hz, hzp, hzs⟩⟩
    · exact ⟨hst, .inr ⟨hch, p, by simp, hpp, hps⟩⟩

theorem adopt_run (h : Adopting s c l (roused s c l) t) {p : Fin nproc} (hl : p ∉ l) :
    ∃ t' tr, adopt c p t = ⟨.ok (), t', tr⟩ ∧ Adopting s c (l ++ [p]) (roused s c (l ++ [p])) t' ∧
      ∀ e ∈ tr, Within s c e.s := by
  unfold adopt
  rw [Prog.get_bind_run]
  by_cases hp : (t.proc p).parent = some c
  · have hsp : (s.proc p).parent = some c := by
      rw [h.parent p, if_neg (fun g => hl g.1)] at hp
      exact hp
    rw [if_pos hp]
    by_cases hz : (t.proc p).state = .zombie
    · rw [if_pos hz]
      refine ⟨_, _, rfl, ((h.store hp).wake (chanOf t.initproc)).congr (fun q => ?_), fun e he => ?_⟩
      · rw [roused_append, h.initproc]
        simp only [hsp, (h.zombie_iff p).1 hz, and_self, and_true]
      · rw [List.mem_singleton.1 he]
        exact ⟨l ++ [p], l, h.store hp⟩
    · rw [if_neg hz]
      refine ⟨_, _, rfl, (h.store hp).congr (fun q => ?_), fun e he => by cases he⟩
      rw [roused_append]
      simp only [mt (h.zombie_iff p).2 hz, and_false, or_false]
  · rw [if_neg hp]
    obtain ⟨hskip, hsp⟩ := h.skip hp hl
    refine ⟨_, _, rfl, hskip.congr (fun q => ?_), fun e he => by cases he⟩
    rw [roused_append]
    simp only [hsp, false_and, and_false, or_false]

theorem forEach_adopt (post : List (Fin nproc)) : ∀ {l : List (Fin nproc)} {t : State},
    Adopting s c l (roused s c l) t → (l ++ post).Nodup →
    ∃ t' tr, Prog.forEach post (adopt c) t = ⟨.ok (), t', tr⟩ ∧
      Adopting s c (l ++ post) (roused s c (l ++ post)) t' ∧ ∀ e ∈ tr, Within s c e.s := by
  induction post with
  | nil =>
    intro l t h _
    rw [List.append_nil]
    exact ⟨t, [], rfl, h, fun e he => by cases he⟩
  | cons p post ih =>
    intro l t h hnd
    have hp : p ∉ l := fun hm => (List.nodup_append.1 hnd).2.2 p hm p List.mem_cons_self rfl
    obtain ⟨t₁, tr₁, hrun, h₁, hw₁⟩ := adopt_run h hp
    rw [List.append_cons] at hnd ⊢
    obtain ⟨t₂, tr₂, hrest, h₂, hw₂⟩ := ih h₁ hnd
    refine ⟨t₂, tr₁ ++ tr₂, by rw [Prog.forEach_cons, Prog.bind_run_ok hrun, hrest], h₂, fun e he => ?_⟩
    rcases List.mem_append.1 he with he | he
    · exact hw₁ e he
    · exact hw₂ e he

/-- **The section of `exit`**: the children are initproc's, the sleepers concerned are awake, and `c` is a zombie. -/
theorem exit_run (hi : s.initproc ≠ some c) : ∃ t tr, exit c s = ⟨.ok (), t, tr⟩ ∧ t.nextpid = s.nextpid ∧
    t.initproc = s.initproc ∧ (∀ r, ExitsTo s c r (t.proc r)) ∧ ∀ e ∈ tr, e.s = s ∨ Within s c e.s := by
  have hfirst : Adopting s c [] (roused s c []) (wakeup1 (chanOf (s.proc c).parent) s).st :=
    ((adopting_self s c).wake _).congr (fun q => by unfold roused; simp)
  obtain ⟨t, tr, hrun, h, hw⟩ := forEach_adopt slots hfirst (List.nodup_finRange nproc)
  rw [List.nil_append] at h
  refine ⟨t.setProc c { t.proc c with state := .zombie }, ⟨s, chanOf (s.proc c).parent⟩ :: (tr ++ []),
    ?_, h.nextpid, h.initproc, fun r => ?_,
    fun e he => ?_⟩
  · rw [exit_eq, Prog.get_bind_run, if_neg hi, Prog.bind_run_ok (wakeup1_run _ s)]
    rw [wakeup1_run] at hrun
    rw [Prog.bind_run_ok hrun, update_run, List.singleton_append]
  · have hother : r ≠ c → (t.setProc c { t.proc c with state := .zombie }).proc r = t.proc r := by
      intro hr
      rw [setProc_proc, if_neg hr]
    obtain ⟨h1, h2, h3, h4, h5⟩ := h.kept r
    have hpar : (t.proc r).parent = if (s.proc r).parent = some c then s.initproc else (s.proc r).parent := by
      rw [h.parent r]
      simp only [slots, List.mem_finRange, true_and]
    by_cases hr : r = c
    · subst hr
      simp only [setProc_proc, if_pos]
      exact ⟨h1, h2, h3, h4, h5, hpar, fun _ => rfl, fun g => absurd rfl g, fun g => absurd rfl g⟩
    · rw [hother hr]
      exact ⟨h1, h2, h3, h4, h5, hpar, fun g => absurd g hr, fun _ => h.woken r, fun _ => h.other r⟩
  · rw [List.append_nil] at he
    rcases List.mem_cons.1 he with rfl | he
    · exact .inl rfl
    · exact .inr (hw e he)

end Exit

/-! ## Every step -/

theorem exit_stops {s : State} {c : Fin nproc} (hi : s.initproc = some c) :
    exit c s = ⟨.error (.panic "init exiting"), s, []⟩ := by
  rw [exit_eq, Prog.get_bind_run, if_pos hi]
  rfl

theorem change_setProc {s : State} {a : Act} {p : Fin nproc} {q : Proc} (h : Change s a p q) (r : Fin nproc) :
    Change s a r ((s.setProc p q).proc r) := by
  rw [setProc_proc]
  split
  · rename_i hr; rw [hr]; exact h
  · exact .same a r

theorem step_change (a : Act) (s : State) (r : Fin nproc) : Change s a r ((step a s).st.proc r) := by
  rw [step_run]
  split
  case isFalse => exact .same a r
  rename_i hen
  cases a with
  | userinit =>
    show Change s _ r ((userinit s).st.proc r)
    unfold userinit
    rw [Prog.bind_run, allocproc_run]
    cases hf : firstUnused s with
    | none => exact .same _ r
    | some p =>
      have hp := Change.userinit p (of_decide_eq_true hen) hf
      have := change_setProc hp r
      simp only [Prog.modify_bind_run, setRunnable, update_run, setProc_proc] at this ⊢
      by_cases hr : r = p
      · simpa [hr] using this
      · simpa [hr] using this
  | allocproc =>
    show Change s _ r ((((do let _ ← allocproc) : SchedM Unit) s).st.proc r)
    rw [drop_run, allocproc_run]
    cases hf : firstUnused s with
    | none => exact .same _ r
    | some p => exact change_setProc (Change.alloc p hf) r
  | allocFail p => exact change_setProc (Change.fail p (of_decide_eq_true hen)) r
  | forkCopy np c f =>
    simp only [Act.enabled, Bool.and_eq_true, decide_eq_true_eq] at hen
    have h := change_setProc (Change.copy np c f hen.1 hen.2) r
    cases f <;> exact h
  | ready p => exact change_setProc (Change.ready p (of_decide_eq_true hen)) r
  | sleep p chan => exact change_setProc (Change.sleep p chan (of_decide_eq_true hen)) r
  | sleepReturn p => exact change_setProc (Change.sleepReturn p (of_decide_eq_true hen)) r
  | wakeup chan =>
    show Change s _ r ((wakeup1 chan s).st.proc r)
    obtain ⟨hs, he⟩ | ⟨-, he⟩ := wakeup1_slot chan s r
    · obtain ⟨hst, hch⟩ := sleepsOn_iff.1 hs
      rw [he]; exact .wakeup chan r hst hch
    · rw [he]; exact .same _ r
  | kill pid =>
    show Change s _ r ((((do let _ ← kill pid) : SchedM Unit) s).st.proc r)
    rw [drop_run, kill_run]
    cases hf : findPid s pid with
    | none => exact .same _ r
    | some p => exact change_setProc (Change.kill pid p hf) r
  | setnice pid v =>
    show Change s _ r ((((do let _ ← setnice pid v) : SchedM Unit) s).st.proc r)
    rw [drop_run, setnice_run]
    by_cases hg : v < 0 ∨ 39 < v ∨ pid ≤ 0
    · rw [if_pos hg]; exact .same _ r
    · rw [if_neg hg]
      cases hf : findPid s pid with
      | none => exact .same _ r
      | some p => exact change_setProc (Change.setnice pid v p (by omega) (by omega) (by omega) hf) r
  | exit c =>
    show Change s _ r ((exit c s).st.proc r)
    by_cases hi : s.initproc = some c
    · rw [exit_stops hi]; exact .same _ r
    · obtain ⟨t, tr, hrun, -, -, ht, -⟩ := exit_run hi
      rw [hrun]
      exact .exit c r _ (of_decide_eq_true hen) hi (ht r)
  | wait c =>
    show Change s _ r ((((do let _ ← waitReap c) : SchedM Unit) s).st.proc r)
    rw [drop_run, waitReap_run]
    cases hf : zombieChild s c with
    | none => exact .same _ r
    | some p => exact change_setProc (Change.wait c p (of_decide_eq_true hen) hf) r
  | tick p => exact change_setProc (Change.tick p (of_decide_eq_true hen)) r
  | dispatch p => exact change_setProc (Change.dispatch p _ (of_decide_eq_true hen) rfl) r

theorem used_of {q : Proc} {st : ProcState} (h : q.state = st) (hst : st ≠ .unused) : q.state ≠ .unused :=
  fun he => hst (h.symm.trans he)

theorem ExitsTo.used {s : State} {c r : Fin nproc} {q : Proc} (h : ExitsTo s c r q) (hc : (s.proc c).state = .running)
    (hu : q.state ≠ .unused) : (s.proc r).state ≠ .unused := by
  by_cases hr : r = c
  · rw [hr]; exact used_of hc (by decide)
  · by_cases hw : roused s c slots (s.proc r)
    · exact used_of hw.1 (by decide)
    · rw [← h.other hr hw]; exact hu

/-- What a step leaves beside the slots: the tables its wake calls start from, the counter of pids and `initproc`. -/
structure Rest (s : State) (a : Act) (o : Outcome Stop State WakeCall Unit) : Prop where
  tr       : ∀ e ∈ o.tr, e.s = s ∨ ∃ c, Within s c e.s
  nextpid  : o.st.nextpid = s.nextpid ∨ o.st.nextpid = s.nextpid + 1
  fresh    : ∀ r, firstUnused s = some r → a.enabled s = true → a = .userinit ∨ a = .allocproc →
    o.st.nextpid = s.nextpid + 1
  res      : (∀ c, a ≠ .exit c) → o.res = .ok ()
  initproc : o.st.initproc = s.initproc ∨ a = .userinit ∧ s.initproc = none ∧ ∃ r, firstUnused s = some r ∧
    o.st.initproc = some r

theorem Rest.quiet {s t : State} {a : Act} (ha : a ≠ .userinit ∧ a ≠ .allocproc)
    (hn : t.nextpid = s.nextpid) (hi : t.initproc = s.initproc) : Rest s a ⟨.ok (), t, []⟩ :=
  ⟨fun e he => (by cases he), .inl hn, fun _ _ _ h => absurd h (not_or.2 ha), fun _ => rfl, .inl hi⟩

theorem step_rest (a : Act) (s : State) : Rest s a (step a s) := by
  by_cases hen : a.enabled s = true
  case neg =>
    rw [step_run, if_neg hen]
    exact ⟨fun e he => (by cases he), .inl rfl, fun _ _ h => absurd h hen, fun _ => rfl, .inl rfl⟩
  rw [step_run, if_pos hen]
  cases a with
  | wakeup chan =>
    exact ⟨fun e he => .inl (by rw [List.mem_singleton.1 he]), .inl rfl, fun _ _ _ h => by simp at h, fun _ => rfl, .inl rfl⟩
  | exit c =>
    show Rest s _ (exit c s)
    by_cases hi : s.initproc = some c
    · rw [exit_stops hi]
      exact ⟨fun e he => (by cases he), .inl rfl, fun _ _ _ h => by simp at h, fun h => absurd rfl (h c), .inl rfl⟩
    · obtain ⟨t, tr, hrun, hn, hip, -, hw⟩ := exit_run hi
      rw [hrun]
      exact ⟨fun e he => (hw e he).imp_right fun h => ⟨c, h⟩, .inl hn, fun _ _ _ h => by simp at h, fun _ => rfl, .inl hip⟩
  | userinit =>
    show Rest s _ (userinit s)
    unfold userinit
    rw [Prog.bind_run, allocproc_run]
    cases hf : firstUnused s with
    | none => exact ⟨fun e he => (by cases he), .inl rfl, fun r hr => (by rw [hf] at hr; cases hr), fun _ => rfl, .inl rfl⟩
    | some p =>
      exact ⟨fun e he => (by cases he), .inr rfl, fun _ _ _ _ => rfl, fun _ => rfl,
        .inr ⟨rfl, of_decide_eq_true hen, p, hf, rfl⟩⟩
  | allocproc =>
    show Rest s _ (((do let _ ← allocproc) : SchedM Unit) s)
    rw [drop_run, allocproc_run]
    cases hf : firstUnused s with
    | none => exact ⟨fun e he => (by cases he), .inl rfl, fun r hr => (by rw [hf] at hr; cases hr), fun _ => rfl, .inl rfl⟩
    | some p => exact ⟨fun e he => (by cases he), .inr rfl, fun _ _ _ _ => rfl, fun _ => rfl, .inl rfl⟩
  | kill pid =>
    show Rest s _ (((do let _ ← kill pid) : SchedM Unit) s)
    rw [drop_run, kill_run]
    cases findPid s pid <;> exact .quiet (by simp) rfl rfl
  | setnice pid v =>
    show Rest s _ (((do let _ ← setnice pid v) : SchedM Unit) s)
    rw [drop_run, setnice_run]
    by_cases hg : v < 0 ∨ 39 < v ∨ pid ≤ 0
    · rw [if_pos hg]; exact .quiet (by simp) rfl rfl
    · rw [if_neg hg]
      cases findPid s pid <;> exact .quiet (by simp) rfl rfl
  | wait c =>
    show Rest s _ (((do let _ ← waitReap c) : SchedM Unit) s)
    rw [drop_run, waitReap_run]
    cases zombieChild s c <;> exact .quiet (by simp) rfl rfl
  | _ => exact .quiet (by simp) rfl rfl

/-- **The table a wake call starts from** has the weights of the step's table, and no sleeper the step's has not. -/
theorem step_wakeCall (a : Act) (s : State) {e : WakeCall} (he : e ∈ (step a s).tr) (r : Fin nproc) :
    (e.s.proc r).weight = (s.proc r).weight ∧
      ((e.s.proc r).state = .sleeping → (s.proc r).state = .sleeping) := by
  obtain hes | ⟨c, l, l', h⟩ := (step_rest a s).tr e he
  · rw [hes]; exact ⟨rfl, id⟩
  · refine ⟨(h.kept r).2.2.1, fun hst => ?_⟩
    by_cases hb : roused s c l' (s.proc r)
    · exact hb.1
    · rw [← h.other r hb]; exact hst

/-! ## The steps of one slot, where they are taken -/

section Taken

variable {s : State} {p c : Fin nproc}

theorem State.eq_of {s t : State} (hp : ∀ r, s.proc r = t.proc r) (hn : s.nextpid = t.nextpid)
    (hi : s.initproc = t.initproc) : s = t := by
  obtain ⟨sp, sn, si⟩ := s
  obtain ⟨tp, tn, ti⟩ := t
  obtain rfl : sp = tp := funext hp
  cases hn
  cases hi
  rfl

theorem step_userinit (hi : s.initproc = none) (hf : firstUnused s = some p) : (step .userinit s).st =
    { s.setProc p { allocated s.nextpid (s.proc p) with state := .runnable } with
      nextpid := s.nextpid + 1, initproc := some p } := by
  rw [step_run, if_pos (show Act.enabled s .userinit = true from decide_eq_true hi)]
  show (userinit s).st = _
  unfold userinit
  rw [Prog.bind_run, allocproc_run, hf]
  refine State.eq_of (fun r => ?_) rfl rfl
  by_cases hr : r = p <;> simp [setRunnable, hr]

theorem step_allocproc (hf : firstUnused s = some p) : (step .allocproc s).st =
    { s.setProc p (allocated s.nextpid (s.proc p)) with nextpid := s.nextpid + 1 } := by
  rw [step_run, if_pos (show Act.enabled s .allocproc = true from rfl)]
  show (((do let _ ← allocproc) : SchedM Unit) s).st = _
  rw [drop_run, allocproc_run, hf]

theorem step_allocFail (he : (s.proc p).state = .embryo) :
    (step (.allocFail p) s).st = s.setProc p { s.proc p with state := .unused } := by
  rw [step_run, if_pos (show Act.enabled s (.allocFail p) = true from decide_eq_true he)]
  rfl

theorem step_forkCopy (f : ForkField) (he : (s.proc p).state = .embryo) (hc : (s.proc c).state = .running) :
    (step (.forkCopy p c f) s).st = s.setProc p (copied c (s.proc c) (s.proc p) f) := by
  rw [step_run, if_pos (by simp [Act.enabled, he, hc])]
  cases f <;> rfl

theorem step_ready (he : (s.proc p).state = .embryo) :
    (step (.ready p) s).st = s.setProc p { s.proc p with state := .runnable } := by
  rw [step_run, if_pos (show Act.enabled s (.ready p) = true from decide_eq_true he)]
  rfl

theorem step_sleep (chan : Chan) (hr : (s.proc p).state = .running) :
    (step (.sleep p chan) s).st = s.setProc p { s.proc p with chan := chan, state := .sleeping } := by
  rw [step_run, if_pos (show Act.enabled s (.sleep p chan) = true from decide_eq_true hr)]
  rfl

theorem step_sleepReturn (hr : (s.proc p).state = .running) :
    (step (.sleepReturn p) s).st = s.setProc p { s.proc p with chan := .null } := by
  rw [step_run, if_pos (show Act.enabled s (.sleepReturn p) = true from decide_eq_true hr)]
  rfl

theorem step_wait (hr : (s.proc c).state = .running) (hz : zombieChild s c = some p) : (step (.wait c) s).st =
    s.setProc p { s.proc p with pid := 0, parent := none, killed := false, state := .unused } := by
  rw [step_run, if_pos (show Act.enabled s (.wait c) = true from decide_eq_true hr)]
  show (((do let _ ← waitReap c) : SchedM Unit) s).st = _
  rw [drop_run, waitReap_run, hz]

end Taken

end Sched
end Xv6
