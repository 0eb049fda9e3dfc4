import Xv6.Swap.Reclaim
/-!
# Swap.Sleeps — the spinlocks that an eviction holds when it sleeps (page-replacement)

`kalloc` with the locks it takes, down to `sched`: kalloc.c, `swapwrite` (fs.c), bio.c, sleeplock.c, `iderw` (ide.c) and
`sleep` (proc.c).  `acquire` waits for the other processors; `kmem.use_lock` is set.
-/
namespace Xv6
namespace Sleeps

open Mem
open Swap (Kern K Stop PtePtr npages clockScan unlinkHead findFreeSwapIndex copyIn lockedFault slotBlock blocks nslots)

inductive Lock where
  | kmem
  | lru
  | bcache
  /-- The spinlock inside a buffer's sleep-lock. -/
  | buf
  | ide
  | ptable
deriving DecidableEq

structure Cpu where
  kern : Kern
  /-- The spinlocks that this processor holds, `ncli` of them. -/
  held : List Lock

inductive Event where
  | kern (e : Swap.Event)
  /-- `sched` is called with these spinlocks held. -/
  | sched (held : List Lock)

abbrev C := Prog Stop Cpu Event

variable {α β : Type}

def onKern (c : K α) : C α := Prog.zoom Cpu.kern (fun s k => { s with kern := k }) Event.kern c

def acquire (l : Lock) : C Unit := do
  if ← Prog.read (fun s => decide (l ∈ s.held)) then Prog.stop (.panic "acquire")
  else Prog.modify (fun s => { s with held := l :: s.held })

def release (l : Lock) : C Unit := do
  if ← Prog.read (fun s => decide (l ∈ s.held)) then Prog.modify (fun s => { s with held := s.held.erase l })
  else Prog.stop (.panic "release")

/-- Another process runs, and in the end this one again. -/
def sched : C Unit := do
  let held ← Prog.read Cpu.held
  Prog.emit (.sched held)
  if .ptable ∉ held then Prog.stop (.panic "sched ptable.lock")
  else if held.length ≠ 1 then Prog.stop (.panic "sched locks")
  else pure ()

def sleep (lk : Lock) : C Unit := do
  Prog.when (lk ≠ .ptable) (do
    acquire .ptable
    release lk)
  sched
  Prog.when (lk ≠ .ptable) (do
    release .ptable
    acquire lk)

def wakeup : C Unit := do
  acquire .ptable
  release .ptable

/-! ## Buffers -/

/-- What `bread` and `bwrite` of a block meet. -/
structure Lookup where
  /-- `B_VALID` of the buffer that `bget` finds. -/
  valid  : Bool
  /-- How often its sleep-lock is found locked. -/
  busy   : Nat
  /-- How often `iderw` is woken before the block is read, and before it is written. -/
  reads  : Nat
  writes : Nat

def sleepTimes (n : Nat) (lk : Lock) : C Unit := Prog.forEach (List.replicate n ()) (fun _ => sleep lk)

def acquiresleep (busy : Nat) : C Unit := do
  acquire .buf
  sleepTimes busy .buf
  release .buf

def holdingsleep : C Unit := do
  acquire .buf
  release .buf

def releasesleep : C Unit := do
  acquire .buf
  wakeup
  release .buf

/-- The request is done in `ideintr`, behind `idelock`, so `iderw` sleeps at least once. -/
def iderw (wakes : Nat) : C Unit := do
  holdingsleep
  acquire .ide
  sleepTimes (wakes + 1) .ide
  release .ide

def bget (look : Lookup) : C Unit := do
  acquire .bcache
  release .bcache
  acquiresleep look.busy

def bread (look : Lookup) : C Unit := do
  bget look
  Prog.when (look.valid = false) (iderw look.reads)

def bwrite (look : Lookup) : C Unit := do
  holdingsleep
  iderw look.writes

def brelse : C Unit := do
  holdingsleep
  releasesleep
  acquire .bcache
  release .bcache

/-! ## Evictions -/

def swapwrite (look : BitVec 3 → Lookup) (ptr : Addr) (blkno : Nat) : C Unit := do
  if nslots ≤ blkno then Prog.stop (.panic "swapwrite: blkno exceeded range")
  else
    Prog.emit (.kern (.swapWrite blkno))
    Prog.forEach blocks (fun i => do
      bread (look i)
      let b ← onKern (copyIn lockedFault (ptr + i.setWidth 32 * 512#32))
      onKern (Prog.modify (fun s => { s with disk := fun n => if n = slotBlock blkno i then b else s.disk n }))
      bwrite (look i)
      brelse)

def kfree (f : Frame) : C Unit := do
  acquire .kmem
  onKern (Swap.kfree f)
  release .kmem

def swapOut (look : BitVec 3 → Lookup) (target : Frame) (q : PtePtr) (slot : Nat) : C Unit := do
  let info ← Prog.read (fun s => s.kern.pages target)
  swapwrite look info.vaddr slot
  onKern (Swap.setBit slot)
  let pte ← Prog.read (fun s => s.kern.pte q)
  onKern (Prog.modify (fun s => s.setPte q (swapPte slot (pteFlags pte))))
  release .kmem
  let freed ← Prog.read (fun s => pteFrame (s.kern.pte q))
  onKern (Prog.emit (.evict ⟨info.pgdir, info.vaddr, pte, slot, freed⟩))
  kfree freed
  release .lru

/-- The entry that `reclaim` takes off the LRU list, and its PTE. -/
def takeTarget : K (Frame × PtePtr) := do
  let (target, q) ← clockScan (npages + 1)
  unlinkHead target
  pure (target, q)

def reclaim (look : BitVec 3 → Lookup) : C Bool := do
  acquire .lru
  if (← Prog.read (·.kern.numLruPages)) = 0 then
    release .lru
    pure false
  else
    let (target, q) ← onKern takeTarget
    match ← Prog.read (fun s => findFreeSwapIndex s.kern) with
    | none      =>
      release .lru
      pure false
    | some slot =>
      swapOut look target q slot
      pure true

/-- `kalloc` from `try_again` on, in two turns at most. -/
def kallocLoop (look : Nat → BitVec 3 → Lookup) : Nat → C (Option Frame)
  | 0     => Prog.stop .diverge
  | n + 1 => do
    acquire .kmem
    match ← Prog.read (·.kern.freelist) with
    | f :: l =>
      Prog.modify (fun s => { s with kern := { s.kern with freelist := l } })
      release .kmem
      pure (some f)
    | []     =>
      if ← reclaim (look n) then kallocLoop look n
      else
        release .kmem
        pure none

def kalloc (look : Nat → BitVec 3 → Lookup) : C (Option Frame) := kallocLoop look 2

/-- `sched` is called with `ptable.lock` alone, and the call returns, with no lock held. -/
def LocksOk (o : Outcome Stop Cpu Event α) : Prop :=
  (∀ held, .sched held ∈ o.tr → held = [.ptable]) ∧ ∃ a, o.res = .ok a ∧ o.st.held = []

/-- `reclaim` does not come to write a page out: there is none, or the scan of the list ends and no slot is free. -/
def GivesUp (s : Kern) : Prop :=
  s.numLruPages = 0 ∨ findFreeSwapIndex s = none ∧ ∃ r, (takeTarget s).res = .ok r

/-! ## Runs -/

variable {s t : Kern} {l : Lock} {held : List Lock}

theorem release_run (h : l ∈ held) : release l ⟨s, held⟩ = ⟨.ok (), ⟨s, held.erase l⟩, []⟩ := by
  unfold release
  rw [Prog.read_bind_run, decide_eq_true h]
  rfl

/-- What a processor that sleeps below an eviction comes to. -/
def schedLocks (s : Kern) : Outcome Stop Cpu Event α :=
  ⟨.error (.panic "sched locks"), ⟨s, [.ptable, .lru, .kmem]⟩, [.sched [.ptable, .lru, .kmem]]⟩

/-- **With two locks beside the one given up, a processor does not get past `sched`.** -/
theorem sleep_panics (lk : Lock) : sleep lk ⟨s, [lk, .lru, .kmem]⟩ = schedLocks s := by
  cases lk <;> rfl

theorem sleepTimes_panics (lk : Lock) (n : Nat) : sleepTimes (n + 1) lk ⟨s, [lk, .lru, .kmem]⟩ = schedLocks s :=
  Prog.bind_run_error (sleep_panics lk)

theorem iderw_panics (wakes : Nat) : iderw wakes ⟨s, [.lru, .kmem]⟩ = schedLocks s := by
  have hheld : holdingsleep ⟨s, [.lru, .kmem]⟩ = ⟨.ok (), ⟨s, [.lru, .kmem]⟩, []⟩ := rfl
  have hide : acquire .ide ⟨s, [.lru, .kmem]⟩ = ⟨.ok (), ⟨s, [.ide, .lru, .kmem]⟩, []⟩ := rfl
  unfold iderw
  rw [Prog.bind_run_nil hheld, Prog.bind_run_nil hide]
  exact Prog.bind_run_error (sleepTimes_panics .ide wakes)

theorem bwrite_panics (look : Lookup) : bwrite look ⟨s, [.lru, .kmem]⟩ = schedLocks s := by
  have hheld : holdingsleep ⟨s, [.lru, .kmem]⟩ = ⟨.ok (), ⟨s, [.lru, .kmem]⟩, []⟩ := rfl
  unfold bwrite
  rw [Prog.bind_run_nil hheld]
  exact iderw_panics look.writes

theorem acquiresleep_run (busy : Nat) : acquiresleep busy ⟨s, [.lru, .kmem]⟩ =
    if busy = 0 then ⟨.ok (), ⟨s, [.lru, .kmem]⟩, []⟩ else schedLocks s := by
  have hbuf : acquire .buf ⟨s, [.lru, .kmem]⟩ = ⟨.ok (), ⟨s, [.buf, .lru, .kmem]⟩, []⟩ := rfl
  unfold acquiresleep
  rw [Prog.bind_run_nil hbuf]
  cases busy with
  | zero => rfl
  | succ n =>
    rw [if_neg (Nat.succ_ne_zero n)]
    exact Prog.bind_run_error (sleepTimes_panics .buf n)

theorem bget_run (look : Lookup) : bget look ⟨s, [.lru, .kmem]⟩ =
    if look.busy = 0 then ⟨.ok (), ⟨s, [.lru, .kmem]⟩, []⟩ else schedLocks s := by
  have hacquire : acquire .bcache ⟨s, [.lru, .kmem]⟩ = ⟨.ok (), ⟨s, [.bcache, .lru, .kmem]⟩, []⟩ := rfl
  have hrelease : release .bcache ⟨s, [.bcache, .lru, .kmem]⟩ = ⟨.ok (), ⟨s, [.lru, .kmem]⟩, []⟩ := rfl
  unfold bget
  rw [Prog.bind_run_nil hacquire, Prog.bind_run_nil hrelease, acquiresleep_run]

theorem bread_run (look : Lookup) : bread look ⟨s, [.lru, .kmem]⟩ =
    if look.busy = 0 ∧ look.valid = true then ⟨.ok (), ⟨s, [.lru, .kmem]⟩, []⟩ else schedLocks s := by
  have hget := bget_run (s := s) look
  unfold bread
  by_cases hb : look.busy = 0
  · rw [if_pos hb] at hget
    rw [Prog.bind_run_nil hget]
    cases hv : look.valid with
    | true =>
      rw [if_pos ⟨hb, rfl⟩]
      rfl
    | false =>
      rw [if_neg (fun h => Bool.false_ne_true h.2), Prog.when_pos rfl]
      exact iderw_panics look.reads
  · rw [if_neg hb] at hget
    rw [if_neg (fun h => hb h.1)]
    exact Prog.bind_run_error hget

/-! ## What a run does to the locks -/

variable {c : C α} {f : α → C β}

theorem locksOk_bind {u v : Cpu} {a : α} {tr : List Event} (hc : c u = ⟨.ok a, v, tr⟩)
    (htr : ∀ held, Event.sched held ∉ tr) : LocksOk ((c >>= f) u) ↔ LocksOk (f a v) := by
  have hmem : ∀ held, Event.sched held ∈ tr ++ (f a v).tr ↔ Event.sched held ∈ (f a v).tr := fun held => by
    rw [List.mem_append]
    exact or_iff_right (htr held)
  rw [Prog.bind_run_ok hc]
  unfold LocksOk
  simp only [hmem]

theorem locksOk_stop {u v : Cpu} {e : Stop} {tr : List Event} (hc : c u = ⟨.error e, v, tr⟩) :
    ¬ LocksOk ((c >>= f) u) := by
  rw [Prog.bind_run_error hc]
  rintro ⟨-, _, ha, -⟩
  cases ha

theorem onKern_run (c : K α) (s : Kern) (held : List Lock) :
    onKern c ⟨s, held⟩ = ⟨(c s).res, ⟨(c s).st, held⟩, (c s).tr.map Event.kern⟩ := rfl

theorem sched_notMem (l : List Swap.Event) (held : List Lock) : Event.sched held ∉ l.map Event.kern := by
  simp

theorem writeBlock_run (look : Lookup) (a : Addr) (g : Swap.Block → Kern → Kern) (rest : C Unit) :
    ∃ e v tr, (do
      bread look
      let b ← onKern (copyIn lockedFault a)
      onKern (Prog.modify (g b))
      bwrite look
      rest) ⟨s, [.lru, .kmem]⟩ = ⟨.error e, v, tr⟩ := by
  have hread := bread_run (s := s) look
  by_cases hl : look.busy = 0 ∧ look.valid = true
  · rw [if_pos hl] at hread
    rw [Prog.bind_run_nil hread]
    rcases Swap.copyIn_locked a s with ⟨b, hb⟩ | ⟨e, he⟩
    · have hkern : onKern (copyIn lockedFault a) ⟨s, [.lru, .kmem]⟩ = ⟨.ok b, ⟨s, [.lru, .kmem]⟩, []⟩ := by
        rw [onKern_run, hb]
        rfl
      have hmod : onKern (Prog.modify (g b)) ⟨s, [.lru, .kmem]⟩ = ⟨.ok (), ⟨g b s, [.lru, .kmem]⟩, []⟩ := rfl
      rw [Prog.bind_run_nil hkern, Prog.bind_run_nil hmod]
      exact ⟨_, _, _, Prog.bind_run_error (bwrite_panics look)⟩
    · have hkern : onKern (copyIn lockedFault a) ⟨s, [.lru, .kmem]⟩ = ⟨.error e, ⟨s, [.lru, .kmem]⟩, []⟩ := by
        rw [onKern_run, he]
        rfl
      exact ⟨_, _, _, Prog.bind_run_error hkern⟩
  · rw [if_neg hl] at hread
    exact ⟨_, _, _, Prog.bind_run_error hread⟩

/-- **No page is written out**: the first block is as far as `swapwrite` gets. -/
theorem swapwrite_run (look : BitVec 3 → Lookup) (a : Addr) {k : Nat} (hk : k < nslots) :
    ∃ e v tr, swapwrite look a k ⟨s, [.lru, .kmem]⟩ = ⟨.error e, v, tr⟩ := by
  obtain ⟨e, v, tr, hrun⟩ := writeBlock_run (s := s) (look 0) (a + (0 : BitVec 3).setWidth 32 * 512#32)
    (fun b s => { s with disk := fun n => if n = slotBlock k 0 then b else s.disk n }) brelse
  unfold swapwrite
  rw [if_neg (Nat.not_le.2 hk)]
  refine ⟨e, v, .kern (.swapWrite k) :: tr, ?_⟩
  rw [Prog.bind_run]
  change (⟨_, _, [Event.kern (.swapWrite k)] ++ _⟩ : Outcome Stop Cpu Event Unit) = _
  unfold blocks
  rw [Prog.forEach_cons, Prog.bind_run_error hrun]
  rfl

/-! ## `kalloc` -/

theorem takeTarget_bitmap : Prog.Quiet Kern.bitmap (fun _ => True) takeTarget := by
  have hscan : ∀ n, Prog.Quiet Kern.bitmap (fun _ => True) (clockScan n) := by
    intro n
    induction n with
    | zero => exact Prog.Quiet.stop _
    | succ n ih =>
      refine (Swap.follow_quiet _).bind fun h => (Swap.follow_quiet _).bind fun D => (Swap.follow_quiet _).bind fun q => ?_
      refine (Prog.Quiet.read _).bind fun e => Prog.Quiet.ite (fun _ => ?_) fun _ => Prog.Quiet.pure _
      exact Prog.Quiet.bind (Prog.Quiet.modify fun _ => rfl) fun _ =>
        Prog.Quiet.bind (Prog.Quiet.modify fun _ => rfl) fun _ => ih
  have hunlink : ∀ f, Prog.Quiet Kern.bitmap (fun _ => True) (unlinkHead f) := by
    intro f
    refine Prog.Quiet.bind (Prog.Quiet.modify fun _ => rfl) fun _ => (Swap.follow_quiet _).bind fun h => ?_
    refine Prog.Quiet.bind (Prog.Quiet.modify fun _ => rfl) fun _ => (Swap.follow_quiet _).bind fun t => ?_
    exact Prog.Quiet.bind (Prog.Quiet.modify fun _ => rfl) fun _ => Prog.Quiet.when fun _ =>
      Prog.Quiet.modify fun _ => rfl
  exact (hscan _).bind fun r => (hunlink r.1).bind fun _ => Prog.Quiet.pure _

theorem reclaim_run (look : BitVec 3 → Lookup) {target : Frame} {q : PtePtr} {tr : List Swap.Event}
    (hn : s.numLruPages ≠ 0) (ht : takeTarget s = ⟨.ok (target, q), t, tr⟩) : reclaim look ⟨s, [.kmem]⟩ =
      match findFreeSwapIndex t with
      | none      => ⟨.ok false, ⟨t, [.kmem]⟩, tr.map .kern⟩
      | some slot =>
        let o := (do swapOut look target q slot; pure true) ⟨t, [.lru, .kmem]⟩
        ⟨o.res, o.st, tr.map .kern ++ o.tr⟩ := by
  have hlru : acquire .lru ⟨s, [.kmem]⟩ = ⟨.ok (), ⟨s, [.lru, .kmem]⟩, []⟩ := rfl
  have hrelease : release .lru ⟨t, [.lru, .kmem]⟩ = ⟨.ok (), ⟨t, [.kmem]⟩, []⟩ := rfl
  have hkern : onKern takeTarget ⟨s, [.lru, .kmem]⟩ = ⟨.ok (target, q), ⟨t, [.lru, .kmem]⟩, tr.map .kern⟩ := by
    rw [onKern_run, ht]
  unfold reclaim
  rw [Prog.bind_run_nil hlru, Prog.read_bind_run, if_neg hn, Prog.bind_run_ok hkern]
  dsimp only
  rw [Prog.read_bind_run]
  cases findFreeSwapIndex t with
  | none =>
    dsimp only
    rw [Prog.bind_run_nil hrelease]
    simp
  | some slot => rfl

theorem swapOut_run (look : BitVec 3 → Lookup) (target : Frame) (q : PtePtr) {slot : Nat}
    (hs : findFreeSwapIndex s = some slot) :
    ∃ e v tr, (do swapOut look target q slot; pure true) ⟨s, [.lru, .kmem]⟩ = ⟨.error e, v, tr⟩ := by
  have hslot : slot < nslots := (Swap.findFreeSwapIndex_some hs).1.trans (by decide)
  obtain ⟨e, v, tr, hrun⟩ := swapwrite_run (s := s) look (s.pages target).vaddr hslot
  refine ⟨e, v, tr, Prog.bind_run_error ?_⟩
  unfold swapOut
  rw [Prog.read_bind_run]
  exact Prog.bind_run_error hrun

theorem reclaim_locksOk (look : BitVec 3 → Lookup) (s : Kern) (n : Nat) (looks : Nat → BitVec 3 → Lookup) :
    LocksOk ((do
      if ← reclaim look then kallocLoop looks n
      else
        release .kmem
        pure none) ⟨s, [.kmem]⟩) ↔ GivesUp s := by
  -- where `reclaim` returns 0, `kalloc` gives up its own lock
  have hzero : ∀ t : Kern, LocksOk ((do
      release .kmem
      pure none : C (Option Frame)) ⟨t, [.kmem]⟩) := by
    intro t
    rw [Prog.bind_run_nil (release_run (show Lock.kmem ∈ [Lock.kmem] by simp))]
    exact ⟨fun _ h => (by cases h), none, rfl, rfl⟩
  have hlru : acquire .lru ⟨s, [.kmem]⟩ = ⟨.ok (), ⟨s, [.lru, .kmem]⟩, []⟩ := rfl
  unfold GivesUp
  by_cases hn : s.numLruPages = 0
  · have hrelease : release .lru ⟨s, [.lru, .kmem]⟩ = ⟨.ok (), ⟨s, [.kmem]⟩, []⟩ := rfl
    have hrun : reclaim look ⟨s, [.kmem]⟩ = ⟨.ok false, ⟨s, [.kmem]⟩, []⟩ := by
      unfold reclaim
      rw [Prog.bind_run_nil hlru, Prog.read_bind_run, if_pos hn, Prog.bind_run_nil hrelease]
      rfl
    rw [Prog.bind_run_nil hrun]
    exact iff_of_true (hzero s) (.inl hn)
  · have hbit := (takeTarget_bitmap s).1
    rcases ht : takeTarget s with ⟨r, t, tr⟩
    rw [ht] at hbit
    have hfree := Swap.findFree_congr hbit
    cases r with
    | error e =>
      have hkern : onKern takeTarget ⟨s, [.lru, .kmem]⟩ = ⟨.error e, ⟨t, [.lru, .kmem]⟩, tr.map .kern⟩ := by
        rw [onKern_run, ht]
      have hrun : reclaim look ⟨s, [.kmem]⟩ = ⟨.error e, ⟨t, [.lru, .kmem]⟩, tr.map .kern⟩ := by
        unfold reclaim
        rw [Prog.bind_run_nil hlru, Prog.read_bind_run, if_neg hn, Prog.bind_run_error hkern]
      refine iff_of_false (locksOk_stop hrun) ?_
      rintro (h | ⟨-, r, hr⟩)
      · exact hn h
      · cases hr
    | ok r =>
      obtain ⟨target, q⟩ := r
      have hrun := reclaim_run look hn ht
      cases hslot : findFreeSwapIndex t with
      | none =>
        rw [hslot] at hrun
        rw [locksOk_bind hrun (sched_notMem tr)]
        exact iff_of_true (hzero t) (.inr ⟨hfree.symm.trans hslot, _, rfl⟩)
      | some slot =>
        rw [hslot] at hrun
        obtain ⟨e, v, tr₁, hout⟩ := swapOut_run look target q hslot
        dsimp only at hrun
        rw [hout] at hrun
        refine iff_of_false (locksOk_stop hrun) ?_
        rintro (h | ⟨h, -⟩)
        · exact hn h
        · rw [← hfree, hslot] at h
          cases h

/-- **An eviction sleeps with spinlocks held**: the locks are as they should be only where none comes to write a page. -/
theorem kalloc_locksOk (look : Nat → BitVec 3 → Lookup) (s : Kern) (h : s.freelist = []) :
    LocksOk (kalloc look ⟨s, []⟩) ↔ GivesUp s := by
  have hkmem : acquire .kmem ⟨s, []⟩ = ⟨.ok (), ⟨s, [.kmem]⟩, []⟩ := rfl
  unfold kalloc kallocLoop
  rw [Prog.bind_run_nil hkmem, Prog.read_bind_run, h]
  exact reclaim_locksOk (look 1) s 1 look

/-- Three pages on the LRU list, two of them accessed, and no slot left. -/
def packed : Kern := { Swap.trio (· ≠ 2) with bitmap := (Swap.sample Swap.bitmapSize).kern.bitmap }

theorem packed_scan : ∃ r, (takeTarget packed).res = .ok r := by
  have hsome : (takeTarget packed).res.toOption.isSome = true := by decide +kernel
  obtain ⟨r, hr⟩ := Option.isSome_iff_exists.1 hsome
  exact ⟨r, Prog.res_ok hr⟩

theorem packed_locksOk : LocksOk (kalloc (fun _ _ => ⟨false, 1, 0, 0⟩) ⟨packed, []⟩) := by
  have hbit : packed.bitmap = (Swap.sample Swap.bitmapSize).kern.bitmap := by unfold packed; rfl
  have hempty : packed.freelist = [] := by unfold packed; rfl
  have hfull : findFreeSwapIndex packed = none := (Swap.findFree_congr hbit).trans Swap.sample_no_slot
  exact (kalloc_locksOk (fun _ _ => ⟨false, 1, 0, 0⟩) packed hempty).2 (.inr ⟨hfull, packed_scan⟩)

/-- One page to evict, to a slot whose blocks are cached and free. -/
theorem sample_schedLocks : (Swap.sample 0).kern.freelist = [] ∧
    Prog.reason (kalloc (fun _ _ => ⟨true, 0, 0, 0⟩) ⟨(Swap.sample 0).kern, []⟩) = some (.panic "sched locks") ∧
    ¬ LocksOk (kalloc (fun _ _ => ⟨true, 0, 0, 0⟩) ⟨(Swap.sample 0).kern, []⟩) := by
  have hpanic : Prog.reason (kalloc (fun _ _ => ⟨true, 0, 0, 0⟩) ⟨(Swap.sample 0).kern, []⟩) =
      some (.panic "sched locks") := by decide +kernel
  refine ⟨rfl, hpanic, ?_⟩
  rintro ⟨-, _, ha, -⟩
  unfold Prog.reason at hpanic
  rw [ha] at hpanic
  cases hpanic

end Sleeps
end Xv6
