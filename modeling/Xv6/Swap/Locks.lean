import Mathlib
/-!
# Swap.Locks — the locks of the page allocator (page-replacement)

Processors in `kalloc`, `kfree`, `append_lru`, `pop_lru` and `wait`.  A step is one `acquire` or `release`; a processor
whose lock is held spins, which is a step that changes nothing.
-/
namespace Xv6
namespace Locks

inductive Lock where
  | kmem
  | lru
  | ptable
deriving DecidableEq

/-- What `wait` does to free a zombie: a page off the LRU list, or a frame to `kfree`. -/
inductive Free where
  | popLru
  | kfree
deriving DecidableEq

inductive Pc where
  | idle
  /-- `kalloc` at `try_again`, and with the page it has found. -/
  | kalloc
  | found
  /-- `reclaim` before and behind `acquire(&lru_lock)`; where it returns 0, before `kalloc` gives up `kmem.lock`. -/
  | reclaim
  | choose
  | refused
  /-- `swapwrite`, which takes `ptable.lock` `n` more times to wake sleepers up or to sleep; while it has it. -/
  | swapwrite (n : Nat)
  | wakeup (n : Nat)
  /-- `reclaim` behind `release(&kmem.lock)`, in its `kfree`, and before `release(&lru_lock)`. -/
  | unlocked
  | refree
  | reclaimed
  | kfree
  | kfreeing
  /-- `append_lru` and `pop_lru`. -/
  | lru
  | linking
  /-- `wait`, with what it still has to free; while it does so. -/
  | wait (work : List Free)
  | freevm (work : List Free)
  | freePage (x : Free) (work : List Free)
deriving DecidableEq

def Pc.holds : Pc → List Lock
  | .found             => [.kmem]
  | .reclaim           => [.kmem]
  | .choose            => [.kmem, .lru]
  | .refused           => [.kmem]
  | .swapwrite _       => [.kmem, .lru]
  | .wakeup _          => [.kmem, .lru, .ptable]
  | .unlocked          => [.lru]
  | .refree            => [.lru, .kmem]
  | .reclaimed         => [.lru]
  | .kfreeing          => [.kmem]
  | .linking           => [.lru]
  | .freevm _          => [.ptable]
  | .freePage .popLru _ => [.ptable, .lru]
  | .freePage .kfree _ => [.ptable, .kmem]
  | _                  => []

def Free.lock : Free → Lock
  | .popLru => .lru
  | .kfree  => .kmem

def Pc.wants : Pc → Option Lock
  | .kalloc          => some .kmem
  | .reclaim         => some .lru
  | .swapwrite (_ + 1) => some .ptable
  | .unlocked        => some .kmem
  | .kfree           => some .kmem
  | .lru             => some .lru
  | .wait _          => some .ptable
  | .freevm (x :: _) => some x.lock
  | _                => none

variable {ι : Type}

structure State (ι : Type) where
  pc     : ι → Pc
  holder : Lock → Option ι
  /-- The number of pages on the free list. -/
  free   : Nat

variable [DecidableEq ι]

def State.goto (s : State ι) (c : ι) (pc : Pc) : State ι := { s with pc := Function.update s.pc c pc }

/-- `acquire`, and then `pc`. -/
def State.acquire (s : State ι) (c : ι) (l : Lock) (pc : Pc) : State ι :=
  if s.holder l = none then ({ s with holder := Function.update s.holder l (some c) } : State ι).goto c pc else s

def State.release (s : State ι) (c : ι) (l : Lock) (pc : Pc) : State ι :=
  ({ s with holder := Function.update s.holder l none } : State ι).goto c pc

inductive Call where
  | kalloc
  | kfree
  | appendLru
  | popLru
  | wait (work : List Free)
deriving DecidableEq

def Call.pc : Call → Pc
  | .kalloc    => .kalloc
  | .kfree     => .kfree
  | .appendLru => .lru
  | .popLru    => .lru
  | .wait work => .wait work

/-- A processor goes on: the call it makes when it is idle; the number of times that `swapwrite` takes `ptable.lock`, if
`reclaim` finds a page to evict and a slot for it. -/
structure Act (ι : Type) where
  cpu    : ι
  call   : Call
  victim : Option Nat

def State.step (s : State ι) (a : Act ι) : State ι :=
  let c := a.cpu
  match s.pc c with
  | .idle               => s.goto c a.call.pc
  | .kalloc             =>
    if s.holder .kmem = none then
      if 0 < s.free then { s.acquire c .kmem .found with free := s.free - 1 } else s.acquire c .kmem .reclaim
    else s
  | .found              => s.release c .kmem .idle
  | .reclaim            => s.acquire c .lru .choose
  | .choose             =>
    match a.victim with
    | none   => s.release c .lru .refused
    | some n => s.goto c (.swapwrite n)
  | .refused            => s.release c .kmem .idle
  | .swapwrite 0        => s.release c .kmem .unlocked
  | .swapwrite (n + 1)  => s.acquire c .ptable (.wakeup n)
  | .wakeup n           => s.release c .ptable (.swapwrite n)
  | .unlocked           => s.acquire c .kmem .refree
  | .refree             => { s.release c .kmem .reclaimed with free := s.free + 1 }
  | .reclaimed          => s.release c .lru .kalloc
  | .kfree              => s.acquire c .kmem .kfreeing
  | .kfreeing           => { s.release c .kmem .idle with free := s.free + 1 }
  | .lru                => s.acquire c .lru .linking
  | .linking            => s.release c .lru .idle
  | .wait work          => s.acquire c .ptable (.freevm work)
  | .freevm []          => s.release c .ptable .idle
  | .freevm (x :: work) => s.acquire c x.lock (.freePage x work)
  | .freePage x work    =>
    let t := s.release c x.lock (.freevm work)
    { t with free := if x = .kfree then t.free + 1 else t.free }

def State.run (s : State ι) (as : List (Act ι)) : State ι := as.foldl State.step s

/-- No processor is in a call, and the free list has `free` pages. -/
def init (free : Nat) : State ι where
  pc _     := .idle
  holder _ := none
  free     := free

/-- `c` spins on a lock that `d` holds. -/
def State.Waits (s : State ι) (c d : ι) : Prop := ∃ l, (s.pc c).wants = some l ∧ s.holder l = some d

/-- A cycle of processors each of which spins on a lock that the next one holds. -/
def State.Deadlock (s : State ι) : Prop := ∃ c, Relation.TransGen s.Waits c c

/-- What would close a cycle: a processor that finds the free list empty while another one is in `reclaim` between the two
sections of `kmem.lock`; one that starts to write a page out while another one is freeing a zombie's pages, or the other way
round. -/
def Parted (s : State ι) (a : Act ι) : Prop :=
  (s.pc a.cpu = .kalloc ∧ s.holder .kmem = none ∧ s.free = 0 → ∀ d, s.pc d ≠ .unlocked) ∧
  (s.pc a.cpu = .choose ∧ a.victim ≠ none ∧ a.victim ≠ some 0 → ∀ d x work, s.pc d ≠ .freevm (x :: work)) ∧
  (∀ x work, s.pc a.cpu = .wait (x :: work) ∧ s.holder .ptable = none → ∀ d n, s.pc d ≠ .swapwrite (n + 1))

/-- Every step of the run is as `Parted` has it. -/
def AllParted : List (Act ι) → State ι → Prop
  | [], _      => True
  | a :: as, s => Parted s a ∧ AllParted as (s.step a)

/-! ## The invariant -/

structure Inv (s : State ι) : Prop where
  held  : ∀ l c, s.holder l = some c ↔ l ∈ (s.pc c).holds
  inner : ∀ c d, s.pc c = .unlocked → s.pc d ≠ .reclaim
  outer : ∀ c d n x work, s.pc c = .swapwrite (n + 1) → s.pc d ≠ .freevm (x :: work)

variable {s t : State ι} {c d : ι} {l : Lock} {pc : Pc}

omit [DecidableEq ι] in
theorem Inv.one (h : Inv s) (hc : l ∈ (s.pc c).holds) (hd : l ∈ (s.pc d).holds) : c = d :=
  Option.some.inj (((h.held l c).2 hc).symm.trans ((h.held l d).2 hd))

/-- What is to be known of the others when `c` comes to `pc`. -/
structure Fits (s : State ι) (c : ι) (pc : Pc) : Prop where
  unlocked  : pc = .unlocked → ∀ d, d ≠ c → s.pc d ≠ .reclaim
  reclaim   : pc = .reclaim → ∀ d, d ≠ c → s.pc d ≠ .unlocked
  swapwrite : ∀ n, pc = .swapwrite (n + 1) → ∀ d, d ≠ c → ∀ x work, s.pc d ≠ .freevm (x :: work)
  freevm    : ∀ x work, pc = .freevm (x :: work) → ∀ d, d ≠ c → ∀ n, s.pc d ≠ .swapwrite (n + 1)

theorem Inv.goto (h : Inv s) (hf : Fits s c pc) (hpc : t.pc = Function.update s.pc c pc)
    (hheld : ∀ l d, t.holder l = some d ↔ l ∈ (t.pc d).holds) : Inv t := by
  have hother : ∀ e, e ≠ c → t.pc e = s.pc e := fun e he => by rw [hpc, Function.update_of_ne he]
  have hself : t.pc c = pc := by rw [hpc, Function.update_self]
  refine ⟨hheld, fun a b ha hb => ?_, fun a b n x work ha hb => ?_⟩
  · by_cases hac : a = c <;> by_cases hbc : b = c
    · rw [hac] at ha
      rw [hbc, ha] at hb
      cases hb
    · rw [hac, hself] at ha
      exact hf.unlocked ha b hbc (hother b hbc ▸ hb)
    · rw [hbc, hself] at hb
      exact hf.reclaim hb a hac (hother a hac ▸ ha)
    · exact h.inner a b (hother a hac ▸ ha) (hother b hbc ▸ hb)
  · by_cases hac : a = c <;> by_cases hbc : b = c
    · rw [hac] at ha
      rw [hbc, ha] at hb
      cases hb
    · rw [hac, hself] at ha
      exact hf.swapwrite n ha b hbc x work (hother b hbc ▸ hb)
    · rw [hbc, hself] at hb
      exact hf.freevm x work hb a hac n (hother a hac ▸ ha)
    · exact h.outer a b n x work (hother a hac ▸ ha) (hother b hbc ▸ hb)

theorem Inv.same (h : Inv s) (hf : Fits s c pc) (hl : pc.holds = (s.pc c).holds) : Inv (s.goto c pc) := by
  refine h.goto hf rfl fun l d => ?_
  change s.holder l = some d ↔ l ∈ (Function.update s.pc c pc d).holds
  by_cases hd : d = c
  · rw [hd, Function.update_self, hl]
    exact h.held l c
  · rw [Function.update_of_ne hd]
    exact h.held l d

theorem Inv.acquire (h : Inv s) (l : Lock) (hf : s.holder l = none → Fits s c pc)
    (hl : ∀ m, m ∈ pc.holds ↔ m = l ∨ m ∈ (s.pc c).holds) : Inv (s.acquire c l pc) := by
  unfold State.acquire
  split_ifs with hn
  · refine h.goto (hf hn) rfl fun m d => ?_
    change Function.update s.holder l (some c) m = some d ↔ m ∈ (Function.update s.pc c pc d).holds
    by_cases hm : m = l <;> by_cases hd : d = c
    · rw [hm, hd, Function.update_self, Function.update_self]
      exact ⟨fun _ => (hl l).2 (.inl rfl), fun _ => rfl⟩
    · rw [hm, Function.update_self, Function.update_of_ne hd, ← h.held l d, hn]
      exact ⟨fun he => absurd (Option.some.inj he).symm hd, nofun⟩
    · rw [hd, Function.update_of_ne hm, Function.update_self, hl m, h.held m c]
      exact ⟨.inr, fun hm' => hm'.resolve_left hm⟩
    · rw [Function.update_of_ne hm, Function.update_of_ne hd]
      exact h.held m d
  · exact h

theorem Inv.release (h : Inv s) (l : Lock) (hf : Fits s c pc) (hc : l ∈ (s.pc c).holds)
    (hl : ∀ m, m ∈ pc.holds ↔ m ≠ l ∧ m ∈ (s.pc c).holds) : Inv (s.release c l pc) := by
  refine h.goto hf rfl fun m d => ?_
  change Function.update s.holder l none m = some d ↔ m ∈ (Function.update s.pc c pc d).holds
  by_cases hm : m = l <;> by_cases hd : d = c
  · rw [hm, hd, Function.update_self, Function.update_self]
    exact ⟨nofun, fun he => absurd rfl ((hl l).1 he).1⟩
  · rw [hm, Function.update_self, Function.update_of_ne hd]
    exact ⟨nofun, fun he => absurd (h.one he hc) hd⟩
  · rw [hd, Function.update_of_ne hm, Function.update_self, hl m, h.held m c]
    exact ⟨fun he => ⟨hm, he⟩, And.right⟩
  · rw [Function.update_of_ne hm, Function.update_of_ne hd]
    exact h.held m d

omit [DecidableEq ι] in
theorem Inv.free (h : Inv s) (n : Nat) : Inv { s with free := n } := ⟨h.held, h.inner, h.outer⟩

/-! ## Steps -/

omit [DecidableEq ι] in
theorem mem_holds (hpc : s.pc c = pc) (hl : l ∈ pc.holds) : l ∈ (s.pc c).holds := hpc ▸ hl

theorem Inv.step (h : Inv s) (a : Act ι) (hp : Parted s a) : Inv (s.step a) := by
  obtain ⟨c, call, victim⟩ := a
  obtain ⟨hinner, hswap, hwait⟩ := hp
  unfold State.step
  dsimp only at hinner hswap hwait ⊢
  cases hpc : s.pc c with
  | idle =>
    refine h.same ?_ ?_
    · cases call <;> exact ⟨nofun, nofun, nofun, nofun⟩
    · rw [hpc]
      cases call <;> rfl
  | kalloc =>
    dsimp only
    split_ifs with hn hfree
    · have ht : Inv (s.acquire c .kmem .found) := by
        refine h.acquire .kmem (fun _ => ⟨nofun, nofun, nofun, nofun⟩) fun m => ?_
        rw [hpc]
        cases m <;> simp [Pc.holds]
      exact ht.free _
    · refine h.acquire .kmem (fun hk => ⟨nofun, fun _ d _ => hinner ⟨hpc, hk, by omega⟩ d, nofun, nofun⟩) fun m => ?_
      rw [hpc]
      cases m <;> simp [Pc.holds]
    · exact h
  | found =>
    refine h.release .kmem ⟨nofun, nofun, nofun, nofun⟩ (mem_holds hpc (by simp [Pc.holds])) fun m => ?_
    rw [hpc]
    cases m <;> simp [Pc.holds]
  | reclaim =>
    refine h.acquire .lru (fun _ => ⟨nofun, nofun, nofun, nofun⟩) fun m => ?_
    rw [hpc]
    cases m <;> simp [Pc.holds]
  | choose =>
    cases victim with
    | none =>
      refine h.release .lru ⟨nofun, nofun, nofun, nofun⟩ (mem_holds hpc (by simp [Pc.holds])) fun m => ?_
      rw [hpc]
      cases m <;> simp [Pc.holds]
    | some n =>
      refine h.same ⟨nofun, nofun, fun k hk d _ x work => ?_, nofun⟩ (by rw [hpc]; rfl)
      obtain rfl : n = k + 1 := Pc.swapwrite.inj hk
      exact hswap ⟨hpc, nofun, fun he => absurd (Option.some.inj he) (Nat.succ_ne_zero k)⟩ d x work
  | refused =>
    refine h.release .kmem ⟨nofun, nofun, nofun, nofun⟩ (mem_holds hpc (by simp [Pc.holds])) fun m => ?_
    rw [hpc]
    cases m <;> simp [Pc.holds]
  | swapwrite n =>
    cases n with
    | zero =>
      have hk : Lock.kmem ∈ (s.pc c).holds := mem_holds hpc (by simp [Pc.holds])
      refine h.release .kmem ⟨fun _ d hd hr => hd (h.one (mem_holds hr (by simp [Pc.holds])) hk), nofun, nofun, nofun⟩ hk
        fun m => ?_
      rw [hpc]
      cases m <;> simp [Pc.holds]
    | succ n =>
      refine h.acquire .ptable (fun _ => ⟨nofun, nofun, nofun, nofun⟩) fun m => ?_
      rw [hpc]
      cases m <;> simp [Pc.holds]
  | wakeup n =>
    have hk : Lock.ptable ∈ (s.pc c).holds := mem_holds hpc (by simp [Pc.holds])
    refine h.release .ptable ⟨nofun, nofun, fun _ _ d hd x work hr =>
      hd (h.one (mem_holds hr (by simp [Pc.holds])) hk), nofun⟩
      hk fun m => ?_
    rw [hpc]
    cases m <;> simp [Pc.holds]
  | unlocked =>
    refine h.acquire .kmem (fun _ => ⟨nofun, nofun, nofun, nofun⟩) fun m => ?_
    rw [hpc]
    cases m <;> simp [Pc.holds]
  | refree =>
    have ht : Inv (s.release c .kmem .reclaimed) := by
      refine h.release .kmem ⟨nofun, nofun, nofun, nofun⟩ (mem_holds hpc (by simp [Pc.holds])) fun m => ?_
      rw [hpc]
      cases m <;> simp [Pc.holds]
    exact ht.free _
  | reclaimed =>
    refine h.release .lru ⟨nofun, nofun, nofun, nofun⟩ (mem_holds hpc (by simp [Pc.holds])) fun m => ?_
    rw [hpc]
    cases m <;> simp [Pc.holds]
  | kfree =>
    refine h.acquire .kmem (fun _ => ⟨nofun, nofun, nofun, nofun⟩) fun m => ?_
    rw [hpc]
    cases m <;> simp [Pc.holds]
  | kfreeing =>
    have ht : Inv (s.release c .kmem .idle) := by
      refine h.release .kmem ⟨nofun, nofun, nofun, nofun⟩ (mem_holds hpc (by simp [Pc.holds])) fun m => ?_
      rw [hpc]
      cases m <;> simp [Pc.holds]
    exact ht.free _
  | lru =>
    refine h.acquire .lru (fun _ => ⟨nofun, nofun, nofun, nofun⟩) fun m => ?_
    rw [hpc]
    cases m <;> simp [Pc.holds]
  | linking =>
    refine h.release .lru ⟨nofun, nofun, nofun, nofun⟩ (mem_holds hpc (by simp [Pc.holds])) fun m => ?_
    rw [hpc]
    cases m <;> simp [Pc.holds]
  | wait work =>
    refine h.acquire .ptable (fun hk => ⟨nofun, nofun, nofun, fun x rest hw d _ n => ?_⟩) fun m => ?_
    · obtain rfl : work = x :: rest := Pc.freevm.inj hw
      exact hwait x rest ⟨hpc, hk⟩ d n
    · rw [hpc]
      cases m <;> simp [Pc.holds]
  | freevm work =>
    cases work with
    | nil =>
      refine h.release .ptable ⟨nofun, nofun, nofun, nofun⟩ (mem_holds hpc (by simp [Pc.holds])) fun m => ?_
      rw [hpc]
      cases m <;> simp [Pc.holds]
    | cons x work =>
      refine h.acquire x.lock (fun _ => ⟨nofun, nofun, nofun, nofun⟩) fun m => ?_
      rw [hpc]
      cases m <;> cases x <;> simp [Pc.holds, Free.lock]
  | freePage x work =>
    have hk : x.lock ∈ (s.pc c).holds := mem_holds hpc (by cases x <;> simp [Pc.holds, Free.lock])
    have ht : Inv (s.release c x.lock (.freevm work)) := by
      refine h.release x.lock ⟨nofun, nofun, nofun, fun _ _ _ d hd n hr => ?_⟩ hk fun m => ?_
      · exact hd (h.one (mem_holds hr (by cases x <;> simp [Pc.holds, Free.lock])) hk)
      · rw [hpc]
        cases m <;> cases x <;> simp [Pc.holds, Free.lock]
    exact ht.free _

omit [DecidableEq ι] in
theorem Inv.init (n : Nat) : Inv (init n : State ι) := ⟨fun _ _ => ⟨nofun, nofun⟩, nofun, nofun⟩

theorem Inv.run : ∀ (as : List (Act ι)) (s : State ι), Inv s → AllParted as s → Inv (s.run as)
  | [], _, h, _       => h
  | a :: as, s, h, hp => Inv.run as (s.step a) (h.step a hp.1) hp.2

/-! ## No cycle -/

/-- Processors that spin with a lock held are in the middle: `wait` above `reclaim`. -/
def Pc.rank : Pc → Nat
  | .reclaim         => 1
  | .swapwrite (_ + 1) => 1
  | .unlocked        => 1
  | .freevm (_ :: _) => 2
  | .kalloc          => 3
  | .kfree           => 3
  | .lru             => 3
  | .wait _          => 3
  | _                => 0

theorem rank_holder (hl : l ∈ pc.holds) (hr : pc.rank ≠ 0) :
    pc = .reclaim ∨ (∃ n, pc = .swapwrite (n + 1)) ∨ pc = .unlocked ∨ ∃ x work, pc = .freevm (x :: work) := by
  cases pc with
  | reclaim => exact .inl rfl
  | swapwrite n =>
    cases n with
    | zero => exact absurd rfl hr
    | succ n => exact .inr (.inl ⟨n, rfl⟩)
  | unlocked => exact .inr (.inr (.inl rfl))
  | freevm work =>
    cases work with
    | nil => exact absurd rfl hr
    | cons x work => exact .inr (.inr (.inr ⟨x, work, rfl⟩))
  | kalloc => cases hl
  | kfree => cases hl
  | lru => cases hl
  | wait work => cases hl
  | _ => exact absurd rfl hr

theorem rank_wants (hw : pc.wants = some l) : pc.rank = 3 ∨ (pc = .reclaim ∧ l = .lru) ∨
    (∃ n, pc = .swapwrite (n + 1) ∧ l = .ptable) ∨ (pc = .unlocked ∧ l = .kmem) ∨
    ∃ x work, pc = .freevm (x :: work) ∧ l = x.lock := by
  cases pc with
  | kalloc => exact .inl rfl
  | kfree => exact .inl rfl
  | lru => exact .inl rfl
  | wait work => exact .inl rfl
  | reclaim => exact .inr (.inl ⟨rfl, (Option.some.inj hw).symm⟩)
  | swapwrite n =>
    cases n with
    | zero => cases hw
    | succ n => exact .inr (.inr (.inl ⟨n, rfl, (Option.some.inj hw).symm⟩))
  | unlocked => exact .inr (.inr (.inr (.inl ⟨rfl, (Option.some.inj hw).symm⟩)))
  | freevm work =>
    cases work with
    | nil => cases hw
    | cons x work => exact .inr (.inr (.inr (.inr ⟨x, work, rfl, (Option.some.inj hw).symm⟩)))
  | _ => cases hw

omit [DecidableEq ι] in
theorem Inv.rank_lt (h : Inv s) (hw : s.Waits c d) : (s.pc d).rank < (s.pc c).rank := by
  obtain ⟨l, hwant, hhold⟩ := hw
  have hl := (h.held l d).1 hhold
  have hsame : ∀ {m}, m ∈ (s.pc c).holds → m ∈ (s.pc d).holds → s.pc c = s.pc d := fun hc hd => by rw [h.one hc hd]
  by_cases hr : (s.pc d).rank = 0
  · rw [hr]
    rcases rank_wants hwant with h3 | ⟨hc, -⟩ | ⟨n, hc, -⟩ | ⟨hc, -⟩ | ⟨x, work, hc, -⟩
    · rw [h3]
      decide
    all_goals
      rw [hc]
      exact Nat.succ_pos _
  rcases rank_holder hl hr with hd | ⟨n, hd⟩ | hd | ⟨x, work, hd⟩ <;>
    rcases rank_wants hwant with h3 | ⟨hc, rfl⟩ | ⟨m, hc, rfl⟩ | ⟨hc, rfl⟩ | ⟨y, rest, hc, rfl⟩
  · rw [h3, hd]
    decide
  · rw [hd] at hl
    cases List.mem_singleton.1 hl
  · rw [hd] at hl
    cases List.mem_singleton.1 hl
  · exact absurd hd (h.inner c d hc)
  · rw [hc, hd]
    exact Nat.lt_add_one 1
  · rw [h3, hd]
    exact Nat.lt_of_sub_eq_succ rfl
  · have he := hsame (m := .kmem) (mem_holds hc (by simp [Pc.holds])) (mem_holds hd (by simp [Pc.holds]))
    rw [hc, hd] at he
    cases he
  · rw [hd] at hl
    simp [Pc.holds] at hl
  · have he := hsame (m := .lru) (mem_holds hc (by simp [Pc.holds])) (mem_holds hd (by simp [Pc.holds]))
    rw [hc, hd] at he
    cases he
  · exact absurd hc (h.outer d c n y rest hd)
  · rw [h3, hd]
    decide
  · exact absurd hc (h.inner d c hd)
  · rw [hd] at hl
    cases List.mem_singleton.1 hl
  · rw [hd] at hl
    cases List.mem_singleton.1 hl
  · rw [hc, hd]
    exact Nat.lt_add_one 1
  · rw [h3, hd]
    exact Nat.lt_add_one 2
  · rw [hd] at hl
    cases List.mem_singleton.1 hl
  · exact absurd hd (h.outer c d m x work hc)
  · rw [hd] at hl
    cases List.mem_singleton.1 hl
  · rw [hd] at hl
    have hp := List.mem_singleton.1 hl
    cases y <;> cases hp

omit [DecidableEq ι] in
theorem Inv.acyclic (h : Inv s) : ¬ s.Deadlock := by
  rintro ⟨c, hc⟩
  have hlt : ∀ {a b}, Relation.TransGen s.Waits a b → (s.pc b).rank < (s.pc a).rank := by
    intro a b hab
    induction hab with
    | single hw => exact h.rank_lt hw
    | tail _ hw ih => exact (h.rank_lt hw).trans ih
  exact Nat.lt_irrefl _ (hlt hc)

section Check

/-- What `Parted` asks of where a processor is: it writes a page out and takes `ptable.lock` again, it frees a zombie's
pages, or it is about to. -/
def Pc.writes : Pc → Bool
  | .swapwrite (_ + 1) => true
  | _                  => false

def Pc.freeing : Pc → Bool
  | .freevm (_ :: _) => true
  | _                => false

def Pc.reaping : Pc → Bool
  | .wait (_ :: _) => true
  | _              => false

omit [DecidableEq ι] in
theorem parted_iff {a : Act ι} : Parted s a ↔
    (s.pc a.cpu = .kalloc ∧ s.holder .kmem = none ∧ s.free = 0 → ∀ d, s.pc d ≠ .unlocked) ∧
    (s.pc a.cpu = .choose ∧ a.victim ≠ none ∧ a.victim ≠ some 0 → ∀ d, (s.pc d).freeing = false) ∧
    ((s.pc a.cpu).reaping = true ∧ s.holder .ptable = none → ∀ d, (s.pc d).writes = false) := by
  have hwrites : ∀ pc : Pc, pc.writes = false ↔ ∀ n, pc ≠ .swapwrite (n + 1) := fun pc => by
    cases pc <;> simp [Pc.writes]
    rename_i n
    cases n <;> simp
  have hfreeing : ∀ pc : Pc, pc.freeing = false ↔ ∀ x work, pc ≠ .freevm (x :: work) := fun pc => by
    cases pc <;> simp [Pc.freeing]
    rename_i work
    cases work <;> simp
  have hreaping : (s.pc a.cpu).reaping = true ↔ ∃ x work, s.pc a.cpu = .wait (x :: work) := by
    cases s.pc a.cpu <;> simp [Pc.reaping]
    rename_i work
    cases work <;> simp
  unfold Parted
  simp only [hwrites, hfreeing, hreaping]
  refine and_congr_right fun _ => and_congr Iff.rfl ⟨?_, ?_⟩
  · rintro h ⟨⟨x, work, hw⟩, hf⟩
    exact h x work ⟨hw, hf⟩
  · rintro h x work ⟨hw, hf⟩
    exact h ⟨⟨x, work, hw⟩, hf⟩

instance [Fintype ι] (s : State ι) (a : Act ι) : Decidable (Parted s a) := decidable_of_iff' _ parted_iff

instance AllParted.decide [Fintype ι] : ∀ (as : List (Act ι)) (s : State ι), Decidable (AllParted as s)
  | [], _      => isTrue trivial
  | a :: as, s =>
    have := AllParted.decide as (s.step a)
    inferInstanceAs (Decidable (Parted s a ∧ AllParted as (s.step a)))

end Check

/-- One processor evicts a page while the other reaps a zombie: it waits for `ptable.lock`, and when it has it for
`lru_lock`, which the first has still to release. -/
def oneEviction : List (Act Bool) :=
  let evict : Act Bool := ⟨true, .kalloc, some 1⟩
  let reap : Act Bool := ⟨false, .wait [.popLru, .kfree], none⟩
  [evict, reap, evict, evict, evict, evict, reap, evict, reap, reap, evict]

/-- Two processors: the first evicts a page, up to its `kfree`; the second finds the free list empty. -/
def twoEvictions : List (Act Bool) :=
  let evict : Act Bool := ⟨true, .kalloc, some 8⟩
  let other : Act Bool := ⟨false, .kalloc, none⟩
  List.replicate 21 evict ++ [other, other]

end Locks
end Xv6
