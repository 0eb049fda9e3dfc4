import Xv6.Lib.Chain
import Xv6.Lib.Wp
import Xv6.Vm.Freemem
/-!
# Vm.Kmem — the free list in the free pages

kalloc.c by its pointers.  A free page holds a `struct run` in its first word, the address of the next free page, and
`kmem.freelist` is the address of the first.  What the rest of the development has as the list `Phys.freelist` is read
off the pages here, and the pages handed out are their holders' to write.
-/
namespace Xv6
namespace Vm

open Mem
open Prog (wp Admits)

/-- The memory of the kernel, `kmem` and `freemems`. -/
structure Kmem where
  mem      : Frame → Page
  freelist : Addr
  useLock  : Bool
  locked   : Bool
  freemems : Int
  kend     : Addr

namespace Kmem

abbrev K := Prog Stop Kmem PhysEvent

/-- `r->next`. -/
def next (s : Kmem) (r : Addr) : Addr := wordAt (s.mem (v2p r)) 0

def setPage (s : Kmem) (v : Addr) (p : Page) : Kmem := { s with mem := fun f => if f = v2p v then p else s.mem f }

def setNext (s : Kmem) (r next : Addr) : Kmem := s.setPage r (setWord (s.mem (v2p r)) 0 next)

/-- `if(kmem.use_lock) acquire(&kmem.lock)`, and the release. -/
def acquire : K Unit := do
  if ← Prog.read (·.useLock) then
    if ← Prog.read (·.locked) then Prog.stop (.panic "acquire") else Prog.modify (fun s => { s with locked := true })

def release : K Unit := do
  if ← Prog.read (·.useLock) then
    if ← Prog.read (·.locked) then Prog.modify (fun s => { s with locked := false }) else Prog.stop (.panic "release")

/-- `v % PGSIZE || v < end || V2P(v) >= PHYSTOP`. -/
def refuses (s : Kmem) (v : Addr) : Bool := decide (v.toNat % 4096 ≠ 0 ∨ v < s.kend ∨ phystop ≤ v - kernbase)

def kfree (v : Addr) : K Unit := do
  if ← Prog.read (·.refuses v) then Prog.stop (.panic "kfree")
  else
    Prog.modify (·.setPage v (fun _ => 1))
    acquire
    Prog.modify (fun s => s.setNext v s.freelist)
    Prog.modify (fun s => { s with freelist := v })
    Prog.modify (fun s => { s with freemems := s.freemems + 1 })
    release

def kalloc : K Addr := do
  acquire
  let r ← Prog.read (·.freelist)
  Prog.when (r ≠ 0) (Prog.modify (fun s => { s with freelist := s.next r }))
  Prog.modify (fun s => { s with freemems := s.freemems - 1 })
  release
  pure r

/-- `freerange`'s loop. -/
def freerangeLoop : Nat → Addr → Addr → K Unit
  | 0, _, _ => Prog.stop .diverge
  | n + 1, p, vend => do
    if p + pgsize ≤ vend then
      kfree p
      freerangeLoop n (p + pgsize) vend
    else pure ()

def freerange (vstart vend : Addr) : K Unit := freerangeLoop maxPages (pgRoundUp vstart) vend

def kinit1 (vstart vend : Addr) : K Unit := do
  Prog.modify (fun s => { s with locked := false })
  Prog.modify (fun s => { s with useLock := false })
  freerange vstart vend

def kinit2 (vstart vend : Addr) : K Unit := do
  freerange vstart vend
  Prog.modify (fun s => { s with useLock := true })

/-! ## What one call does -/

variable {s t : Kmem} {v r : Addr} {l : List Addr}

theorem acquire_run (hl : s.locked = false) : acquire s = ⟨.ok (), { s with locked := s.useLock }, []⟩ := by
  unfold acquire
  obtain ⟨mem, freelist, useLock, locked, freemems, kend⟩ := s
  obtain rfl : locked = false := hl
  cases useLock <;> rfl

theorem release_run (hl : s.locked = s.useLock) : release s = ⟨.ok (), { s with locked := false }, []⟩ := by
  unfold release
  obtain ⟨mem, freelist, useLock, locked, freemems, kend⟩ := s
  obtain rfl : locked = useLock := hl
  cases locked <;> rfl

theorem kfree_run (hl : s.locked = false) (v : Addr) : kfree v s = if s.refuses v then ⟨.error (.panic "kfree"), s, []⟩
    else ⟨.ok (), { (s.setPage v (fun _ => 1)).setNext v s.freelist with
      freelist := v, freemems := s.freemems + 1 }, []⟩ := by
  unfold kfree
  rw [Prog.read_bind_run]
  split
  · rfl
  · rw [Prog.modify_bind_run, Prog.bind_run_nil (acquire_run (s := s.setPage v _) hl), Prog.modify_bind_run,
      Prog.modify_bind_run, Prog.modify_bind_run]
    refine (release_run ?_).trans ?_
    · rfl
    · obtain ⟨mem, freelist, useLock, locked, freemems, kend⟩ := s
      obtain rfl : locked = false := hl
      rfl

theorem kalloc_run (hl : s.locked = false) : kalloc s = ⟨.ok s.freelist, { s with
    freelist := if s.freelist = 0 then 0 else s.next s.freelist, freemems := s.freemems - 1 }, []⟩ := by
  unfold kalloc
  rw [Prog.bind_run_nil (acquire_run hl), Prog.read_bind_run]
  obtain ⟨mem, freelist, useLock, locked, freemems, kend⟩ := s
  obtain rfl : locked = false := hl
  dsimp only
  by_cases hr : freelist = 0
  · rw [if_pos hr, hr]
    exact Prog.bind_run_nil (release_run (s := ⟨mem, 0, useLock, useLock, freemems - 1, kend⟩) rfl)
  · rw [if_neg hr, Prog.when, if_pos hr, Prog.modify_bind_run, Prog.modify_bind_run]
    exact Prog.bind_run_nil (release_run rfl)

/-! ## The list -/

/-- The pages `l` are the free list, and nobody holds its lock. -/
structure Lists (s : Kmem) (l : List Addr) : Prop where
  list : Threaded 0 s.next s.freelist l
  lock : s.locked = false

theorem refuses_iff : s.refuses v = false ↔ v.toNat % 4096 = 0 ∧ s.kend.toNat ≤ v.toNat ∧ 2147483648 ≤ v.toNat ∧
    v.toNat < 2382364672 := by
  unfold refuses
  rw [decide_eq_false_iff_not, not_or, not_or, not_not, BitVec.lt_def, BitVec.le_def, BitVec.toNat_sub]
  have := v.isLt
  show _ ∧ _ ∧ ¬ 234881024 ≤ (4294967296 - 2147483648 + v.toNat) % 4294967296 ↔ _
  omega

theorem v2p_inj {u : Addr} (hu : u.toNat % 4096 = 0) (hv : v.toNat % 4096 = 0) (h : v2p u = v2p v) : u = v := by
  rw [← p2v_v2p hu, h, p2v_v2p hv]

theorem Lists.kfree (h : s.Lists l) (hv : s.refuses v = false) (hl : v ∉ l) (hgood : ∀ u ∈ l, s.refuses u = false) :
    ∃ t, Kmem.kfree v s = ⟨.ok (), t, []⟩ ∧ t.Lists (v :: l) ∧ t.kend = s.kend := by
  have hal := (refuses_iff.1 hv).1
  have hnz : v ≠ 0 := by
    rintro rfl
    have := (refuses_iff.1 hv).2.2.1
    simp at this
  refine ⟨_, (kfree_run h.lock v).trans (if_neg (ne_true_of_eq_false hv)), ⟨?_, h.lock⟩, rfl⟩
  refine h.list.push hnz ?_ fun u hu => ?_
  · show wordAt (if v2p v = v2p v then _ else _) 0 = _
    rw [if_pos rfl, wordAt_setWord, if_pos rfl]
  · have hne : v2p u ≠ v2p v := fun he => hl (by
      rw [← v2p_inj (refuses_iff.1 (hgood u hu)).1 hal he]
      exact hu)
    show wordAt (if v2p u = v2p v then _ else if v2p u = v2p v then _ else s.mem (v2p u)) 0 = _
    rw [if_neg hne, if_neg hne]
    rfl

/-- **`kalloc` takes the first page**, and returns 0 where there is none. -/
theorem Lists.kalloc (h : s.Lists l) : ∃ t, Kmem.kalloc s = ⟨.ok s.freelist, t, []⟩ ∧ t.kend = s.kend ∧
    (s.freelist = 0 ∧ l = [] ∧ t.Lists [] ∨ ∃ l', s.freelist ≠ 0 ∧ l = s.freelist :: l' ∧ t.Lists l') := by
  refine ⟨_, kalloc_run h.lock, rfl, ?_⟩
  by_cases hr : s.freelist = 0
  · refine .inl ⟨hr, h.list.nil_iff.1 hr, ?_, h.lock⟩
    exact if_pos hr
  · obtain ⟨l', hl', hlist⟩ := h.list.pop hr
    refine .inr ⟨l', hr, hl', ?_, h.lock⟩
    show Threaded 0 s.next (if s.freelist = 0 then 0 else s.next s.freelist) l'
    rw [if_neg hr]
    exact hlist

theorem Lists.write (h : s.Lists l) (hv : v.toNat % 4096 = 0) (hl : v ∉ l) (hgood : ∀ u ∈ l, s.refuses u = false)
    (p : Page) : (s.setPage v p).Lists l := by
  refine ⟨h.list.congr fun u hu => ?_, h.lock⟩
  have hne : v2p u ≠ v2p v := fun he => hl (by
    rw [← v2p_inj (refuses_iff.1 (hgood u hu)).1 hv he]
    exact hu)
  show wordAt (if v2p u = v2p v then _ else _) 0 = _
  rw [if_neg hne]
  rfl

/-! ## The list of the frames -/

/-- The memory with the free list as the list of its frames. -/
def phys (s : Kmem) (l : List Addr) (kdata : Addr) : Phys := ⟨s.mem, l.map v2p, s.freemems, s.kend, kdata⟩

theorem kfrees_v2p {kdata : Addr} (hv : s.refuses v = false) : (s.phys l kdata).kfrees (v2p v) = true := by
  obtain ⟨hal, hlo, hbase, htop⟩ := refuses_iff.1 hv
  have hp := p2v_v2p hal
  have haddr : frameAddr (v2p v) = v - kernbase := by
    have hsub : p2v (v2p v) - kernbase = frameAddr (v2p v) := BitVec.add_sub_cancel _ _
    rw [← hsub, hp]
  unfold Phys.kfrees
  rw [Bool.not_eq_true', decide_eq_false_iff_not, hp, haddr, not_or]
  have hrefuses := hv
  unfold refuses at hrefuses
  rw [decide_eq_false_iff_not, not_or, not_or] at hrefuses
  exact hrefuses.2

theorem Lists.kalloc_refines (h : s.Lists l) (kdata : Addr) : Vm.kalloc (s.phys l kdata) =
    ⟨.ok (if s.freelist = 0 then none else some (v2p s.freelist)), (Kmem.kalloc s).st.phys l.tail kdata, []⟩ := by
  rw [kalloc_run h.lock]
  cases l with
  | nil =>
    have hz : s.freelist = 0 := h.list
    rw [if_pos hz]
    rfl
  | cons v l =>
    have hv : s.freelist = v := h.list.1
    rw [if_neg (hv ▸ h.list.2.1), hv]
    rfl

theorem Lists.kfree_refines (h : s.Lists l) (hv : s.refuses v = false) (hgood : ∀ u ∈ l, s.refuses u = false)
    (kdata : Addr) : Vm.kfree (v2p v) (s.phys l kdata) =
      ⟨.ok (), (Kmem.kfree v s).st.phys (v :: l) kdata, [.kfree (v2p v)]⟩ := by
  have hlink : freePage (s.phys l kdata).freelist.head? = setWord (fun _ => 1) 0 s.freelist := by
    cases l with
    | nil => exact congrArg (setWord _ 0) h.list.symm
    | cons u l =>
      have hu : p2v (v2p u) = u := p2v_v2p (refuses_iff.1 (hgood u List.mem_cons_self)).1
      exact congrArg (setWord _ 0) (hu.trans h.list.1.symm)
  have hpage : (s.phys l kdata).setPage (v2p v) (freePage (s.phys l kdata).freelist.head?) =
      ((s.setPage v (fun _ => 1)).setNext v s.freelist).phys l kdata := by
    rw [hlink]
    unfold setNext setPage phys Phys.setPage
    congr 1
    funext f
    dsimp only
    by_cases hf : f = v2p v
    · rw [if_pos hf, if_pos hf, if_pos rfl]
    · rw [if_neg hf, if_neg hf, if_neg hf]
  rw [Vm.kfree_run, if_pos (kfrees_v2p hv), kfree_run h.lock, if_neg (ne_true_of_eq_false hv), hpage]
  rfl

/-! ## The initialisation -/

/-- The page at `v` lies between `lo` and `hi`. -/
def between (lo hi v : Addr) : Prop := v.toNat % 4096 = 0 ∧ lo.toNat ≤ v.toNat ∧ v.toNat + 4096 ≤ hi.toNat

theorem Lists.freerangeLoop {vend : Addr} (hend : vend.toNat ≤ 2382364672) : ∀ (n : Nat) (p : Addr) (s : Kmem)
    (l : List Addr), s.Lists l → p.toNat % 4096 = 0 → p.toNat ≤ vend.toNat → (vend.toNat - p.toNat) / 4096 < n →
      2147483648 ≤ p.toNat → s.kend.toNat ≤ p.toNat → (∀ u ∈ l, s.refuses u = false ∧ ¬ between p vend u) →
        ∃ t l', Kmem.freerangeLoop n p vend s = ⟨.ok (), t, []⟩ ∧ t.Lists (l' ++ l) ∧ t.kend = s.kend ∧
          ∀ v, v ∈ l' ↔ between p vend v := by
  intro n
  induction n with
  | zero => intro _ _ _ _ _ _ h; omega
  | succ n ih =>
    intro p s l h hp hle hn hbase hkend hl
    have hadd : (p + pgsize).toNat = p.toNat + 4096 := toNat_nextPage (by omega)
    unfold Kmem.freerangeLoop
    by_cases hgo : p + pgsize ≤ vend
    · have hgo' : p.toNat + 4096 ≤ vend.toNat := by rw [← hadd]; exact hgo
      have hpg : between p vend p := ⟨hp, le_rfl, hgo'⟩
      have hnot : p ∉ l := fun hin => (hl p hin).2 hpg
      have hgood : s.refuses p = false := refuses_iff.2 ⟨hp, hkend, hbase, by omega⟩
      obtain ⟨t, hrun, ht, hk⟩ := h.kfree hgood hnot fun u hu => (hl u hu).1
      have hrefuses : ∀ u, t.refuses u = s.refuses u := fun u => by
        unfold refuses
        rw [hk]
      obtain ⟨u, l', hrun', hu, hku, hmem⟩ := ih (p + pgsize) t (p :: l) ht (by omega) (by omega) (by omega) (by omega)
        (by rw [hk]; omega) (by
          intro u hu
          rw [hrefuses]
          rcases List.mem_cons.1 hu with rfl | hu
          · exact ⟨hgood, fun hb => by have := hb.2.1; omega⟩
          · exact ⟨(hl u hu).1, fun hb => (hl u hu).2 ⟨hb.1, by have := hb.2.1; omega, hb.2.2⟩⟩)
      refine ⟨u, l' ++ [p], ?_, by rw [List.append_assoc]; exact hu, hku.trans hk, fun v => ?_⟩
      · rw [if_pos hgo, Prog.bind_run_nil hrun, hrun']
      · rw [List.mem_append, hmem, List.mem_singleton]
        unfold between
        rw [hadd, ← BitVec.toNat_inj]
        omega
    · have hgo' : ¬ p.toNat + 4096 ≤ vend.toNat := by rw [← hadd]; exact hgo
      refine ⟨s, [], by rw [if_neg hgo]; rfl, h, rfl, fun v => ?_⟩
      unfold between
      simp only [List.not_mem_nil, false_iff]
      omega

theorem Lists.freerange (h : s.Lists l) (vstart vend : Addr) (hend : vend.toNat ≤ 2382364672)
    (hle : (pgRoundUp vstart).toNat ≤ vend.toNat) (hbase : 2147483648 ≤ (pgRoundUp vstart).toNat)
    (hkend : s.kend.toNat ≤ (pgRoundUp vstart).toNat)
    (hl : ∀ u ∈ l, s.refuses u = false ∧ ¬ between (pgRoundUp vstart) vend u) :
    ∃ t l', Kmem.freerange vstart vend s = ⟨.ok (), t, []⟩ ∧ t.Lists (l' ++ l) ∧ t.kend = s.kend ∧
      ∀ v, v ∈ l' ↔ between (pgRoundUp vstart) vend v :=
  h.freerangeLoop hend maxPages _ s l (pgRoundUp_aligned vstart) hle (by unfold maxPages; omega) hbase hkend hl

end Kmem

/-! ## Runs of the allocator -/

/-- `P2V(4*1024*1024)`, where `kinit1` ends and `kinit2` begins, and `P2V(PHYSTOP)`. -/
def kinitMid : Addr := 0x80400000#32
def kinitTop : Addr := 0x8E000000#32

/-- The allocator, the pages handed out, and whether `kinit2` has been called. -/
structure Pool where
  kmem   : Kmem
  out    : List Addr
  second : Bool

inductive PoolCall where
  | kalloc
  | kfree (v : Addr)
  | kinit2
  /-- The holder of a page writes to it. -/
  | write (v : Addr) (p : Page)

namespace Pool

abbrev L := Prog Stop Pool PhysEvent

def inKmem {α : Type} (c : Kmem.K α) : L α := Prog.zoom Pool.kmem (fun s k => { s with kmem := k }) id c

def step : PoolCall → L Unit
  | .kalloc    => do
    let r ← inKmem Kmem.kalloc
    Prog.when (r ≠ 0) (Prog.modify (fun s => { s with out := r :: s.out }))
  | .kfree v   => do
    inKmem (Kmem.kfree v)
    Prog.modify (fun s => { s with out := s.out.erase v })
  | .kinit2    => do
    inKmem (Kmem.kinit2 kinitMid kinitTop)
    Prog.modify (fun s => { s with second := true })
  | .write v p => inKmem (Prog.modify (·.setPage v p))

/-- `main` calls `kinit1(end, P2V(4*1024*1024))`. -/
def start (mem : Frame → Page) (kend : Addr) : Outcome Stop Pool PhysEvent Unit :=
  inKmem (Kmem.kinit1 kend kinitMid) ⟨⟨mem, 0, false, false, 0, kend⟩, [], false⟩

/-- A page is freed, and written to, by its holder, and `kinit2` is called once. -/
def ByHolder (s : Pool) : PoolCall → Prop
  | .kalloc    => True
  | .kfree v   => v ∈ s.out
  | .kinit2    => s.second = false
  | .write v _ => v ∈ s.out

instance (s : Pool) : ∀ c : PoolCall, Decidable (ByHolder s c)
  | .kalloc    => isTrue trivial
  | .kfree v   => inferInstanceAs (Decidable (v ∈ s.out))
  | .kinit2    => inferInstanceAs (Decidable (s.second = false))
  | .write v _ => inferInstanceAs (Decidable (v ∈ s.out))

/-- The pages that `freerange` has covered. -/
def covered (s : Pool) : Addr → Prop := Kmem.between s.kmem.kend (if s.second then kinitTop else kinitMid)

/-- The pages `l` are free, the others of those covered are handed out. -/
structure Exact (l : List Addr) (s : Pool) : Prop where
  lists : s.kmem.Lists l
  nodup : (s.out ++ l).Nodup
  cover : ∀ v, v ∈ s.out ++ l ↔ s.covered v
  kend  : 2147483648 ≤ s.kmem.kend.toNat ∧ s.kmem.kend.toNat ≤ 2151677952

variable {s t : Pool} {l : List Addr} {v : Addr}

theorem covered_refuses (hk : 2147483648 ≤ s.kmem.kend.toNat) (h : s.covered v) : s.kmem.refuses v = false := by
  obtain ⟨hal, hlo, hhi⟩ := h
  have htop : (if s.second then kinitTop else kinitMid).toNat ≤ 2382364672 := by cases s.second <;> decide
  exact Kmem.refuses_iff.2 ⟨hal, hlo, by omega, by omega⟩

theorem Exact.good (h : Exact l s) (hv : v ∈ s.out ++ l) : s.kmem.refuses v = false :=
  covered_refuses h.kend.1 ((h.cover v).1 hv)

theorem between_roundUp {kend hi v : Addr} (hk : kend.toNat ≤ 2151677952) :
    Kmem.between (pgRoundUp kend) hi v ↔ Kmem.between kend hi v := by
  unfold Kmem.between pgRoundUp
  have hround : (pgRoundDown (kend + 4095#32)).toNat = (kend.toNat + 4095) / 4096 * 4096 := by
    rw [toNat_pgRoundDown, BitVec.toNat_add]
    show (kend.toNat + 4095) % 4294967296 / 4096 * 4096 = _
    omega
  show _ ∧ (pgRoundDown (kend + 4095#32)).toNat ≤ _ ∧ _ ↔ _
  rw [hround]
  omega

/-! ### The steps -/

theorem inKmem_run {α : Type} {c : Kmem.K α} {k : Kmem} {r : Except Stop α} (h : c s.kmem = ⟨r, k, []⟩) :
    inKmem c s = ⟨r, { s with kmem := k }, []⟩ := by
  unfold inKmem Prog.zoom
  rw [h]
  rfl

theorem covered_kmem {k : Kmem} {out : List Addr} (hk : k.kend = s.kmem.kend) (u : Addr) :
    s.covered u ↔ Pool.covered ⟨k, out, s.second⟩ u := by
  unfold covered
  rw [hk]

theorem kalloc_exact (h : Exact l s) : ∃ t l', step .kalloc s = ⟨.ok (), t, []⟩ ∧ Exact l' t := by
  obtain ⟨k, hrun, hk, hcase⟩ := h.lists.kalloc
  have hkend : 2147483648 ≤ k.kend.toNat ∧ k.kend.toNat ≤ 2151677952 := by rw [hk]; exact h.kend
  unfold step
  dsimp only
  rw [Prog.bind_run_nil (inKmem_run hrun)]
  rcases hcase with ⟨hz, hl, hk'⟩ | ⟨l', hz, hl, hk'⟩
  · rw [Prog.when, if_neg (not_not.2 hz)]
    subst hl
    exact ⟨_, [], rfl, hk', h.nodup, fun u => (h.cover u).trans (covered_kmem hk u), hkend⟩
  · rw [Prog.when, if_pos hz]
    have hperm : (s.kmem.freelist :: s.out ++ l').Perm (s.out ++ l) := by
      rw [hl]
      exact List.perm_middle.symm
    exact ⟨_, l', rfl, hk', hperm.nodup_iff.2 h.nodup,
      fun u => hperm.mem_iff.trans ((h.cover u).trans (covered_kmem hk u)), hkend⟩

theorem kfree_exact (h : Exact l s) (hv : v ∈ s.out) : ∃ t, step (.kfree v) s = ⟨.ok (), t, []⟩ ∧ Exact (v :: l) t := by
  have hnot : v ∉ l := fun hl => List.disjoint_of_nodup_append h.nodup hv hl
  obtain ⟨k, hrun, hlists, hk⟩ := h.lists.kfree (h.good (List.mem_append_left _ hv)) hnot
    fun u hu => h.good (List.mem_append_right _ hu)
  have hperm : (s.out.erase v ++ v :: l).Perm (s.out ++ l) :=
    List.perm_middle.trans ((List.perm_cons_erase hv).symm.append_right l)
  unfold step
  dsimp only
  rw [Prog.bind_run_nil (inKmem_run hrun)]
  exact ⟨_, rfl, hlists, hperm.nodup_iff.2 h.nodup,
    fun u => hperm.mem_iff.trans ((h.cover u).trans (covered_kmem hk u)), by rw [hk]; exact h.kend⟩

theorem write_exact (h : Exact l s) (hv : v ∈ s.out) (p : Page) :
    ∃ t, step (.write v p) s = ⟨.ok (), t, []⟩ ∧ Exact l t := by
  have hnot : v ∉ l := fun hl => List.disjoint_of_nodup_append h.nodup hv hl
  have hal := (Kmem.refuses_iff.1 (h.good (List.mem_append_left _ hv))).1
  exact ⟨_, rfl, h.lists.write hal hnot (fun u hu => h.good (List.mem_append_right _ hu)) p, h.nodup, h.cover, h.kend⟩

theorem kinit2_exact (h : Exact l s) (hs : s.second = false) : ∃ t l', step .kinit2 s = ⟨.ok (), t, []⟩ ∧ Exact l' t := by
  have hmid : (pgRoundUp kinitMid).toNat = 2151677952 := by decide
  have hold : ∀ u, u ∈ s.out ++ l ↔ Kmem.between s.kmem.kend kinitMid u := fun u => by
    rw [h.cover u]
    unfold covered
    rw [hs]
    rfl
  obtain ⟨k, l', hrun, hlists, hk, hmem⟩ := h.lists.freerange kinitMid kinitTop (by decide)
    (by rw [hmid]; decide) (by rw [hmid]; decide) (by rw [hmid]; exact h.kend.2) (by
      intro u hu
      refine ⟨h.good (List.mem_append_right _ hu), fun hb => ?_⟩
      have hlow := ((hold u).1 (List.mem_append_right _ hu)).2.2
      have hhigh := hb.2.1
      rw [hmid] at hhigh
      have : kinitMid.toNat = 2151677952 := by decide
      omega)
  have hkinit : Kmem.kinit2 kinitMid kinitTop s.kmem = ⟨.ok (), { k with useLock := true }, []⟩ := by
    unfold Kmem.kinit2
    rw [Prog.bind_run_nil hrun]
    rfl
  unfold step
  dsimp only
  rw [Prog.bind_run_nil (inKmem_run hkinit)]
  have hbetween : ∀ u, u ∈ s.out ++ (l' ++ l) ↔ Kmem.between s.kmem.kend kinitTop u := by
    intro u
    have hu := hold u
    rw [List.mem_append] at hu
    rw [List.mem_append, List.mem_append, hmem u, or_left_comm, hu]
    unfold Kmem.between
    rw [hmid]
    have h1 : kinitMid.toNat = 2151677952 := by decide
    have h2 : kinitTop.toNat = 2382364672 := by decide
    have := h.kend
    omega
  refine ⟨_, l' ++ l, rfl, ⟨hlists.list, hlists.lock⟩, ?_, fun u => ?_, ?_⟩
  · refine List.nodup_append'.2 ⟨h.nodup.of_append_left, hlists.list.nodup, fun u ho hu => ?_⟩
    rcases List.mem_append.1 hu with hu | hu
    · have hhigh := ((hmem u).1 hu).2.1
      have hlow := ((hold u).1 (List.mem_append_left _ ho)).2.2
      rw [hmid] at hhigh
      have : kinitMid.toNat = 2151677952 := by decide
      omega
    · exact List.disjoint_of_nodup_append h.nodup ho hu
  · refine (hbetween u).trans ?_
    show _ ↔ Kmem.between k.kend kinitTop u
    rw [hk]
  · show 2147483648 ≤ k.kend.toNat ∧ k.kend.toNat ≤ 2151677952
    rw [hk]
    exact h.kend

theorem start_exact (mem : Frame → Page) {kend : Addr} (hlo : 2147483648 ≤ kend.toNat) (hhi : kend.toNat ≤ 2151677952) :
    ∃ t l, start mem kend = ⟨.ok (), t, []⟩ ∧ Exact l t := by
  have hround : (pgRoundUp kend).toNat = (kend.toNat + 4095) / 4096 * 4096 := by
    show (pgRoundDown (kend + 4095#32)).toNat = _
    rw [toNat_pgRoundDown, BitVec.toNat_add]
    show (kend.toNat + 4095) % 4294967296 / 4096 * 4096 = _
    omega
  have hmid : kinitMid.toNat = 2151677952 := by decide
  have hlists : Kmem.Lists ⟨mem, 0, false, false, 0, kend⟩ [] := ⟨rfl, rfl⟩
  have hle : kend.toNat ≤ (pgRoundUp kend).toNat := by
    rw [hround]
    omega
  obtain ⟨k, l, hrun, hl, hk, hmem⟩ := hlists.freerange kend kinitMid (by decide)
    (by rw [hround, hmid]; omega) (hlo.trans hle) hle (fun _ hu => by cases hu)
  rw [List.append_nil] at hl
  have hkinit : Kmem.kinit1 kend kinitMid ⟨mem, 0, false, false, 0, kend⟩ = ⟨.ok (), k, []⟩ := by
    unfold Kmem.kinit1
    rw [Prog.modify_bind_run, Prog.modify_bind_run]
    exact hrun
  have hkend : k.kend = kend := hk
  refine ⟨_, l, inKmem_run hkinit, hl, hl.list.nodup, fun u => ?_, ?_⟩
  · refine (hmem u).trans ((between_roundUp hhi).trans ?_)
    show _ ↔ Kmem.between k.kend kinitMid u
    rw [hkend]
  · show 2147483648 ≤ k.kend.toNat ∧ k.kend.toNat ≤ 2151677952
    rw [hkend]
    exact ⟨hlo, hhi⟩

/-! ### The runs -/

/-- **What the allocator keeps**: a list that ends and has no cycle, pages handed out that are distinct and pages of the
range, every page covered on the one side or the other, and a null pointer just where the list is empty. -/
structure Kept (s : Pool) : Prop where
  list     : ∃ l, Threaded 0 s.kmem.next s.kmem.freelist l ∧ l.Nodup ∧ s.out.Disjoint l ∧
    (∀ v, v ∈ s.out ∨ v ∈ l ↔ s.covered v) ∧ ((Kmem.kalloc s.kmem).res = .ok 0 ↔ l = [])
  distinct : s.out.Nodup
  pages    : ∀ v ∈ s.out, v.toNat % 4096 = 0 ∧ s.kmem.kend.toNat ≤ v.toNat ∧ v.toNat + 4096 ≤ (phystop + kernbase).toNat

theorem Exact.kept (h : Exact l s) : Kept s := by
  refine ⟨⟨l, h.lists.list, h.nodup.of_append_right, List.disjoint_of_nodup_append h.nodup,
    fun v => by rw [← List.mem_append]; exact h.cover v, ?_⟩, h.nodup.of_append_left, fun v hv => ?_⟩
  · rw [Kmem.kalloc_run h.lists.lock, ← h.lists.list.nil_iff]
    exact ⟨Except.ok.inj, congrArg _⟩
  · obtain ⟨hal, hlo, hhi⟩ := (h.cover v).1 (List.mem_append_left _ hv)
    refine ⟨hal, hlo, hhi.trans ?_⟩
    cases s.second <;> decide

theorem step_exact (h : ∃ l, Exact l s) {c : PoolCall} (hc : ByHolder s c) :
    wp (step c) (fun _ t => ∃ l, Exact l t) (fun _ => False) s := by
  obtain ⟨l, h⟩ := h
  cases c with
  | kalloc =>
    obtain ⟨t, l', hrun, ht⟩ := kalloc_exact h
    exact Prog.wp_of_run hrun ⟨l', ht⟩
  | kfree v =>
    obtain ⟨t, hrun, ht⟩ := kfree_exact h hc
    exact Prog.wp_of_run hrun ⟨_, ht⟩
  | kinit2 =>
    obtain ⟨t, l', hrun, ht⟩ := kinit2_exact h hc
    exact Prog.wp_of_run hrun ⟨l', ht⟩
  | write v p =>
    obtain ⟨t, hrun, ht⟩ := write_exact h hc p
    exact Prog.wp_of_run hrun ⟨_, ht⟩

/-- **The page allocator hands no page out twice and loses none**: whatever the memory holds, and whatever the holders
write to their pages, no call of a run stops, and every state is `Kept`. -/
theorem run_kept (mem : Frame → Page) (kend : Addr) (hlo : kernbase ≤ kend) (hhi : kend ≤ kinitMid)
    (calls : List PoolCall) (hc : Admits ByHolder step calls (start mem kend).st) :
    (start mem kend).res = .ok () ∧ (Prog.forEach calls step (start mem kend).st).res = .ok () ∧
      Kept (Prog.forEach calls step (start mem kend).st).st := by
  obtain ⟨s, l, hstart, h⟩ := start_exact mem hlo hhi
  rw [hstart] at hc ⊢
  have hrun := Prog.wp_admits (fun c s hs hc => step_exact hs hc) calls s ⟨l, h⟩ hc
  obtain ⟨a, hres, l', hl'⟩ := hrun.returns
  exact ⟨rfl, hres, hl'.kept⟩

/-- Two pages: both allocated, one written to, and freed. -/
def twoPages : List PoolCall := [.kalloc, .kalloc, .write 0x803FE000#32 (fun _ => 7), .kfree 0x803FE000#32]

theorem twoPages_kept : Kept (Prog.forEach twoPages step (start (fun _ => zeroPage) 0x803FDFF0#32).st).st :=
  (run_kept (fun _ => zeroPage) 0x803FDFF0#32 (by decide) (by decide) twoPages (by decide +kernel)).2.2

end Pool

end Vm
end Xv6
