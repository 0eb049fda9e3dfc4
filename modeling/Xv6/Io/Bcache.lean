import Xv6.Lib.Mru
import Xv6.Lib.Prog
/-!
# Io.Bcache — the list of the buffer cache (bio.c)

The sections that run with `bcache.lock` held: the two searches of `bget` and the second half of `brelse`, with the links
as the source has them.  A node is a buffer, or `none` for `bcache.head`.
-/
namespace Xv6
namespace Bcache

abbrev Node (n : Nat) := Option (Fin n)

/-- `struct buf`, its lock and its links apart. -/
structure Buf (α : Type) where
  valid   : Bool
  dirty   : Bool
  dev     : Nat
  blockno : Nat
  refcnt  : Nat
  data    : α

structure Cache (n : Nat) (α : Type) where
  buf  : Fin n → Buf α
  next : Node n → Node n
  prev : Node n → Node n

inductive Panic where
  | noBuffers
  | bwrite
  | brelse
  /-- A loop over the list does not end. -/
  | stuck
deriving DecidableEq

abbrev C (n : Nat) (α : Type) := Prog Panic (Cache n α) Empty

variable {n : Nat} {α : Type}

def Cache.set (s : Cache n α) (b : Fin n) (x : Buf α) : Cache n α := { s with buf := Function.update s.buf b x }

/-- `a->next = b`. -/
def setNext (a b : Node n) : C n α Unit := Prog.modify (fun s => { s with next := Function.update s.next a b })

/-- `a->prev = b`. -/
def setPrev (a b : Node n) : C n α Unit := Prog.modify (fun s => { s with prev := Function.update s.prev a b })

def next (a : Node n) : C n α (Node n) := Prog.read (fun s => s.next a)
def prev (a : Node n) : C n α (Node n) := Prog.read (fun s => s.prev a)

def pushFront (b : Fin n) : C n α Unit := do
  setNext b (← next none)
  setPrev b none
  setPrev (← next none) b
  setNext none b

def binit : C n α Unit := do
  setPrev none none
  setNext none none
  Prog.forEach (List.finRange n) pushFront

def Buf.caches (x : Buf α) (dev blockno : Nat) : Prop := x.dev = dev ∧ x.blockno = blockno

instance (x : Buf α) (dev blockno : Nat) : Decidable (x.caches dev blockno) := inferInstanceAs (Decidable (_ ∧ _))

def Buf.unused (x : Buf α) : Prop := x.refcnt = 0 ∧ x.dirty = false

instance (x : Buf α) : Decidable x.unused := inferInstanceAs (Decidable (_ ∧ _))

/-- The first loop of `bget`. -/
def cached (dev blockno : Nat) : Nat → Node n → C n α (Option (Fin n))
  | 0, _          => Prog.stop .stuck
  | _ + 1, none   => pure none
  | k + 1, some b => do
    let x ← Prog.read (fun s => s.buf b)
    if x.caches dev blockno then pure (some b) else do
      let c ← next b
      cached dev blockno k c

/-- The second loop of `bget`. -/
def recyclable : Nat → Node n → C n α (Option (Fin n))
  | 0, _          => Prog.stop .stuck
  | _ + 1, none   => pure none
  | k + 1, some b => do
    let x ← Prog.read (fun s => s.buf b)
    if x.unused then pure (some b) else do
      let c ← prev b
      recyclable k c

/-- `bget` up to `acquiresleep`. -/
def bget (dev blockno : Nat) : C n α (Fin n) := do
  let b ← next none
  let hit ← cached dev blockno (n + 1) b
  match hit with
  | some b => do
    Prog.modify (fun s => s.set b { s.buf b with refcnt := (s.buf b).refcnt + 1 })
    pure b
  | none   => do
    let b ← prev none
    let miss ← recyclable (n + 1) b
    match miss with
    | some b => do
      Prog.modify (fun s => s.set b
        { s.buf b with dev := dev, blockno := blockno, valid := false, dirty := false, refcnt := 1 })
      pure b
    | none   => Prog.stop .noBuffers

/-- `brelse` from `acquire(&bcache.lock)` on. -/
def unref (b : Fin n) : C n α Unit := do
  Prog.modify (fun s => s.set b { s.buf b with refcnt := (s.buf b).refcnt - 1 })
  let x ← Prog.read (fun s => s.buf b)
  Prog.when (x.refcnt = 0) do
    setPrev (← next b) (← prev b)
    setNext (← prev b) (← next b)
    pushFront b

/-! ## The list -/

/-- The list holds `l`, most recently used first. -/
def Linked (s : Cache n α) (l : List (Fin n)) : Prop := Looped s.next s.prev none (l.map some)

variable {s : Cache n α} {l m : List (Fin n)} {b : Fin n} {dev blockno k : Nat}

theorem Linked.nodup (h : Linked s l) : l.Nodup := (List.nodup_cons.1 (Looped.nodup h)).2.of_map

theorem Linked.length_le (h : Linked s l) : l.length ≤ n := by simpa using h.nodup.length_le_card

theorem Linked.set (h : Linked s l) (b : Fin n) (x : Buf α) : Linked (s.set b x) l := h

theorem pushFront_run (h : Linked s l) (hb : b ∉ l) : ∃ t, pushFront b s = ⟨.ok (), t, []⟩ ∧ Linked t (b :: l) ∧
    t.buf = s.buf := by
  have hne : (some b : Node n) ∉ none :: l.map some := by simpa using hb
  have hrun : pushFront b s = ⟨.ok (), ⟨s.buf, Function.update (Function.update s.next b (s.next none)) none b,
      Function.update (Function.update s.prev b none) (s.next none) b⟩, []⟩ := by
    simp [pushFront, next, setNext, setPrev, Function.update_of_ne]
  exact ⟨_, hrun, Looped.enter h hne, rfl⟩

theorem pushAll_run : ∀ {l m : List (Fin n)} {s : Cache n α}, Linked s m → l.Nodup → (∀ b ∈ l, b ∉ m) →
    ∃ t, Prog.forEach l pushFront s = ⟨.ok (), t, []⟩ ∧ Linked t (l.reverse ++ m) ∧ t.buf = s.buf
  | [], m, s, h, _, _          => ⟨s, rfl, h, rfl⟩
  | b :: l, m, s, h, hnd, hdis => by
    obtain ⟨t, hrun, ht, hbuf⟩ := pushFront_run h (hdis b List.mem_cons_self)
    rw [List.nodup_cons] at hnd
    obtain ⟨u, hrun', hu, hbuf'⟩ := pushAll_run (l := l) ht hnd.2 fun c hc hm => by
      rcases List.mem_cons.1 hm with rfl | hm
      · exact hnd.1 hc
      · exact hdis c (List.mem_cons_of_mem b hc) hm
    refine ⟨u, ?_, ?_, hbuf'.trans hbuf⟩
    · rw [Prog.forEach_cons, Prog.bind_run_nil hrun, hrun']
    · rwa [List.reverse_cons, List.append_assoc]

/-- **`binit` links all buffers**, whatever the links were. -/
theorem binit_run (s : Cache n α) : ∃ t, binit s = ⟨.ok (), t, []⟩ ∧ Linked t (List.finRange n).reverse ∧
    t.buf = s.buf := by
  have h : Linked ⟨s.buf, Function.update s.next none none, Function.update s.prev none none⟩ ([] : List (Fin n)) :=
    Looped.nil (by simp) (by simp)
  obtain ⟨t, hrun, ht, hbuf⟩ := pushAll_run h (List.nodup_finRange n) fun _ _ => List.not_mem_nil
  refine ⟨t, ?_, by rwa [List.append_nil] at ht, hbuf⟩
  rw [binit, setPrev, Prog.modify_bind_run, setNext, Prog.modify_bind_run, hrun]

theorem cached_run : ∀ {l : List (Fin n)} {k : Nat} {r : Node n}, Threaded none s.next r (l.map some) → l.length < k →
    cached dev blockno k r s = ⟨.ok (l.find? fun b => (s.buf b).caches dev blockno), s, []⟩
  | _, 0, _, _, hk          => by omega
  | [], k + 1, r, h, _      => by
    obtain rfl : r = none := h
    rfl
  | b :: l, k + 1, r, h, hk => by
    obtain ⟨rfl, -, h⟩ := h
    rw [cached, Prog.read_bind_run]
    by_cases hb : (s.buf b).caches dev blockno
    · simp [hb]
    · rw [if_neg hb, List.find?_cons_of_neg (by simpa using hb), next, Prog.read_bind_run]
      exact cached_run h (Nat.lt_of_succ_lt_succ hk)

theorem recyclable_run : ∀ {l : List (Fin n)} {k : Nat} {r : Node n}, Threaded none s.prev r (l.map some) → l.length < k →
    recyclable k r s = ⟨.ok (l.find? fun b => (s.buf b).unused), s, []⟩
  | _, 0, _, _, hk          => by omega
  | [], k + 1, r, h, _      => by
    obtain rfl : r = none := h
    rfl
  | b :: l, k + 1, r, h, hk => by
    obtain ⟨rfl, -, h⟩ := h
    rw [recyclable, Prog.read_bind_run]
    by_cases hb : (s.buf b).unused
    · simp [hb]
    · rw [if_neg hb, List.find?_cons_of_neg (by simpa using hb), prev, Prog.read_bind_run]
      exact recyclable_run h (Nat.lt_of_succ_lt_succ hk)

theorem bget_run (h : Linked s l) (dev blockno : Nat) : bget dev blockno s =
    match l.find? fun b => (s.buf b).caches dev blockno with
    | some b => ⟨.ok b, s.set b { s.buf b with refcnt := (s.buf b).refcnt + 1 }, []⟩
    | none   =>
      match l.reverse.find? fun b => (s.buf b).unused with
      | some b => ⟨.ok b, s.set b
          { s.buf b with dev := dev, blockno := blockno, valid := false, dirty := false, refcnt := 1 }, []⟩
      | none   => ⟨.error .noBuffers, s, []⟩ := by
  have hlen := h.length_le
  have hback : Threaded none s.prev (s.prev none) (l.reverse.map some) := by
    rw [List.map_reverse]
    exact (Looped.reverse h).threaded
  rw [bget, next, Prog.read_bind_run, Prog.bind_run_nil (cached_run (Looped.threaded h) (by omega))]
  cases l.find? fun b => (s.buf b).caches dev blockno with
  | some b => rfl
  | none =>
    simp only
    rw [prev, Prog.read_bind_run, Prog.bind_run_nil (recyclable_run hback (by simp; omega))]
    cases l.reverse.find? fun b => (s.buf b).unused <;> rfl

/-- **A buffer that is given back** moves to the front when nobody else waits for it. -/
theorem unref_run (h : Linked s l) (hb : b ∈ l) : ∃ t, unref b s = ⟨.ok (), t, []⟩ ∧
    t.buf = (s.set b { s.buf b with refcnt := (s.buf b).refcnt - 1 }).buf ∧
    Linked t (if (s.buf b).refcnt - 1 = 0 then b :: l.erase b else l) := by
  have hx : ((s.set b { s.buf b with refcnt := (s.buf b).refcnt - 1 }).buf b).refcnt = (s.buf b).refcnt - 1 := by
    simp [Cache.set]
  rw [unref, Prog.modify_bind_run, Prog.read_bind_run]
  generalize hs : s.set b { s.buf b with refcnt := (s.buf b).refcnt - 1 } = s' at *
  have h' : Linked s' l := hs ▸ h
  rw [hx]
  by_cases h0 : (s.buf b).refcnt - 1 = 0
  · rw [Prog.when_pos h0, if_pos h0]
    obtain ⟨l₁, l₂, rfl⟩ := List.append_of_mem hb
    have hnd := h.nodup
    have hb₁ : b ∉ l₁ := fun hm => (List.nodup_append.1 hnd).2.2 b hm b List.mem_cons_self rfl
    have hb₂ : b ∉ l₂ := (List.nodup_cons.1 (List.nodup_append.1 hnd).2.1).1
    have hloop : Looped s'.next s'.prev none (l₁.map some ++ some b :: l₂.map some) := by
      simpa [Linked] using h'
    have hself : s'.next b ≠ b := hloop.next_ne
    have hout : Linked ⟨s'.buf, Function.update s'.next (s'.prev b) (s'.next b),
        Function.update s'.prev (s'.next b) (s'.prev b)⟩ (l₁ ++ l₂) := by
      unfold Linked
      rw [List.map_append]
      exact hloop.leave
    obtain ⟨t, hpush, ht, hbuf⟩ := pushFront_run (b := b) hout (by simp [hb₁, hb₂])
    refine ⟨t, ?_, hbuf, ?_⟩
    · rw [next, Prog.read_bind_run, prev, Prog.read_bind_run, setPrev, Prog.modify_bind_run,
        Prog.read_bind_run, Prog.read_bind_run, setNext, Prog.modify_bind_run]
      simp only [Function.update_of_ne hself.symm]
      exact hpush
    · rwa [List.erase_append_right _ hb₁, List.erase_cons_head]
  · rw [Prog.when_neg h0, if_neg h0]
    exact ⟨s', rfl, rfl, h'⟩

end Bcache
end Xv6
