import Xv6.Io.Bcache
import Xv6.Io.Ide
import Xv6.Lib.Counted
/-!
# Io.Bufs — processes at the buffer cache (bio.c, sleeplock.c)

Any number of processes call `bread`, `bwrite` and `brelse`, edit the buffers that they have locked and let the log pin
them.  A step is a section under `bcache.lock`, the end of an `acquiresleep`, a `releasesleep` or a request served by the
disk.  `Inv` is what all of them keep.
-/
namespace Xv6
namespace Bcache

inductive Pc (n : Nat) where
  | out
  /-- In `bget`, before `acquiresleep(&b->lock)` returns. -/
  | asked (b : Fin n) (dev blockno : Nat)
  /-- In the `iderw` of `bread`. -/
  | reading (b : Fin n) (dev blockno : Nat)
  /-- In the `iderw` of `bwrite`. -/
  | writing (b : Fin n)
  /-- In `brelse`, after `releasesleep(&b->lock)`. -/
  | left (b : Fin n)
deriving DecidableEq

/-- What the callers see, with the block that it is about. -/
inductive Event (m : Nat) (α : Type) where
  | got (p : Fin m) (dev blockno : Nat) (v : α)
  | store (p : Fin m) (dev blockno : Nat) (v : α)
  | release (p : Fin m) (dev blockno : Nat)

structure Sys (m n : Nat) (α : Type) where
  cache  : Cache n α
  /-- Who has `b->lock`. -/
  holder : Fin n → Option (Fin m)
  pc     : Fin m → Pc n
  /-- Two disks, by sector. -/
  disk   : Nat → Nat → α
  trace  : List (Event m α)
  /-- When a buffer was last put at the head of the list. -/
  since  : Fin n → Nat
  clock  : Nat

inductive Act (m n : Nat) (α : Type) where
  | bread (p : Fin m) (dev blockno : Nat)
  | lock (p : Fin m)
  | served (p : Fin m)
  | edit (p : Fin m) (b : Fin n) (v : α)
  /-- `log_write(b)`. -/
  | pin (p : Fin m) (b : Fin n)
  | bwrite (p : Fin m) (b : Fin n)
  | brelse (p : Fin m) (b : Fin n)
  | drop (p : Fin m)

inductive Failure where
  | cache (e : Panic)
  | incorrectBlockno
deriving DecidableEq

variable {m n : Nat} {α : Type}

def Sys.goto (s : Sys m n α) (p : Fin m) (w : Pc n) : Sys m n α := { s with pc := Function.update s.pc p w }

def Sys.setHolder (s : Sys m n α) (b : Fin n) (q : Option (Fin m)) : Sys m n α :=
  { s with holder := Function.update s.holder b q }

def Sys.setBuf (s : Sys m n α) (b : Fin n) (x : Buf α) : Sys m n α := { s with cache := s.cache.set b x }

def Sys.emit (s : Sys m n α) (e : Event m α) : Sys m n α := { s with trace := s.trace ++ [e] }

def Sys.onDisk (s : Sys m n α) (x : Buf α) : α := s.disk (x.dev % 2) x.blockno

def Sys.setDisk (s : Sys m n α) (dev blockno : Nat) (v : α) : Sys m n α :=
  { s with disk := Function.update s.disk dev (Function.update (s.disk dev) blockno v) }

def Sys.afterIo (s : Sys m n α) (x : Buf α) : Buf α :=
  { x with valid := true, dirty := false, data := if x.dirty = true then x.data else s.onDisk x }

/-- `iderw(b)` is served: a dirty buffer is written, any other one is read. -/
def Sys.transfer (s : Sys m n α) (b : Fin n) : Sys m n α :=
  let x := s.cache.buf b
  (if x.dirty = true then s.setDisk (x.dev % 2) x.blockno x.data else s).setBuf b (s.afterIo x)

def Sys.idle (s : Sys m n α) (p : Fin m) : Prop := match s.pc p with | .out => True | _ => False

instance (s : Sys m n α) (p : Fin m) : Decidable (s.idle p) := by unfold Sys.idle; split <;> infer_instance

def Sys.step (s : Sys m n α) : Act m n α → Except Failure (Sys m n α)
  | .bread p dev blockno =>
    if s.idle p then
      match bget dev blockno s.cache with
      | ⟨.ok b, c, _⟩    => .ok ({ s with cache := c }.goto p (.asked b dev blockno))
      | ⟨.error e, _, _⟩ => .error (.cache e)
    else .ok s
  | .lock p              =>
    match s.pc p with
    | .asked b dev blockno =>
      if s.holder b = none then
        if (s.cache.buf b).valid = true then
          .ok (((s.setHolder b (some p)).goto p .out).emit (.got p dev blockno (s.cache.buf b).data))
        else .ok ((s.setHolder b (some p)).goto p (.reading b dev blockno))
      else .ok s
    | _                    => .ok s
  | .served p            =>
    match s.pc p with
    | .reading b dev blockno =>
      if (s.cache.buf b).blockno ≥ Ide.fsSize then .error .incorrectBlockno
      else .ok (((s.transfer b).goto p .out).emit (.got p dev blockno ((s.transfer b).cache.buf b).data))
    | .writing b             =>
      if (s.cache.buf b).blockno ≥ Ide.fsSize then .error .incorrectBlockno else .ok ((s.transfer b).goto p .out)
    | _                      => .ok s
  | .edit p b v          =>
    let x := s.cache.buf b
    .ok (if s.idle p ∧ s.holder b = some p then (s.setBuf b { x with data := v }).emit (.store p x.dev x.blockno v) else s)
  | .pin p b             =>
    .ok (if s.idle p ∧ s.holder b = some p then s.setBuf b { s.cache.buf b with dirty := true } else s)
  | .bwrite p b          =>
    if s.idle p then
      if s.holder b = some p then .ok ((s.setBuf b { s.cache.buf b with dirty := true }).goto p (.writing b))
      else .error (.cache .bwrite)
    else .ok s
  | .brelse p b          =>
    if s.idle p then
      if s.holder b = some p then
        .ok (((s.setHolder b none).goto p (.left b)).emit (.release p (s.cache.buf b).dev (s.cache.buf b).blockno))
      else .error (.cache .brelse)
    else .ok s
  | .drop p              =>
    match s.pc p with
    | .left b =>
      match unref b s.cache with
      | ⟨.ok _, c, _⟩    =>
        if (c.buf b).refcnt = 0 then
          .ok ({ s with cache := c, since := Function.update s.since b s.clock, clock := s.clock + 1 }.goto p .out)
        else .ok ({ s with cache := c }.goto p .out)
      | ⟨.error e, _, _⟩ => .error (.cache e)
    | _       => .ok s

def Sys.run : Sys m n α → List (Act m n α) → Except Failure (Sys m n α)
  | s, []      => .ok s
  | s, a :: as =>
    match s.step a with
    | .ok s    => s.run as
    | .error e => .error e

/-- After `binit`, whatever was in the links; the buffers are zero. -/
def Sys.init (m : Nat) (zero : α) (next prev : Node n → Node n) (disk : Nat → Nat → α) : Sys m n α :=
  ⟨(binit ⟨fun _ => ⟨false, false, 0, 0, 0, zero⟩, next, prev⟩).st, fun _ => none, fun _ => .out, disk, [],
    fun b => b.val, n⟩

section Fields

variable {s : Sys m n α} {b c : Fin n} {p q : Fin m} {w : Pc n} {x : Buf α}

@[simp] theorem set_buf_self (s : Cache n α) (b : Fin n) (x : Buf α) : (s.set b x).buf b = x := Function.update_self ..
theorem set_buf_other (s : Cache n α) (x : Buf α) (hc : c ≠ b) : (s.set b x).buf c = s.buf c := Function.update_of_ne hc ..

@[simp] theorem goto_pc_self : (s.goto p w).pc p = w := Function.update_self ..
theorem goto_pc_other (hq : q ≠ p) : (s.goto p w).pc q = s.pc q := Function.update_of_ne hq ..
@[simp] theorem goto_cache : (s.goto p w).cache = s.cache := rfl
@[simp] theorem goto_holder : (s.goto p w).holder = s.holder := rfl
@[simp] theorem setBuf_cache : (s.setBuf b x).cache = s.cache.set b x := rfl
@[simp] theorem setBuf_holder : (s.setBuf b x).holder = s.holder := rfl
@[simp] theorem setBuf_pc : (s.setBuf b x).pc = s.pc := rfl
@[simp] theorem setHolder_cache {r : Option (Fin m)} : (s.setHolder b r).cache = s.cache := rfl
@[simp] theorem setHolder_pc {r : Option (Fin m)} : (s.setHolder b r).pc = s.pc := rfl
@[simp] theorem setHolder_self {r : Option (Fin m)} : (s.setHolder b r).holder b = r := Function.update_self ..
theorem setHolder_other {r : Option (Fin m)} (hc : c ≠ b) : (s.setHolder b r).holder c = s.holder c :=
  Function.update_of_ne hc ..

end Fields

/-! ## The invariant -/

def Buf.live (x : Buf α) : Prop := x.valid = true ∨ x.refcnt ≠ 0

def Pc.ref : Pc n → Option (Fin n)
  | .asked b _ _ | .left b => some b
  | _                      => none

def Sys.refs (s : Sys m n α) : Multiset (Fin n) := held (fun p => (s.pc p).ref) + held fun b => (s.holder b).map fun _ => b

def Sys.At (s : Sys m n α) (p : Fin m) : Prop :=
  match s.pc p with
  | .asked b dev blockno   => (s.cache.buf b).caches dev blockno
  | .reading b dev blockno => (s.cache.buf b).caches dev blockno ∧ s.holder b = some p ∧ (s.cache.buf b).valid = false
  | .writing b             => s.holder b = some p ∧ (s.cache.buf b).dirty = true
  | _                      => True

/-- The list is in order of use, and the first buffer for a block is the one that stands for it. -/
structure Ordered (s : Sys m n α) (l : List (Fin n)) : Prop where
  linked : Linked s.cache l
  all    : ∀ b, b ∈ l
  first  : ∀ b, (s.cache.buf b).live →
    (l.find? fun c => (s.cache.buf c).caches (s.cache.buf b).dev (s.cache.buf b).blockno) = some b
  sorted : l.Pairwise fun b c => s.since c < s.since b
  past   : ∀ b, s.since b < s.clock

structure Inv (s : Sys m n α) (l : List (Fin n)) : Prop extends Ordered s l where
  counted : Counted (fun b => (s.cache.buf b).refcnt) s.refs
  place   : ∀ p, s.At p
  filled  : ∀ b p, s.holder b = some p → (s.cache.buf b).valid = true ∨ ∃ dev blockno, s.pc p = .reading b dev blockno
  dirty   : ∀ b, (s.cache.buf b).dirty = true → (s.cache.buf b).valid = true

/-! ## The list, step by step -/

variable {s t : Sys m n α} {l : List (Fin n)} {b c : Fin n} {p q : Fin m} {dev blockno : Nat}

theorem find?_except {P Q : Fin n → Bool} (h : l.find? P = some c) (hQ : ∀ a, a ≠ b → Q a = P a) (hb : Q b = false)
    (hc : c ≠ b) : l.find? Q = some c := by
  obtain ⟨hP, as, bs, rfl, has⟩ := List.find?_eq_some_iff_append.1 h
  refine List.find?_eq_some_iff_append.2 ⟨by rw [hQ c hc, hP], as, bs, rfl, fun a ha => ?_⟩
  by_cases hab : a = b
  · rw [hab, hb]
    rfl
  · rw [hQ a hab]
    exact has a ha

theorem find?_toFront {P : Fin n → Bool} (h : P b = false) (l : List (Fin n)) : (b :: l.erase b).find? P = l.find? P := by
  rw [List.find?_cons_of_neg (by simp [h])]
  by_cases hb : b ∈ l
  · obtain ⟨l₁, l₂, hl₁, rfl, he⟩ := List.exists_erase_eq hb
    rw [he, List.find?_append, List.find?_append, List.find?_cons_of_neg (by simp [h])]
  · rw [List.erase_of_not_mem hb]

/-- **One buffer for a block.** -/
theorem Ordered.unique (h : Ordered s l) (hb : (s.cache.buf b).live) (hc : (s.cache.buf c).live)
    (hkey : (s.cache.buf c).caches (s.cache.buf b).dev (s.cache.buf b).blockno) : c = b := by
  have h1 := h.first b hb
  have h2 := h.first c hc
  rw [hkey.1, hkey.2] at h2
  exact Option.some.inj (h2.symm.trans h1)

theorem Ordered.keep (h : Ordered s l) (hl : Linked t.cache l) (hs : t.since = s.since) (hc : t.clock = s.clock)
    (hkey : ∀ b, (t.cache.buf b).dev = (s.cache.buf b).dev ∧ (t.cache.buf b).blockno = (s.cache.buf b).blockno)
    (hlive : ∀ b, (t.cache.buf b).live → (s.cache.buf b).live ∨
      (l.find? fun c => (s.cache.buf c).caches (s.cache.buf b).dev (s.cache.buf b).blockno) = some b) : Ordered t l where
  linked := hl
  all    := h.all
  first b hb := by
    simp only [Buf.caches, hkey]
    exact (hlive b hb).elim (h.first b) id
  sorted := by simpa only [hs] using h.sorted
  past b := by rw [hs, hc]; exact h.past b

theorem Ordered.recycle (h : Ordered s l) (hl : Linked t.cache l) (hs : t.since = s.since) (hc : t.clock = s.clock)
    (hnone : (l.find? fun c => (s.cache.buf c).caches dev blockno) = none) (hb : (t.cache.buf b).caches dev blockno)
    (hother : ∀ c, c ≠ b → t.cache.buf c = s.cache.buf c) : Ordered t l where
  linked := hl
  all    := h.all
  first c hc := by
    have hmiss : ∀ a, ¬ (s.cache.buf a).caches dev blockno := fun a => by
      simpa using List.find?_eq_none.1 hnone a (h.all a)
    by_cases hcb : c = b
    · subst hcb
      rw [hb.1, hb.2]
      obtain ⟨l₁, l₂, rfl⟩ := List.append_of_mem (h.all c)
      have hnd := hl.nodup
      have hl₁ : l₁.find? (fun c => decide ((t.cache.buf c).caches dev blockno)) = none := by
        rw [List.find?_eq_none]
        intro a ha
        have hac : a ≠ c := fun e => (List.nodup_append.1 hnd).2.2 a ha c List.mem_cons_self e
        rw [hother a hac]
        simpa using hmiss a
      rw [List.find?_append, hl₁, List.find?_cons_of_pos (by simpa using hb)]
      rfl
    · rw [hother c hcb] at hc ⊢
      refine find?_except (b := b) (h.first c hc) (fun a ha => by rw [hother a ha]) ?_ hcb
      simp only [decide_eq_false_iff_not]
      intro he
      exact hmiss c ⟨he.1.symm.trans hb.1, he.2.symm.trans hb.2⟩
  sorted := by simpa only [hs] using h.sorted
  past b := by rw [hs, hc]; exact h.past b

theorem Ordered.front (h : Ordered s l) (hl : Linked t.cache (b :: l.erase b))
    (hs : t.since = Function.update s.since b s.clock) (hc : t.clock = s.clock + 1)
    (hkey : ∀ c, (t.cache.buf c).dev = (s.cache.buf c).dev ∧ (t.cache.buf c).blockno = (s.cache.buf c).blockno)
    (hlive : ∀ c, (t.cache.buf c).live → (s.cache.buf c).live) (hb : (s.cache.buf b).live) :
    Ordered t (b :: l.erase b) where
  linked := hl
  all c := (List.perm_cons_erase (h.all b)).mem_iff.1 (h.all c)
  first c hc := by
    simp only [Buf.caches, hkey]
    by_cases hcb : c = b
    · rw [hcb, List.find?_cons_of_pos (by simp)]
    · rw [find?_toFront]
      · exact h.first c (hlive c hc)
      · simp only [decide_eq_false_iff_not]
        intro he
        exact hcb (h.unique (hlive c hc) hb he).symm
  sorted := by
    have hnd := List.nodup_cons.1 hl.nodup
    refine List.pairwise_cons.2 ⟨fun c hc => ?_, ?_⟩
    · have hcb : c ≠ b := fun e => hnd.1 (e ▸ hc)
      rw [hs, Function.update_self, Function.update_of_ne hcb]
      exact h.past c
    · refine (h.sorted.sublist List.erase_sublist).imp_of_mem fun {c d} hc hd hlt => ?_
      have hcb : c ≠ b := fun e => hnd.1 (e ▸ hc)
      have hdb : d ≠ b := fun e => hnd.1 (e ▸ hd)
      rwa [hs, Function.update_of_ne hcb, Function.update_of_ne hdb]
  past c := by
    rw [hs, hc, Function.update_apply]
    split_ifs
    · exact Nat.lt_succ_self _
    · exact Nat.lt_succ_of_lt (h.past c)

/-! ## The references -/

theorem Inv.ref_pos (h : Inv s l) (hp : (s.pc p).ref = some b) : (s.cache.buf b).refcnt ≠ 0 := by
  have hmem : b ∈ s.refs := Multiset.mem_add.2 (.inl (mem_held.2 ⟨p, hp⟩))
  exact Nat.ne_of_gt (h.counted.pos hmem)

theorem Inv.holder_pos (h : Inv s l) (hb : s.holder b = some p) : (s.cache.buf b).refcnt ≠ 0 := by
  have hmem : b ∈ s.refs := Multiset.mem_add.2 (.inr (mem_held.2 ⟨b, by rw [hb]; rfl⟩))
  exact Nat.ne_of_gt (h.counted.pos hmem)

/-- What a step of `p` leaves to the others. -/
structure Moves (s t : Sys m n α) (p : Fin m) : Prop where
  pc     : ∀ q, q ≠ p → t.pc q = s.pc q
  holder : ∀ b q, q ≠ p → (t.holder b = some q ↔ s.holder b = some q)
  key    : ∀ b, (s.cache.buf b).refcnt ≠ 0 →
    (t.cache.buf b).dev = (s.cache.buf b).dev ∧ (t.cache.buf b).blockno = (s.cache.buf b).blockno
  flags  : ∀ b q, q ≠ p → s.holder b = some q →
    (t.cache.buf b).valid = (s.cache.buf b).valid ∧ (t.cache.buf b).dirty = (s.cache.buf b).dirty

theorem Moves.at (hm : Moves s t p) (h : Inv s l) (hq : q ≠ p) : t.At q := by
  have hat := h.place q
  unfold Sys.At at hat ⊢
  rw [hm.pc q hq]
  cases hpc : s.pc q with
  | out => trivial
  | asked b dev blockno =>
    rw [hpc] at hat
    have hkey := hm.key b (h.ref_pos (p := q) (by rw [hpc]; rfl))
    exact ⟨hkey.1.trans hat.1, hkey.2.trans hat.2⟩
  | reading b dev blockno =>
    rw [hpc] at hat
    have hkey := hm.key b (h.holder_pos hat.2.1)
    exact ⟨⟨hkey.1.trans hat.1.1, hkey.2.trans hat.1.2⟩, (hm.holder b q hq).2 hat.2.1,
      (hm.flags b q hq hat.2.1).1.trans hat.2.2⟩
  | writing b =>
    rw [hpc] at hat
    exact ⟨(hm.holder b q hq).2 hat.1, (hm.flags b q hq hat.1).2.trans hat.2⟩
  | left b => trivial

theorem Inv.move {l' : List (Fin n)} (h : Inv s l) (hm : Moves s t p) (ho : Ordered t l')
    (hc : Counted (fun b => (t.cache.buf b).refcnt) t.refs) (hp : t.At p)
    (hf : ∀ b, t.holder b = some p → (t.cache.buf b).valid = true ∨ ∃ dev blockno, t.pc p = .reading b dev blockno)
    (hd : ∀ b, (t.cache.buf b).dirty = true → (t.cache.buf b).valid = true) : Inv t l' where
  toOrdered := ho
  counted := hc
  place q := by
    by_cases hq : q = p
    · rwa [hq]
    · exact hm.at h hq
  filled b q hb := by
    by_cases hq : q = p
    · subst hq
      exact hf b hb
    · rw [hm.holder b q hq] at hb
      rw [(hm.flags b q hq hb).1, hm.pc q hq]
      exact h.filled b q hb
  dirty := hd

theorem goto_ref (s : Sys m n α) (p : Fin m) (w : Pc n) (q : Fin m) (hq : q ≠ p) :
    ((s.goto p w).pc q).ref = (s.pc q).ref := by
  simp [Sys.goto, Function.update_of_ne hq]

theorem refs_ask (hp : (s.pc p).ref = none) {w : Pc n} (hw : w.ref = some b) : (s.goto p w).refs = b ::ₘ s.refs := by
  have h := held_fill (f := fun q => (s.pc q).ref) (g := fun q => ((s.goto p w).pc q).ref) (a := p) (b := b) hp
    (by simp [Sys.goto, hw]) (goto_ref s p w)
  unfold Sys.refs
  rw [h, Multiset.cons_add]
  rfl

theorem refs_drop (hp : (s.pc p).ref = some b) {w : Pc n} (hw : w.ref = none) : s.refs = b ::ₘ (s.goto p w).refs := by
  have h := held_clear (f := fun q => (s.pc q).ref) (g := fun q => ((s.goto p w).pc q).ref) (a := p) (b := b) hp
    (by simp [Sys.goto, hw]) (goto_ref s p w)
  unfold Sys.refs
  rw [h, Multiset.cons_add]
  rfl

theorem refs_congr (hpc : ∀ q, (t.pc q).ref = (s.pc q).ref) (hh : t.holder = s.holder) : t.refs = s.refs := by
  unfold Sys.refs
  simp only [hpc, hh]

theorem refs_lock (hb : s.holder b = none) : (s.setHolder b (some p)).refs = b ::ₘ s.refs := by
  have h := held_fill (f := fun c => (s.holder c).map fun _ => c)
    (g := fun c => ((s.setHolder b (some p)).holder c).map fun _ => c) (a := b) (b := b) (by simp [hb])
    (by simp [Sys.setHolder]) fun c hc => by simp [Sys.setHolder, Function.update_of_ne hc]
  unfold Sys.refs
  rw [h, Multiset.add_cons]
  rfl

theorem refs_unlock (hb : s.holder b = some p) : s.refs = b ::ₘ (s.setHolder b none).refs := by
  have h := held_clear (f := fun c => (s.holder c).map fun _ => c)
    (g := fun c => ((s.setHolder b none).holder c).map fun _ => c) (a := b) (b := b) (by simp [hb])
    (by simp [Sys.setHolder]) fun c hc => by simp [Sys.setHolder, Function.update_of_ne hc]
  unfold Sys.refs
  rw [h, Multiset.add_cons]
  rfl

/-! ## What the steps do -/

theorem idle_iff : s.idle p ↔ s.pc p = .out := by
  unfold Sys.idle
  cases s.pc p <;> simp

def Buf.again (x : Buf α) : Buf α := { x with refcnt := x.refcnt + 1 }

def Buf.anew (x : Buf α) (dev blockno : Nat) : Buf α :=
  { x with dev := dev, blockno := blockno, valid := false, dirty := false, refcnt := 1 }

theorem step_bread (hl : Linked s.cache l) (hs : s.step (.bread p dev blockno) = .ok t) : t = s ∨ s.pc p = .out ∧ ∃ b,
    ((l.find? fun b => (s.cache.buf b).caches dev blockno) = some b ∧
        t = (s.setBuf b (s.cache.buf b).again).goto p (.asked b dev blockno) ∨
      (l.find? fun b => (s.cache.buf b).caches dev blockno) = none ∧
        (l.reverse.find? fun b => (s.cache.buf b).unused) = some b ∧
        t = (s.setBuf b ((s.cache.buf b).anew dev blockno)).goto p (.asked b dev blockno)) := by
  simp only [Sys.step] at hs
  split at hs
  · rename_i hidle
    refine .inr ⟨idle_iff.1 hidle, ?_⟩
    rw [bget_run hl] at hs
    cases hhit : l.find? fun b => (s.cache.buf b).caches dev blockno with
    | some b =>
      rw [hhit] at hs
      exact ⟨b, .inl ⟨rfl, (Except.ok.inj hs).symm⟩⟩
    | none =>
      rw [hhit] at hs
      cases hmiss : l.reverse.find? fun b => (s.cache.buf b).unused with
      | some b =>
        rw [hmiss] at hs
        exact ⟨b, .inr ⟨rfl, rfl, (Except.ok.inj hs).symm⟩⟩
      | none =>
        rw [hmiss] at hs
        cases hs
  · exact .inl (Except.ok.inj hs).symm

theorem step_lock (hs : s.step (.lock p) = .ok t) : t = s ∨ ∃ b dev blockno, s.pc p = .asked b dev blockno ∧
    s.holder b = none ∧
      ((s.cache.buf b).valid = true ∧
          t = ((s.setHolder b (some p)).goto p .out).emit (.got p dev blockno (s.cache.buf b).data) ∨
        (s.cache.buf b).valid = false ∧ t = (s.setHolder b (some p)).goto p (.reading b dev blockno)) := by
  simp only [Sys.step] at hs
  split at hs
  · rename_i b dev blockno hpc
    split at hs
    · rename_i hfree
      split at hs
      · rename_i hv
        exact .inr ⟨b, dev, blockno, hpc, hfree, .inl ⟨hv, (Except.ok.inj hs).symm⟩⟩
      · rename_i hv
        exact .inr ⟨b, dev, blockno, hpc, hfree, .inr ⟨by simpa using hv, (Except.ok.inj hs).symm⟩⟩
    · exact .inl (Except.ok.inj hs).symm
  · exact .inl (Except.ok.inj hs).symm

theorem step_served (hs : s.step (.served p) = .ok t) : t = s ∨
    (∃ b dev blockno, s.pc p = .reading b dev blockno ∧
      t = ((s.transfer b).goto p .out).emit (.got p dev blockno ((s.transfer b).cache.buf b).data)) ∨
    ∃ b, s.pc p = .writing b ∧ t = (s.transfer b).goto p .out := by
  simp only [Sys.step] at hs
  split at hs
  · rename_i b dev blockno hpc
    split at hs
    · cases hs
    · exact .inr (.inl ⟨b, dev, blockno, hpc, (Except.ok.inj hs).symm⟩)
  · rename_i b hpc
    split at hs
    · cases hs
    · exact .inr (.inr ⟨b, hpc, (Except.ok.inj hs).symm⟩)
  · exact .inl (Except.ok.inj hs).symm

theorem step_edit {v : α} (hs : s.step (.edit p b v) = .ok t) : t = s ∨ s.pc p = .out ∧ s.holder b = some p ∧
    t = (s.setBuf b { s.cache.buf b with data := v }).emit (.store p (s.cache.buf b).dev (s.cache.buf b).blockno v) := by
  simp only [Sys.step] at hs
  split at hs
  · rename_i h
    exact .inr ⟨idle_iff.1 h.1, h.2, (Except.ok.inj hs).symm⟩
  · exact .inl (Except.ok.inj hs).symm

theorem step_pin (hs : s.step (.pin p b) = .ok t) : t = s ∨ s.pc p = .out ∧ s.holder b = some p ∧
    t = s.setBuf b { s.cache.buf b with dirty := true } := by
  simp only [Sys.step] at hs
  split at hs
  · rename_i h
    exact .inr ⟨idle_iff.1 h.1, h.2, (Except.ok.inj hs).symm⟩
  · exact .inl (Except.ok.inj hs).symm

theorem step_bwrite (hs : s.step (.bwrite p b) = .ok t) : t = s ∨ s.pc p = .out ∧ s.holder b = some p ∧
    t = (s.setBuf b { s.cache.buf b with dirty := true }).goto p (.writing b) := by
  simp only [Sys.step] at hs
  split at hs
  · rename_i h
    split at hs
    · rename_i hb
      exact .inr ⟨idle_iff.1 h, hb, (Except.ok.inj hs).symm⟩
    · cases hs
  · exact .inl (Except.ok.inj hs).symm

theorem step_brelse (hs : s.step (.brelse p b) = .ok t) : t = s ∨ s.pc p = .out ∧ s.holder b = some p ∧
    t = ((s.setHolder b none).goto p (.left b)).emit (.release p (s.cache.buf b).dev (s.cache.buf b).blockno) := by
  simp only [Sys.step] at hs
  split at hs
  · rename_i h
    split at hs
    · rename_i hb
      exact .inr ⟨idle_iff.1 h, hb, (Except.ok.inj hs).symm⟩
    · cases hs
  · exact .inl (Except.ok.inj hs).symm

def Buf.less (x : Buf α) : Buf α := { x with refcnt := x.refcnt - 1 }

theorem step_drop (hl : Linked s.cache l) (hall : ∀ b, b ∈ l) (hs : s.step (.drop p) = .ok t) : t = s ∨
    ∃ b c, s.pc p = .left b ∧ c.buf = (s.cache.set b (s.cache.buf b).less).buf ∧
      ((s.cache.buf b).refcnt - 1 = 0 ∧ Linked c (b :: l.erase b) ∧ t =
          { s with cache := c, since := Function.update s.since b s.clock, clock := s.clock + 1 }.goto p .out ∨
        (s.cache.buf b).refcnt - 1 ≠ 0 ∧ Linked c l ∧ t = { s with cache := c }.goto p .out) := by
  simp only [Sys.step] at hs
  split at hs
  · rename_i b hpc
    obtain ⟨c, hrun, hbuf, hlink⟩ := unref_run hl (hall b)
    have hcnt : (c.buf b).refcnt = (s.cache.buf b).refcnt - 1 := by rw [hbuf]; simp [Cache.set]
    rw [hrun] at hs
    simp only [hcnt] at hs
    refine .inr ⟨b, c, hpc, hbuf, ?_⟩
    split at hs
    · rename_i h0
      rw [if_pos h0] at hlink
      exact .inl ⟨h0, hlink, (Except.ok.inj hs).symm⟩
    · rename_i h0
      rw [if_neg h0] at hlink
      exact .inr ⟨h0, hlink, (Except.ok.inj hs).symm⟩
  · exact .inl (Except.ok.inj hs).symm

/-! ## Every step keeps the invariant -/

/-- **The holder of a lock changes flags and data** of the buffer, and goes on to a place without a reference. -/
theorem Inv.touch (h : Inv s l) {x : Buf α} (hb : s.holder b = some p) (hcache : t.cache = s.cache.set b x)
    (hholder : t.holder = s.holder) (hpc : ∀ q, q ≠ p → t.pc q = s.pc q) (hsince : t.since = s.since)
    (hclock : t.clock = s.clock) (hp : (s.pc p).ref = none) (hp' : (t.pc p).ref = none)
    (hread : ∀ c dev blockno, s.pc p = .reading c dev blockno → c = b)
    (hx : x.caches (s.cache.buf b).dev (s.cache.buf b).blockno) (hcnt : x.refcnt = (s.cache.buf b).refcnt)
    (hvalid : x.valid = true) (hat : t.At p) : Inv t l := by
  have hother : ∀ c, c ≠ b → t.cache.buf c = s.cache.buf c := fun c hc => by rw [hcache, set_buf_other _ _ hc]
  have hself : t.cache.buf b = x := by rw [hcache, set_buf_self]
  have hkey : ∀ c, (t.cache.buf c).dev = (s.cache.buf c).dev ∧ (t.cache.buf c).blockno = (s.cache.buf c).blockno :=
      fun c => by
    by_cases hc : c = b
    · rw [hc, hself]
      exact hx
    · rw [hother c hc]
      exact ⟨rfl, rfl⟩
  have hlive : (s.cache.buf b).live := .inr (h.holder_pos hb)
  refine h.move (p := p) ⟨hpc, fun c q _ => by rw [hholder], fun c _ => hkey c, fun c q hq hc => ?_⟩ ?_ ?_ hat
    (fun c hc => ?_) fun c hc => ?_
  · have hcb : c ≠ b := by
      rintro rfl
      exact hq (Option.some.inj (hc.symm.trans hb))
    rw [hother c hcb]
    exact ⟨rfl, rfl⟩
  · refine h.toOrdered.keep (by rw [hcache]; exact h.linked.set b x) hsince hclock hkey fun c hc => .inl ?_
    by_cases hcb : c = b
    · rwa [hcb]
    · rwa [hother c hcb] at hc
  · have hcounts : (fun c => (t.cache.buf c).refcnt) = fun c => (s.cache.buf c).refcnt := by
      funext c
      by_cases hcb : c = b
      · rw [hcb, hself, hcnt]
      · rw [hother c hcb]
    have hrefs : t.refs = s.refs := refs_congr (fun q => by
      by_cases hq : q = p
      · rw [hq, hp, hp']
      · rw [hpc q hq]) hholder
    rw [hcounts, hrefs]
    exact h.counted
  · by_cases hcb : c = b
    · rw [hcb, hself]
      exact .inl hvalid
    · rw [hholder] at hc
      rw [hother c hcb]
      refine (h.filled c p hc).imp_right ?_
      rintro ⟨dev, blockno, hr⟩
      exact absurd (hread c dev blockno hr) hcb
  · by_cases hcb : c = b
    · rw [hcb, hself, hvalid]
    · rw [hother c hcb] at hc ⊢
      exact h.dirty c hc

theorem Inv.emit (h : Inv s l) (e : Event m α) : Inv (s.emit e) l :=
  ⟨⟨h.linked, h.all, h.first, h.sorted, h.past⟩, h.counted, h.place, h.filled, h.dirty⟩

theorem Inv.valid (h : Inv s l) (hp : s.pc p = .out) (hb : s.holder b = some p) : (s.cache.buf b).valid = true := by
  refine (h.filled b p hb).resolve_right ?_
  rintro ⟨dev, blockno, hr⟩
  rw [hp] at hr
  cases hr

theorem Inv.bread (h : Inv s l) (hs : s.step (.bread p dev blockno) = .ok t) : Inv t l := by
  obtain rfl | ⟨hout, b, ⟨hhit, rfl⟩ | ⟨hmiss, hfree, rfl⟩⟩ := step_bread h.linked hs
  · exact h
  · have hb : (s.cache.buf b).caches dev blockno := by simpa using List.find?_some hhit
    have hsame : ∀ c, ((s.cache.set b (s.cache.buf b).again).buf c).valid = (s.cache.buf c).valid ∧
        ((s.cache.set b (s.cache.buf b).again).buf c).dirty = (s.cache.buf c).dirty ∧
        ((s.cache.set b (s.cache.buf b).again).buf c).dev = (s.cache.buf c).dev ∧
        ((s.cache.set b (s.cache.buf b).again).buf c).blockno = (s.cache.buf c).blockno := fun c => by
      by_cases hc : c = b
      · rw [hc, set_buf_self]
        exact ⟨rfl, rfl, rfl, rfl⟩
      · rw [set_buf_other _ _ hc]
        exact ⟨rfl, rfl, rfl, rfl⟩
    refine h.move (p := p) ⟨fun q hq => goto_pc_other hq, fun c q _ => Iff.rfl, fun c _ => (hsame c).2.2, fun c q _ _ =>
      ⟨(hsame c).1, (hsame c).2.1⟩⟩ ?_ ?_ ?_ (fun c hc => .inl ?_) fun c hc => ?_
    · refine h.toOrdered.keep (h.linked.set b _) rfl rfl (fun c => (hsame c).2.2) fun c hc => ?_
      by_cases hcb : c = b
      · rw [hcb, hb.1, hb.2]
        exact .inr hhit
      · refine .inl ?_
        simpa [set_buf_other _ _ hcb] using hc
    · rw [refs_ask (b := b) (by simp [hout, Pc.ref]) rfl]
      refine Counted.add h.counted ?_ fun c hc => ?_
      · simp [Buf.again]
      · simp [set_buf_other _ _ hc]
    · simpa [Sys.At, Buf.caches, Buf.again] using hb
    · simpa [hsame] using h.valid hout hc
    · simp only [goto_cache, setBuf_cache, hsame] at hc ⊢
      exact h.dirty c hc
  · have hb : (s.cache.buf b).unused := by simpa using List.find?_some hfree
    have hne : ∀ c, (s.cache.buf c).refcnt ≠ 0 → c ≠ b := fun c hc e => hc (by rw [e]; exact hb.1)
    have hother : ∀ c, c ≠ b → (s.cache.set b ((s.cache.buf b).anew dev blockno)).buf c = s.cache.buf c := fun c hc =>
      set_buf_other _ _ hc
    refine h.move (p := p) ⟨fun q hq => goto_pc_other hq, fun c q _ => Iff.rfl, fun c hc => ?_, fun c q _ hc => ?_⟩ ?_ ?_ ?_
      (fun c hc => .inl ?_) fun c hc => ?_
    · simp [hother c (hne c hc)]
    · simp [hother c (hne c (h.holder_pos hc))]
    · have hnow : ((s.cache.set b ((s.cache.buf b).anew dev blockno)).buf b).caches dev blockno := by
        simp [Buf.caches, Buf.anew]
      exact h.toOrdered.recycle (h.linked.set b _) rfl rfl hmiss hnow hother
    · rw [refs_ask (b := b) (by simp [hout, Pc.ref]) rfl]
      refine Counted.add h.counted ?_ fun c hc => ?_
      · simp [Buf.anew, hb.1]
      · simp [hother c hc]
    · simp [Sys.At, Buf.caches, Buf.anew]
    · have hc' : s.holder c = some p := hc
      simpa [hother c (hne c (h.holder_pos hc'))] using h.valid hout hc'
    · by_cases hcb : c = b
      · simp [hcb, Buf.anew] at hc
      · simp only [goto_cache, setBuf_cache, hother c hcb] at hc ⊢
        exact h.dirty c hc

theorem Inv.take (h : Inv s l) {w : Pc n} (hpc : s.pc p = .asked b dev blockno) (hfree : s.holder b = none)
    (hw : (s.cache.buf b).valid = true ∧ w = .out ∨ (s.cache.buf b).valid = false ∧ w = .reading b dev blockno) :
    Inv ((s.setHolder b (some p)).goto p w) l := by
  have hat := h.place p
  unfold Sys.At at hat
  rw [hpc] at hat
  have hwref : w.ref = none := by
    rcases hw with ⟨-, rfl⟩ | ⟨-, rfl⟩ <;> rfl
  have hrefs : ((s.setHolder b (some p)).goto p w).refs = s.refs := by
    have h1 := refs_lock (p := p) hfree
    have h2 := refs_drop (s := s.setHolder b (some p)) (p := p) (b := b) (by rw [setHolder_pc, hpc]; rfl) hwref
    exact (Multiset.cons_inj_right b).1 (h2.symm.trans h1)
  have hholder : ∀ c q, q ≠ p → ((s.setHolder b (some p)).holder c = some q ↔ s.holder c = some q) := fun c q hq => by
    by_cases hc : c = b
    · rw [hc, setHolder_self, hfree]
      exact ⟨fun e => absurd (Option.some.inj e).symm hq, nofun⟩
    · rw [setHolder_other hc]
  refine h.move (p := p) ⟨fun q hq => goto_pc_other hq, hholder, fun c _ => ⟨rfl, rfl⟩, fun c q _ _ => ⟨rfl, rfl⟩⟩
    (h.toOrdered.keep h.linked rfl rfl (fun _ => ⟨rfl, rfl⟩) fun _ hc => .inl hc) ?_ ?_ (fun c hc => ?_) h.dirty
  · rw [hrefs]
    exact h.counted
  · unfold Sys.At
    rw [goto_pc_self]
    rcases hw with ⟨-, rfl⟩ | ⟨hv, rfl⟩
    · trivial
    · exact ⟨hat, setHolder_self, hv⟩
  · by_cases hcb : c = b
    · rw [hcb]
      exact hw.imp And.left fun e => ⟨dev, blockno, by rw [goto_pc_self, e.2]⟩
    · rw [goto_holder, setHolder_other hcb] at hc
      refine .inl ((h.filled c p hc).resolve_right ?_)
      rintro ⟨_, _, hr⟩
      rw [hpc] at hr
      cases hr

theorem Inv.lock (h : Inv s l) (hs : s.step (.lock p) = .ok t) : Inv t l := by
  obtain rfl | ⟨b, dev, blockno, hpc, hfree, ⟨hv, rfl⟩ | ⟨hv, rfl⟩⟩ := step_lock hs
  · exact h
  · exact (h.take hpc hfree (.inl ⟨hv, rfl⟩)).emit _
  · exact h.take hpc hfree (.inr ⟨hv, rfl⟩)

theorem transfer_kept (s : Sys m n α) (b : Fin n) :
    (s.transfer b).cache = s.cache.set b (s.afterIo (s.cache.buf b)) ∧ (s.transfer b).holder = s.holder ∧
      (s.transfer b).pc = s.pc ∧ (s.transfer b).since = s.since ∧ (s.transfer b).clock = s.clock := by
  simp only [Sys.transfer]
  split_ifs <;> exact ⟨rfl, rfl, rfl, rfl, rfl⟩

theorem Inv.finish (h : Inv s l) (hb : s.holder b = some p) (hp : (s.pc p).ref = none)
    (hread : ∀ c dev blockno, s.pc p = .reading c dev blockno → c = b) : Inv ((s.transfer b).goto p .out) l := by
  obtain ⟨hcache, hh, hpc, hsince, hclock⟩ := transfer_kept s b
  refine h.touch (x := s.afterIo (s.cache.buf b)) hb hcache hh (fun q hq => ?_) hsince hclock hp ?_ hread
    ⟨rfl, rfl⟩ rfl rfl ?_
  · rw [goto_pc_other hq, hpc]
  · rw [goto_pc_self]
    rfl
  · unfold Sys.At
    rw [goto_pc_self]
    trivial

theorem Inv.served (h : Inv s l) (hs : s.step (.served p) = .ok t) : Inv t l := by
  have hat := h.place p
  unfold Sys.At at hat
  obtain rfl | ⟨b, dev, blockno, hpc, rfl⟩ | ⟨b, hpc, rfl⟩ := step_served hs
  · exact h
  · rw [hpc] at hat
    refine (h.finish hat.2.1 (by rw [hpc]; rfl) fun c dev' blockno' e => ?_).emit _
    rw [hpc] at e
    cases e
    rfl
  · rw [hpc] at hat
    refine h.finish hat.1 (by rw [hpc]; rfl) fun c dev' blockno' e => ?_
    rw [hpc] at e
    cases e

theorem Inv.held (h : Inv s l) {x : Buf α} {w : Pc n} (hout : s.pc p = .out) (hb : s.holder b = some p)
    (hx : x.caches (s.cache.buf b).dev (s.cache.buf b).blockno) (hcnt : x.refcnt = (s.cache.buf b).refcnt)
    (hvalid : x.valid = (s.cache.buf b).valid) (hw : w = .out ∨ w = .writing b ∧ x.dirty = true) :
    Inv ((s.setBuf b x).goto p w) l := by
  refine h.touch (x := x) hb rfl rfl (fun q hq => goto_pc_other hq) rfl rfl (by rw [hout]; rfl) ?_ (fun c _ _ e => ?_) hx
    hcnt (hvalid.trans (h.valid hout hb)) ?_
  · rw [goto_pc_self]
    rcases hw with rfl | ⟨rfl, -⟩ <;> rfl
  · rw [hout] at e
    cases e
  · unfold Sys.At
    rw [goto_pc_self]
    rcases hw with rfl | ⟨rfl, hd⟩
    · trivial
    · exact ⟨hb, by simp [hd]⟩

theorem goto_out (hout : s.pc p = .out) : s.goto p .out = s := by
  unfold Sys.goto
  rw [← hout, Function.update_eq_self]

theorem Inv.edit {v : α} (h : Inv s l) (hs : s.step (.edit p b v) = .ok t) : Inv t l := by
  obtain rfl | ⟨hout, hb, rfl⟩ := step_edit hs
  · exact h
  · have := h.held (x := { s.cache.buf b with data := v }) hout hb ⟨rfl, rfl⟩ rfl rfl (.inl rfl)
    rw [goto_out (s := s.setBuf b _) hout] at this
    exact this.emit _

theorem Inv.pin (h : Inv s l) (hs : s.step (.pin p b) = .ok t) : Inv t l := by
  obtain rfl | ⟨hout, hb, rfl⟩ := step_pin hs
  · exact h
  · have := h.held (x := { s.cache.buf b with dirty := true }) hout hb ⟨rfl, rfl⟩ rfl rfl (.inl rfl)
    rwa [goto_out (s := s.setBuf b _) hout] at this

theorem Inv.bwrite (h : Inv s l) (hs : s.step (.bwrite p b) = .ok t) : Inv t l := by
  obtain rfl | ⟨hout, hb, rfl⟩ := step_bwrite hs
  · exact h
  · exact h.held (x := { s.cache.buf b with dirty := true }) hout hb ⟨rfl, rfl⟩ rfl rfl (.inr ⟨rfl, rfl⟩)

theorem Inv.brelse (h : Inv s l) (hs : s.step (.brelse p b) = .ok t) : Inv t l := by
  obtain rfl | ⟨hout, hb, rfl⟩ := step_brelse hs
  · exact h
  · refine Inv.emit ?_ _
    have hrefs : ((s.setHolder b none).goto p (.left b)).refs = s.refs := by
      rw [refs_ask (s := s.setHolder b none) (b := b) (by rw [setHolder_pc, hout]; rfl) rfl, ← refs_unlock hb]
    have hholder : ∀ c q, q ≠ p → ((s.setHolder b none).holder c = some q ↔ s.holder c = some q) := fun c q hq => by
      by_cases hc : c = b
      · rw [hc, setHolder_self, hb]
        exact ⟨nofun, fun e => absurd (Option.some.inj e).symm hq⟩
      · rw [setHolder_other hc]
    refine h.move (p := p) ⟨fun q hq => goto_pc_other hq, hholder, fun c _ => ⟨rfl, rfl⟩, fun c q _ _ => ⟨rfl, rfl⟩⟩
      (h.toOrdered.keep h.linked rfl rfl (fun _ => ⟨rfl, rfl⟩) fun _ hc => .inl hc) ?_ ?_ (fun c hc => .inl ?_) h.dirty
    · rw [hrefs]
      exact h.counted
    · unfold Sys.At
      rw [goto_pc_self]
      trivial
    · have hcb : c ≠ b := by
        rintro rfl
        rw [goto_holder, setHolder_self] at hc
        cases hc
      rw [goto_holder, setHolder_other hcb] at hc
      exact h.valid hout hc

theorem Inv.drop (h : Inv s l) (hs : s.step (.drop p) = .ok t) : ∃ l', Inv t l' := by
  obtain rfl | ⟨b, c, hpc, hbuf, hcase⟩ := step_drop h.linked h.all hs
  · exact ⟨l, h⟩
  have hpos := h.ref_pos (p := p) (b := b) (by rw [hpc]; rfl)
  have hsame : ∀ a, (c.buf a).valid = (s.cache.buf a).valid ∧ (c.buf a).dirty = (s.cache.buf a).dirty ∧
      (c.buf a).dev = (s.cache.buf a).dev ∧ (c.buf a).blockno = (s.cache.buf a).blockno := fun a => by
    rw [hbuf]
    by_cases ha : a = b
    · rw [ha, set_buf_self]
      exact ⟨rfl, rfl, rfl, rfl⟩
    · rw [set_buf_other _ _ ha]
      exact ⟨rfl, rfl, rfl, rfl⟩
  have hlive : ∀ a, (c.buf a).live → (s.cache.buf a).live := fun a ha => by
    by_cases hab : a = b
    · exact .inr (hab ▸ hpos)
    · rwa [hbuf, set_buf_other _ _ hab] at ha
  -- the rest is the same wherever the buffer goes
  have hrest : ∀ t l', t.cache = c → t.pc = Function.update s.pc p .out → t.holder = s.holder → Ordered t l' →
      Inv t l' := by
    intro t l' htc htp hth ho
    have hpo : ∀ q, q ≠ p → t.pc q = s.pc q := fun q hq => by rw [htp, Function.update_of_ne hq]
    have hps : t.pc p = .out := by rw [htp, Function.update_self]
    have hrefs : s.refs = b ::ₘ t.refs := by
      rw [refs_drop (p := p) (b := b) (w := .out) (by rw [hpc]; rfl) rfl]
      unfold Sys.refs
      rw [hth, htp]
      rfl
    refine h.move (p := p) ⟨hpo, fun a q _ => by rw [hth], fun a _ => by rw [htc]; exact (hsame a).2.2, fun a q _ _ => by
      rw [htc]; exact ⟨(hsame a).1, (hsame a).2.1⟩⟩ ho ?_ ?_ (fun a ha => .inl ?_) fun a ha => ?_
    · have hcnt := h.counted
      rw [hrefs] at hcnt
      refine Counted.drop hcnt ?_ fun a ha => ?_
      · rw [htc, hbuf, set_buf_self]
        exact Nat.succ_pred_eq_of_ne_zero hpos
      · rw [htc, hbuf, set_buf_other _ _ ha]
    · unfold Sys.At
      rw [hps]
      trivial
    · rw [hth] at ha
      rw [htc, (hsame a).1]
      refine (h.filled a p ha).resolve_right ?_
      rintro ⟨_, _, hr⟩
      rw [hpc] at hr
      cases hr
    · rw [htc, (hsame a).2.1] at ha
      rw [htc, (hsame a).1]
      exact h.dirty a ha
  rcases hcase with ⟨-, hlink, rfl⟩ | ⟨-, hlink, rfl⟩
  · exact ⟨_, hrest _ _ rfl rfl rfl (h.toOrdered.front hlink rfl rfl (fun a => (hsame a).2.2) hlive (.inr hpos))⟩
  · exact ⟨l, hrest _ _ rfl rfl rfl (h.toOrdered.keep hlink rfl rfl (fun a => (hsame a).2.2) fun a ha => .inl (hlive a ha))⟩

theorem Inv.step (h : Inv s l) {a : Act m n α} (hs : s.step a = .ok t) : ∃ l', Inv t l' := by
  cases a with
  | bread p dev blockno => exact ⟨l, h.bread hs⟩
  | lock p => exact ⟨l, h.lock hs⟩
  | served p => exact ⟨l, h.served hs⟩
  | edit p b v => exact ⟨l, h.edit hs⟩
  | pin p b => exact ⟨l, h.pin hs⟩
  | bwrite p b => exact ⟨l, h.bwrite hs⟩
  | brelse p b => exact ⟨l, h.brelse hs⟩
  | drop p => exact h.drop hs

theorem run_cons {a : Act m n α} {as : List (Act m n α)} (hs : s.run (a :: as) = .ok t) :
    ∃ u, s.step a = .ok u ∧ u.run as = .ok t := by
  simp only [Sys.run] at hs
  split at hs
  · exact ⟨_, ‹_›, hs⟩
  · cases hs

theorem Inv.run : ∀ {as : List (Act m n α)} {s : Sys m n α} {l : List (Fin n)}, Inv s l → s.run as = .ok t → ∃ l', Inv t l'
  | [], _, l, h, hs      => by
    cases hs
    exact ⟨l, h⟩
  | a :: as, s, l, h, hs => by
    obtain ⟨u, hu, hrun⟩ := run_cons hs
    obtain ⟨l', hl'⟩ := h.step hu
    exact Inv.run hl' hrun

theorem Inv.init (m : Nat) (zero : α) (next prev : Node n → Node n) (disk : Nat → Nat → α) :
    Inv (Sys.init m zero next prev disk) (List.finRange n).reverse := by
  obtain ⟨c, hrun, hlink, hbuf⟩ := binit_run (⟨fun _ => ⟨false, false, 0, 0, 0, zero⟩, next, prev⟩ : Cache n α)
  have hcache : (Sys.init m zero next prev disk).cache = c := congrArg Outcome.st hrun
  have hzero : ∀ b, (Sys.init m zero next prev disk).cache.buf b = ⟨false, false, 0, 0, 0, zero⟩ := fun b => by
    rw [hcache, hbuf]
  refine ⟨⟨by rwa [hcache], fun b => by simp, fun b hb => ?_, ?_, fun b => b.isLt⟩, fun b => ?_, fun p => trivial,
    fun b p hb => ?_, fun b hb => ?_⟩
  · rw [hzero] at hb
    simp [Buf.live] at hb
  · exact List.pairwise_reverse.2 (List.pairwise_lt_finRange n)
  · have hrefs : (Sys.init m zero next prev disk).refs = 0 := by
      refine Multiset.eq_zero_of_forall_notMem fun c hc => ?_
      rcases Multiset.mem_add.1 hc with hc | hc <;> obtain ⟨_, h⟩ := mem_held.1 hc <;> simp [Sys.init, Pc.ref] at h
    simp [hzero, hrefs]
  · simp [Sys.init] at hb
  · simp [hzero] at hb

theorem Inv.error (h : Inv s l) {a : Act m n α} {e : Failure} (hs : s.step a = .error e) : e = .incorrectBlockno ∨
    (∃ p dev blockno, a = .bread p dev blockno ∧ e = .cache .noBuffers ∧ ∀ b, ¬ (s.cache.buf b).unused) ∨
    (∃ p b, a = .bwrite p b ∧ s.holder b ≠ some p) ∨ ∃ p b, a = .brelse p b ∧ s.holder b ≠ some p := by
  cases a with
  | bread p dev blockno =>
    simp only [Sys.step] at hs
    rw [bget_run h.linked] at hs
    split at hs
    · cases hhit : l.find? fun b => (s.cache.buf b).caches dev blockno with
      | some b =>
        rw [hhit] at hs
        cases hs
      | none =>
        rw [hhit] at hs
        cases hmiss : l.reverse.find? fun b => (s.cache.buf b).unused with
        | some b =>
          rw [hmiss] at hs
          cases hs
        | none =>
          rw [hmiss] at hs
          cases hs
          refine .inr (.inl ⟨p, dev, blockno, rfl, rfl, fun b hb => ?_⟩)
          exact List.find?_eq_none.1 hmiss b (by simpa using h.all b) (by simpa using hb)
    · cases hs
  | lock p =>
    simp only [Sys.step] at hs
    split at hs
    · split_ifs at hs
    · cases hs
  | served p =>
    simp only [Sys.step] at hs
    split at hs
    · split_ifs at hs
      cases hs
      exact .inl rfl
    · split_ifs at hs
      cases hs
      exact .inl rfl
    · cases hs
  | edit p b v => cases hs
  | pin p b => cases hs
  | bwrite p b =>
    simp only [Sys.step] at hs
    split_ifs at hs with _ hb
    exact .inr (.inr (.inl ⟨p, b, rfl, hb⟩))
  | brelse p b =>
    simp only [Sys.step] at hs
    split_ifs at hs with _ hb
    exact .inr (.inr (.inr ⟨p, b, rfl, hb⟩))
  | drop p =>
    simp only [Sys.step] at hs
    split at hs
    · rename_i b _
      obtain ⟨c, hrun, -⟩ := unref_run h.linked (h.all b)
      rw [hrun] at hs
      simp only at hs
      split_ifs at hs
    · cases hs

theorem caches_set {x : Buf α} (ht : t.cache.buf = (s.cache.set b x).buf)
    (hx : x.caches (s.cache.buf b).dev (s.cache.buf b).blockno) (c : Fin n) :
    (t.cache.buf c).caches (s.cache.buf c).dev (s.cache.buf c).blockno := by
  rw [ht]
  by_cases hc : c = b
  · rwa [hc, set_buf_self]
  · rw [set_buf_other _ _ hc]
    exact ⟨rfl, rfl⟩

/-- **A buffer in use keeps its block.** -/
theorem Inv.keeps (h : Inv s l) {a : Act m n α} (hs : s.step a = .ok t) (hc : ¬ (s.cache.buf c).unused) :
    (t.cache.buf c).caches (s.cache.buf c).dev (s.cache.buf c).blockno := by
  cases a with
  | bread p dev blockno =>
    obtain rfl | ⟨-, b, ⟨-, rfl⟩ | ⟨-, hfree, rfl⟩⟩ := step_bread h.linked hs
    · exact ⟨rfl, rfl⟩
    · exact caches_set rfl (by exact ⟨rfl, rfl⟩) c
    · have hb : (s.cache.buf b).unused := by simpa using List.find?_some hfree
      have hcb : c ≠ b := fun e => hc (e ▸ hb)
      rw [goto_cache, setBuf_cache, set_buf_other _ _ hcb]
      exact ⟨rfl, rfl⟩
  | lock p => obtain rfl | ⟨b, dev, blockno, -, -, ⟨-, rfl⟩ | ⟨-, rfl⟩⟩ := step_lock hs <;> exact ⟨rfl, rfl⟩
  | served p =>
    obtain rfl | ⟨b, dev, blockno, -, rfl⟩ | ⟨b, -, rfl⟩ := step_served hs
    · exact ⟨rfl, rfl⟩
    · exact caches_set (congrArg Cache.buf (transfer_kept s b).1) (by exact ⟨rfl, rfl⟩) c
    · exact caches_set (congrArg Cache.buf (transfer_kept s b).1) (by exact ⟨rfl, rfl⟩) c
  | edit p b v =>
    obtain rfl | ⟨-, -, rfl⟩ := step_edit hs
    · exact ⟨rfl, rfl⟩
    · exact caches_set rfl (by exact ⟨rfl, rfl⟩) c
  | pin p b =>
    obtain rfl | ⟨-, -, rfl⟩ := step_pin hs
    · exact ⟨rfl, rfl⟩
    · exact caches_set rfl (by exact ⟨rfl, rfl⟩) c
  | bwrite p b =>
    obtain rfl | ⟨-, -, rfl⟩ := step_bwrite hs
    · exact ⟨rfl, rfl⟩
    · exact caches_set rfl (by exact ⟨rfl, rfl⟩) c
  | brelse p b => obtain rfl | ⟨-, -, rfl⟩ := step_brelse hs <;> exact ⟨rfl, rfl⟩
  | drop p =>
    obtain rfl | ⟨b, d, -, hbuf, ⟨-, -, rfl⟩ | ⟨-, -, rfl⟩⟩ := step_drop h.linked h.all hs
    · exact ⟨rfl, rfl⟩
    · exact caches_set hbuf (by exact ⟨rfl, rfl⟩) c
    · exact caches_set hbuf (by exact ⟨rfl, rfl⟩) c

/-! ## What holds in every run -/

theorem Inv.refcnt (h : Inv s l) (b : Fin n) : (s.cache.buf b).refcnt =
    (Finset.univ.filter fun p => (s.pc p).ref = some b).card + if s.holder b = none then 0 else 1 := by
  have hlocks : (Finset.univ.filter fun c => (s.holder c).map (fun _ => c) = some b) =
      if s.holder b = none then ∅ else {b} := by
    ext c
    by_cases hcb : c = b
    · subst hcb
      cases hc : s.holder c <;> simp [hc]
    · split_ifs <;> simp [hcb]
  have hcount : (s.cache.buf b).refcnt = _ := h.counted b
  rw [Sys.refs, Multiset.count_add, Counted.count_held, Counted.count_held, hlocks] at hcount
  rw [hcount]
  split_ifs <;> simp

/-- **The buffer cache in every run**, of any number of processes and any interleaving: the list holds every buffer once, in
both directions; no two buffers stand for one block; the reference counts are exact; a buffer that is referenced or dirty
keeps its block; and nothing fails but for a block number out of range, a caller without the lock, or a cache of which every
buffer is in use. -/
theorem cache_sound {m n : Nat} {α : Type} {zero : α} {next prev : Node n → Node n} {disk : Nat → Nat → α}
    {as : List (Act m n α)} {s : Sys m n α} (hs : (Sys.init m zero next prev disk).run as = .ok s) :
    (∃ l, l.Perm (List.finRange n) ∧ Linked s.cache l) ∧
    (∀ b c, (s.cache.buf b).live → (s.cache.buf c).live →
      (s.cache.buf c).caches (s.cache.buf b).dev (s.cache.buf b).blockno → c = b) ∧
    (∀ b, (s.cache.buf b).refcnt =
      (Finset.univ.filter fun p => (s.pc p).ref = some b).card + if s.holder b = none then 0 else 1) ∧
    (∀ a t b, s.step a = .ok t → ¬ (s.cache.buf b).unused →
      (t.cache.buf b).caches (s.cache.buf b).dev (s.cache.buf b).blockno) ∧
    ∀ a e, s.step a = .error e → e = .incorrectBlockno ∨
      (∃ p dev blockno, a = .bread p dev blockno ∧ e = .cache .noBuffers ∧ ∀ b, ¬ (s.cache.buf b).unused) ∨
      (∃ p b, a = .bwrite p b ∧ s.holder b ≠ some p) ∨ ∃ p b, a = .brelse p b ∧ s.holder b ≠ some p := by
  obtain ⟨l, h⟩ := (Inv.init m zero next prev disk).run hs
  refine ⟨⟨l, ?_, h.linked⟩, fun b c hb hc => h.unique hb hc, h.refcnt, fun a t b ha hb => h.keeps ha hb,
    fun a e he => h.error he⟩
  rw [List.perm_ext_iff_of_nodup h.linked.nodup (List.nodup_finRange n)]
  exact fun b => ⟨fun _ => List.mem_finRange b, fun _ => h.all b⟩

/-- Two processes at two buffers, on the way to one block. -/
theorem cache_sound_two : ∃ s : Sys 2 2 Nat, (Sys.init 2 0 (fun _ => none) (fun _ => none) fun _ k => k).run
      [.bread 0 1 5, .lock 0, .bread 1 1 5, .served 0, .lock 1, .brelse 0 0, .lock 1] = .ok s ∧
    ∃ l, l.Perm (List.finRange 2) ∧ Linked s.cache l := by
  obtain ⟨s, hs⟩ : ∃ s : Sys 2 2 Nat, (Sys.init 2 0 (fun _ => none) (fun _ => none) fun _ k => k).run
      [.bread 0 1 5, .lock 0, .bread 1 1 5, .served 0, .lock 1, .brelse 0 0, .lock 1] = .ok s := ⟨_, rfl⟩
  exact ⟨s, hs, (cache_sound hs).1⟩

/-- **The buffer that is recycled is the one that was given back the longest ago**, of those that are not in use. -/
theorem bread_oldest {m n : Nat} {α : Type} {zero : α} {next prev : Node n → Node n} {disk : Nat → Nat → α}
    {as : List (Act m n α)} {s t : Sys m n α} (hs : (Sys.init m zero next prev disk).run as = .ok s) {p : Fin m} {b : Fin n}
    {dev blockno : Nat} (ht : s.step (.bread p dev blockno) = .ok t) (hp : s.pc p = .out)
    (hb : t.pc p = .asked b dev blockno) (hmiss : ∀ c, ¬ (s.cache.buf c).caches dev blockno) :
    (s.cache.buf b).unused ∧ ∀ c, (s.cache.buf c).unused → s.since b ≤ s.since c := by
  obtain ⟨l, h⟩ := (Inv.init m zero next prev disk).run hs
  obtain rfl | ⟨-, d, ⟨hhit, -⟩ | ⟨-, hfree, rfl⟩⟩ := step_bread h.linked ht
  · rw [hp] at hb
    cases hb
  · exact absurd (by simpa using List.find?_some hhit) (hmiss d)
  · rw [goto_pc_self] at hb
    cases hb
    obtain ⟨hd, as, bs, hl, has⟩ := List.find?_eq_some_iff_append.1 hfree
    refine ⟨by simpa using hd, fun c hc => ?_⟩
    have hsorted : l.reverse.Pairwise fun b c => s.since b < s.since c := List.pairwise_reverse.2 h.sorted
    rw [hl] at hsorted
    have hmem : c ∈ as ++ b :: bs := by
      rw [← hl, List.mem_reverse]
      exact h.all c
    rcases List.mem_append.1 hmem with hm | hm
    · exact absurd hc (by simpa using has c hm)
    · rcases List.mem_cons.1 hm with rfl | hm
      · exact Nat.le_refl _
      · exact Nat.le_of_lt ((List.pairwise_cons.1 (List.pairwise_append.1 hsorted).2.1).1 c hm)

theorem ends_any {ε σ : Type} {x : Except ε σ} {P : σ → Bool} (h : x.toOption.any P = true) :
    ∃ s, x = .ok s ∧ P s = true := by
  cases x with
  | ok s    => exact ⟨s, rfl, h⟩
  | error e => cases h

/-- Two blocks are read and given back, the first of them once more: a third block takes the buffer of the second. -/
theorem bread_oldest_first : ∃ s t : Sys 1 2 Nat, (Sys.init 1 0 (fun _ => none) (fun _ => none) fun _ k => k).run
      [.bread 0 1 5, .lock 0, .served 0, .brelse 0 0, .drop 0, .bread 0 1 6, .lock 0, .served 0, .brelse 0 1, .drop 0,
        .bread 0 1 5, .lock 0, .brelse 0 0, .drop 0] = .ok s ∧
    s.step (.bread 0 1 7) = .ok t ∧ t.pc 0 = .asked 1 1 7 ∧ s.since 1 < s.since 0 ∧
    ∀ c, (s.cache.buf c).unused → s.since 1 ≤ s.since c := by
  obtain ⟨s, hs, hend⟩ : ∃ s : Sys 1 2 Nat, (Sys.init 1 0 (fun _ => none) (fun _ => none) fun _ k => k).run
        [.bread 0 1 5, .lock 0, .served 0, .brelse 0 0, .drop 0, .bread 0 1 6, .lock 0, .served 0, .brelse 0 1, .drop 0,
          .bread 0 1 5, .lock 0, .brelse 0 0, .drop 0] = .ok s ∧
      decide (((s.step (.bread 0 1 7)).toOption.any fun t => t.pc 0 = .asked 1 1 7) = true ∧ s.pc 0 = .out ∧
        (∀ c, ¬ (s.cache.buf c).caches 1 7) ∧ s.since 1 < s.since 0) = true := ends_any (by decide +kernel)
  obtain ⟨hstep, hp, hmiss, hlt⟩ := of_decide_eq_true hend
  obtain ⟨t, ht, hpc⟩ := ends_any hstep
  have hpc : t.pc 0 = .asked 1 1 7 := of_decide_eq_true hpc
  exact ⟨s, t, hs, ht, hpc, hlt, (bread_oldest hs ht hp hpc hmiss).2⟩

end Bcache
end Xv6
