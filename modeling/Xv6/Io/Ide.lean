import Xv6.Lib.Segment
import Xv6.Lib.Traced
/-!
# Io.Ide — the queue of disk requests (ide.c)

A step is what runs with `idelock` held: `iderw` up to where it sleeps, a test of its loop, or `ideintr` when the device
has done the command it was given.  The buffers are the cache's: a process locks one, for a sector that no other locked
buffer is for, and passes it to `iderw`.
-/
namespace Xv6
namespace Ide

abbrev fsSize : Nat := 100000
abbrev sectorPerBlock : Nat := 512 / 512

/-- `struct buf`, its link apart. -/
structure Buf (α : Type) where
  valid   : Bool
  dirty   : Bool
  dev     : Nat
  blockno : Nat
  data    : α

/-- What the device can be told to do, at a sector of disk 0 or 1. -/
inductive Command (α : Type) where
  | read (disk sector : Nat)
  | write (disk sector : Nat) (data : α)

structure State (n : Nat) (α : Type) where
  buf       : Fin n → Buf α
  qnext     : Fin n → Option (Fin n)
  idequeue  : Option (Fin n)
  havedisk1 : Bool
  disk      : Nat → Nat → α
  cmd       : Option (Command α)
  /-- What the device gives at the data port. -/
  port      : α

inductive Panic where
  | idestart
  | incorrectBlockno
  | notLocked
  | nothingToDo
  | noDisk1
  /-- A loop over the queue does not end. -/
  | stuck

inductive Event (n : Nat) where
  | append (b : Fin n)
  | start (b : Fin n)
  | done (b : Fin n)

abbrev C (n : Nat) (α : Type) := Prog Panic (State n α) (Event n)

variable {n : Nat} {α : Type}

/-! ## The driver -/

/-- The sector that the device reads off its four registers. -/
def address (sector : Nat) : Nat :=
  sector % 256 + 256 * (sector / 256 % 256) + 65536 * (sector / 65536 % 256) + 16777216 * (sector / 16777216 % 16)

def Buf.sector (x : Buf α) : Nat := address (x.blockno * sectorPerBlock)

def Buf.command (x : Buf α) : Command α :=
  if x.dirty = true then .write (x.dev % 2) x.sector x.data else .read (x.dev % 2) x.sector

def idestart (p : Option (Fin n)) : C n α Unit :=
  match p with
  | none   => Prog.stop .idestart
  | some b => do
    let x ← Prog.read (fun s => s.buf b)
    if x.blockno ≥ fsSize then Prog.stop .incorrectBlockno
    else if sectorPerBlock > 7 then Prog.stop .idestart
    else
      Prog.modify (fun s => { s with cmd := some x.command })
      Prog.emit (.start b)

def State.set (s : State n α) (b : Fin n) (x : Buf α) : State n α := { s with buf := fun c => if c = b then x else s.buf c }

def ideintr : C n α Unit := do
  let p ← Prog.read (fun s => s.idequeue)
  match p with
  | none   => pure ()
  | some b =>
    Prog.modify (fun s => { s with idequeue := s.qnext b })
    Prog.modify (fun s => s.set b { s.buf b with data := if (s.buf b).dirty = true then (s.buf b).data else s.port })
    Prog.modify (fun s => s.set b { s.buf b with valid := true, dirty := false })
    Prog.emit (.done b)
    let p ← Prog.read (fun s => s.idequeue)
    Prog.when (p ≠ none) (idestart p)

/-- `*pp`, where `none` is the address of `idequeue` and `some b` that of `b->qnext`. -/
def State.deref (s : State n α) : Option (Fin n) → Option (Fin n)
  | none   => s.idequeue
  | some a => s.qnext a

/-- `*pp = b`. -/
def State.store (s : State n α) (pp : Option (Fin n)) (b : Fin n) : State n α :=
  match pp with
  | none   => { s with idequeue := some b }
  | some a => { s with qnext := Function.update s.qnext a (some b) }

/-- The loop of `iderw` over the queue, in at most `k` turns. -/
def findEnd : Nat → Option (Fin n) → C n α (Option (Fin n))
  | 0, _      => Prog.stop .stuck
  | k + 1, pp => do
    let p ← Prog.read (fun s => s.deref pp)
    match p with
    | none   => pure pp
    | some a => findEnd k (some a)

/-- The test of the last loop of `iderw`. -/
def Buf.finished (x : Buf α) : Prop := x.valid = true ∧ x.dirty = false

instance (x : Buf α) : Decidable x.finished := inferInstanceAs (Decidable (_ ∧ _))

/-- `iderw` up to where it sleeps. -/
def iderw (holdingsleep : Bool) (b : Fin n) : C n α Unit := do
  Prog.when (holdingsleep = false) (Prog.stop .notLocked)
  let x ← Prog.read (fun s => s.buf b)
  Prog.when x.finished (Prog.stop .nothingToDo)
  let have1 ← Prog.read (fun s => s.havedisk1)
  Prog.when (x.dev ≠ 0 ∧ have1 = false) (Prog.stop .noDisk1)
  Prog.modify (fun s => { s with qnext := Function.update s.qnext b none })
  let pp ← findEnd (n + 1) none
  Prog.modify (fun s => s.store pp b)
  Prog.emit (.append b)
  let p ← Prog.read (fun s => s.idequeue)
  Prog.when (p = some b) (idestart (some b))

def State.execute (s : State n α) : State n α :=
  match s.cmd with
  | none                => s
  | some (.read d k)    => { s with cmd := none, port := s.disk d k }
  | some (.write d k v) => { s with cmd := none, disk := Function.update s.disk d (Function.update (s.disk d) k v) }

/-! ## Processes -/

/-- A call of `iderw` that sleeps, with what its buffer held at the call. -/
structure Call (n : Nat) (α : Type) where
  b     : Fin n
  dirty : Bool
  data  : α

/-- A return from `iderw`: its buffer then, and what is on its sector. -/
structure Return (n : Nat) (α : Type) where
  call   : Call n α
  buf    : Buf α
  onDisk : α

structure Sys (n : Nat) (α : Type) where
  st      : State n α
  /-- Who has `b->lock`. -/
  holder  : Fin n → Option Nat
  waiting : Nat → Option (Call n α)
  trace   : List (Event n)
  returns : List (Return n α)

inductive Act (n : Nat) (α : Type) where
  /-- The cache gives a buffer to `q`. -/
  | lock (q : Nat) (b : Fin n) (x : Buf α)
  /-- The process writes to its buffer and to the flags. -/
  | edit (q : Nat) (b : Fin n) (valid dirty : Bool) (data : α)
  | unlock (q : Nat) (b : Fin n)
  | iderw (q : Nat) (b : Fin n)
  | resume (q : Nat)
  | interrupt

/-- No buffer that is locked is for the sector of `x`. -/
def Sys.Unused (s : Sys n α) (x : Buf α) : Prop :=
  ∀ c, s.holder c ≠ none → ¬ ((s.st.buf c).dev % 2 = x.dev % 2 ∧ (s.st.buf c).blockno = x.blockno)

instance (s : Sys n α) (x : Buf α) : Decidable (s.Unused x) := inferInstanceAs (Decidable (∀ _, _))

def State.onDisk (s : State n α) (b : Fin n) : α := s.disk ((s.buf b).dev % 2) (s.buf b).sector

def Sys.setHolder (s : Sys n α) (b : Fin n) (q : Option Nat) : Sys n α :=
  { s with holder := fun c => if c = b then q else s.holder c }

def Sys.setWaiting (s : Sys n α) (q : Nat) (c : Option (Call n α)) : Sys n α :=
  { s with waiting := fun p => if p = q then c else s.waiting p }

def Sys.after (s : Sys n α) (o : Outcome Panic (State n α) (Event n) Unit) : Except Panic (Sys n α) :=
  match o.res with
  | .ok _    => .ok { s with st := o.st, trace := s.trace ++ o.tr }
  | .error e => .error e

/-- A process that sleeps in `iderw` does nothing else. -/
def Sys.step (s : Sys n α) (a : Act n α) : Except Panic (Sys n α) :=
  match a with
  | .lock q b x =>
    .ok (if s.waiting q = none ∧ s.holder b = none ∧ s.Unused x then { s.setHolder b (some q) with st := s.st.set b x }
      else s)
  | .edit q b valid dirty data =>
    .ok (if s.waiting q = none ∧ s.holder b = some q then
      { s with st := s.st.set b { s.st.buf b with valid := valid, dirty := dirty, data := data } } else s)
  | .unlock q b => .ok (if s.waiting q = none ∧ s.holder b = some q then s.setHolder b none else s)
  | .iderw q b =>
    if s.waiting q = none then
      ((s.setWaiting q (some ⟨b, (s.st.buf b).dirty, (s.st.buf b).data⟩)).after
        (iderw (s.holder b == some q) b s.st))
    else .ok s
  | .resume q =>
    match s.waiting q with
    | none   => .ok s
    | some c => .ok (if (s.st.buf c.b).finished then
      { s.setWaiting q none with returns := s.returns ++ [⟨c, s.st.buf c.b, s.st.onDisk c.b⟩] } else s)
  | .interrupt => if s.st.cmd.isSome = true then s.after (ideintr s.st.execute) else .ok s

def Sys.run : Sys n α → List (Act n α) → Except Panic (Sys n α)
  | s, []      => .ok s
  | s, a :: as =>
    match s.step a with
    | .ok s    => s.run as
    | .error e => .error e

def Sys.init (buf : Fin n → Buf α) (havedisk1 : Bool) (disk : Nat → Nat → α) (port : α) : Sys n α :=
  ⟨⟨buf, fun _ => none, none, havedisk1, disk, none, port⟩, fun _ => none, fun _ => none, [], []⟩

def Event.appended : Event n → Option (Fin n)
  | .append b => some b
  | _         => none

def Event.started : Event n → Option (Fin n)
  | .start b => some b
  | _        => none

def Event.completed : Event n → Option (Fin n)
  | .done b => some b
  | _       => none

/-! ## The sections of the driver -/

theorem address_eq {k : Nat} (h : k < fsSize) : address (k * sectorPerBlock) = k := by
  unfold address
  unfold fsSize at h
  unfold sectorPerBlock
  omega

theorem Buf.sector_eq {x : Buf α} (h : x.blockno < fsSize) : x.sector = x.blockno := address_eq h

open Prog (wpt wpt_bind wpt_get wpt_read wpt_modify wpt_emit wpt_pure wpt_when)

variable {s t : State n α} {b c : Fin n} {l : List (Fin n)}

def Panic.Deliberate (e : Panic) : Prop :=
  e = .notLocked ∨ e = .nothingToDo ∨ e = .noDisk1 ∨ e = .incorrectBlockno

theorem idestart_wpt (s : State n α) (b : Fin n) : wpt (idestart (some b)) (fun _ t ev => (s.buf b).blockno < fsSize ∧
    t = { s with cmd := some (s.buf b).command } ∧ ev = [.start b]) Panic.Deliberate s := by
  unfold idestart
  rw [wpt_bind, wpt_read]
  refine Prog.wpt_ite (fun _ => .inr (.inr (.inr rfl))) fun hlt => ?_
  rw [if_neg (by decide), wpt_bind, wpt_modify, wpt_emit]
  exact ⟨Nat.lt_of_not_le hlt, rfl, rfl⟩

theorem findEnd_run : ∀ (k : Nat) (l : List (Fin n)) (pp : Option (Fin n)), Seg s.qnext (s.deref pp) l none →
    l.length < k → findEnd k pp s = ⟨.ok (l.getLast?.or pp), s, []⟩
  | k + 1, [], pp, h, _ => by
    have hp : s.deref pp = none := h
    unfold findEnd
    rw [Prog.read_bind_run, hp]
    rfl
  | k + 1, a :: l, pp, h, hk => by
    obtain ⟨hp, hl⟩ := h
    have hlast : (a :: l).getLast?.or pp = l.getLast?.or (some a) := by
      rw [List.getLast?_cons]
      cases l.getLast? with
      | none => rfl
      | some _ => rfl
    unfold findEnd
    rw [Prog.read_bind_run, hp, hlast]
    exact findEnd_run k l (some a) hl (Nat.lt_of_succ_lt_succ hk)

theorem store_seg (h : Seg s.qnext s.idequeue l none) (hnd : l.Nodup) (hb : b ∉ l) (hq : s.qnext b = none) :
    Seg (s.store (l.getLast?.or none) b).qnext (s.store (l.getLast?.or none) b).idequeue (l ++ [b]) none := by
  rcases List.eq_nil_or_concat l with rfl | ⟨m, a, rfl⟩
  · exact ⟨rfl, hq⟩
  · rw [List.concat_eq_append] at h hnd hb ⊢
    rw [List.getLast?_concat]
    exact h.link hnd hb hq

theorem store_buf (s : State n α) (pp : Option (Fin n)) (b : Fin n) : (s.store pp b).buf = s.buf ∧
    (s.store pp b).disk = s.disk ∧ (s.store pp b).cmd = s.cmd := by
  cases pp with
  | none => exact ⟨rfl, rfl, rfl⟩
  | some a => exact ⟨rfl, rfl, rfl⟩

/-- **`iderw` appends its buffer**, and starts the device if there was no other. -/
theorem iderw_wpt {holding : Bool} (h : Seg s.qnext s.idequeue l none) (hnd : l.Nodup) (hb : holding = true → b ∉ l) :
    wpt (iderw holding b) (fun _ t ev => holding = true ∧ ¬ (s.buf b).finished ∧ t.buf = s.buf ∧ t.disk = s.disk ∧
      Seg t.qnext t.idequeue (l ++ [b]) none ∧ (l ≠ [] ∧ t.cmd = s.cmd ∧ ev = [.append b] ∨
        l = [] ∧ (s.buf b).blockno < fsSize ∧ t.cmd = some (s.buf b).command ∧ ev = [.append b, .start b]))
      Panic.Deliberate s := by
  unfold iderw
  rw [wpt_bind]
  refine wpt_when (fun _ => .inl rfl) fun hheld => ?_
  rw [wpt_bind, wpt_read, wpt_bind]
  refine wpt_when (fun _ => .inr (.inl rfl)) fun hfin => ?_
  rw [wpt_bind, wpt_read, wpt_bind]
  refine wpt_when (fun _ => .inr (.inr (.inl rfl))) fun _ => ?_
  have hheld : holding = true := by simpa using hheld
  have hbl := hb hheld
  have hlen : l.length < n + 1 := by
    have := hnd.length_le_card
    rw [Fintype.card_fin] at this
    omega
  have hseg : Seg (Function.update s.qnext b none) s.idequeue l none :=
    h.congr fun a ha => Function.update_of_ne (fun e : a = b => hbl (e ▸ ha)) none s.qnext
  rw [wpt_bind, wpt_modify, wpt_bind]
  refine Prog.wpt_of_run (findEnd_run (n + 1) l none hseg hlen) ?_
  rw [wpt_bind, wpt_modify, wpt_bind, wpt_emit, wpt_bind, wpt_read]
  obtain ⟨hbuf, hdisk, hcmd⟩ := store_buf { s with qnext := Function.update s.qnext b none } (l.getLast?.or none) b
  have hnew := store_seg (s := { s with qnext := Function.update s.qnext b none }) hseg hnd hbl
    (Function.update_self b none s.qnext)
  cases l with
  | nil =>
    refine wpt_when (fun _ => ?_) fun hne => absurd rfl hne
    refine (idestart_wpt _ b).imp ?_
    rintro _ t ev ⟨hlt, rfl, rfl⟩
    exact ⟨hheld, hfin, rfl, rfl, hnew, .inr ⟨rfl, hlt, rfl, rfl⟩⟩
  | cons a l =>
    have hhead := hnew.head
    have hne : some a ≠ some b := fun e => hbl (Option.some.inj e ▸ List.mem_cons_self)
    refine wpt_when (fun he => absurd (hhead.symm.trans he) hne) fun _ => ?_
    exact ⟨hheld, hfin, hbuf, hdisk, hnew, .inl ⟨List.cons_ne_nil a l, hcmd, rfl⟩⟩

/-- What the interrupt makes of the buffer that is served. -/
def Buf.served (x : Buf α) (port : α) : Buf α :=
  { x with valid := true, dirty := false, data := if x.dirty = true then x.data else port }

theorem ideintr_wpt (h : Seg s.qnext s.idequeue (b :: l) none) (hnd : (b :: l).Nodup) :
    wpt ideintr (fun _ t ev => t.disk = s.disk ∧ Seg t.qnext t.idequeue l none ∧
      t.buf = (s.set b ((s.buf b).served s.port)).buf ∧ (l = [] ∧ t.cmd = s.cmd ∧ ev = [.done b] ∨
        ∃ c m, l = c :: m ∧ (s.buf c).blockno < fsSize ∧ t.cmd = some (s.buf c).command ∧ ev = [.done b, .start c]))
      Panic.Deliberate s := by
  obtain ⟨hp, hl⟩ := h
  have hset : (((s.set b { s.buf b with data := if (s.buf b).dirty = true then (s.buf b).data else s.port })).set b
      { (s.set b { s.buf b with data := if (s.buf b).dirty = true then (s.buf b).data else s.port }).buf b with
        valid := true, dirty := false }).buf = (s.set b ((s.buf b).served s.port)).buf := by
    funext c
    by_cases hc : c = b
    · simp [State.set, Buf.served, hc]
    · simp [State.set, hc]
  unfold ideintr
  rw [wpt_bind, wpt_read, hp]
  dsimp only
  rw [wpt_bind, wpt_modify, wpt_bind, wpt_modify, wpt_bind, wpt_modify, wpt_bind, wpt_emit, wpt_bind, wpt_read]
  cases l with
  | nil =>
    refine wpt_when (fun hne => absurd hl hne) fun _ => ⟨rfl, hl, hset, .inl ⟨rfl, rfl, rfl⟩⟩
  | cons c m =>
    have hcb : c ≠ b := fun e => (List.nodup_cons.1 hnd).1 (e ▸ List.mem_cons_self)
    have hhead : s.qnext b = some c := hl.1
    refine wpt_when (fun _ => ?_) fun he => absurd (fun hn => by cases hhead.symm.trans hn) he
    change wpt (idestart (s.qnext b)) _ _ _
    rw [hhead] at hl ⊢
    refine (idestart_wpt _ c).imp ?_
    rintro _ t ev ⟨hlt, rfl, rfl⟩
    have hc : (s.set b ((s.buf b).served s.port)).buf c = s.buf c := if_neg hcb
    rw [← hset] at hc
    have hlt' : (s.buf c).blockno < fsSize := hc ▸ hlt
    refine ⟨rfl, hl, hset, .inr ⟨c, m, rfl, hlt', ?_, rfl⟩⟩
    exact congrArg (fun x : Buf α => some x.command) hc

theorem execute_head (hcmd : s.cmd = some (s.buf b).command) : s.execute.cmd = none ∧ s.execute.buf = s.buf ∧
    s.execute.qnext = s.qnext ∧ s.execute.idequeue = s.idequeue ∧
    s.execute.disk ((s.buf b).dev % 2) (s.buf b).sector = ((s.buf b).served s.execute.port).data ∧
    ∀ d k, ¬ (d = (s.buf b).dev % 2 ∧ k = (s.buf b).sector) → s.execute.disk d k = s.disk d k := by
  unfold State.execute Buf.served
  rw [hcmd]
  unfold Buf.command
  by_cases hd : (s.buf b).dirty = true
  · rw [if_pos hd]
    refine ⟨rfl, rfl, rfl, rfl, ?_, fun d k hne => ?_⟩
    · dsimp only
      rw [Function.update_self, Function.update_self, if_pos hd]
    · dsimp only
      by_cases hdd : d = (s.buf b).dev % 2
      · subst hdd
        rw [Function.update_self, Function.update_of_ne fun e => hne ⟨rfl, e⟩]
      · rw [Function.update_of_ne hdd]
  · rw [if_neg hd]
    refine ⟨rfl, rfl, rfl, rfl, ?_, fun _ _ _ => rfl⟩
    dsimp only
    rw [if_neg hd]

/-! ## Runs -/

/-- A call that sleeps is queued with what it was given, or is served. -/
def State.Waits (s : State n α) (l : List (Fin n)) (c : Call n α) : Prop :=
  c.b ∈ l ∧ ¬ (s.buf c.b).finished ∧ (s.buf c.b).dirty = c.dirty ∧ (s.buf c.b).data = c.data ∨
  c.b ∉ l ∧ (s.buf c.b).finished ∧ (s.buf c.b).blockno < fsSize ∧ s.onDisk c.b = (s.buf c.b).data ∧
    (c.dirty = true → (s.buf c.b).data = c.data)

/-- A write is on the disk when `iderw` returns, and a read has what is on the disk. -/
def Return.Served (x : Return n α) : Prop :=
  x.buf.finished ∧ x.onDisk = x.buf.data ∧ (x.call.dirty = true → x.buf.data = x.call.data)

def Sys.appended (s : Sys n α) : List (Fin n) := s.trace.filterMap Event.appended
def Sys.started (s : Sys n α) : List (Fin n) := s.trace.filterMap Event.started
def Sys.completed (s : Sys n α) : List (Fin n) := s.trace.filterMap Event.completed

/-- `idequeue` leads through the requests `l`, and the device does the first. -/
structure Inv (s : Sys n α) (l : List (Fin n)) : Prop where
  seg       : Seg s.st.qnext s.st.idequeue l none
  nodup     : l.Nodup
  cmd       : s.st.cmd = l.head?.map fun b => (s.st.buf b).command
  first     : ∀ b, l.head? = some b → (s.st.buf b).blockno < fsSize
  appended  : s.appended = s.completed ++ l
  started   : s.started = s.completed ++ l.head?.toList
  queued    : ∀ b ∈ l, ∃ q c, s.waiting q = some c ∧ c.b = b
  locked    : ∀ q c, s.waiting q = some c → s.holder c.b = some q
  waiting   : ∀ q c, s.waiting q = some c → s.st.Waits l c
  /-- The cache has one buffer for a sector. -/
  sectors   : ∀ b c, s.holder b ≠ none → s.holder c ≠ none → (s.st.buf b).dev % 2 = (s.st.buf c).dev % 2 →
    (s.st.buf b).blockno = (s.st.buf c).blockno → b = c
  returns   : ∀ x ∈ s.returns, x.Served

variable {s : Sys n α} {q : Nat}

theorem Inv.other (h : Inv s l) (hb : ∀ q c, s.waiting q = some c → c.b ≠ b) {x : Buf α} {p : Option Nat}
    (hx : p ≠ none → ∀ c, c ≠ b → s.holder c ≠ none →
      ¬ ((s.st.buf c).dev % 2 = x.dev % 2 ∧ (s.st.buf c).blockno = x.blockno)) :
    Inv { s.setHolder b p with st := s.st.set b x } l := by
  have hbuf : ∀ c, c ≠ b → (s.st.set b x).buf c = s.st.buf c := fun c hc => if_neg hc
  have hne : ∀ c ∈ l, c ≠ b := by
    intro c hc
    obtain ⟨q, a, ha, rfl⟩ := h.queued c hc
    exact hb q a ha
  have hhead : ∀ c, l.head? = some c → (s.st.set b x).buf c = s.st.buf c := fun c hc =>
    hbuf c (hne c (List.mem_of_head? hc))
  refine ⟨h.seg, h.nodup, ?_, fun c hc => ?_, h.appended, h.started, h.queued, fun q c hc => ?_, fun q c hc => ?_,
    fun c d hc hd hdev hbl => ?_, h.returns⟩
  · refine h.cmd.trans ?_
    cases hl : l.head? with
    | none => rfl
    | some c => exact congrArg (fun y : Buf α => some y.command) (hhead c hl).symm
  · exact (congrArg Buf.blockno (hhead c hc)).trans_lt (h.first c hc)
  · exact (if_neg (hb q c hc)).trans (h.locked q c hc)
  · have hc' := hbuf c.b (hb q c hc)
    have hw := h.waiting q c hc
    unfold State.Waits State.onDisk at hw ⊢
    dsimp only
    rw [hc']
    exact hw
  · change (if c = b then p else s.holder c) ≠ none at hc
    change (if d = b then p else s.holder d) ≠ none at hd
    change ((s.st.set b x).buf c).dev % 2 = ((s.st.set b x).buf d).dev % 2 at hdev
    change ((s.st.set b x).buf c).blockno = ((s.st.set b x).buf d).blockno at hbl
    by_cases hcb : c = b
    · by_cases hdb : d = b
      · rw [hcb, hdb]
      · rw [if_pos hcb] at hc
        rw [if_neg hdb] at hd
        rw [hbuf d hdb, hcb] at hdev hbl
        have hself : (s.st.set b x).buf b = x := if_pos rfl
        rw [hself] at hdev hbl
        exact absurd ⟨hdev.symm, hbl.symm⟩ (hx hc d hdb hd)
    · rw [if_neg hcb] at hc
      rw [hbuf c hcb] at hdev hbl
      by_cases hdb : d = b
      · rw [if_pos hdb] at hd
        have hself : (s.st.set b x).buf d = x := if_pos hdb
        rw [hself] at hdev hbl
        exact absurd ⟨hdev, hbl⟩ (hx hd c hcb hc)
      · rw [if_neg hdb] at hd
        rw [hbuf d hdb] at hdev hbl
        exact h.sectors c d hc hd hdev hbl

theorem Inv.idle (h : Inv s l) (hq : s.waiting q = none) (hb : s.holder b = some q) (p : Nat) (c : Call n α)
    (hc : s.waiting p = some c) : c.b ≠ b := by
  rintro rfl
  have hpq : some p = some q := (h.locked p c hc).symm.trans hb
  cases hpq
  cases hq.symm.trans hc

/-- A step is fine if it keeps the queue, or is a panic for what a caller passed. -/
def Fine (r : Except Panic (Sys n α)) : Prop :=
  match r with
  | .ok t    => ∃ l, Inv t l
  | .error e => e.Deliberate

theorem fine_after {d : C n α Unit} {Q : Unit → State n α → List (Event n) → Prop} {st : State n α}
    (h : wpt d Q Panic.Deliberate st)
    (hQ : ∀ t ev, Q () t ev → ∃ m, Inv { s with st := t, trace := s.trace ++ ev } m) : Fine (s.after (d st)) := by
  unfold wpt at h
  unfold Sys.after
  split at h
  · next he =>
    rw [he]
    exact hQ _ _ h
  · next he =>
    rw [he]
    exact h

theorem Inv.iderw (h : Inv s l) (hq : s.waiting q = none) (b : Fin n) : Fine (s.step (.iderw q b)) := by
  unfold Sys.step
  dsimp only
  rw [if_pos hq]
  have hbl : (s.holder b == some q) = true → b ∉ l := by
    intro hb hmem
    obtain ⟨p, c, hc, rfl⟩ := h.queued b hmem
    exact h.idle hq (beq_iff_eq.1 hb) p c hc rfl
  refine fine_after (iderw_wpt h.seg h.nodup hbl) ?_
  rintro t ev ⟨hheld, hfin, hbuf, hdisk, hseg, hcase⟩
  have hb := hbl hheld
  have hlock : s.holder b = some q := beq_iff_eq.1 hheld
  have htrace : ev.filterMap Event.appended = [b] ∧ ev.filterMap Event.completed = [] := by
    rcases hcase with ⟨-, -, rfl⟩ | ⟨-, -, -, rfl⟩
    · exact ⟨rfl, rfl⟩
    · exact ⟨rfl, rfl⟩
  refine ⟨l ++ [b], hseg, ?_, ?_, fun a ha => ?_, ?_, ?_, fun a ha => ?_, fun p c hp => ?_, fun p c hp => ?_, ?_, h.returns⟩
  · refine List.nodup_append.2 ⟨h.nodup, List.nodup_singleton b, fun a ha c hc => ?_⟩
    rintro rfl
    exact hb (List.mem_singleton.1 hc ▸ ha)
  · change t.cmd = (l ++ [b]).head?.map fun b => (t.buf b).command
    rw [hbuf]
    rcases hcase with ⟨hl, hcmd, -⟩ | ⟨rfl, -, hcmd, -⟩
    · rw [hcmd, h.cmd, List.head?_append_of_ne_nil l hl]
    · exact hcmd
  · change (t.buf a).blockno < fsSize
    rw [hbuf]
    rcases hcase with ⟨hl, -, -⟩ | ⟨rfl, hlt, -, -⟩
    · rw [List.head?_append_of_ne_nil l hl] at ha
      exact h.first a ha
    · cases ha
      exact hlt
  · change (s.trace ++ ev).filterMap _ = (s.trace ++ ev).filterMap _ ++ (l ++ [b])
    rw [List.filterMap_append, List.filterMap_append, htrace.1, htrace.2, List.append_nil, ← List.append_assoc]
    exact congrArg (· ++ [b]) h.appended
  · change (s.trace ++ ev).filterMap _ = (s.trace ++ ev).filterMap _ ++ _
    rw [List.filterMap_append, List.filterMap_append, htrace.2, List.append_nil]
    have hst := h.started
    unfold Sys.started Sys.completed at hst
    rw [hst]
    rcases hcase with ⟨hl, -, rfl⟩ | ⟨rfl, -, -, rfl⟩
    · rw [List.head?_append_of_ne_nil l hl]
      exact List.append_nil _
    · exact List.append_assoc _ _ _
  · rcases List.mem_append.1 ha with ha | ha
    · obtain ⟨p, c, hp, hc⟩ := h.queued a ha
      have hpq : p ≠ q := by
        rintro rfl
        cases hq.symm.trans hp
      exact ⟨p, c, (if_neg hpq).trans hp, hc⟩
    · exact ⟨q, _, if_pos rfl, (List.mem_singleton.1 ha).symm⟩
  · change (if p = q then _ else s.waiting p) = some c at hp
    split_ifs at hp with hpq
    · cases hp
      exact hpq ▸ hlock
    · exact h.locked p c hp
  · change (if p = q then _ else s.waiting p) = some c at hp
    have hmem : b ∈ l ++ [b] := List.mem_append_right l List.mem_cons_self
    unfold State.Waits State.onDisk
    dsimp only
    rw [hbuf, hdisk]
    split_ifs at hp with hpq
    · cases hp
      exact .inl ⟨hmem, hfin, rfl, rfl⟩
    · have hcb : c.b ≠ b := by
        intro e
        have hpq' : some p = some q := (h.locked p c hp).symm.trans (e ▸ hlock)
        exact hpq (Option.some.inj hpq')
      refine (h.waiting p c hp).imp (fun ⟨hc, hw⟩ => ⟨List.mem_append_left _ hc, hw⟩) fun ⟨hc, hw⟩ => ⟨fun hc' => ?_, hw⟩
      exact (List.mem_append.1 hc').elim hc fun e => hcb (List.mem_singleton.1 e)
  · change ∀ b c, s.holder b ≠ none → s.holder c ≠ none → (t.buf b).dev % 2 = (t.buf c).dev % 2 →
      (t.buf b).blockno = (t.buf c).blockno → b = c
    rw [hbuf]
    exact h.sectors

theorem Inv.interrupt (h : Inv s l) (hbusy : s.st.cmd.isSome = true) : Fine (s.after (ideintr s.st.execute)) := by
  cases l with
  | nil =>
    rw [h.cmd] at hbusy
    cases hbusy
  | cons b l =>
    obtain ⟨hcmd, hbuf, hnext, hqueue, hserved, hothers⟩ := execute_head (b := b) h.cmd
    have hseg := h.seg
    rw [← hnext, ← hqueue] at hseg
    have hfirst := h.first b rfl
    refine fine_after (ideintr_wpt hseg h.nodup) ?_
    rintro t ev ⟨hdisk, hseg, htbuf, hcase⟩
    have hsame : ∀ c, c ≠ b → t.buf c = s.st.buf c := by
      intro c hc
      rw [htbuf, ← hbuf]
      exact if_neg hc
    have hself : t.buf b = (s.st.buf b).served s.st.execute.port := by
      rw [htbuf, ← hbuf]
      exact if_pos rfl
    have hplace : ∀ c, (t.buf c).dev = (s.st.buf c).dev ∧ (t.buf c).blockno = (s.st.buf c).blockno := by
      intro c
      by_cases hc : c = b
      · subst hc
        rw [hself]
        exact ⟨rfl, rfl⟩
      · rw [hsame c hc]
        exact ⟨rfl, rfl⟩
    obtain ⟨hbl, hnd⟩ := List.nodup_cons.1 h.nodup
    have hdone : ev.filterMap Event.appended = [] ∧ ev.filterMap Event.completed = [b] ∧
        ev.filterMap Event.started = l.head?.toList := by
      rcases hcase with ⟨rfl, -, rfl⟩ | ⟨c, m, rfl, -, -, rfl⟩
      · exact ⟨rfl, rfl, rfl⟩
      · exact ⟨rfl, rfl, rfl⟩
    refine ⟨l, hseg, hnd, ?_, fun a ha => ?_, ?_, ?_, fun a ha => h.queued a (List.mem_cons_of_mem b ha), h.locked,
      fun p c hp => ?_, fun c d hc hd hdev hblk => ?_, h.returns⟩
    · change t.cmd = l.head?.map fun b => (t.buf b).command
      rcases hcase with ⟨rfl, ht, -⟩ | ⟨c, m, rfl, -, ht, -⟩
      · exact ht.trans hcmd
      · have hcb : c ≠ b := fun e => hbl (e ▸ List.mem_cons_self)
        rw [ht, hbuf]
        exact congrArg (fun x : Buf α => some x.command) (hsame c hcb).symm
    · change (t.buf a).blockno < fsSize
      rcases hcase with ⟨rfl, -, -⟩ | ⟨c, m, rfl, hlt, -, -⟩
      · cases ha
      · cases ha
        rw [(hplace a).2, ← hbuf]
        exact hlt
    · change (s.trace ++ ev).filterMap _ = (s.trace ++ ev).filterMap _ ++ l
      rw [List.filterMap_append, List.filterMap_append, hdone.1, hdone.2.1, List.append_nil, List.append_assoc]
      exact h.appended
    · change (s.trace ++ ev).filterMap _ = (s.trace ++ ev).filterMap _ ++ _
      rw [List.filterMap_append, List.filterMap_append, hdone.2.2, hdone.2.1]
      exact congrArg (· ++ _) h.started
    · have hw := h.waiting p c hp
      unfold State.Waits State.onDisk at hw ⊢
      dsimp only
      rw [hdisk]
      by_cases hcb : c.b = b
      · rw [hcb] at hw ⊢
        obtain ⟨-, hfin, hdirty, hdata⟩ := hw.resolve_right fun hn => hn.1 List.mem_cons_self
        refine .inr ⟨hbl, ?_, (hplace b).2.trans_lt hfirst, ?_, fun hc => ?_⟩
        · rw [hself]
          exact ⟨rfl, rfl⟩
        · rw [hself]
          exact hserved
        · rw [hself]
          exact (if_pos (hdirty.trans hc)).trans hdata
      · rw [hsame c.b hcb]
        refine hw.imp (fun ⟨hc, hw⟩ => ⟨(List.mem_cons.1 hc).resolve_left hcb, hw⟩) fun ⟨hc, hfin, hlt, hon, hw⟩ =>
          ⟨fun hc' => hc (List.mem_cons_of_mem b hc'), hfin, hlt, ?_, hw⟩
        refine (hothers _ _ fun ⟨hd, hk⟩ => hcb ?_).trans hon
        rw [Buf.sector_eq hlt, Buf.sector_eq hfirst] at hk
        obtain ⟨r, e, hr, rfl⟩ := h.queued b List.mem_cons_self
        refine h.sectors _ _ ?_ ?_ hd hk
        · rw [h.locked p c hp]
          exact Option.some_ne_none p
        · rw [h.locked r e hr]
          exact Option.some_ne_none r
    · change (t.buf c).dev % 2 = (t.buf d).dev % 2 at hdev
      change (t.buf c).blockno = (t.buf d).blockno at hblk
      rw [(hplace c).1, (hplace d).1] at hdev
      rw [(hplace c).2, (hplace d).2] at hblk
      exact h.sectors c d hc hd hdev hblk

theorem Inv.ret (h : Inv s l) {c : Call n α} (hq : s.waiting q = some c) (hfin : (s.st.buf c.b).finished) :
    Inv { s.setWaiting q none with returns := s.returns ++ [⟨c, s.st.buf c.b, s.st.onDisk c.b⟩] } l := by
  have hw := (h.waiting q c hq).resolve_left fun hn => hn.2.1 hfin
  obtain ⟨hcl, -, -, hon, hdata⟩ := hw
  have hkeep : ∀ p a, (s.setWaiting q none).waiting p = some a → s.waiting p = some a := by
    intro p a hp
    change (if p = q then none else s.waiting p) = some a at hp
    split_ifs at hp
    exact hp
  refine ⟨h.seg, h.nodup, h.cmd, h.first, h.appended, h.started, fun b hb => ?_, fun p a hp => h.locked p a (hkeep p a hp),
    fun p a hp => h.waiting p a (hkeep p a hp), h.sectors, fun x hx => ?_⟩
  · obtain ⟨p, a, hp, rfl⟩ := h.queued b hb
    have hpq : p ≠ q := by
      rintro rfl
      cases hq.symm.trans hp
      exact hcl hb
    exact ⟨p, a, (if_neg hpq).trans hp, rfl⟩
  · rcases List.mem_append.1 hx with hx | hx
    · exact h.returns x hx
    · rw [List.mem_singleton.1 hx]
      exact ⟨hfin, hon, hdata⟩

theorem setHolder_self (hb : s.holder b = some q) : s.setHolder b (some q) = s := by
  refine congrArg (fun f => { s with holder := f }) (funext fun c => ?_)
  split_ifs with hcb
  · rw [hcb, hb]
  · rfl

theorem set_self (s : State n α) (b : Fin n) : s.set b (s.buf b) = s := by
  refine congrArg (fun f => { s with buf := f }) (funext fun c => ?_)
  split_ifs with hcb
  · rw [hcb]
  · rfl

theorem Inv.step (h : Inv s l) (a : Act n α) : Fine (s.step a) := by
  cases a with
  | lock q b x =>
    unfold Sys.step
    dsimp only
    split
    · next hc =>
      obtain ⟨-, hb, hx⟩ := hc
      refine ⟨l, h.other (fun p c hp e => ?_) fun _ c _ hc => hx c hc⟩
      cases hb.symm.trans (e ▸ h.locked p c hp)
    · exact ⟨l, h⟩
  | edit q b valid dirty data =>
    unfold Sys.step
    dsimp only
    split
    · next hc =>
      obtain ⟨hq, hb⟩ := hc
      have ho := h.other (x := { s.st.buf b with valid := valid, dirty := dirty, data := data }) (p := some q)
        (h.idle hq hb) fun _ c hcb hc ⟨hd, hk⟩ => hcb (h.sectors c b hc (hb ▸ Option.some_ne_none q) hd hk)
      rw [setHolder_self hb] at ho
      exact ⟨l, ho⟩
    · exact ⟨l, h⟩
  | unlock q b =>
    unfold Sys.step
    dsimp only
    split
    · next hc =>
      obtain ⟨hq, hb⟩ := hc
      have ho := h.other (x := s.st.buf b) (p := none) (h.idle hq hb) fun hn => absurd rfl hn
      rw [set_self] at ho
      exact ⟨l, ho⟩
    · exact ⟨l, h⟩
  | iderw q b =>
    by_cases hq : s.waiting q = none
    · exact h.iderw hq b
    · unfold Sys.step
      dsimp only
      rw [if_neg hq]
      exact ⟨l, h⟩
  | resume q =>
    unfold Sys.step
    dsimp only
    split
    · exact ⟨l, h⟩
    · next c hq =>
      split
      · next hfin => exact ⟨l, h.ret hq hfin⟩
      · exact ⟨l, h⟩
  | interrupt =>
    unfold Sys.step
    dsimp only
    split
    · next hbusy => exact h.interrupt hbusy
    · exact ⟨l, h⟩

theorem Inv.run : ∀ (as : List (Act n α)) (s : Sys n α) (l : List (Fin n)), Inv s l → Fine (s.run as)
  | [], _, l, h => ⟨l, h⟩
  | a :: as, s, l, h => by
    have hs := h.step a
    unfold Sys.run
    cases ht : s.step a with
    | ok t =>
      rw [ht] at hs
      obtain ⟨m, hm⟩ := hs
      exact Inv.run as t m hm
    | error e =>
      rw [ht] at hs
      exact hs

theorem Inv.init (buf : Fin n → Buf α) (havedisk1 : Bool) (disk : Nat → Nat → α) (port : α) :
    Inv (Sys.init buf havedisk1 disk port) [] where
  seg      := rfl
  nodup    := List.nodup_nil
  cmd      := rfl
  first    := fun _ h => by cases h
  appended := rfl
  started  := rfl
  queued   := fun _ h => absurd h List.not_mem_nil
  locked   := fun _ _ h => by cases h
  waiting  := fun _ _ h => by cases h
  sectors  := fun _ _ h => absurd rfl h
  returns  := fun _ h => absurd h List.not_mem_nil

/-- **In every run the queue is a list**, whose head is what the device does; requests are started and completed in the
order in which they were appended, each once; a call of `iderw` returns when its request is served; and the only panics
are for what a caller passed. -/
theorem requests_served (buf : Fin n → Buf α) (havedisk1 : Bool) (disk : Nat → Nat → α) (port : α) (as : List (Act n α)) :
    (∀ s, (Sys.init buf havedisk1 disk port).run as = .ok s → ∃ l, Seg s.st.qnext s.st.idequeue l none ∧ l.Nodup ∧
      s.appended = s.completed ++ l ∧ s.started = s.completed ++ l.head?.toList ∧
      s.st.cmd = (l.head?.map fun b => (s.st.buf b).command) ∧ (∀ b ∈ l, ∃ q c, s.waiting q = some c ∧ c.b = b) ∧
      ∀ x ∈ s.returns, x.Served) ∧
    ∀ e, (Sys.init buf havedisk1 disk port).run as = .error e → e.Deliberate := by
  have h := Inv.run as _ [] (Inv.init buf havedisk1 disk port)
  refine ⟨fun s hs => ?_, fun e he => ?_⟩
  · rw [hs] at h
    obtain ⟨l, hl⟩ := h
    exact ⟨l, hl.seg, hl.nodup, hl.appended, hl.started, hl.cmd, hl.queued, hl.returns⟩
  · rw [he] at h
    exact h

/-- A write of block 5 and a read of block 9, by two processes at once. -/
example : ((Sys.init (n := 2) (fun _ => ⟨false, false, 1, 0, 0⟩) true (fun _ k => k) 7).run
    [.lock 0 0 ⟨true, true, 1, 5, 42⟩,
    .lock 1 1 ⟨false, false, 1, 9, 0⟩, .iderw 0 0, .iderw 1 1, .interrupt, .interrupt, .resume 1, .resume 0]).toOption.map
      (fun s => (s.started, s.returns.map fun x => (x.call.b, x.buf.data, x.onDisk))) =
    some ([0, 1], [(1, 9, 9), (0, 42, 42)]) := by decide

end Ide
end Xv6
