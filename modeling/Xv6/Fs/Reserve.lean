import Xv6.Fs.Log
/-!
# Fs.Reserve — the space of the log (log.c, mkfs.c)

Any number of operations on the file system at once, each a `begin_op`, calls of `log_write` and an `end_op`; a
`log_write` looks at the size of the transaction before it takes the lock.  `begin_op` reserves `MAXOPBLOCKS` blocks of
`LOGSIZE` for each operation, but the log that `mkfs` lays out has `LOGSIZE` blocks with its header, and `log_write`
refuses the last of what is left as well.
-/
namespace Xv6
namespace Fs

/-- `nlog` of mkfs.c. -/
def nlog : Nat := logSize

/-- `struct log` as `begin_op`, `end_op` and `log_write` use it, and where the processes `P` stand. -/
structure Reserve (P : Type) where
  size        : Nat
  block       : List Bno
  outstanding : Int
  committing  : Bool
  /-- The blocks that a process has logged since its `begin_op`. -/
  logged      : P → Option (List Bno)
  /-- The block that a process is about to log, its `log_write` having found room. -/
  adding      : P → Option Bno

inductive LogStep (P : Type) where
  | beginOp (p : P)
  | logWrite (p : P) (b : Bno)
  /-- The part of `log_write` that holds the lock. -/
  | add (p : P)
  | endOp (p : P)
  /-- The process in `commit` has written the transaction, and it releases those that wait. -/
  | commit
  | release

variable {P : Type}

section Program

variable [DecidableEq P]

abbrev LogM (P : Type) := Prog Stop (Reserve P) Unit

def Reserve.setLogged (s : Reserve P) (p : P) (l : Option (List Bno)) : Reserve P :=
  { s with logged := fun q => if q = p then l else s.logged q }

def Reserve.setAdding (s : Reserve P) (p : P) (b : Option Bno) : Reserve P :=
  { s with adding := fun q => if q = p then b else s.adding q }

/-- One turn of `begin_op`'s loop; a process that sleeps tries again. -/
def beginOp (p : P) : LogM P Unit := do
  let s ← Prog.get
  if s.committing then pure ()
  else if (logSize : Int) < s.block.length + (s.outstanding + 1) * maxOpBlocks then pure ()
  else Prog.modify (fun s => { s.setLogged p (some []) with outstanding := s.outstanding + 1 })

def logWrite (p : P) (b : Bno) : LogM P Unit := do
  let s ← Prog.get
  if logSize ≤ s.block.length ∨ (s.size : Int) - 1 ≤ s.block.length then Prog.stop (.panic "too big a transaction")
  else if s.outstanding < 1 then Prog.stop (.panic "log_write outside of trans")
  else Prog.modify (·.setAdding p (some b))

/-- `log.lh.block[i] = b->blockno`, with log absorption. -/
def absorb (b : Bno) : LogM P Unit := do
  let s ← Prog.get
  if b ∈ s.block then pure ()
  else if s.block.length < logSize then Prog.modify (fun s => { s with block := s.block ++ [b] })
  else Prog.stop .wild

def add (p : P) (b : Bno) : LogM P Unit := do
  absorb b
  Prog.modify (fun s => (s.setAdding p none).setLogged p ((s.logged p).map (List.insert b)))

def endOp (p : P) : LogM P Unit := do
  Prog.modify (fun s => { s.setLogged p none with outstanding := s.outstanding - 1 })
  let s ← Prog.get
  if s.committing then Prog.stop (.panic "log.committing")
  else if s.outstanding = 0 then Prog.modify (fun s => { s with committing := true })
  else pure ()

/-- A step of a process that is not where it could take it does nothing. -/
def logStep : LogStep P → LogM P Unit
  | .beginOp p    => do
    let s ← Prog.get
    Prog.when (s.logged p = none) (beginOp p)
  | .logWrite p b => do
    let s ← Prog.get
    Prog.when (s.logged p ≠ none ∧ s.adding p = none) (logWrite p b)
  | .add p        => do
    match (← Prog.get).adding p with
    | none   => pure ()
    | some b => add p b
  | .endOp p      => do
    let s ← Prog.get
    Prog.when (s.logged p ≠ none ∧ s.adding p = none) (endOp p)
  | .commit       => do
    let s ← Prog.get
    Prog.when (s.committing = true) (Prog.modify (fun s => { s with block := [] }))
  | .release      => do
    let s ← Prog.get
    Prog.when (s.committing = true ∧ s.block = []) (Prog.modify (fun s => { s with committing := false }))

def logRun (steps : List (LogStep P)) : LogM P Unit := Prog.forEach steps logStep

end Program

/-- After `initlog`, on the disk of `mkfs`. -/
def Reserve.boot : Reserve P := ⟨nlog, [], 0, false, fun _ => none, fun _ => none⟩

/-- An operation logs at most `MAXOPBLOCKS` different blocks. -/
def Budget (s : Reserve P) : LogStep P → Prop
  | .logWrite p b => ∀ l, s.logged p = some l → (l.insert b).length ≤ maxOpBlocks
  | _             => True

/-- **The condition**: an operation that is let in finds that the transaction, with what is reserved, stays two blocks
below the size of the log. -/
def Room (s : Reserve P) : LogStep P → Prop
  | .beginOp _ => s.block.length + (s.outstanding + 1) * maxOpBlocks ≤ logSize →
      s.block.length + (s.outstanding + 1) * maxOpBlocks ≤ s.size - 2
  | _          => True

/-! ## What is reserved -/

def left : Option (List Bno) → Nat
  | none   => 0
  | some l => maxOpBlocks - l.length

def active : Option (List Bno) → Nat
  | none   => 0
  | some _ => 1

/-- The transaction, with what its operations may still log, stays below the size of the log. -/
structure Reserved [Fintype P] (s : Reserve P) : Prop where
  size   : s.size = nlog
  count  : s.outstanding = (∑ p, active (s.logged p) : Nat)
  listed : ∀ p l, s.logged p = some l → l.length ≤ maxOpBlocks ∧ ∀ b ∈ l, b ∈ s.block
  adding : ∀ p b, s.adding p = some b → ∃ l, s.logged p = some l ∧ (l.insert b).length ≤ maxOpBlocks
  room   : s.block.length + ∑ p, left (s.logged p) ≤ nlog - 2
  quiet  : s.committing = true → ∀ p, s.logged p = none

section Sums

variable [Fintype P] {s : Reserve P}

theorem sum_setLogged [DecidableEq P] (F : Option (List Bno) → Nat) (s : Reserve P) (p : P) (l : Option (List Bno)) :
    (∑ q, F ((s.setLogged p l).logged q)) + F (s.logged p) = (∑ q, F (s.logged q)) + F l := by
  rw [← Finset.add_sum_erase Finset.univ _ (Finset.mem_univ p),
    ← Finset.add_sum_erase Finset.univ (fun q => F (s.logged q)) (Finset.mem_univ p)]
  have hp : (s.setLogged p l).logged p = l := if_pos rfl
  have hrest : ∑ q ∈ Finset.univ.erase p, F ((s.setLogged p l).logged q) = ∑ q ∈ Finset.univ.erase p, F (s.logged q) := by
    refine Finset.sum_congr rfl fun q hq => congrArg F ?_
    exact if_neg (Finset.ne_of_mem_erase hq)
  rw [hp, hrest]
  omega

theorem left_le (o : Option (List Bno)) : left o ≤ maxOpBlocks * active o := by
  cases o with
  | none => exact Nat.le_refl 0
  | some l => exact Nat.sub_le _ _

theorem sum_left_le (f : P → Option (List Bno)) : ∑ p, left (f p) ≤ maxOpBlocks * ∑ p, active (f p) := by
  rw [Finset.mul_sum]
  exact Finset.sum_le_sum fun p _ => left_le (f p)

theorem le_sum (F : Option (List Bno) → Nat) (f : P → Option (List Bno)) (p : P) : F (f p) ≤ ∑ q, F (f q) :=
  Finset.single_le_sum (f := fun q => F (f q)) (fun _ _ => Nat.zero_le _) (Finset.mem_univ p)

end Sums

/-! ## The steps -/

section Steps

open Prog (wp)

variable [Fintype P] {s : Reserve P} {p : P} {b : Bno}

theorem nlog_eq : nlog = 30 := rfl

theorem Reserved.adding_none (h : Reserved s) (hp : s.logged p = none) : s.adding p = none := by
  cases ha : s.adding p with
  | none => rfl
  | some b =>
    obtain ⟨l, hl, -⟩ := h.adding p b ha
    rw [hp] at hl
    cases hl

variable [DecidableEq P]

theorem beginOp_wp (h : Reserved s) (hp : s.logged p = none) (hr : Room s (.beginOp p)) :
    wp (beginOp p) (fun _ => Reserved) (fun _ => False) s := by
  unfold beginOp
  rw [Prog.wp_bind, Prog.wp_get]
  refine Prog.wp_ite (fun _ => h) fun hc => Prog.wp_ite (fun _ => h) fun hle => ?_
  have hroom : _ ≤ _ := hr (not_lt.1 hle)
  rw [h.size, h.count] at hroom
  have hactive := sum_setLogged active s p (some [])
  have hleft := sum_setLogged left s p (some [])
  have hbound := sum_left_le (P := P) s.logged
  rw [hp] at hactive hleft
  have hnone : active (none : Option (List Bno)) = 0 ∧ left none = 0 ∧ active (some []) = 1 ∧ left (some []) = maxOpBlocks :=
    ⟨rfl, rfl, rfl, rfl⟩
  have hold := h.room
  have hn := nlog_eq
  unfold maxOpBlocks at hroom hbound hnone
  refine ⟨h.size, ?_, fun q l hq => ?_, fun q b hq => ?_, ?_, fun hcom => absurd hcom hc⟩
  · show s.outstanding + 1 = _
    rw [h.count]
    show _ = ((∑ q, active ((s.setLogged p (some [])).logged q) : Nat) : Int)
    omega
  · by_cases hqp : q = p
    · have hl : some [] = some l := (if_pos hqp).symm.trans hq
      cases hl
      exact ⟨Nat.zero_le _, fun b hb => by cases hb⟩
    · exact h.listed q l ((if_neg hqp).symm.trans hq)
  · have hqp : q ≠ p := by
      rintro rfl
      have hnone : s.adding q = none := h.adding_none hp
      rw [show s.adding q = some b from hq] at hnone
      cases hnone
    obtain ⟨l, hl, hlen⟩ := h.adding q b hq
    exact ⟨l, (if_neg hqp).trans hl, hlen⟩
  · show s.block.length + ∑ q, left ((s.setLogged p (some [])).logged q) ≤ _
    omega

theorem logWrite_wp (h : Reserved s) (hb : Budget s (.logWrite p b)) (hp : s.logged p ≠ none) :
    wp (logWrite p b) (fun _ => Reserved) (fun _ => False) s := by
  have hroom := h.room
  unfold logWrite
  rw [Prog.wp_bind, Prog.wp_get]
  refine Prog.wp_ite (fun hbig => ?_) fun _ => Prog.wp_ite (fun hout => ?_) fun _ => ?_
  · rw [h.size] at hbig
    unfold nlog logSize maxOpBlocks at hbig hroom
    omega
  · obtain ⟨l, hl⟩ := Option.ne_none_iff_exists'.1 hp
    have hone : active (s.logged p) ≤ ∑ q, active (s.logged q) := le_sum active s.logged p
    have hcount := h.count
    rw [hl] at hone
    have hpos : active (some l) = 1 := rfl
    omega
  · refine ⟨h.size, h.count, h.listed, fun q c hq => ?_, h.room, h.quiet⟩
    by_cases hqp : q = p
    · have hc : some b = some c := (if_pos hqp).symm.trans hq
      cases hc
      obtain ⟨l, hl⟩ := Option.ne_none_iff_exists'.1 hp
      exact ⟨l, hqp ▸ hl, hb l hl⟩
    · exact h.adding q c ((if_neg hqp).symm.trans hq)

theorem Reserved.added (h : Reserved s) {l : List Bno} {blk : List Bno} (hl : s.logged p = some l)
    (hlen : (l.insert b).length ≤ maxOpBlocks) (hsub : ∀ c ∈ s.block, c ∈ blk) (hb : b ∈ blk)
    (hroom : blk.length + left (some (l.insert b)) ≤ s.block.length + left (some l)) :
    Reserved (({ s with block := blk }.setAdding p none).setLogged p (some (l.insert b))) := by
  have hactive := sum_setLogged active s p (some (l.insert b))
  have hleft := sum_setLogged left s p (some (l.insert b))
  rw [hl] at hactive hleft
  have hone : active (some l) = 1 ∧ active (some (l.insert b)) = 1 := ⟨rfl, rfl⟩
  have hold := h.room
  refine ⟨h.size, ?_, fun q m hq => ?_, fun q c hq => ?_, ?_, fun hcom q => ?_⟩
  · show s.outstanding = ((∑ q, active ((s.setLogged p (some (l.insert b))).logged q) : Nat) : Int)
    rw [h.count]
    omega
  · by_cases hqp : q = p
    · have hm : some (l.insert b) = some m := (if_pos hqp).symm.trans hq
      cases hm
      refine ⟨hlen, fun c hc => ?_⟩
      rcases List.mem_insert_iff.1 hc with rfl | hc
      · exact hb
      · exact hsub c ((h.listed p l hl).2 c hc)
    · obtain ⟨h1, h2⟩ := h.listed q m ((if_neg hqp).symm.trans hq)
      exact ⟨h1, fun c hc => hsub c (h2 c hc)⟩
  · have hqp : q ≠ p := by
      rintro rfl
      cases (if_pos rfl).symm.trans hq
    obtain ⟨m, hm, hmlen⟩ := h.adding q c ((if_neg hqp).symm.trans hq)
    exact ⟨m, (if_neg hqp).trans hm, hmlen⟩
  · show blk.length + ∑ q, left ((s.setLogged p (some (l.insert b))).logged q) ≤ _
    omega
  · have hnone := h.quiet hcom p
    rw [hl] at hnone
    cases hnone

theorem add_wp (h : Reserved s) (hp : s.adding p = some b) : wp (add p b) (fun _ => Reserved) (fun _ => False) s := by
  obtain ⟨l, hl, hlen⟩ := h.adding p b hp
  have hmap : (s.logged p).map (List.insert b) = some (l.insert b) := by rw [hl]; rfl
  unfold add absorb
  rw [Prog.wp_bind, Prog.wp_bind, Prog.wp_get]
  refine Prog.wp_ite (fun hb => ?_) fun hb => Prog.wp_ite (fun hlt => ?_) fun hge => ?_
  · show Reserved ((s.setAdding p none).setLogged p ((s.logged p).map (List.insert b)))
    rw [hmap]
    refine h.added hl hlen (fun c hc => hc) hb ?_
    have hge : l.length ≤ (l.insert b).length := by
      rw [List.length_insert]
      split <;> omega
    unfold left
    dsimp only
    omega
  · show Reserved (({ s with block := s.block ++ [b] }.setAdding p none).setLogged p ((s.logged p).map (List.insert b)))
    rw [hmap]
    have hbl : b ∉ l := fun hm => hb ((h.listed p l hl).2 b hm)
    have hlen' := List.length_insert_of_not_mem hbl
    refine h.added hl hlen (fun c hc => List.mem_append_left _ hc)
      (List.mem_append_right _ (List.mem_singleton_self b)) ?_
    unfold left
    dsimp only
    rw [List.length_append, List.length_singleton]
    omega
  · have hroom := h.room
    unfold nlog logSize maxOpBlocks at hroom
    unfold logSize maxOpBlocks at hge
    omega

theorem endOp_wp (h : Reserved s) (hp : s.logged p ≠ none) (ha : s.adding p = none) :
    wp (endOp p) (fun _ => Reserved) (fun _ => False) s := by
  obtain ⟨l, hl⟩ := Option.ne_none_iff_exists'.1 hp
  have hactive := sum_setLogged active s p none
  have hleft := sum_setLogged left s p none
  rw [hl] at hactive hleft
  have hone : active (some l) = 1 ∧ active (none : Option (List Bno)) = 0 ∧ left none = 0 := ⟨rfl, rfl, rfl⟩
  have hold := h.room
  have hcount := h.count
  obtain ⟨t, ht⟩ : ∃ t : Reserve P, t = { s.setLogged p none with outstanding := s.outstanding - 1 } := ⟨_, rfl⟩
  have hend : ∀ c : Bool, (c = true → ∀ q, t.logged q = none) → Reserved { t with committing := c } := by
    intro c hc
    subst ht
    refine ⟨h.size, ?_, fun q m hq => ?_, fun q c' hq => ?_, ?_, hc⟩
    · show s.outstanding - 1 = ((∑ q, active ((s.setLogged p none).logged q) : Nat) : Int)
      omega
    · have hqp : q ≠ p := by
        rintro rfl
        cases (if_pos rfl).symm.trans hq
      exact h.listed q m ((if_neg hqp).symm.trans hq)
    · have hqp : q ≠ p := by
        rintro rfl
        rw [show s.adding q = some c' from hq] at ha
        cases ha
      obtain ⟨m, hm, hmlen⟩ := h.adding q c' hq
      exact ⟨m, (if_neg hqp).trans hm, hmlen⟩
    · show s.block.length + ∑ q, left ((s.setLogged p none).logged q) ≤ _
      omega
  unfold endOp
  rw [Prog.wp_bind, Prog.wp_modify, ← ht, Prog.wp_bind, Prog.wp_get]
  refine Prog.wp_ite (fun hc => ?_) fun hc => Prog.wp_ite (fun hzero => ?_) fun _ => ?_
  · have hcom : s.committing = true := by rwa [ht] at hc
    rw [h.quiet hcom p] at hl
    cases hl
  · refine hend true fun _ q => ?_
    have hsum : ∑ q, active (t.logged q) = 0 := by
      have hcnt := (hend false fun hf => by cases hf).count
      rw [hzero] at hcnt
      exact (Int.natCast_eq_zero.1 hcnt.symm)
    have hq := le_sum active t.logged q
    rw [hsum] at hq
    cases hlq : t.logged q with
    | none => rfl
    | some m =>
      rw [hlq] at hq
      exact absurd hq (Nat.not_succ_le_zero 0)
  · have hsame : { t with committing := false } = t := by
      rw [← Bool.eq_false_iff.2 hc]
    rw [Prog.wp_pure, ← hsame]
    exact hend false fun hf => by cases hf

/-- **Every step** keeps what is reserved, and no `log_write` finds the transaction too big. -/
theorem logStep_wp (h : Reserved s) (x : LogStep P) (hc : Budget s x ∧ Room s x) :
    wp (logStep x) (fun _ => Reserved) (fun _ => False) s := by
  cases x with
  | beginOp p =>
    exact Prog.wp_bind.2 (Prog.wp_when (fun hp => beginOp_wp h hp hc.2) fun _ => h)
  | logWrite p b =>
    exact Prog.wp_bind.2 (Prog.wp_when (fun hp => logWrite_wp h hc.1 hp.1) fun _ => h)
  | add p =>
    refine Prog.wp_bind.2 (Prog.wp_get.2 ?_)
    cases ha : s.adding p with
    | none => exact h
    | some b => exact add_wp h ha
  | endOp p =>
    exact Prog.wp_bind.2 (Prog.wp_when (fun hp => endOp_wp h hp.1 hp.2) fun _ => h)
  | commit =>
    refine Prog.wp_bind.2 (Prog.wp_when (fun hcom => ?_) fun _ => h)
    show Reserved { s with block := [] }
    refine ⟨h.size, h.count, fun p l hl => ?_, h.adding, (Nat.add_le_add_right (Nat.zero_le _) _).trans h.room, h.quiet⟩
    rw [show s.logged p = none from h.quiet hcom p] at hl
    cases hl
  | release =>
    refine Prog.wp_bind.2 (Prog.wp_when (fun hcom => ?_) fun _ => h)
    exact ⟨h.size, h.count, h.listed, h.adding, h.room, fun hf => by cases hf⟩

end Steps

/-- **The log's space suffices.**  In every run of operations that log at most `MAXOPBLOCKS` different blocks each, in
which none is let in that could fill the transaction up to the last block of the log, nothing is stopped, and the
transaction fits on the disk. -/
theorem logRun_fits [Fintype P] [DecidableEq P] (steps : List (LogStep P))
    (hc : Prog.Admits (fun s x => Budget s x ∧ Room s x) logStep steps Reserve.boot) :
    (logRun steps Reserve.boot).res = .ok () ∧
      (logRun steps Reserve.boot).st.block.length ≤ (logRun steps Reserve.boot).st.size - 1 := by
  have hboot : Reserved (Reserve.boot : Reserve P) := by
    refine ⟨rfl, ?_, nofun, nofun, ?_, nofun⟩
    · show (0 : Int) = ((∑ _p : P, 0 : Nat) : Int)
      rw [Finset.sum_const_zero]
      rfl
    · show 0 + ∑ _p : P, 0 ≤ _
      rw [Finset.sum_const_zero]
      decide
  have hrun : Prog.wp (logRun steps) (fun _ => Reserved) (fun _ => False) Reserve.boot :=
    Prog.wp_admits (fun x s h hx => logStep_wp h x hx) steps _ hboot hc
  obtain ⟨a, hok, hend⟩ := hrun.returns
  have hroom := hend.room
  have hsize := hend.size
  exact ⟨hok, by omega⟩

/-- An operation of one process that logs `n` blocks. -/
def logOp {P : Type} (p : P) (first n : Nat) : List (LogStep P) :=
  (List.range n).flatMap fun i => [.logWrite p (BitVec.ofNat 32 (first + i)), .add p]

def twoOps : List (LogStep (Fin 3)) :=
  [.beginOp 0, .beginOp 1] ++ logOp 0 100 10 ++ logOp 1 200 10 ++ [.endOp 0, .endOp 1, .commit, .release]

instance (s : Reserve P) : (x : LogStep P) → Decidable (Budget s x)
  | .logWrite p b => decidable_of_iff (∀ l ∈ s.logged p, (l.insert b).length ≤ maxOpBlocks) Iff.rfl
  | .beginOp _ | .add _ | .endOp _ | .commit | .release => .isTrue trivial

instance (s : Reserve P) : (x : LogStep P) → Decidable (Room s x)
  | .beginOp _ => inferInstanceAs (Decidable (_ → _))
  | .logWrite .. | .add _ | .endOp _ | .commit | .release => .isTrue trivial

theorem twoOps_fit : (logRun twoOps Reserve.boot).res = .ok () :=
  (logRun_fits twoOps (by decide +kernel)).1

/-- Three operations, which `begin_op` lets in, of ten blocks each. -/
def threeOps : List (LogStep (Fin 3)) :=
  [.beginOp 0, .beginOp 1, .beginOp 2] ++ logOp 0 100 10 ++ logOp 1 200 10 ++ logOp 2 300 10

theorem threeOps_panic : Prog.Admits Budget logStep threeOps Reserve.boot ∧
    Prog.reason (logRun threeOps Reserve.boot) = some (.panic "too big a transaction") := by
  decide +kernel

end Fs
end Xv6
