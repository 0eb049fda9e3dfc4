import Xv6.Lib.Crash
/-!
# Fs.Log — the log (log.c)

The log of the page-replacement kernel: the transaction in memory, and the programs that write it to the log, commit it,
install it and recover it.  A block is its 128 words.  `cache b` is what `bread(b)` returns, the contents of the buffer or,
where no buffer holds the block, of the disk; `bwrite` writes it through.  A machine that stops keeps its disk only.
-/
namespace Xv6
namespace Fs

open Prog (Durable stopAt)

abbrev Bno := BitVec 32
abbrev Block := Fin 128 → BitVec 32

/-- `MAXOPBLOCKS` and `LOGSIZE`. -/
abbrev maxOpBlocks : Nat := 10
abbrev logSize : Nat := maxOpBlocks * 3

inductive Stop where
  | panic (msg : String)
  /-- Memory that is no part of the array is written to. -/
  | wild
  deriving DecidableEq

/-- `struct log`, without what `begin_op` and `end_op` count, and the blocks. -/
structure Log where
  start : Bno
  size  : Nat
  /-- `lh.block[0]` to `lh.block[lh.n - 1]`. -/
  block : List Bno
  disk  : Bno → Block
  cache : Bno → Block

structure Write where
  bno  : Bno
  data : Block

def store (d : Bno → Block) (w : Write) : Bno → Block := fun b => if b = w.bno then w.data else d b

abbrev L := Prog Stop Log Write

def bread (b : Bno) : L Block := Prog.read (fun s => s.cache b)

/-- `bwrite` of the buffer of `b`, whose data have been set to `data`. -/
def bwrite (b : Bno) (data : Block) : L Unit := do
  Prog.modify (fun s => { s with disk := store s.disk ⟨b, data⟩, cache := store s.cache ⟨b, data⟩ })
  Prog.emit ⟨b, data⟩

/-- The block `log.start+tail+1`. -/
def Log.copy (s : Log) (tail : Nat) : Bno := s.start + BitVec.ofNat 32 (tail + 1)

/-- `hb->n = log.lh.n; hb->block[i] = log.lh.block[i]`. -/
def setHead (hb : Block) (block : List Bno) : Block := fun w =>
  if w.val = 0 then BitVec.ofNat 32 block.length else block.getD (w.val - 1) (hb w)

/-- `lh->n`. -/
def headCount (lh : Block) : Int := (lh 0).toInt

/-- `lh->block[0]` to `lh->block[lh->n - 1]`. -/
def headBlocks (lh : Block) : List Bno := (List.range (headCount lh).toNat).map (fun i => lh (Fin.ofNat 128 (i + 1)))

def readHead : L Unit := do
  let lh ← bread (← Prog.read (·.start))
  if (logSize : Int) < headCount lh then Prog.stop .wild
  else Prog.modify (fun s => { s with block := headBlocks lh })

def writeHead : L Unit := do
  let start ← Prog.read (·.start)
  let hb ← bread start
  bwrite start (setHead hb (← Prog.read (·.block)))

/-- `for (tail = 0; tail < log.lh.n; tail++)`. -/
def forTail (body : Bno × Nat → L Unit) : L Unit := do
  let block ← Prog.read (·.block)
  Prog.forEach block.zipIdx body

def installTrans : L Unit :=
  forTail (fun (b, tail) => do
    let lbuf ← bread (← Prog.read (·.copy tail))
    bwrite b lbuf)

def writeLog : L Unit :=
  forTail (fun (b, tail) => do
    let src ← bread b
    bwrite (← Prog.read (·.copy tail)) src)

def clearHead : L Unit := do
  Prog.modify (fun s => { s with block := [] })
  writeHead

def recoverFromLog : L Unit := do
  readHead
  installTrans
  clearHead

def commit : L Unit := do
  let block ← Prog.read (·.block)
  Prog.when (0 < block.length) (do
    writeLog
    writeHead
    installTrans
    clearHead)

/-- `sb.nlog` and `sb.logstart`. -/
def sbNlog (sb : Block) : Nat := (sb 3).toNat
def sbLogstart (sb : Block) : Bno := sb 4

/-- `initlog`: the superblock is block 1. -/
def initlog : L Unit := do
  let sb ← bread 1
  Prog.modify (fun s => { s with start := sbLogstart sb, size := sbNlog sb })
  recoverFromLog

/-- The machine starts with the disk `d`, and the log is where `s` has it. -/
def Log.boot (s : Log) (d : Bno → Block) : Log := { s with block := [], disk := d, cache := d }

/-! ## The header -/

theorem headCount_setHead {hb : Block} {block : List Bno} (h : block.length ≤ logSize) :
    headCount (setHead hb block) = block.length := by
  have hlt : block.length < 2147483648 := by unfold logSize maxOpBlocks at h; omega
  have hmod : (BitVec.ofNat 32 block.length).toNat = block.length := by
    rw [BitVec.toNat_ofNat]
    omega
  show (BitVec.ofNat 32 block.length).toInt = _
  rw [BitVec.toInt_eq_toNat_of_lt (by rw [hmod]; omega), hmod]

/-- **The header reads back.** -/
theorem headBlocks_setHead {hb : Block} {block : List Bno} (h : block.length ≤ logSize) :
    headBlocks (setHead hb block) = block := by
  unfold headBlocks
  rw [headCount_setHead h, Int.toNat_natCast]
  refine List.ext_getElem (by simp) fun i h1 h2 => ?_
  have hi : i + 1 < 128 := by unfold logSize maxOpBlocks at h; omega
  rw [List.getElem_map, List.getElem_range]
  show (if (Fin.ofNat 128 (i + 1)).val = 0 then _ else _) = _
  rw [Fin.val_ofNat, Nat.mod_eq_of_lt hi, if_neg (Nat.succ_ne_zero i), Nat.add_sub_cancel, List.getD_eq_getElem _ _ h2]

theorem headBlocks_zero {lh : Block} (h : lh 0 = 0) : headBlocks lh = [] := by
  unfold headBlocks headCount
  rw [h]
  rfl

/-! ## A transaction -/

def Log.inLog (s : Log) (b : Bno) : Prop := ∃ i < s.size, b = s.start + BitVec.ofNat 32 i

/-- A transaction in memory, as `commit` finds it: its blocks lie outside the log and fit into it, the buffers of all
others are as on the disk, and the header on the disk counts none, which is how `commit` and `initlog` leave it. -/
structure Transaction (s : Log) : Prop where
  distinct : s.block.Nodup
  outside  : ∀ b ∈ s.block, ¬ s.inLog b
  room     : s.block.length < s.size
  array    : s.block.length ≤ logSize
  clean    : ∀ b, b ∉ s.block → s.cache b = s.disk b
  none     : s.disk s.start 0 = 0

/-- The header counts none, and no block outside the log has been written. -/
structure Old (s : Log) (d : Bno → Block) : Prop where
  none : d s.start 0 = 0
  home : ∀ b, ¬ s.inLog b → d b = s.disk b

/-- The log holds the transaction `s`. -/
def Copies (s : Log) (d : Bno → Block) : Prop := ∀ i x, s.block[i]? = some x → d (s.copy i) = s.cache x

/-- The header and the log hold the transaction, and some of its blocks may have been installed. -/
structure Committed (s : Log) (d : Bno → Block) : Prop where
  count  : headCount (d s.start) = s.block.length
  head   : headBlocks (d s.start) = s.block
  copies : Copies s d
  home   : ∀ b, ¬ s.inLog b → d b = s.disk b ∨ b ∈ s.block ∧ d b = s.cache b

/-- The header counts none, and all the blocks of the transaction have been installed. -/
structure New (s : Log) (d : Bno → Block) : Prop where
  none : d s.start 0 = 0
  home : ∀ b, ¬ s.inLog b → d b = s.cache b

def Between (s : Log) (d : Bno → Block) : Prop := Old s d ∨ Committed s d ∨ New s d

section Transaction

variable {s t : Log} {d : Bno → Block}

theorem store_same {b : Bno} {data : Block} : store d ⟨b, data⟩ b = data := if_pos rfl

theorem store_other {w : Write} {b : Bno} (h : b ≠ w.bno) : store d w b = d b := if_neg h

theorem inLog_start (ht : Transaction s) : s.inLog s.start := ⟨0, Nat.zero_lt_of_lt ht.room, by simp⟩

theorem inLog_copy (ht : Transaction s) {i : Nat} (hi : i < s.block.length) : s.inLog (s.copy i) := by
  have hroom := ht.room
  exact ⟨i + 1, by omega, rfl⟩

theorem copy_ne (ht : Transaction s) {i j : Nat} (hi : i < s.block.length) (hj : j < s.block.length) (hne : i ≠ j) :
    s.copy i ≠ s.copy j := by
  have harr := ht.array
  unfold logSize maxOpBlocks at harr
  unfold Log.copy
  intro he
  have h := congrArg BitVec.toNat ((BitVec.add_right_inj _).1 he)
  rw [BitVec.toNat_ofNat, BitVec.toNat_ofNat, Nat.mod_eq_of_lt (by omega), Nat.mod_eq_of_lt (by omega)] at h
  omega

theorem copy_ne_start (ht : Transaction s) {i : Nat} (hi : i < s.block.length) : s.copy i ≠ s.start := by
  have harr := ht.array
  unfold logSize maxOpBlocks at harr
  unfold Log.copy
  intro he
  have h := congrArg BitVec.toNat (he.trans (BitVec.add_zero s.start).symm)
  rw [BitVec.toNat_add, BitVec.toNat_add, BitVec.toNat_ofNat] at h
  have := s.start.isLt
  simp only [BitVec.toNat_ofNat] at h
  omega

theorem store_inLog {w : Write} {b : Bno} (hw : s.inLog w.bno) (hb : ¬ s.inLog b) : store d w b = d b :=
  store_other fun he => hb (he ▸ hw)

/-! ## commit and recovery -/

/-- The log, and the blocks, as a program on the transaction `s` finds them. -/
structure At (s t : Log) : Prop where
  start : t.start = s.start
  block : t.block = s.block

theorem At.copy (h : At s t) (i : Nat) : t.copy i = s.copy i := by
  unfold Log.copy
  rw [h.start]

/-- The first `k` blocks have been copied to the log. -/
structure Logging (s : Log) (k : Nat) (t : Log) : Prop extends At s t where
  old    : Old s t.disk
  same   : ∀ b, ¬ s.inLog b → t.cache b = s.cache b
  log    : ∀ b, s.inLog b → t.cache b = t.disk b
  copies : ∀ i < k, ∀ x, s.block[i]? = some x → t.disk (s.copy i) = s.cache x

/-- The transaction is in the log, and the first `k` blocks have been installed. -/
structure Installing (s : Log) (k : Nat) (t : Log) : Prop extends At s t where
  committed : Committed s t.disk
  copies    : Copies s t.cache
  done      : ∀ i < k, ∀ x, s.block[i]? = some x → t.disk x = s.cache x

theorem bwrite_durable {I : (Bno → Block) → Prop} {Q : Unit → Log → Prop} {b : Bno} {data : Block} (hI : I s.disk)
    (hI' : I (store s.disk ⟨b, data⟩))
    (hQ : Q () { s with disk := store s.disk ⟨b, data⟩, cache := store s.cache ⟨b, data⟩ }) :
    Durable store Log.disk I (bwrite b data) Q s := Durable.write rfl rfl hI hI' hQ

theorem forTail_durable {I : (Bno → Block) → Prop} {J : Nat → Log → Prop} {body : Bno × Nat → L Unit}
    (hJ : ∀ k t, J k t → I t.disk) (h0 : J 0 t)
    (hbody : ∀ i x, t.block[i]? = some x → ∀ u, J i u → Durable store Log.disk I (body (x, i)) (fun _ => J (i + 1)) u) :
    Durable store Log.disk I (forTail body) (fun _ => J t.block.length) t := by
  refine Durable.read ?_
  have hloop : Durable store Log.disk I (Prog.forEach t.block.zipIdx body) (fun _ => J (0 + t.block.length)) t := by
    refine Durable.forEach_zipIdx hJ t.block 0 t h0 fun i x hi u hu => ?_
    rw [Nat.zero_add] at hu ⊢
    exact hbody i x hi u hu
  rwa [Nat.zero_add] at hloop

/-- **`write_log`** writes the log only, and at its end the log holds the transaction. -/
theorem writeLog_durable (ht : Transaction s) :
    Durable store Log.disk (Old s) writeLog (fun _ => Logging s s.block.length) s := by
  have hstart : Logging s 0 s := by
    refine ⟨⟨rfl, rfl⟩, ⟨ht.none, fun _ _ => rfl⟩, fun _ _ => rfl, fun b hb => ?_, fun i hi => absurd hi (Nat.not_lt_zero i)⟩
    exact ht.clean b fun hm => ht.outside b hm hb
  refine forTail_durable (fun k t h => h.old) hstart fun i x hi u hu => ?_
  have hlt := (List.getElem?_eq_some_iff.1 hi).1
  have hin := inLog_copy ht hlt
  have hx : u.cache x = s.cache x := hu.same x (ht.outside x (List.mem_of_getElem? hi))
  refine Durable.read (Durable.read ?_)
  rw [hu.copy, hx]
  have hold : Old s (store u.disk ⟨s.copy i, s.cache x⟩) := by
    refine ⟨?_, fun b hb => (store_inLog hin hb).trans (hu.old.home b hb)⟩
    rw [store_other (copy_ne_start ht hlt).symm]
    exact hu.old.none
  refine bwrite_durable hu.old hold ⟨⟨hu.start, hu.block⟩, hold, fun b hb => ?_, fun b hb => ?_, fun j hj y hy => ?_⟩
  · exact (store_inLog hin hb).trans (hu.same b hb)
  · by_cases he : b = s.copy i
    · rw [he]
      exact store_same.trans store_same.symm
    · exact (store_other he).trans ((hu.log b hb).trans (store_other he).symm)
  · by_cases hji : j = i
    · subst hji
      rw [hi] at hy
      cases hy
      exact store_same
    · have hjlt := (List.getElem?_eq_some_iff.1 hy).1
      exact (store_other (copy_ne ht hjlt hlt hji)).trans (hu.copies j (by omega) y hy)

/-- **`write_head` commits**: the disk holds the old state before its one write, and the transaction after. -/
theorem writeHead_durable (ht : Transaction s) (h : Logging s s.block.length t) :
    Durable store Log.disk (Between s) writeHead (fun _ => Installing s 0) t := by
  have hin := inLog_start ht
  unfold writeHead
  refine Durable.read (Durable.read (Durable.read ?_))
  rw [h.start, h.block]
  have hcopies : ∀ c : Bno → Block, (∀ i x, s.block[i]? = some x → c (s.copy i) = s.cache x) →
      Copies s (store c ⟨s.start, setHead (t.cache s.start) s.block⟩) := by
    intro c hc i x hi
    rw [store_other (copy_ne_start ht (List.getElem?_eq_some_iff.1 hi).1)]
    exact hc i x hi
  have hcommitted : Committed s (store t.disk ⟨s.start, setHead (t.cache s.start) s.block⟩) := by
    refine ⟨?_, ?_, hcopies _ fun i x hi => h.copies i (List.getElem?_eq_some_iff.1 hi).1 x hi, fun b hb => .inl ?_⟩
    · rw [store_same]
      exact headCount_setHead ht.array
    · rw [store_same]
      exact headBlocks_setHead ht.array
    · exact (store_inLog hin hb).trans (h.old.home b hb)
  refine bwrite_durable (.inl h.old) (.inr (.inl hcommitted)) ⟨⟨h.start, h.block⟩, hcommitted, hcopies _ fun i x hi => ?_,
    fun i hi => absurd hi (Nat.not_lt_zero i)⟩
  have hlt := (List.getElem?_eq_some_iff.1 hi).1
  rw [h.log _ (inLog_copy ht hlt)]
  exact h.copies i hlt x hi

/-- **`install_trans`** writes the blocks of the transaction only, each with its new contents. -/
theorem installTrans_durable (ht : Transaction s) (h : Installing s 0 t) :
    Durable store Log.disk (Between s) installTrans (fun _ => Installing s s.block.length) t := by
  rw [← h.block]
  refine forTail_durable (fun k t h => .inr (.inl h.committed)) h fun i x hi u hu => ?_
  rw [h.block] at hi
  have hx := List.mem_of_getElem? hi
  have hout := ht.outside x hx
  refine Durable.read (Durable.read ?_)
  rw [hu.copy, hu.copies i x hi]
  have hother : ∀ (c : Bno → Block) b, s.inLog b → store c ⟨x, s.cache x⟩ b = c b :=
    fun c b hb => store_other fun he => hout ((show b = x from he) ▸ hb)
  have hcopies : ∀ c, Copies s c → Copies s (store c ⟨x, s.cache x⟩) := by
    intro c hc j y hj
    rw [hother c _ (inLog_copy ht (List.getElem?_eq_some_iff.1 hj).1)]
    exact hc j y hj
  have hcommitted : Committed s (store u.disk ⟨x, s.cache x⟩) := by
    refine ⟨?_, ?_, hcopies _ hu.committed.copies, fun b hb => ?_⟩
    · rw [hother _ _ (inLog_start ht)]
      exact hu.committed.count
    · rw [hother _ _ (inLog_start ht)]
      exact hu.committed.head
    · by_cases he : b = x
      · rw [he]
        exact .inr ⟨hx, store_same⟩
      · rw [store_other he]
        exact hu.committed.home b hb
  refine bwrite_durable (.inr (.inl hu.committed)) (.inr (.inl hcommitted))
    ⟨⟨hu.start, hu.block⟩, hcommitted, hcopies _ hu.copies, fun j hj y hy => ?_⟩
  by_cases he : y = x
  · rw [he]
    exact store_same
  · refine (store_other he).trans (hu.done j ?_ y hy)
    refine Nat.lt_of_le_of_ne (Nat.lt_succ_iff.1 hj) fun hji => he ?_
    rw [hji, hi] at hy
    exact (Option.some.inj hy).symm

theorem clearHead_durable {P : (Bno → Block) → Prop} (hs : t.start = s.start) (hI : Between s t.disk)
    (hP : ∀ hb, hb 0 = 0 → P (store t.disk ⟨s.start, hb⟩)) (hPI : ∀ d, P d → Between s d) :
    Durable store Log.disk (Between s) clearHead (fun _ u => P u.disk) t := by
  refine Durable.bind (Durable.modify (Q := fun _ u => u.disk = t.disk ∧ u.start = t.start ∧ u.block = []) rfl
    hI ⟨rfl, rfl, rfl⟩)
    fun _ u hu => ?_
  obtain ⟨hd, hst, hbl⟩ := hu
  unfold writeHead
  refine Durable.read (Durable.read (Durable.read ?_))
  have hzero : setHead (u.cache u.start) u.block 0 = 0 := by
    rw [hbl]
    rfl
  have hend : P (store u.disk ⟨u.start, setHead (u.cache u.start) u.block⟩) := by
    rw [hd, hst, hs]
    have := hP _ hzero
    rwa [hst, hs] at this
  exact bwrite_durable (by rw [hd]; exact hI) (hPI _ hend) hend

theorem clearHead_new (ht : Transaction s) (h : Installing s s.block.length t) :
    Durable store Log.disk (Between s) clearHead (fun _ u => New s u.disk) t := by
  refine clearHead_durable h.start (.inr (.inl h.committed)) (fun hb h0 => ⟨?_, fun b hout => ?_⟩) fun d hd => .inr (.inr hd)
  · rw [store_same]
    exact h0
  · rw [store_inLog (inLog_start ht) hout]
    rcases h.committed.home b hout with hold | ⟨hm, hnew⟩
    · by_cases hm : b ∈ s.block
      · obtain ⟨i, hi⟩ := List.mem_iff_getElem?.1 hm
        exact h.done i (List.getElem?_eq_some_iff.1 hi).1 b hi
      · rw [hold, ht.clean b hm]
    · exact hnew

/-- **`commit`**, stopped anywhere, leaves the old state, the new one, or the transaction in the log. -/
theorem commit_durable (ht : Transaction s) :
    Durable store Log.disk (Between s) commit (fun _ u => Old s u.disk ∧ s.block = [] ∨ New s u.disk) s := by
  refine Durable.read (Durable.when (fun _ => ?_) fun hn => ?_)
  · refine ((writeLog_durable ht).mono fun d hd => .inl hd).bind fun _ t h => ?_
    refine (writeHead_durable ht h).bind fun _ u hu => ?_
    refine (installTrans_durable ht hu).bind fun _ v hv => ?_
    exact (clearHead_new ht hv).imp fun _ w hw => .inr hw
  · have hold : Old s s.disk := ⟨ht.none, fun _ _ => rfl⟩
    exact ⟨.inl hold, .inl ⟨hold, List.length_eq_zero_iff.1 (by omega)⟩⟩

theorem readHead_durable {I : (Bno → Block) → Prop} {Q : Unit → Log → Prop} (hI : I t.disk)
    (hc : headCount (t.cache t.start) ≤ logSize) (hQ : Q () { t with block := headBlocks (t.cache t.start) }) :
    Durable store Log.disk I readHead Q t := by
  unfold readHead
  refine Durable.read (Durable.read ?_)
  rw [if_neg (not_lt.2 hc)]
  exact Durable.modify rfl hI hQ

theorem recover_none {P : (Bno → Block) → Prop} (h0 : d s.start 0 = 0) (hd : P d) (hPI : ∀ d, P d → Between s d)
    (hP : ∀ hb, hb 0 = 0 → P (store d ⟨s.start, hb⟩)) :
    Durable store Log.disk (Between s) recoverFromLog (fun _ u => P u.disk) (s.boot d) := by
  have hcount : headCount ((s.boot d).cache (s.boot d).start) = 0 := by
    show (d s.start 0).toInt = 0
    rw [h0]
    rfl
  have hread : Durable store Log.disk (Between s) readHead (fun _ t => t.start = s.start ∧ t.disk = d ∧ t.block = [])
      (s.boot d) := readHead_durable (hPI d hd) (by rw [hcount]; decide) ⟨rfl, rfl, headBlocks_zero h0⟩
  refine hread.bind fun _ t ht => ?_
  obtain ⟨hs, hdt, hb⟩ := ht
  have hskip : Durable store Log.disk (Between s) installTrans (fun _ u => u = t) t := by
    refine Durable.read ?_
    rw [hb]
    exact Durable.pure (hdt ▸ hPI d hd) rfl
  refine hskip.bind fun _ u hu => ?_
  subst hu
  exact clearHead_durable hs (hdt ▸ hPI d hd) (fun hb' h => hdt ▸ hP hb' h) hPI

/-- **Recovery**, stopped anywhere, leaves a state between the old and the new; run to its end, one of the two. -/
theorem recover_durable (ht : Transaction s) (h : Between s d) :
    Durable store Log.disk (Between s) recoverFromLog (fun _ u => Old s u.disk ∨ New s u.disk) (s.boot d) := by
  have hin := inLog_start ht
  rcases h with h | h | h
  · refine (recover_none (P := Old s) h.none h (fun d hd => .inl hd) fun hb h0 => ⟨?_, fun b hout => ?_⟩).imp
      fun _ _ hu => .inl hu
    · rw [store_same]
      exact h0
    · exact (store_inLog hin hout).trans (h.home b hout)
  · have hread : Durable store Log.disk (Between s) readHead (fun _ => Installing s 0) (s.boot d) := by
      refine readHead_durable (.inr (.inl h)) ?_ ?_
      · show headCount (d s.start) ≤ _
        rw [h.count]
        exact Int.ofNat_le.2 ht.array
      · exact ⟨⟨rfl, h.head⟩, h, h.copies, fun i hi => absurd hi (Nat.not_lt_zero i)⟩
    refine hread.bind fun _ t hi => (installTrans_durable ht hi).bind fun _ u hu => ?_
    exact (clearHead_new ht hu).imp fun _ _ hv => .inr hv
  · refine (recover_none (P := New s) h.none h (fun d hd => .inr (.inr hd)) fun hb h0 => ⟨?_, fun b hout => ?_⟩).imp
      fun _ _ hu => .inr hu
    · rw [store_same]
      exact h0
    · exact (store_inLog hin hout).trans (h.home b hout)

/-- The disk after `commit` has been stopped after `k` writes, and recovery, each time the machine came up again, after as
many as `ks` says. -/
def Log.crashed (s : Log) (k : Nat) (ks : List Nat) : Bno → Block :=
  ks.foldl (fun d k => stopAt store Log.disk recoverFromLog k (s.boot d)) (stopAt store Log.disk commit k s)

theorem crashed_between (ht : Transaction s) (k : Nat) (ks : List Nat) : Between s (s.crashed k ks) := by
  unfold Log.crashed
  have hstart := (commit_durable ht).stops k
  generalize stopAt store Log.disk commit k s = d at hstart ⊢
  induction ks generalizing d with
  | nil => exact hstart
  | cons j ks ih => exact ih _ ((recover_durable ht hstart).stops j)

/-- The superblock says where the log is, and is no part of the transaction. -/
structure Named (s : Log) : Prop where
  start   : sbLogstart (s.disk 1) = s.start
  size    : sbNlog (s.disk 1) = s.size
  outside : ¬ s.inLog 1
  other   : (1 : Bno) ∉ s.block

/-- The machine starts with the disk `d`, before `initlog`. -/
def cold (d : Bno → Block) : Log := ⟨0, 0, [], d, d⟩

theorem Named.between (hn : Named s) (ht : Transaction s) (h : Between s d) : d 1 = s.disk 1 := by
  rcases h with h | h | h
  · exact h.home 1 hn.outside
  · exact (h.home 1 hn.outside).resolve_right fun hm => hn.other hm.1
  · rw [h.home 1 hn.outside, ht.clean 1 hn.other]

theorem initlog_run (h1 : sbLogstart (d 1) = s.start) (h2 : sbNlog (d 1) = s.size) :
    initlog (cold d) = recoverFromLog (s.boot d) := by
  have hboot : { cold d with start := sbLogstart (d 1), size := sbNlog (d 1) } = s.boot d := by
    rw [h1, h2]
    rfl
  rw [← hboot]
  rfl

/-- All the blocks of the transaction have their old contents or all have the new, no other block outside the log has
been written, and the header counts none. -/
structure Atomic (s : Log) (d : Bno → Block) : Prop where
  all    : (∀ b ∈ s.block, d b = s.disk b) ∨ ∀ b ∈ s.block, d b = s.cache b
  others : ∀ b, ¬ s.inLog b → b ∉ s.block → d b = s.disk b
  none   : headCount (d s.start) = 0

theorem Old.atomic (ht : Transaction s) (h : Old s d) : Atomic s d where
  all    := .inl fun b hb => h.home b (ht.outside b hb)
  others := fun b hb _ => h.home b hb
  none   := by
    unfold headCount
    rw [h.none]
    rfl

theorem New.atomic (ht : Transaction s) (h : New s d) : Atomic s d where
  all    := .inr fun b hb => h.home b (ht.outside b hb)
  others := fun b hb hm => (h.home b hb).trans (ht.clean b hm)
  none   := by
    unfold headCount
    rw [h.none]
    rfl

/-- **A transaction is atomic across crashes.**  Wherever `commit` is stopped, and wherever recovery is stopped any number
of times, recovery then runs to its end and leaves all of the transaction or nothing of it; and `initlog` runs it, where
the superblock is none of the transaction's blocks. -/
theorem recover_atomic (s : Log) (ht : Transaction s) (k : Nat) (ks : List Nat) :
    (recoverFromLog (s.boot (s.crashed k ks))).res = .ok () ∧
      Atomic s (recoverFromLog (s.boot (s.crashed k ks))).st.disk ∧
      (Named s → initlog (cold (s.crashed k ks)) = recoverFromLog (s.boot (s.crashed k ks))) := by
  have hb := crashed_between ht k ks
  obtain ⟨a, hok, hend⟩ := (recover_durable ht hb).ends.returns
  refine ⟨hok, ?_, fun hn => ?_⟩
  · rcases hend with h | h
    · exact h.atomic ht
    · exact h.atomic ht
  · have h1 := hn.between ht hb
    exact initlog_run (by rw [h1]; exact hn.start) (by rw [h1]; exact hn.size)

end Transaction

/-- A transaction of two blocks, on a disk as `mkfs` lays it out. -/
def twoBlocks : Log where
  start := 2
  size  := 30
  block := [99, 100]
  disk  := fun b w => if b = 1 then (if w = 3 then 30 else if w = 4 then 2 else 0) else 0
  cache := fun b w => if b = 1 then (if w = 3 then 30 else if w = 4 then 2 else 0) else if b = 99 then 7 else
    if b = 100 then 8 else 0

theorem twoBlocks_transaction : Transaction twoBlocks where
  distinct := by decide
  outside b hb := by
    rintro ⟨i, hi, he⟩
    have hlt : i < 30 := hi
    have hmem : b = 99#32 ∨ b = 100#32 := by simpa [twoBlocks] using hb
    have h := congrArg BitVec.toNat he
    rw [show twoBlocks.start = 2#32 from rfl, BitVec.toNat_add, BitVec.toNat_ofNat] at h
    simp only [BitVec.toNat_ofNat] at h
    rcases hmem with rfl | rfl <;> simp only [BitVec.toNat_ofNat] at h <;> omega
  room     := by decide
  array    := by decide
  clean b hb := by
    have h99 : b ≠ 99 := fun h => hb (by rw [h]; decide)
    have h100 : b ≠ 100 := fun h => hb (by rw [h]; decide)
    funext w
    show (if b = 1 then _ else if b = 99 then 7 else if b = 100 then 8 else 0) = _
    rw [if_neg h99, if_neg h100]
    rfl
  none     := rfl

/-- Stopped before the header is written nothing of it is there, and stopped between the two installs, in `commit` and
again in recovery, all of it. -/
theorem twoBlocks_atomic : Atomic twoBlocks (recoverFromLog (twoBlocks.boot (twoBlocks.crashed 2 []))).st.disk ∧
    (recoverFromLog (twoBlocks.boot (twoBlocks.crashed 2 []))).st.disk 99 0 = 0 ∧
    Atomic twoBlocks (recoverFromLog (twoBlocks.boot (twoBlocks.crashed 4 [1]))).st.disk ∧
    (recoverFromLog (twoBlocks.boot (twoBlocks.crashed 4 [1]))).st.disk 100 0 = 8 :=
  ⟨(recover_atomic twoBlocks twoBlocks_transaction 2 []).2.1, by decide +kernel,
    (recover_atomic twoBlocks twoBlocks_transaction 4 [1]).2.1, by decide +kernel⟩

end Fs
end Xv6
