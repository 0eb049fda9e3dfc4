import Xv6.Io.Bufs
import Xv6.Lib.Locked
/-!
# Io.Blocks — the buffer cache is a memory of blocks (bio.c)

The interface asks that changed data are written with `bwrite`, or kept by the log, before `brelse`.  Then what the callers
see are the events of a memory of locked cells, one for each block of each disk, wherever the data of a block are.
-/
namespace Xv6
namespace Bcache

variable {m n : Nat} {α : Type} {s t : Sys m n α} {l : List (Fin n)} {b c : Fin n} {p q : Fin m} {dev blockno : Nat}

abbrev Block := Nat × Nat

def Event.locked : Event m α → LockedEvent (Fin m) Block α
  | .got p dev blockno v   => .got p (dev, blockno) v
  | .store p dev blockno v => .store p (dev, blockno) v
  | .release p dev blockno => .release p (dev, blockno)

def Buf.block (x : Buf α) : Block := (x.dev, x.blockno)

/-- What the caller of a step promises: one of the two disks, and that data of a buffer given back are on disk, or will be
written. -/
def Act.allowed (s : Sys m n α) : Act m n α → Prop
  | .bread _ dev _ => dev < 2
  | .brelse p b    => s.idle p → s.holder b = some p →
    (s.cache.buf b).dirty = true ∨ s.onDisk (s.cache.buf b) = (s.cache.buf b).data
  | _              => True

def Sys.Allowed (s : Sys m n α) : List (Act m n α) → Prop
  | []      => True
  | a :: as => a.allowed s ∧ ∀ t, s.step a = .ok t → t.Allowed as

instance [DecidableEq α] (s : Sys m n α) : (a : Act m n α) → Decidable (a.allowed s)
  | .bread _ dev _ => inferInstanceAs (Decidable (dev < 2))
  | .brelse p b    => inferInstanceAs (Decidable (s.idle p → s.holder b = some p →
    (s.cache.buf b).dirty = true ∨ s.onDisk (s.cache.buf b) = (s.cache.buf b).data))
  | .lock _ | .served _ | .edit .. | .pin .. | .bwrite .. | .drop _ => .isTrue trivial

theorem allowed_cons {a : Act m n α} {as : List (Act m n α)} :
    s.Allowed (a :: as) ↔ a.allowed s ∧ ∀ t ∈ (s.step a).toOption, t.Allowed as :=
  and_congr_right fun _ => forall_congr' fun t => by cases s.step a <;> simp [Except.toOption, eq_comm]

instance Sys.decidableAllowed [DecidableEq α] : (s : Sys m n α) → (as : List (Act m n α)) → Decidable (s.Allowed as)
  | _, []      => .isTrue trivial
  | _, _ :: as =>
    have (t : Sys m n α) : Decidable (t.Allowed as) := decidableAllowed t as
    decidable_of_iff _ allowed_cons.symm

abbrev Cells (m : Nat) (α : Type) := Locked (Fin m) Block α

def Pc.fills : Pc n → Option (Fin n)
  | .reading b _ _ => some b
  | _              => none

/-- The process has the buffer from `bread`. -/
def Sys.Has (s : Sys m n α) (p : Fin m) (b : Fin n) : Prop := s.holder b = some p ∧ (s.pc p).fills ≠ some b

/-- Where the cells are: in the buffer for the block, or on the disk. -/
structure Stored (s : Sys m n α) (M : Cells m α) : Prop where
  cached : ∀ b, (s.cache.buf b).valid = true → M.cell (s.cache.buf b).block = (s.cache.buf b).data
  away   : ∀ k : Block, k.1 < 2 → (∀ b, (s.cache.buf b).valid = true → (s.cache.buf b).block ≠ k) →
    M.cell k = s.disk k.1 k.2
  clean  : ∀ b, (s.cache.buf b).valid = true → (s.cache.buf b).dirty = false → s.holder b = none →
    s.onDisk (s.cache.buf b) = (s.cache.buf b).data
  held   : ∀ k p, M.held k = some p ↔ ∃ b, s.Has p b ∧ (s.cache.buf b).block = k
  two    : ∀ b, (s.cache.buf b).dev < 2

theorem Inv.block_inj (h : Inv s l) (hb : (s.cache.buf b).live) (hc : (s.cache.buf c).live)
    (he : (s.cache.buf c).block = (s.cache.buf b).block) : c = b :=
  h.unique hb hc (Prod.ext_iff.1 he)

theorem Inv.held_live (h : Inv s l) (hb : s.holder b = some p) : (s.cache.buf b).live := .inr (h.holder_pos hb)

theorem onDisk_eq {x : Buf α} (h : x.dev < 2) : s.onDisk x = s.disk x.block.1 x.block.2 := by
  unfold Sys.onDisk Buf.block
  rw [Nat.mod_eq_of_lt h]

theorem Stored.free {M : Cells m α} (hM : Stored s M) (h : Inv s l) (hb : (s.cache.buf b).live) (hno : ∀ p, ¬ s.Has p b) :
    M.held (s.cache.buf b).block = none := by
  cases hh : M.held (s.cache.buf b).block with
  | none => rfl
  | some p =>
    obtain ⟨c, hc, hk⟩ := (hM.held _ _).1 hh
    obtain rfl := h.block_inj hb (h.held_live hc.1) hk
    exact absurd hc (hno p)

/-- **A step that leaves the data and the blocks**: only who has which buffer changes. -/
theorem Stored.keep {M M' : Cells m α} (hM : Stored s M) (hcell : M'.cell = M.cell) (hdisk : t.disk = s.disk)
    (hdata : ∀ b, (t.cache.buf b).block = (s.cache.buf b).block ∧ (t.cache.buf b).valid = (s.cache.buf b).valid ∧
      (t.cache.buf b).data = (s.cache.buf b).data)
    (hclean : ∀ b, (t.cache.buf b).dirty = false → t.holder b = none →
      (s.cache.buf b).dirty = false ∧ s.holder b = none ∨ s.onDisk (s.cache.buf b) = (s.cache.buf b).data)
    (hheld : ∀ k p, M'.held k = some p ↔ ∃ b, t.Has p b ∧ (s.cache.buf b).block = k) : Stored t M' where
  cached b hb := by
    rw [(hdata b).2.1] at hb
    rw [hcell, (hdata b).1, (hdata b).2.2]
    exact hM.cached b hb
  away k hk hb := by
    rw [hcell, hdisk]
    refine hM.away k hk fun b hv => ?_
    have := hb b (by rwa [(hdata b).2.1])
    rwa [(hdata b).1] at this
  clean b hv hd hh := by
    have hdev := Prod.ext_iff.1 (hdata b).1
    have hon : t.onDisk (t.cache.buf b) = s.onDisk (s.cache.buf b) := by
      unfold Sys.onDisk
      rw [hdisk]
      exact congr (congrArg _ (congrArg (· % 2) hdev.1)) hdev.2
    rw [hon, (hdata b).2.2]
    rw [(hdata b).2.1] at hv
    exact (hclean b hd hh).elim (fun e => hM.clean b hv e.1 e.2) id
  held k p := by
    rw [hheld]
    simp only [(hdata _).1]
  two b := by
    rw [show (t.cache.buf b).dev = (s.cache.buf b).dev from (Prod.ext_iff.1 (hdata b).1).1]
    exact hM.two b

theorem set_agree {P : Buf α → Buf α → Prop} {x : Buf α} (hsame : ∀ y, P y y) (hx : P (s.cache.buf b) x) (c : Fin n) :
    P (s.cache.buf c) ((s.cache.set b x).buf c) := by
  by_cases hc : c = b
  · rwa [hc, set_buf_self]
  · rw [set_buf_other _ _ hc]
    exact hsame _

theorem has_congr (hh : t.holder = s.holder) (hpc : ∀ q, (t.pc q).fills = (s.pc q).fills) (q : Fin m) (c : Fin n) :
    t.Has q c ↔ s.Has q c := by
  unfold Sys.Has
  rw [hh, hpc]

theorem goto_fills {w : Pc n} (hp : (s.pc p).fills = none) (hw : w.fills = none) (q : Fin m) :
    ((s.goto p w).pc q).fills = (s.pc q).fills := by
  by_cases hq : q = p
  · rw [hq, goto_pc_self, hw, hp]
  · rw [goto_pc_other hq]

def Follows (s t : Sys m n α) (M M' : Cells m α) : Prop :=
  t.trace = s.trace ∧ M' = M ∨ ∃ e : Event m α, t.trace = s.trace ++ [e] ∧ M.Step e.locked M'

theorem Stored.bread {M : Cells m α} (hM : Stored s M) (h : Inv s l) (hs : s.step (.bread p dev blockno) = .ok t)
    (hdev : dev < 2) : Stored t M ∧ t.trace = s.trace := by
  obtain rfl | ⟨hout, b, ⟨-, rfl⟩ | ⟨hmiss, hfree, rfl⟩⟩ := step_bread h.linked hs
  · exact ⟨hM, rfl⟩
  · have hhas := has_congr (s := s) (t := (s.setBuf b (s.cache.buf b).again).goto p (.asked b dev blockno)) rfl
      (goto_fills (s := s.setBuf b (s.cache.buf b).again) (by rw [setBuf_pc, hout]; rfl) rfl)
    refine ⟨hM.keep rfl rfl (fun c => ?_) (fun c hd hh => .inl ⟨?_, hh⟩) fun k q => ?_, rfl⟩
    · exact set_agree (P := fun y z => z.block = y.block ∧ z.valid = y.valid ∧ z.data = y.data)
        (x := (s.cache.buf b).again) (fun y => ⟨rfl, rfl, rfl⟩) ⟨rfl, rfl, rfl⟩ c
    · exact (set_agree (P := fun y z => z.dirty = y.dirty) (x := (s.cache.buf b).again) (fun y => rfl) rfl c).symm.trans hd
    · simp only [hhas, hM.held]
  · have hb : (s.cache.buf b).unused := by simpa using List.find?_some hfree
    have hholder : s.holder b = none := by
      cases hh : s.holder b with
      | none => rfl
      | some q => exact absurd hb.1 (h.holder_pos hh)
    have hhas := has_congr (s := s) (t := (s.setBuf b ((s.cache.buf b).anew dev blockno)).goto p (.asked b dev blockno)) rfl
      (goto_fills (s := s.setBuf b ((s.cache.buf b).anew dev blockno)) (by rw [setBuf_pc, hout]; rfl) rfl)
    have hother : ∀ c, c ≠ b → (s.cache.set b ((s.cache.buf b).anew dev blockno)).buf c = s.cache.buf c := fun c hc =>
      set_buf_other _ _ hc
    have hinvalid : ∀ c, ((s.cache.set b ((s.cache.buf b).anew dev blockno)).buf c).valid = true → c ≠ b := by
      rintro c hc rfl
      rw [set_buf_self] at hc
      cases hc
    refine ⟨⟨fun c hc => ?_, fun k hk hno => ?_, fun c hc hd hh => ?_, fun k q => ?_, fun c => ?_⟩, rfl⟩
    · have hcb := hinvalid c hc
      simp only [goto_cache, setBuf_cache, hother c hcb] at hc ⊢
      exact hM.cached c hc
    · by_cases hbk : (s.cache.buf b).valid = true ∧ (s.cache.buf b).block = k
      · -- the block that is given up is on the disk
        rw [← hbk.2, hM.cached b hbk.1, ← hM.clean b hbk.1 hb.2 hholder, onDisk_eq (hM.two b)]
        rfl
      · refine hM.away k hk fun c hc he => ?_
        by_cases hcb : c = b
        · subst hcb
          exact hbk ⟨hc, he⟩
        · refine hno c ?_ ?_ <;> simpa only [goto_cache, setBuf_cache, hother c hcb]
    · have hcb := hinvalid c hc
      simp only [goto_cache, setBuf_cache, hother c hcb] at hc hd ⊢
      exact hM.clean c hc hd hh
    · rw [hM.held]
      refine exists_congr fun c => ?_
      rw [hhas]
      refine and_congr_right fun hc => ?_
      have hcb : c ≠ b := by
        rintro rfl
        rw [hc.1] at hholder
        cases hholder
      simp only [goto_cache, setBuf_cache, hother c hcb]
    · exact set_agree (P := fun y z => y.dev < 2 → z.dev < 2) (fun y => id) (fun _ => hdev) c (hM.two c)

theorem Stored.gain {M : Cells m α} (hM : Stored s M) (h : Inv s l) (hb : (s.cache.buf b).live) (hno : ∀ q, ¬ s.Has q b)
    (hhas : ∀ q c, t.Has q c ↔ c = b ∧ q = p ∨ s.Has q c) (k : Block) (q : Fin m) :
    Function.update M.held (s.cache.buf b).block (some p) k = some q ↔ ∃ c, t.Has q c ∧ (s.cache.buf c).block = k := by
  simp only [hhas]
  by_cases hk : k = (s.cache.buf b).block
  · rw [hk, Function.update_self]
    constructor
    · rintro ⟨⟩
      exact ⟨b, .inl ⟨rfl, rfl⟩, rfl⟩
    · rintro ⟨c, ⟨-, rfl⟩ | hc, he⟩
      · rfl
      · obtain rfl := h.block_inj hb (h.held_live hc.1) he
        exact absurd hc (hno q)
  · rw [Function.update_of_ne hk, hM.held]
    refine exists_congr fun c => and_congr_left fun he => (or_iff_right ?_).symm
    rintro ⟨rfl, -⟩
    exact hk he.symm

theorem Stored.lose {M : Cells m α} (hM : Stored s M) (h : Inv s l) (hb : (s.cache.buf b).live)
    (hhas : ∀ q c, t.Has q c ↔ c ≠ b ∧ s.Has q c) (k : Block) (q : Fin m) :
    Function.update M.held (s.cache.buf b).block none k = some q ↔ ∃ c, t.Has q c ∧ (s.cache.buf c).block = k := by
  simp only [hhas]
  by_cases hk : k = (s.cache.buf b).block
  · rw [hk, Function.update_self]
    refine iff_of_false nofun ?_
    rintro ⟨c, ⟨hcb, hc⟩, he⟩
    exact hcb (h.block_inj hb (h.held_live hc.1) he)
  · rw [Function.update_of_ne hk, hM.held]
    refine exists_congr fun c => and_congr_left fun he => (and_iff_right ?_).symm
    rintro rfl
    exact hk he.symm

theorem Stored.lock {M : Cells m α} (hM : Stored s M) (h : Inv s l) (hs : s.step (.lock p) = .ok t) :
    ∃ M', Stored t M' ∧ Follows s t M M' := by
  obtain rfl | ⟨b, dev, blockno, hpc, hfree, hcase⟩ := step_lock hs
  · exact ⟨M, hM, .inl ⟨rfl, rfl⟩⟩
  have hat := h.place p
  unfold Sys.At at hat
  rw [hpc] at hat
  have hkey : (s.cache.buf b).block = (dev, blockno) := Prod.ext hat.1 hat.2
  have hlive : (s.cache.buf b).live := .inr (h.ref_pos (p := p) (by rw [hpc]; rfl))
  have hno : ∀ q, ¬ s.Has q b := fun q hq => by
    have := hq.1
    rw [hfree] at this
    cases this
  have hholder : ∀ c q, (s.setHolder b (some p)).holder c = some q ↔ c = b ∧ q = p ∨ s.holder c = some q := fun c q => by
    by_cases hc : c = b
    · rw [hc, setHolder_self, hfree]
      simp [eq_comm]
    · rw [setHolder_other hc]
      simp [hc]
  have hnone : (s.pc p).fills = none := by rw [hpc]; rfl
  have hclean : ∀ c, (s.cache.buf c).dirty = false → (s.setHolder b (some p)).holder c = none →
      (s.cache.buf c).dirty = false ∧ s.holder c = none ∨ s.onDisk (s.cache.buf c) = (s.cache.buf c).data :=
    fun c hd hc => by
      have hcb : c ≠ b := by
        rintro rfl
        rw [setHolder_self] at hc
        cases hc
      rw [setHolder_other hcb] at hc
      exact .inl ⟨hd, hc⟩
  rcases hcase with ⟨hv, rfl⟩ | ⟨hv, rfl⟩
  · have hhas : ∀ q c, (((s.setHolder b (some p)).goto p .out).emit (.got p dev blockno (s.cache.buf b).data)).Has q c ↔
        c = b ∧ q = p ∨ s.Has q c := fun q c => by
      have hfills := goto_fills (s := s.setHolder b (some p)) (p := p) (w := .out) hnone rfl q
      change (s.setHolder b (some p)).holder c = some q ∧ (((s.setHolder b (some p)).goto p .out).pc q).fills ≠ some c ↔ _
      rw [hfills, hholder, or_and_right]
      refine or_congr_left (and_iff_left_of_imp ?_)
      rintro ⟨-, rfl⟩
      rw [setHolder_pc, hnone]
      nofun
    refine ⟨{ M with held := Function.update M.held (dev, blockno) (some p) }, ?_, .inr ⟨_, rfl, ?_⟩⟩
    · rw [← hkey]
      exact hM.keep rfl rfl (fun _ => ⟨rfl, rfl, rfl⟩) hclean (hM.gain h hlive hno hhas)
    · have hval : (s.cache.buf b).data = M.cell (dev, blockno) := by rw [← hkey, hM.cached b hv]
      rw [Event.locked, hval]
      exact .got p (hkey ▸ hM.free h hlive hno)
  · have hhas : ∀ q c, ((s.setHolder b (some p)).goto p (.reading b dev blockno)).Has q c ↔ s.Has q c := fun q c => by
      unfold Sys.Has
      rw [goto_holder, hholder]
      by_cases hq : q = p
      · rw [hq, goto_pc_self, hnone]
        by_cases hc : c = b
        · simp [hc, hfree, Pc.fills]
        · simp [hc, Ne.symm hc, Pc.fills]
      · rw [goto_pc_other hq, setHolder_pc]
        simp [hq]
    refine ⟨M, hM.keep rfl rfl (fun _ => ⟨rfl, rfl, rfl⟩) hclean fun k q => ?_, .inl ⟨rfl, rfl⟩⟩
    rw [hM.held]
    simp only [hhas]

theorem Stored.fill {M : Cells m α} (hM : Stored s M) (h : Inv s l) (hpc : s.pc p = .reading b dev blockno) :
    ∃ M', Stored (((s.transfer b).goto p .out).emit (.got p dev blockno ((s.transfer b).cache.buf b).data)) M' ∧
      M.Step (.got p (dev, blockno) ((s.transfer b).cache.buf b).data) M' := by
  have hat := h.place p
  unfold Sys.At at hat
  rw [hpc] at hat
  obtain ⟨hcaches, hb, hv⟩ := hat
  have hkey : (s.cache.buf b).block = (dev, blockno) := Prod.ext hcaches.1 hcaches.2
  have hlive := h.held_live hb
  have hd : (s.cache.buf b).dirty = false := by
    cases hd : (s.cache.buf b).dirty with
    | false => rfl
    | true => rw [h.dirty b hd] at hv; cases hv
  have hdisk : (s.transfer b).disk = s.disk := by simp [Sys.transfer, hd, Sys.setBuf]
  have hcache : (s.transfer b).cache = s.cache.set b (s.afterIo (s.cache.buf b)) := (transfer_kept s b).1
  have hholder : (s.transfer b).holder = s.holder := (transfer_kept s b).2.1
  have hpcs : (s.transfer b).pc = s.pc := (transfer_kept s b).2.2.1
  have hno : ∀ q, ¬ s.Has q b := fun q hq => by
    obtain rfl : p = q := Option.some.inj (hb.symm.trans hq.1)
    exact hq.2 (by rw [hpc]; rfl)
  have hcell : M.cell (dev, blockno) = s.onDisk (s.cache.buf b) := by
    rw [onDisk_eq (hM.two b), hkey]
    refine hM.away _ ?_ fun c hc he => ?_
    · rw [← hkey]
      exact hM.two b
    · obtain rfl := h.block_inj hlive (.inl hc) (he.trans hkey.symm)
      rw [hv] at hc
      cases hc
  have hdata : ((s.transfer b).cache.buf b).data = M.cell (dev, blockno) := by
    rw [hcell, hcache, set_buf_self]
    simp [Sys.afterIo, hd]
  have hhas : ∀ q c, (((s.transfer b).goto p .out).emit (.got p dev blockno ((s.transfer b).cache.buf b).data)).Has q c ↔
      c = b ∧ q = p ∨ s.Has q c := fun q c => by
    change (s.transfer b).holder c = some q ∧ (((s.transfer b).goto p .out).pc q).fills ≠ some c ↔ _
    unfold Sys.Has
    rw [hholder]
    by_cases hq : q = p
    · subst hq
      rw [goto_pc_self, hpc]
      by_cases hc : c = b
      · simp [hc, hb, Pc.fills]
      · simp [hc, Ne.symm hc, Pc.fills]
    · rw [goto_pc_other hq, hpcs]
      simp [hq]
  have hother : ∀ c, c ≠ b → (s.transfer b).cache.buf c = s.cache.buf c := fun c hc => by
    rw [hcache, set_buf_other _ _ hc]
  have hblock : ∀ c, ((s.transfer b).cache.buf c).block = (s.cache.buf c).block := fun c => by
    rw [hcache]
    exact set_agree (P := fun y z => z.block = y.block) (x := s.afterIo (s.cache.buf b)) (fun _ => rfl) rfl c
  refine ⟨{ M with held := Function.update M.held (dev, blockno) (some p) }, ⟨fun c hc => ?_, fun k hk hno => ?_,
    fun c hc hdc hh => ?_, fun k q => ?_, fun c => ?_⟩, ?_⟩
  · change ((s.transfer b).cache.buf c).valid = true at hc
    change M.cell ((s.transfer b).cache.buf c).block = ((s.transfer b).cache.buf c).data
    by_cases hcb : c = b
    · rw [hcb, hdata, hblock, hkey]
    · rw [hother c hcb] at hc ⊢
      exact hM.cached c hc
  · change M.cell k = (s.transfer b).disk k.1 k.2
    rw [hdisk]
    refine hM.away k hk fun c hc he => hno c ?_ ((hblock c).trans he)
    by_cases hcb : c = b
    · rw [hcb] at hc
      rw [hv] at hc
      cases hc
    · exact (congrArg Buf.valid (hother c hcb)).trans hc
  · have hcb : c ≠ b := by
      rintro rfl
      have : s.holder c = none := hholder ▸ hh
      rw [hb] at this
      cases this
    change ((s.transfer b).cache.buf c).valid = true at hc
    change ((s.transfer b).cache.buf c).dirty = false at hdc
    change (s.transfer b).holder c = none at hh
    change (s.transfer b).onDisk ((s.transfer b).cache.buf c) = ((s.transfer b).cache.buf c).data
    rw [hholder] at hh
    rw [hother c hcb] at hc hdc ⊢
    rw [show (s.transfer b).onDisk (s.cache.buf c) = s.onDisk (s.cache.buf c) by unfold Sys.onDisk; rw [hdisk]]
    exact hM.clean c hc hdc hh
  · refine (hkey ▸ hM.gain h hlive hno hhas k q :).trans (exists_congr fun c => and_congr_right fun _ => ?_)
    rw [← hblock]
    rfl
  · have := (Prod.ext_iff.1 (hblock c)).1
    exact this.trans_lt (hM.two c)
  · rw [hdata]
    exact .got p (hkey ▸ hM.free h hlive hno)

theorem Stored.write {M : Cells m α} (hM : Stored s M) (h : Inv s l) (hpc : s.pc p = .writing b) :
    Stored ((s.transfer b).goto p .out) M := by
  have hat := h.place p
  unfold Sys.At at hat
  rw [hpc] at hat
  obtain ⟨hb, hd⟩ := hat
  have hv := h.dirty b hd
  have hdisk : (s.transfer b).disk = Function.update s.disk ((s.cache.buf b).dev % 2)
      (Function.update (s.disk ((s.cache.buf b).dev % 2)) (s.cache.buf b).blockno (s.cache.buf b).data) := by
    simp [Sys.transfer, hd, Sys.setBuf, Sys.setDisk]
  obtain ⟨hcache, hholder, hpcs, -⟩ := transfer_kept s b
  have hagree : ∀ c, ((s.transfer b).cache.buf c).block = (s.cache.buf c).block ∧
      ((s.transfer b).cache.buf c).valid = (s.cache.buf c).valid ∧
      ((s.transfer b).cache.buf c).data = (s.cache.buf c).data := fun c => by
    rw [hcache]
    exact set_agree (P := fun y z => z.block = y.block ∧ z.valid = y.valid ∧ z.data = y.data)
      (x := s.afterIo (s.cache.buf b)) (fun _ => ⟨rfl, rfl, rfl⟩) ⟨rfl, hv.symm, by simp [Sys.afterIo, hd]⟩ c
  -- another block of a disk is not written
  have hsame : ∀ k : Block, k.1 < 2 → k ≠ (s.cache.buf b).block → (s.transfer b).disk k.1 k.2 = s.disk k.1 k.2 :=
    fun k hk hne => by
      rw [hdisk, Nat.mod_eq_of_lt (hM.two b)]
      by_cases hk1 : k.1 = (s.cache.buf b).dev
      · have hk2 : k.2 ≠ (s.cache.buf b).blockno := fun e => hne (Prod.ext hk1 e)
        rw [hk1, Function.update_self, Function.update_of_ne hk2]
      · rw [Function.update_of_ne hk1]
  have hhas := has_congr (s := s) (t := (s.transfer b).goto p .out) hholder fun q =>
    (goto_fills (s := s.transfer b) (by rw [hpcs, hpc]; rfl) rfl q).trans (by rw [hpcs])
  refine ⟨fun c hc => ?_, fun k hk hno => ?_, fun c hc hdc hh => ?_, fun k q => ?_, fun c => ?_⟩
  · rw [goto_cache] at hc ⊢
    rw [(hagree c).1, (hagree c).2.2]
    exact hM.cached c ((hagree c).2.1 ▸ hc)
  · have hne : k ≠ (s.cache.buf b).block := fun e => hno b ((hagree b).2.1.trans hv) ((hagree b).1.trans e.symm)
    refine (hM.away k hk fun c hc he => hno c ((hagree c).2.1.trans hc) ((hagree c).1.trans he)).trans ?_
    exact (hsame k hk hne).symm
  · rw [goto_holder, hholder] at hh
    have hcb : c ≠ b := by
      rintro rfl
      rw [hb] at hh
      cases hh
    have hbuf : (s.transfer b).cache.buf c = s.cache.buf c := by rw [hcache, set_buf_other _ _ hcb]
    rw [goto_cache, hbuf] at hc hdc ⊢
    have hne : (s.cache.buf c).block ≠ (s.cache.buf b).block := fun e => hcb (h.block_inj (.inl hv) (.inl hc) e)
    have hclean := hM.clean c hc hdc hh
    rw [onDisk_eq (hM.two c)] at hclean ⊢
    exact (hsame _ (hM.two c) hne).trans hclean
  · rw [hM.held]
    refine exists_congr fun c => ?_
    rw [hhas, goto_cache, (hagree c).1]
  · exact ((Prod.ext_iff.1 (hagree c).1).1).trans_lt (hM.two c)

theorem Stored.served {M : Cells m α} (hM : Stored s M) (h : Inv s l) (hs : s.step (.served p) = .ok t) :
    ∃ M', Stored t M' ∧ Follows s t M M' := by
  obtain rfl | ⟨b, dev, blockno, hpc, rfl⟩ | ⟨b, hpc, rfl⟩ := step_served hs
  · exact ⟨M, hM, .inl ⟨rfl, rfl⟩⟩
  · obtain ⟨M', hM', hstep⟩ := hM.fill h hpc
    refine ⟨M', hM', .inr ⟨.got p dev blockno ((s.transfer b).cache.buf b).data, ?_, hstep⟩⟩
    have htrace : (s.transfer b).trace = s.trace := by
      simp only [Sys.transfer]
      split_ifs <;> rfl
    change (s.transfer b).trace ++ _ = _
    rw [htrace]
  · refine ⟨M, hM.write h hpc, .inl ⟨?_, rfl⟩⟩
    change (s.transfer b).trace = s.trace
    simp only [Sys.transfer]
    split_ifs <;> rfl

theorem Stored.edit {M : Cells m α} {v : α} (hM : Stored s M) (h : Inv s l) (hs : s.step (.edit p b v) = .ok t) :
    ∃ M', Stored t M' ∧ Follows s t M M' := by
  obtain rfl | ⟨hout, hb, rfl⟩ := step_edit hs
  · exact ⟨M, hM, .inl ⟨rfl, rfl⟩⟩
  have hv := h.valid hout hb
  have hheld : M.held (s.cache.buf b).block = some p := (hM.held _ _).2 ⟨b, ⟨hb, by rw [hout]; nofun⟩, rfl⟩
  have hother : ∀ c, c ≠ b → (s.cache.set b { s.cache.buf b with data := v }).buf c = s.cache.buf c := fun c hc =>
    set_buf_other _ _ hc
  have hagree := set_agree (s := s) (b := b) (x := { s.cache.buf b with data := v }) (P := fun y z => z.block = y.block ∧
    z.valid = y.valid ∧ z.dirty = y.dirty) (fun _ => ⟨rfl, rfl, rfl⟩) ⟨rfl, rfl, rfl⟩
  refine ⟨{ M with cell := Function.update M.cell (s.cache.buf b).block v }, ⟨fun c hc => ?_, fun k hk hno => ?_,
    fun c hc hd hh => ?_, fun k q => ?_, fun c => ?_⟩, .inr ⟨_, rfl, .store v hheld⟩⟩
  · change ((s.cache.set b { s.cache.buf b with data := v }).buf c).valid = true at hc
    change Function.update M.cell (s.cache.buf b).block v ((s.cache.set b { s.cache.buf b with data := v }).buf c).block =
      ((s.cache.set b { s.cache.buf b with data := v }).buf c).data
    by_cases hcb : c = b
    · rw [hcb, (hagree b).1, Function.update_self, set_buf_self]
    · rw [hother c hcb] at hc ⊢
      rw [Function.update_of_ne fun e => hcb (h.block_inj (.inl hv) (.inl hc) e)]
      exact hM.cached c hc
  · have hne : k ≠ (s.cache.buf b).block := fun e => hno b ((hagree b).2.1.trans hv) ((hagree b).1.trans e.symm)
    refine (Function.update_of_ne hne _ _).trans (hM.away k hk fun c hc he => ?_)
    exact hno c ((hagree c).2.1.trans hc) ((hagree c).1.trans he)
  · have hcb : c ≠ b := by
      rintro rfl
      exact absurd (hb.symm.trans hh) nofun
    change ((s.cache.set b { s.cache.buf b with data := v }).buf c).valid = true at hc
    change ((s.cache.set b { s.cache.buf b with data := v }).buf c).dirty = false at hd
    change s.onDisk ((s.cache.set b { s.cache.buf b with data := v }).buf c) =
      ((s.cache.set b { s.cache.buf b with data := v }).buf c).data
    rw [hother c hcb] at hc hd ⊢
    exact hM.clean c hc hd hh
  · refine (hM.held k q).trans (exists_congr fun c => and_congr_right fun _ => ?_)
    rw [← (hagree c).1]
    rfl
  · exact ((Prod.ext_iff.1 (hagree c).1).1).trans_lt (hM.two c)

theorem Stored.mark {M : Cells m α} {w : Pc n} (hM : Stored s M) (hout : s.pc p = .out) (hb : s.holder b = some p)
    (hw : w.fills = none) : Stored ((s.setBuf b { s.cache.buf b with dirty := true }).goto p w) M := by
  have hhas := has_congr (s := s) (t := (s.setBuf b { s.cache.buf b with dirty := true }).goto p w) rfl
    (goto_fills (s := s.setBuf b { s.cache.buf b with dirty := true }) (by rw [setBuf_pc, hout]; rfl) hw)
  refine hM.keep rfl rfl (fun c => ?_) (fun c hd hh => .inl ⟨?_, hh⟩) fun k q => ?_
  · exact set_agree (P := fun y z => z.block = y.block ∧ z.valid = y.valid ∧ z.data = y.data)
      (x := { s.cache.buf b with dirty := true }) (fun y => ⟨rfl, rfl, rfl⟩) ⟨rfl, rfl, rfl⟩ c
  · have hcb : c ≠ b := by
      rintro rfl
      exact absurd (hb.symm.trans hh) nofun
    rwa [goto_cache, setBuf_cache, set_buf_other _ _ hcb] at hd
  · simp only [hhas, hM.held]

theorem Stored.brelse {M : Cells m α} (hM : Stored s M) (h : Inv s l) (hs : s.step (.brelse p b) = .ok t)
    (hsaved : s.idle p → s.holder b = some p →
      (s.cache.buf b).dirty = true ∨ s.onDisk (s.cache.buf b) = (s.cache.buf b).data) :
    ∃ M', Stored t M' ∧ Follows s t M M' := by
  obtain rfl | ⟨hout, hb, rfl⟩ := step_brelse hs
  · exact ⟨M, hM, .inl ⟨rfl, rfl⟩⟩
  have hheld : M.held (s.cache.buf b).block = some p := (hM.held _ _).2 ⟨b, ⟨hb, by rw [hout]; nofun⟩, rfl⟩
  have hhas : ∀ q c, (((s.setHolder b none).goto p (.left b)).emit
      (.release p (s.cache.buf b).dev (s.cache.buf b).blockno)).Has q c ↔ c ≠ b ∧ s.Has q c := fun q c => by
    have hfills := goto_fills (s := s.setHolder b none) (p := p) (w := .left b) (by rw [setHolder_pc, hout]; rfl) rfl q
    change (s.setHolder b none).holder c = some q ∧ (((s.setHolder b none).goto p (.left b)).pc q).fills ≠ some c ↔ _
    rw [hfills, setHolder_pc]
    unfold Sys.Has
    by_cases hc : c = b
    · simp [hc]
    · rw [setHolder_other hc]
      simp [hc]
  refine ⟨{ M with held := Function.update M.held (s.cache.buf b).block none }, ?_, .inr ⟨_, rfl, .release hheld⟩⟩
  refine hM.keep rfl rfl (fun _ => ⟨rfl, rfl, rfl⟩) (fun c hd hh => ?_) (hM.lose h (h.held_live hb) hhas)
  by_cases hc : c = b
  · subst hc
    refine .inr ((hsaved (idle_iff.2 hout) hb).resolve_left ?_)
    change (s.cache.buf c).dirty = false at hd
    rw [hd]
    nofun
  · change (s.setHolder b none).holder c = none at hh
    rw [setHolder_other hc] at hh
    exact .inl ⟨hd, hh⟩

theorem Stored.drop {M : Cells m α} (hM : Stored s M) (h : Inv s l) (hs : s.step (.drop p) = .ok t) :
    Stored t M ∧ t.trace = s.trace := by
  obtain rfl | ⟨b, d, hpc, hbuf, hcase⟩ := step_drop h.linked h.all hs
  · exact ⟨hM, rfl⟩
  have hkeep : ∀ t : Sys m n α, t.cache = d → t.disk = s.disk → t.holder = s.holder →
      t.pc = Function.update s.pc p .out → Stored t M := by
    intro t htc htd hth htp
    have hhas := has_congr (s := s) (t := t) hth fun q => by
      rw [htp]
      exact goto_fills (by rw [hpc]; rfl) rfl q
    have hagree := set_agree (s := s) (b := b) (x := (s.cache.buf b).less) (P := fun y z => z.block = y.block ∧
      z.valid = y.valid ∧ z.data = y.data ∧ z.dirty = y.dirty) (fun _ => ⟨rfl, rfl, rfl, rfl⟩) ⟨rfl, rfl, rfl, rfl⟩
    rw [← hbuf, ← htc] at hagree
    refine hM.keep rfl htd (fun c => ⟨(hagree c).1, (hagree c).2.1, (hagree c).2.2.1⟩) (fun c hd hh => .inl ⟨?_, ?_⟩)
      fun k q => ?_
    · exact (hagree c).2.2.2.symm.trans hd
    · rwa [hth] at hh
    · simp only [hhas, hM.held]
  rcases hcase with ⟨-, -, rfl⟩ | ⟨-, -, rfl⟩
  · exact ⟨hkeep _ rfl rfl rfl rfl, rfl⟩
  · exact ⟨hkeep _ rfl rfl rfl rfl, rfl⟩

theorem Stored.step {M : Cells m α} (hM : Stored s M) (h : Inv s l) {a : Act m n α} (hs : s.step a = .ok t)
    (ha : a.allowed s) : ∃ M', Stored t M' ∧ Follows s t M M' := by
  cases a with
  | bread p dev blockno => exact ⟨M, (hM.bread h hs ha).1, .inl ⟨(hM.bread h hs ha).2, rfl⟩⟩
  | lock p => exact hM.lock h hs
  | served p => exact hM.served h hs
  | edit p b v => exact hM.edit h hs
  | pin p b =>
    obtain rfl | ⟨hout, hb, rfl⟩ := step_pin hs
    · exact ⟨M, hM, .inl ⟨rfl, rfl⟩⟩
    · have := hM.mark (w := .out) hout hb rfl
      rw [goto_out (s := s.setBuf b _) hout] at this
      exact ⟨M, this, .inl ⟨rfl, rfl⟩⟩
  | bwrite p b =>
    obtain rfl | ⟨hout, hb, rfl⟩ := step_bwrite hs
    · exact ⟨M, hM, .inl ⟨rfl, rfl⟩⟩
    · exact ⟨M, hM.mark hout hb rfl, .inl ⟨rfl, rfl⟩⟩
  | brelse p b => exact hM.brelse h hs ha
  | drop p => exact ⟨M, (hM.drop h hs).1, .inl ⟨(hM.drop h hs).2, rfl⟩⟩

theorem Stored.run : ∀ {as : List (Act m n α)} {s : Sys m n α} {l : List (Fin n)} {M M₀ : Cells m α}, Inv s l → Stored s M →
    M₀.Run (s.trace.map Event.locked) M → s.Allowed as → s.run as = .ok t →
      ∃ M', Stored t M' ∧ M₀.Run (t.trace.map Event.locked) M'
  | [], _, _, M, _, _, hM, hR, _, hs          => by
    cases hs
    exact ⟨M, hM, hR⟩
  | a :: as, s, l, M, M₀, h, hM, hR, ha, hs => by
    obtain ⟨u, hu, hrun⟩ := run_cons hs
    obtain ⟨l', hl'⟩ := h.step hu
    obtain ⟨M', hM', ⟨htrace, rfl⟩ | ⟨e, htrace, hstep⟩⟩ := hM.step h hu ha.1
    · exact Stored.run hl' hM' (by rwa [htrace]) (ha.2 u hu) hrun
    · refine Stored.run hl' hM' ?_ (ha.2 u hu) hrun
      rw [htrace, List.map_append]
      exact .snoc hR hstep

/-- **The buffer cache is a memory of blocks**: in every run whose callers save what they change before they give it back,
the events are those of locked cells that start with what is on the disks, and a buffer from `bread` has what was last
stored to its block. -/
theorem cache_memory {m n : Nat} {α : Type} {zero : α} {next prev : Node n → Node n} {disk : Nat → Nat → α}
    {as : List (Act m n α)} {s : Sys m n α} (hs : (Sys.init m zero next prev disk).run as = .ok s)
    (ha : (Sys.init m zero next prev disk).Allowed as) :
    (∃ M, (Locked.start fun k => disk k.1 k.2).Run (s.trace.map Event.locked) M) ∧
      ∀ es es' p k v, s.trace.map Event.locked = es ++ .got p k v :: es' →
        v = es.foldl Locked.put (fun k => disk k.1 k.2) k := by
  have h := Inv.init m zero next prev disk
  have hzero : ∀ b, (Sys.init m zero next prev disk).cache.buf b = ⟨false, false, 0, 0, 0, zero⟩ := fun b => by
    obtain ⟨c, hrun, -, hbuf⟩ := binit_run (⟨fun _ => ⟨false, false, 0, 0, 0, zero⟩, next, prev⟩ : Cache n α)
    exact (congrArg (fun o => o.st.buf b) hrun).trans (congrFun hbuf b)
  have hM : Stored (Sys.init m zero next prev disk) (Locked.start fun k => disk k.1 k.2) := by
    refine ⟨fun b hb => ?_, fun k _ _ => rfl, fun b hb => ?_, fun k p => iff_of_false nofun ?_, fun b => ?_⟩
    · rw [hzero] at hb
      cases hb
    · rw [hzero] at hb
      cases hb
    · rintro ⟨b, hb, -⟩
      cases hb.1
    · rw [hzero]
      exact Nat.zero_lt_two
  obtain ⟨M, -, hR⟩ := hM.run h (.nil _) ha hs
  refine ⟨⟨M, hR⟩, fun es es' p k v he => ?_⟩
  rw [he] at hR
  exact hR.got

/-- A block is read, changed and written back; its buffer, the only one, is taken for another block, and the block is read
again. -/
theorem cache_memory_one : ∃ s : Sys 1 1 Nat, (Sys.init 1 0 (fun _ => none) (fun _ => none) fun _ k => k).run
      [.bread 0 1 5, .lock 0, .served 0, .edit 0 0 7, .bwrite 0 0, .served 0, .brelse 0 0, .drop 0,
        .bread 0 1 6, .lock 0, .served 0, .brelse 0 0, .drop 0, .bread 0 1 5, .lock 0, .served 0] = .ok s ∧
    (∃ M, (Locked.start fun k => k.2).Run (s.trace.map Event.locked) M) ∧
    ∃ es, s.trace.map Event.locked = es ++ [.got 0 (1, 5) 7] ∧ 7 = es.foldl Locked.put (fun k => k.2) (1, 5) := by
  obtain ⟨s, hs, hend⟩ : ∃ s : Sys 1 1 Nat, (Sys.init 1 0 (fun _ => none) (fun _ => none) fun _ k => k).run
      [.bread 0 1 5, .lock 0, .served 0, .edit 0 0 7, .bwrite 0 0, .served 0, .brelse 0 0, .drop 0,
        .bread 0 1 6, .lock 0, .served 0, .brelse 0 0, .drop 0, .bread 0 1 5, .lock 0, .served 0] = .ok s ∧
      decide (s.trace.map Event.locked = [.got 0 (1, 5) 5, .store 0 (1, 5) 7, .release 0 (1, 5), .got 0 (1, 6) 6,
        .release 0 (1, 6)] ++ [.got 0 (1, 5) 7]) = true := ends_any (by decide +kernel)
  have ha : (Sys.init 1 0 (fun _ => none) (fun _ => none) fun _ k => k : Sys 1 1 Nat).Allowed
      [.bread 0 1 5, .lock 0, .served 0, .edit 0 0 7, .bwrite 0 0, .served 0, .brelse 0 0, .drop 0,
        .bread 0 1 6, .lock 0, .served 0, .brelse 0 0, .drop 0, .bread 0 1 5, .lock 0, .served 0] := by decide +kernel
  have htrace := of_decide_eq_true hend
  obtain ⟨hrun, hgot⟩ := cache_memory hs ha
  exact ⟨s, hs, hrun, _, htrace, hgot _ [] 0 (1, 5) 7 htrace⟩

end Bcache
end Xv6
