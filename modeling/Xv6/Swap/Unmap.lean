import Xv6.Swap.Map
/-!
# Swap.Unmap — pages and address spaces are given up

`deallocuvm` frees a page before it clears its PTE, so the layout is kept by the two steps together.  A range is known
to be empty once the loop has passed it, and a directory whose user half is empty may be freed with its tables.
-/
namespace Xv6
namespace Swap

open Mem
open Prog (Triple)

variable {sl : Prop} {Z Z' : Empties} {role role' : Roles} {s : Kern}

def pageNo (i j : BitVec 10) : Nat := 1024 * i.toNat + j.toNat

/-- The pages of `D` from `lo` to `hi` are empty as well. -/
def Empties.range (Z : Empties) (D : Frame) (lo hi : Nat) : Empties :=
  fun D' i j => Z D' i j ∨ (D' = D ∧ lo ≤ 4096 * pageNo i j ∧ 4096 * pageNo i j < hi)

theorem pageNo_pdx_ptx (a : Addr) : pageNo (pdx a) (ptx a) = a.toNat / 4096 := by
  have := a.isLt
  unfold pageNo pdx ptx
  rw [BitVec.extractLsb'_toNat, BitVec.extractLsb'_toNat, Nat.shiftRight_eq_div_pow, Nat.shiftRight_eq_div_pow]
  omega

theorem Inv.relabel (h : Inv sl Z role s) (hZ : ∀ T D i j, role T = .tab D i → i < 512#10 → Z' D i j →
    Z D i j ∨ s.pte (T, j) = 0) : Inv sl Z' role s := by
  refine ⟨{ h.mem with empty := fun T D i j hT hi hz => ?_ }, h.lru⟩
  rcases hZ T D i j hT hi hz with hz | h0
  · exact h.mem.empty T D i j hT hi hz
  · exact h0

theorem setPage_setPte_comm {f : Frame} {q : PtePtr} (p : Page) (v : Pte) (l : List Frame) (h : q.1 ≠ f) :
    Kern.setPte { s.setPage f p with freelist := l } q v = { (s.setPte q v).setPage f p with freelist := l } := by
  have hm : (Kern.setPte { s.setPage f p with freelist := l } q v).mem = ((s.setPte q v).setPage f p).mem := by
    funext g
    simp only [Kern.setPte, Kern.setPage]
    by_cases hg : g = q.1
    · rw [hg, if_pos rfl, if_pos rfl, if_neg h, if_neg h]
    · rw [if_neg hg, if_neg hg]
  exact congrArg (fun m => { s with mem := m, freelist := l }) hm

/-! ## One page -/

theorem Inv.unmap {T D : Frame} {i j : BitVec 10} (h : MemOk sl Z role s)
    (hl : LruOk (fun f => Entry role s f ∧ ¬ EntryOf s D i j f) s) (hT : role T = .tab D i)
    (hr : ∀ f, role' f = role f ∨ (role f = .user D i j ∧ role' f = .held)) {s' : Kern}
    (hs : ∀ g n, s'.pte (g, n) = if (g, n) = (T, j) then 0 else s.pte (g, n)) (hf : s'.freelist = s.freelist)
    (hp : s'.pages = s.pages) (hh : s'.pageLruHead = s.pageLruHead) (hln : SameLink s s')
    (hb : sl → ∀ k, checkBit s' k = true ↔ checkBit s k = true ∧ ¬ Holds role s (T, j) k) :
    Inv sl (fun D' i' j' => Z D' i' j' ∨ (D', i', j') = (D, i, j)) role' s' := by
  have hnp : ¬ present (0 : Pte) := not_present_zero
  refine Inv.setPte (v := 0) h (hl.imp rfl rfl fun f hf => ⟨hf.1, .inr hf.2⟩) hT (fun f => ?_)
    (fun hv => absurd hv hnp) (fun g n _ => hs g n) hf hp hh (fun _ hv => absurd hv hnp) (fun D' i' j' _ hz => ?_)
    (fun hsl => ?_) hln
  · exact (hr f).imp_right fun h => ⟨.inr h.1, .inl h.2⟩
  · by_cases he : (D', i', j') = (D, i, j)
    · rw [if_pos he]
    · rw [if_neg he]
      exact hz.resolve_right he
  · have htab : ∀ f D i, role' f = .tab D i ↔ role f = .tab D i := by
      intro f D i
      rcases hr f with h | ⟨h, h'⟩
      · rw [h]
      · simp [h, h']
    refine (h.slots hsl).setPte (v := 0) hT htab (fun g n _ => hs g n) (fun k => ?_) (fun k h0 => absurd rfl h0)
      (fun _ => .inl rfl)
    rw [hb hsl k]
    simp

theorem kfree_frees {G R : Event → Prop} (f : Frame) (hR : R (.kfree f)) : Triple G R (fun t => t = s) (kfree f)
    (fun _ t => ∃ p, t = { s.setPage f p with freelist := f :: s.freelist }) := by
  apply Triple.emit_at (fun _ => hR)
  intro _
  apply Triple.read_at
  apply Triple.ite
  · exact fun _ => Triple.stop _
  · exact fun _ => Triple.modify (by rintro t rfl; exact ⟨_, rfl⟩)

theorem scan_ok {D : Frame} {a : Addr} (h : Inv sl Z role s) (ha : pgRoundDown a = a) (n : Nat) (pa : Frame) :
    Triple (Good sl) Fine (fun t => t = s) (scanLru (n + 1) D a pa s.pageLruHead) (fun _ t => LruOnly s t ∧
      LruOk (fun f => Entry role t f ∧ ¬ EntryOf t D (pdx a) (ptx a) f) t) := by
  cases hh : s.pageLruHead with
  | none =>
    apply Triple.pure_at
    exact ⟨LruOnly.refl s, LruOk.of_none hh⟩
  | some hd =>
    obtain ⟨l, hr, hV, hinj⟩ := h.lru hd hh
    refine (scanLru_ok D a pa (fun f g hg => hg) (fun _ _ => trivial) hh hr (fun f hf g hg hm hm' => ?_) (n + 1) [] hd l
      rfl (fun f hf => by cases hf)).conseq (fun _ ht => ht) ?_
    · exact hinj f hf g hg (hm.2.trans hm'.2.symm) (hm.1.trans hm'.1.symm)
    · rintro _ t ⟨honly, hcase⟩
      refine ⟨honly, ?_⟩
      obtain ⟨p, hd', m, rfl⟩ := honly
      rcases hcase with hnone | ⟨h', l', hh', hr', hV'⟩
      · exact LruOk.of_none hnone
      intro y hy
      obtain rfl : h' = y := Option.some.inj (hh'.symm.trans hy)
      refine ⟨l', hr', fun f hf => ?_, fun f hf g hg h1 h2 => ?_⟩
      · obtain ⟨hfl, hkey, hnm⟩ := hV' f hf
        have hent := hV f hfl
        refine ⟨hent.congr hkey (fun _ _ _ => rfl), ?_⟩
        obtain ⟨D', T', hres, -⟩ := hent
        rintro ⟨h1, h2, h3⟩
        rw [hkey.1] at h1
        rw [hkey.2] at h2 h3
        exact hnm ⟨eq_of_pdx_ptx hres.aligned ha h2 h3, h1⟩
      · obtain ⟨hfl, hkey, -⟩ := hV' f hf
        obtain ⟨hgl, hkey', -⟩ := hV' g hg
        rw [hkey.1, hkey'.1] at h1
        rw [hkey.2, hkey'.2] at h2
        exact hinj f hfl g hgl h1 h2

/-- **`deallocuvm` gives up one page**: its slot, or its frame and its entry. -/
theorem deallocPage_ok {T D : Frame} {a : Addr} (h : Inv sl Z role s) (hT : role T = .tab D (pdx a))
    (ha : pgRoundDown a = a) (hi : pdx a < 512#10) (h0 : s.pte (T, ptx a) ≠ 0) :
    Triple (Good sl) Fine (fun t => t = s) (deallocPage D a (T, ptx a)) (fun _ =>
      Kept sl (fun D' i' j' => Z D' i' j' ∨ (D', i', j') = (D, pdx a, ptx a)) role) := by
  let pte := s.pte (T, ptx a)
  refine Triple.read_as (a := pte) rfl (Triple.emit_at (fun _ => trivial) (fun hg => ?_))
  have hgood : present pte ↔ pteAddr pte ≠ 0 := hg
  have hpte : ∀ (t : Kern) (g : Frame) (n : BitVec 10), t.mem = s.mem →
      (t.setPte (T, ptx a) 0).pte (g, n) = if (g, n) = (T, ptx a) then 0 else s.pte (g, n) := by
    intro t g n ht
    rw [setPte_pte]
    unfold Kern.pte
    rw [ht]
  unfold releasePage
  by_cases hz : pteAddr pte = 0
  · -- the page is in slot 0
    have hnp : ¬ present pte := fun hp => hgood.1 hp hz
    have hk : (pteFrame pte).toNat = 0 := by
      unfold pteFrame
      rw [hz]
      rfl
    rw [if_pos hz, hz]
    apply Triple.bind (Q := fun _ t => t = s.clearBit 0)
    · refine Triple.emit_at (fun _ => trivial) (fun _ => Triple.modify (fun t ht => by rw [ht]; rfl))
    intro _
    apply Triple.modify
    rintro t rfl
    have hheld : Holds role s (T, ptx a) 0 := ⟨⟨D, pdx a, hT⟩, h0, hnp, hk⟩
    have hlru : LruOk (fun f => Entry role s f ∧ ¬ EntryOf s D (pdx a) (ptx a) f) s :=
      h.lru.imp rfl rfl fun f hf => ⟨hf, hf.not_of h.mem.toTables hT hnp⟩
    refine ⟨role, Keeps.refl role, Inv.unmap h.mem hlru hT (fun _ => .inl rfl) (fun g n => hpte _ g n rfl) rfl rfl rfl
      ⟨rfl, rfl⟩ (fun _ k => ?_)⟩
    show checkBit (s.clearBit 0) k = true ↔ _
    rw [checkBit_clearBit, Bool.and_eq_true, Bool.not_eq_true', decide_eq_false_iff_not]
    have : Holds role s (T, ptx a) k ↔ k = 0 := ⟨fun hh => hh.2.2.2.symm.trans hk, fun he => he ▸ hheld⟩
    rw [this]
  · -- the page is resident
    have hp : present pte := hgood.2 hz
    have huser : role (pteFrame pte) = .user D (pdx a) (ptx a) := h.mem.user T D _ _ hT hi hp
    have hTF : T ≠ pteFrame pte := ne_of_role huser (by rw [hT]; simp)
    rw [if_neg hz]
    apply Triple.bind (Q := fun _ t => ∃ u, LruOnly s u ∧
      LruOk (fun f => Entry role u f ∧ ¬ EntryOf u D (pdx a) (ptx a) f) u ∧
      ∃ p, t = { u.setPage (pteFrame pte) p with freelist := pteFrame pte :: u.freelist })
    · apply Triple.read_at
      apply Triple.bind (scan_ok h ha _ (pteFrame pte))
      intro _
      apply Triple.freeze
      rintro u ⟨honly, hlru⟩
      exact (kfree_frees _ trivial).conseq (fun t ht => ht) (fun _ t ht => ⟨u, honly, hlru, ht⟩)
    intro _
    apply Triple.modify
    rintro t ⟨u, ⟨pg, hd, m, rfl⟩, hlru, p, rfl⟩
    let u : Kern := { s with pages := pg, pageLruHead := hd, numLruPages := m }
    have hinv : Inv sl (fun D' i' j' => Z D' i' j' ∨ (D', i', j') = (D, pdx a, ptx a))
        (role.set (pteFrame pte) .held) (u.setPte (T, ptx a) 0) := by
      refine Inv.unmap (s := u) (h.mem.congr (fun _ _ _ => rfl) rfl rfl ⟨rfl, rfl⟩) hlru hT (fun f => ?_)
        (fun g n => hpte u g n rfl) rfl rfl rfl ⟨rfl, rfl⟩ (fun _ k => ?_)
      · by_cases hf : f = pteFrame pte
        · exact .inr ⟨hf ▸ huser, hf ▸ set_self role f _⟩
        · exact .inl (set_ne role _ hf)
      · exact ⟨fun hb => ⟨hb, fun hh => hh.2.2.1 hp⟩, fun hb => hb.1⟩
    refine ⟨(role.set (pteFrame pte) .held).set (pteFrame pte) .free, ?_, ?_⟩
    rotate_left
    · show Inv sl _ _ (Kern.setPte { u.setPage (pteFrame pte) p with freelist := pteFrame pte :: u.freelist }
        (T, ptx a) 0)
      rw [setPage_setPte_comm p 0 _ hTF]
      exact hinv.release (set_self _ _ _) p
    · have hno : ¬ ((role (pteFrame pte)).isTable = true ∨ role (pteFrame pte) = .held) := by
        rw [huser]
        simp [Role.isTable]
      exact ((Keeps.refl role).put hno (by simp)).put hno (by simp)

/-! ## A range -/

theorem deallocuvmLoop_ok {D : Frame} {oldsz : Addr} (lo : Nat) (ho : oldsz ≤ kernbase) : ∀ (n : Nat) (a : Addr)
    (role : Roles), role D = .dir → a.toNat % 4096 = 0 → a.toNat ≤ 2147483648 →
    Triple (Good sl) Fine (Inv sl (Z.range D lo a.toNat) role) (deallocuvmLoop n D a oldsz)
      (fun _ => Kept sl (Z.range D lo oldsz.toNat) role) := by
  intro n
  induction n with
  | zero => exact fun _ _ _ _ _ => Triple.stop _
  | succ n ih =>
    intro a role hD ha0 hak
    have hok : oldsz.toNat ≤ 2147483648 := ho
    apply Triple.ite
    · intro hlt
      have hlt' : a.toNat < oldsz.toNat := hlt
      have hi : pdx a < 512#10 := by
        rw [BitVec.lt_def, toNat_pdx]
        simp only [BitVec.toNat_ofNat]
        omega
      apply Triple.freeze
      intro s hs
      apply Triple.read_at
      cases hw : walkpgdir s D a with
      | none =>
        -- no page table, so no page up to the next entry of the directory
        have hnext := toNat_nextDir (a := a) (by omega)
        refine (ih _ role hD (by omega) (by omega)).weaken ?_
        rintro t rfl
        refine hs.relabel (fun T D' i j hT hi' hz => ?_)
        rcases hz with hz | ⟨rfl, h1, h2⟩
        · exact .inl (.inl hz)
        · by_cases hlo : 4096 * pageNo i j < a.toNat
          · exact .inl (.inr ⟨rfl, h1, hlo⟩)
          · have hia : i = pdx a := by
              apply BitVec.eq_of_toNat_eq
              have := j.isLt
              rw [toNat_pdx]
              unfold pageNo at h2 hlo
              omega
            rw [hs.mem.walk_tab (hia ▸ hT)] at hw
            cases hw
      | some q =>
        obtain ⟨hT, hj⟩ := hs.mem.walk hD hw
        obtain ⟨T, j⟩ := q
        obtain rfl : j = ptx a := hj
        have hnext : (a + pgsize).toNat = a.toNat + 4096 := by
          rw [BitVec.toNat_add, pgsize]
          simp only [BitVec.toNat_ofNat]
          omega
        have hpg : ∀ D' i j, (Z.range D lo (a + pgsize).toNat) D' i j →
            (Z.range D lo a.toNat) D' i j ∨ (D', i, j) = (D, pdx a, ptx a) := by
          rintro D' i j (hz | ⟨rfl, h1, h2⟩)
          · exact .inl (.inl hz)
          · by_cases hlo : 4096 * pageNo i j < a.toNat
            · exact .inl (.inr ⟨rfl, h1, hlo⟩)
            · right
              have hno : pageNo i j = pageNo (pdx a) (ptx a) := by
                rw [pageNo_pdx_ptx]
                omega
              have hi' := i.isLt
              have hj' := j.isLt
              have hpa := (pdx a).isLt
              have hta := (ptx a).isLt
              unfold pageNo at hno
              have h3 : i = pdx a := BitVec.eq_of_toNat_eq (by omega)
              have h4 : j = ptx a := BitVec.eq_of_toNat_eq (by omega)
              rw [h3, h4]
        apply Triple.read_at
        apply Triple.bind (Q := fun _ => Kept sl (Z.range D lo (a + pgsize).toNat) role)
        · apply Triple.when
          · intro h0
            refine (deallocPage_ok hs hT (pgRoundDown_eq_self.2 ha0) hi h0).conseq (fun _ ht => ht) ?_
            rintro _ t ⟨role', hk, hinv⟩
            exact ⟨role', hk, hinv.relabel fun T D' i j _ _ hz => .inl (hpg D' i j hz)⟩
          · rintro h0 t rfl
            refine ⟨role, Keeps.refl role, hs.relabel fun T' D' i j hT' _ hz => (hpg D' i j hz).imp_right fun he => ?_⟩
            cases he
            rw [hs.mem.tab_unique hT' hT]
            simpa using h0
        · intro _
          apply Triple.of_exists
          intro role'
          apply Triple.of_pure
          intro hk
          refine (ih (a + pgsize) role' (hk.dir hD) (by omega) (by omega)).conseq
            (fun _ ht => ht) (fun _ t ht => ht.trans hk)
    · intro hge
      have hge' : oldsz.toNat ≤ a.toNat := Nat.not_lt.1 hge
      refine Triple.pure () (fun t ht => ⟨role, Keeps.refl role, ht.relabel fun T D' i j _ _ hz => .inl ?_⟩)
      rcases hz with hz | ⟨h1, h2, h3⟩
      · exact .inl hz
      · exact .inr ⟨h1, h2, by omega⟩

theorem deallocuvm_range {D : Frame} {oldsz newsz : Addr} (hD : role D = .dir) (ho : oldsz ≤ kernbase)
    (hlt : ¬ oldsz ≤ newsz) : Triple (Good sl) Fine (Inv sl Z role) (deallocuvm D oldsz newsz)
      (fun _ => Kept sl (Z.range D (pgRoundUp newsz).toNat oldsz.toNat) role) := by
  have h1 : newsz.toNat < oldsz.toNat := Nat.not_le.1 hlt
  have h2 : oldsz.toNat ≤ 2147483648 := ho
  have hup := toNat_pgRoundUp (a := newsz) (by omega)
  unfold deallocuvm
  rw [if_neg hlt]
  apply Triple.bind (Q := fun _ => Kept sl (Z.range D (pgRoundUp newsz).toNat oldsz.toNat) role)
  · refine (deallocuvmLoop_ok (pgRoundUp newsz).toNat ho maxPages (pgRoundUp newsz) role hD (by omega)
      (by omega)).weaken (fun t ht => ht.relabel fun T D' i j _ _ hz => .inl ?_)
    exact hz.resolve_right fun ⟨_, h1, h2⟩ => absurd h1 (Nat.not_le.2 h2)
  · exact fun _ => Triple.pure _ fun t ht => ht

/-- **`deallocuvm` keeps the layout.** -/
theorem deallocuvm_ok {D : Frame} {oldsz newsz : Addr} (hD : role D = .dir) (ho : oldsz ≤ kernbase) :
    Triple (Good sl) Fine (Inv sl Z role) (deallocuvm D oldsz newsz) (fun _ => Kept sl Z role) := by
  by_cases hle : oldsz ≤ newsz
  · unfold deallocuvm
    rw [if_pos hle]
    exact Triple.pure _ fun t ht => ⟨role, Keeps.refl role, ht⟩
  · refine (deallocuvm_range hD ho hle).conseq (fun _ ht => ht) ?_
    rintro _ t ⟨role', hk, hinv⟩
    exact ⟨role', hk, hinv.relabel fun _ _ _ _ _ _ hz => .inl (.inl hz)⟩

/-! ## An address space -/

/-- The frames of an address space's directory and tables. -/
def OwnTable (role : Roles) (D f : Frame) : Prop := f = D ∨ ∃ i, role f = .tab D i

/-- Frames in the kernel's own hands keep their use, but for the directory and tables of `D`. -/
structure KeepsBut (D : Frame) (role role' : Roles) : Prop where
  use  : ∀ f, (role f).isTable = true ∨ role f = .held → ¬ OwnTable role D f → role' f = role f
  dirs : ∀ f, role' f = .dir → role f = .dir

theorem retire_held {D f : Frame} (hD : role D = .dir) (h : OwnTable role D f) : role.retire D f = .held := by
  rcases h with rfl | ⟨i, h⟩
  · unfold Roles.retire
    rw [hD]
    exact if_pos rfl
  · unfold Roles.retire
    rw [h]
    exact if_pos rfl

theorem retire_keeps (D : Frame) : KeepsBut D role (role.retire D) := by
  refine ⟨fun f hf hown => ?_, fun f hf => ?_⟩ <;> unfold Roles.retire at *
  · rcases hr : role f with _ | _ | _ | _ | ⟨D', i⟩ | ⟨D', i, j⟩ <;> try rfl
    · exact if_neg fun he => hown (.inl he)
    · exact if_neg fun he : D' = D => hown (.inr ⟨i, he ▸ hr⟩)
    · rw [hr] at hf
      simp [Role.isTable] at hf
  · rcases hr : role f with _ | _ | _ | _ | ⟨D', i⟩ | ⟨D', i, j⟩ <;> rw [hr] at hf <;> try rfl
    all_goals first | cases hf | (dsimp only at hf; split at hf <;> cases hf)

theorem Inv.retire {D : Frame} (h : Inv sl Z role s) (hZ : ∀ i j, i < 512#10 → Z D i j) :
    Inv sl Z (role.retire D) s := by
  refine ⟨h.mem.retire hZ, h.lru.imp rfl rfl fun f hf => ?_⟩
  obtain ⟨D', T, hr, hf'⟩ := hf
  have hne : D' ≠ D := by
    rintro rfl
    have hi := (pdx_lt_iff _).2 hr.user
    exact not_present_zero (h.mem.empty T D' _ _ hr.tab hi (hZ _ _ hi) ▸ hr.pte)
  refine Entry.mono ⟨D', T, hr, hf'⟩ ⟨rfl, rfl⟩ (fun D'' T'' hr' => ⟨?_, hr'.pte⟩) ?_
  · have hD'' : D'' = D' := Option.some.inj (hr'.pgdir.symm.trans hr.pgdir)
    unfold Roles.retire
    rw [hr'.tab]
    exact if_neg (hD'' ▸ hne)
  · unfold Roles.retire
    rcases hf' with hl | hu
    · rw [hl]
      exact .inl rfl
    · rw [hu]
      exact .inl (if_neg hne)

theorem freeTables_ok {D : Frame} (pde : BitVec 10 → Pte) : ∀ (l : List (BitVec 10)) (role : Roles), l.Nodup →
    role D = .held → (∀ i ∈ l, present (pde i) → role (pteFrame (pde i)) = .held ∧ pteFrame (pde i) ≠ D) →
    (∀ i ∈ l, ∀ j ∈ l, present (pde i) → present (pde j) → pteFrame (pde i) = pteFrame (pde j) → i = j) →
    Triple (Good sl) Fine (fun t => Inv sl Z role t ∧ ∀ i, t.pte (D, i) = pde i)
      (Prog.forEach l (fun i => do
        let pde ← Prog.read (fun s => s.pte (D, i))
        Prog.when (present pde) (kfree (pteFrame pde))))
      (fun _ t => ∃ role', Inv sl Z role' t ∧ role' D = .held ∧
        ∀ f, role' f = role f ∨ (role' f = .free ∧ ∃ i, present (pde i) ∧ f = pteFrame (pde i)))
  | [], role, _, hD, _, _ => Triple.pure () fun t ht => ⟨role, ht.1, hD, fun _ => .inl rfl⟩
  | i :: l, role, hnd, hD, hheld, hinj => by
    have hl : ∀ j ∈ l, j ∈ i :: l := fun j hj => List.mem_cons_of_mem i hj
    apply Triple.freeze
    rintro s ⟨hs, hpde⟩
    apply Triple.bind (Q := fun _ t => ∃ role', Inv sl Z role' t ∧ (∀ j, t.pte (D, j) = pde j) ∧
      ∀ f, role' f = if present (pde i) ∧ f = pteFrame (pde i) then .free else role f)
    · refine Triple.read_as (hpde i) ?_
      apply Triple.when
      · intro hp
        obtain ⟨hr, hne⟩ := hheld i List.mem_cons_self hp
        refine (kfree_frees _ trivial).conseq (fun _ ht => ht) ?_
        rintro _ t ⟨p, rfl⟩
        refine ⟨_, hs.release hr p, fun j => ?_, fun f => ?_⟩
        · show (s.setPage (pteFrame (pde i)) p).pte (D, j) = _
          rw [setPage_pte, if_neg (Ne.symm hne), hpde]
        · simp only [hp, true_and]
          rfl
      · rintro hp t rfl
        exact ⟨role, hs, hpde, fun f => by simp [hp]⟩
    · intro _
      apply Triple.of_exists
      intro role'
      apply Triple.freeze
      rintro t ⟨hinv, hpde', hr⟩
      have hsame : ∀ j ∈ l, present (pde j) → ¬ (present (pde i) ∧ pteFrame (pde j) = pteFrame (pde i)) := by
        rintro j hj hp ⟨hp', he⟩
        obtain rfl := hinj j (hl j hj) i List.mem_cons_self hp hp' he
        exact (List.nodup_cons.1 hnd).1 hj
      have hD' : role' D = .held := by
        rw [hr, if_neg, hD]
        rintro ⟨hp, he⟩
        exact (hheld i List.mem_cons_self hp).2 he.symm
      refine (freeTables_ok pde l role' (List.nodup_cons.1 hnd).2 hD' (fun j hj hp => ?_)
        (fun j hj k hk => hinj j (hl j hj) k (hl k hk))).conseq (fun t' ht' => ht' ▸ ⟨hinv, hpde'⟩) ?_
      · rw [hr, if_neg (hsame j hj hp)]
        exact hheld j (hl j hj) hp
      · rintro _ t' ⟨role'', hinv', hD'', hr'⟩
        refine ⟨role'', hinv', hD'', fun f => ?_⟩
        rcases hr' f with he | he
        · rw [he, hr]
          by_cases hc : present (pde i) ∧ f = pteFrame (pde i)
          · exact .inr ⟨if_pos hc, i, hc⟩
          · exact .inl (if_neg hc)
        · exact .inr he

theorem pdes_nodup : pdes.Nodup := by
  unfold pdes
  refine (List.nodup_finRange 1024).map ?_
  intro i j h
  exact congrArg BitVec.toFin h

/-- **`freevm` gives up an address space**, its directory and its tables. -/
theorem freevm_ok {D : Frame} (hD : role D = .dir) : Triple (Good sl) Fine (Inv sl Z role) (freevm D)
    (fun _ t => ∃ role', KeepsBut D role role' ∧ role' D = .free ∧ Inv sl Z role' t) := by
  apply Triple.bind (deallocuvm_range hD (BitVec.le_refl _) (by decide))
  intro _
  apply Triple.freeze
  rintro s ⟨role₁, hk, hs⟩
  have hD₁ := hk.dir hD
  have hs' := hs.retire (D := D) (fun i j hi => .inr ⟨rfl, Nat.zero_le _, by
    have h1 : i.toNat < 512 := hi
    have h2 := j.isLt
    show 4096 * (1024 * i.toNat + j.toNat) < 2147483648
    omega⟩)
  have hrel : Inv sl Z (role₁.retire D) s := hs'.relabel fun _ _ _ _ _ _ hz => .inl (.inl hz)
  have hown : ∀ i, present (s.pte (D, i)) → OwnTable role₁ D (pteFrame (s.pte (D, i))) :=
    fun i hp => .inr ⟨i, hs.mem.pde D i hD₁ hp⟩
  apply Triple.bind
  · refine (freeTables_ok (Z := Z) (fun i => s.pte (D, i)) pdes (role₁.retire D) pdes_nodup (retire_held hD₁ (.inl rfl))
      (fun i _ hp => ⟨retire_held hD₁ (hown i hp), fun he => ?_⟩) (fun i _ j _ hp hp' he => ?_)).weaken ?_
    · have hT := hs.mem.pde D i hD₁ hp
      rw [he, hD₁] at hT
      cases hT
    · have hT := hs.mem.pde D i hD₁ hp
      rw [he, hs.mem.pde D j hD₁ hp'] at hT
      injection hT with _ h
      exact h.symm
    · rintro t rfl
      exact ⟨hrel, fun _ => rfl⟩
  · intro _
    apply Triple.of_exists
    intro role₂
    apply Triple.freeze
    rintro t ⟨ht, hD₂, hr⟩
    refine (kfree_at ht hD₂).conseq (fun _ ht => ht) (fun _ t' ht' => ⟨_, ⟨fun f hf hno => ?_, fun f hf => ?_⟩,
      set_self _ _ _, ht'⟩)
    · -- tables of `D` in the later roles are tables of `D` in the first
      have hno₁ : ¬ OwnTable role₁ D f := by
        rintro (rfl | ⟨i, hT⟩)
        · exact hno (.inl rfl)
        · exact hno (.inr ⟨i, by rw [← hk.use f hf, hT]⟩)
      have hf₁ : (role₁ f).isTable = true ∨ role₁ f = .held := by rw [hk.use f hf]; exact hf
      rw [set_ne _ _ fun he => hno (.inl he), ← hk.use f hf, ← (retire_keeps D).use f hf₁ hno₁]
      rcases hr f with he | ⟨-, i, hp, rfl⟩
      · exact he
      · exact absurd (hown i hp) hno₁
    · by_cases hfD : f = D
      · rw [hfD, set_self] at hf
        cases hf
      rw [set_ne _ _ hfD] at hf
      rcases hr f with he | ⟨he, -⟩
      · exact hk.dirs f ((retire_keeps D).dirs f (he ▸ hf))
      · rw [he] at hf
        cases hf

end Swap
end Xv6
