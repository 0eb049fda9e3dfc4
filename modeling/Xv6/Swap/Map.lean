import Xv6.Swap.Evict
/-!
# Swap.Map — page tables grow

`walkpgdir` with allocation and `mappages`.  The kernel maps one user page at a time, to a frame it holds, and the
kernel half of an address space in long ranges, to frames of any use.
-/
namespace Xv6
namespace Swap

open Mem
open Prog (Triple)

variable {sl : Prop} {Z : Empties} {role : Roles} {s : Kern}

/-- The kernel is still in the layout, up to the uses of frames that nobody relies on. -/
def Kept (sl : Prop) (Z : Empties) (role : Roles) (t : Kern) : Prop := ∃ role', Keeps role role' ∧ Inv sl Z role' t

theorem Kept.trans {role' : Roles} {t : Kern} (hk : Keeps role role') (h : Kept sl Z role' t) : Kept sl Z role t := by
  obtain ⟨role'', hk', hinv⟩ := h
  exact ⟨role'', hk.trans hk', hinv⟩

theorem Entry.ne_held {f g : Frame} (h : Entry role s f) (hg : role g = .held) : f ≠ g := by
  obtain ⟨D, T, -, hf⟩ := h
  rintro rfl
  rw [hg] at hf
  rcases hf with hf | hf <;> cases hf

theorem Inv.newTable {D f : Frame} {i : BitVec 10} {v : Pte} {s' : Kern} (h : Inv sl Z role s) (hD : role D = .dir)
    (hp : ¬ present (s.pte (D, i))) (hf : role f = .held) (hvp : present v) (hvf : pteFrame v = f)
    (hs : ∀ g n, (role g).isTable = true → s'.pte (g, n) = if (g, n) = (D, i) then v else s.pte (g, n))
    (hzero : ∀ n, s'.pte (f, n) = 0) (hfl : s'.freelist = s.freelist) (hb : s'.bitmap = s.bitmap)
    (hpg : s'.pages = s.pages) (hh : s'.pageLruHead = s.pageLruHead) (hl : SameLink s s') :
    Inv sl Z (role.set f (.tab D i)) s' := by
  refine ⟨h.mem.newTable hD hp hf hvp hvf hs hzero hfl hb hl, h.lru.imp hpg hh (fun g hg => ?_)⟩
  have hgf := hg.ne_held hf
  obtain ⟨D', T', hr, hg'⟩ := hg
  refine Entry.mono ⟨D', T', hr, hg'⟩ ⟨by rw [hpg], by rw [hpg]⟩ (fun D'' T'' hr' => ⟨?_, ?_⟩)
    (.inl (set_ne role _ hgf))
  · exact set_ne role _ (ne_of_role hf (by rw [hr'.tab]; simp))
  · rw [hs _ _ (isTable_of_tab hr'.tab), if_neg]
    · exact hr'.pte
    · intro he
      have := hr'.tab
      rw [(Prod.mk.inj he).1, hD] at this
      cases this

/-- The PTE of an address, in a layout that keeps `role`. -/
def Walked (sl : Prop) (Z : Empties) (role : Roles) (D : Frame) (va : Addr) (r : Option PtePtr) (t : Kern) : Prop :=
  ∃ role', Keeps role role' ∧ Inv sl Z role' t ∧
    ∀ q, r = some q → ∃ T, role' T = .tab D (pdx va) ∧ q = (T, ptx va)

/-- **`walkpgdir` with allocation keeps the layout**: a page table is added where there was none. -/
theorem walkpgdirAlloc_ok {D : Frame} (va : Addr) (hD : role D = .dir) :
    Triple (Good sl) Fine (Inv sl Z role) (walkpgdirAlloc D va) (Walked sl Z role D va) := by
  apply Triple.freeze
  intro s hs
  apply Triple.read_at
  cases hw : walkpgdir s D va with
  | some q =>
    obtain ⟨hT, hj⟩ := hs.mem.walk hD hw
    refine Triple.pure_at ⟨role, Keeps.refl role, hs, ?_⟩
    rintro q' ⟨⟩
    exact ⟨q.1, hT, Prod.ext rfl hj⟩
  | none =>
    -- no table before means no table after `kalloc`, which makes none
    have hnone : ∀ T, role T ≠ .tab D (pdx va) := fun T hT => by
      rw [hs.mem.walk_tab hT] at hw
      cases hw
    apply Triple.bind (kalloc_ok.weaken fun t ht => ht ▸ hs)
    intro r
    apply Triple.freeze
    rintro t ⟨role', hst, hinv, hr⟩
    cases r with
    | none => exact Triple.pure_at ⟨role', hst.keeps, hinv, fun q hq => by cases hq⟩
    | some pgtab =>
      obtain ⟨hheld, hnew⟩ := hr pgtab rfl
      have hD' := hst.keeps.dir hD
      have hne : D ≠ pgtab := ne_of_role hheld (by rw [hD']; simp)
      have hnp : ¬ present (t.pte (D, pdx va)) := fun hp => by
        have hT := hinv.mem.pde D _ hD' hp
        exact hnone _ (by rw [← hst _ (.inr (.inl (isTable_of_tab hT))), hT])
      apply Triple.modify_at
      apply Triple.modify_at
      apply Triple.pure_at
      have hpte : ∀ q : PtePtr, ((t.setPage pgtab zeroPage).setPte (D, pdx va) (mapPte pgtab (pteW ||| pteU))).pte q =
          if q = (D, pdx va) then mapPte pgtab (pteW ||| pteU) else if q.1 = pgtab then 0 else t.pte q := by
        intro q
        rw [setPte_pte, setPage_pte]
        split
        · rfl
        · split <;> simp
      refine ⟨_, hst.keeps.put (hst.given hheld hnew) (by simp), hinv.newTable (v := mapPte pgtab (pteW ||| pteU))
        hD' hnp hheld (present_mapPte _ _)
        (pteFrame_mapPte (by decide)) (fun g n hg => ?_) (fun n => ?_) rfl rfl rfl rfl ⟨rfl, rfl⟩, ?_⟩
      · rw [hpte]
        refine if_congr Iff.rfl rfl (if_neg ?_)
        rintro rfl
        rw [hheld] at hg
        cases hg
      · rw [hpte, if_neg (fun he => hne (congrArg Prod.fst he).symm), if_pos rfl]
      · rintro q ⟨⟩
        exact ⟨pgtab, set_self _ _ _, rfl⟩

/-! ## `mappages` -/

theorem Inv.mapKernel {T D : Frame} {i j : BitVec 10} {v : Pte} (h : Inv sl Z role s) (hT : role T = .tab D i)
    (hi : ¬ i < 512#10) (hv : present v) : Inv sl Z role (s.setPte (T, j) v) := by
  refine Inv.setPte h.mem (h.lru.imp rfl rfl fun f hf => ⟨hf, .inl hv⟩) hT (fun _ => .inl rfl)
    (fun _ _ _ => .inl rfl) (fun g n _ => setPte_pte s _ _ v) rfl rfl rfl (fun hi' => absurd hi' hi)
    (fun D' i' j' hi' hz => ?_) (fun hsl => ?_) ⟨rfl, rfl⟩
  · rw [if_neg]
    · exact hz
    · rintro ⟨⟩
      exact hi hi'
  · have hslots := h.mem.slots hsl
    have hold : ∀ k, ¬ Holds role s (T, j) k := fun k hk =>
      (hslots.kern T D i j hT hi).elim (fun h0 => hk.2.1 h0) hk.2.2.1
    refine hslots.setPte hT (fun _ _ _ => Iff.rfl) (fun g n _ => setPte_pte s _ _ v) (fun k => ?_)
      (fun k _ hnp _ => absurd hv hnp) (fun _ => .inr hv)
    show checkBit s k = true ↔ _
    simp only [hold k, not_false_eq_true, and_true, hv, not_true_eq_false, false_and, and_false, or_false]

theorem present_or_pteP (v : Pte) : present (v ||| pteP) := by
  simp only [present_iff, BitVec.getLsbD_or, getLsbD_pteP, decide_true, Bool.or_true]

theorem mappagesLoop_kernel {D : Frame} (last : Addr) (perm : Pte) : ∀ (n : Nat) (a pa : Addr) (role : Roles),
    role D = .dir → kernbase ≤ a → a ≤ last → a.toNat % 4096 = 0 → last.toNat % 4096 = 0 →
    Triple (Good sl) Fine (Inv sl Z role) (mappagesLoop n D a last pa perm) (fun _ => Kept sl Z role)
  | 0, _, _, _, _, _, _, _, _ => Triple.stop _
  | n + 1, a, pa, role, hD, ha, hal, ha0, hl0 => by
    have hi : ¬ pdx a < 512#10 := by
      rw [pdx_lt_iff]
      exact BitVec.not_lt.2 ha
    apply Triple.bind (walkpgdirAlloc_ok a hD)
    intro r
    apply Triple.freeze
    rintro t ⟨role', hk, hinv, hr⟩
    cases r with
    | none => exact Triple.pure_at ⟨role', hk, hinv⟩
    | some q =>
      obtain ⟨T, hT, rfl⟩ := hr q rfl
      apply Triple.read_at
      apply Triple.ite
      · exact fun _ => Triple.stop _
      intro _
      have hinv' := hinv.mapKernel (j := ptx a) hT hi (present_or_pteP (pa ||| perm))
      apply Triple.modify_at
      apply Triple.ite
      · exact fun _ => Triple.pure_at ⟨role', hk, hinv'⟩
      intro hne
      have hlt : a.toNat + 4096 ≤ last.toNat := by
        have h1 : a.toNat ≤ last.toNat := hal
        have h2 : a.toNat ≠ last.toNat := fun he => hne (BitVec.eq_of_toNat_eq he)
        omega
      have hnext : (a + pgsize).toNat = a.toNat + 4096 := by
        have := last.isLt
        rw [BitVec.toNat_add, pgsize]
        simp only [BitVec.toNat_ofNat]
        omega
      refine (mappagesLoop_kernel last perm n (a + pgsize) (pa + pgsize) role' (hk.dir hD) ?_ ?_ ?_ hl0).conseq
        (fun t ht => ht ▸ hinv') (fun _ t ht => ht.trans hk)
      · rw [BitVec.le_def] at ha ⊢
        omega
      · rw [BitVec.le_def]
        omega
      · omega

def Empties.less (Z : Empties) (D : Frame) (i j : BitVec 10) : Empties :=
  fun D' i' j' => Z D' i' j' ∧ (D', i', j') ≠ (D, i, j)

/-- A page just mapped: it has no entry yet, and its frame is on no list. -/
structure Mapped (sl : Prop) (Z : Empties) (role : Roles) (D f : Frame) (i j : BitVec 10) (t : Kern) : Prop where
  mem  : MemOk sl (Z.less D i j) role t
  lru  : LruOk (fun g => Entry role t g ∧ ¬ EntryOf t D i j g ∧ g ≠ f) t
  use  : role f = .user D i j
  page : ∃ T, role T = .tab D i ∧ present (t.pte (T, j))

theorem Mapped.inv {D f : Frame} {i j : BitVec 10} {t : Kern} (h : Mapped sl Z role D f i j t) :
    Inv sl (Z.less D i j) role t := ⟨h.mem, h.lru.imp rfl rfl fun _ hg => hg.1⟩

theorem Entry.not_of {T D f : Frame} {i j : BitVec 10} (h : Entry role s f) (ht : Tables role s)
    (hT : role T = .tab D i) (hp : ¬ present (s.pte (T, j))) : ¬ EntryOf s D i j f := by
  obtain ⟨D', T', hr, -⟩ := h
  rintro ⟨h1, h2, h3⟩
  have hTT : T' = T := by
    have htab := hr.tab
    rw [h2, Option.some.inj (hr.pgdir.symm.trans h1)] at htab
    exact ht.tab_unique htab hT
  have hpr := hr.pte
  rw [hTT, h3] at hpr
  exact hp hpr

theorem Inv.mapUser {T D f : Frame} {i j : BitVec 10} {v : Pte} (h : Inv sl Z role s) (hT : role T = .tab D i)
    (hp : ¬ present (s.pte (T, j))) (hf : role f = .held) (hv : present v) (hvf : pteFrame v = f)
    (hz : sl → s.pte (T, j) = 0) (hi : i < 512#10) :
    Mapped sl Z (role.set f (.user D i j)) D f i j (s.setPte (T, j) v) := by
  have hent : ∀ g, Entry role s g → ¬ EntryOf s D i j g ∧ g ≠ f :=
    fun g hg => ⟨hg.not_of h.mem.toTables hT hp, hg.ne_held hf⟩
  have huse : ∀ g, role.set f (.user D i j) g = role g ∨ ((role g = .held ∨ role g = .user D i j) ∧
      (role.set f (.user D i j) g = .held ∨ role.set f (.user D i j) g = .lost ∨
        role.set f (.user D i j) g = .user D i j)) := by
    intro g
    by_cases hg : g = f
    · subst hg
      exact .inr ⟨.inl hf, .inr (.inr (set_self _ _ _))⟩
    · exact .inl (set_ne role _ hg)
  have hempty : ∀ D' i' j', i' < 512#10 → (Z.less D i j) D' i' j' →
      if (D', i', j') = (D, i, j) then v = 0 else Z D' i' j' := by
    intro D' i' j' _ hz'
    rw [if_neg hz'.2]
    exact hz'.1
  have hslot : sl → SlotsOk (role.set f (.user D i j)) (s.setPte (T, j) v) := by
    intro hsl
    have hold : ∀ k, ¬ Holds role s (T, j) k := fun k hk => hk.2.1 (hz hsl)
    refine (h.mem.slots hsl).setPte hT (set_tab_iff (by rw [hf]; rfl) rfl) (fun g n _ => setPte_pte s _ _ v)
      (fun k => ?_) (fun k _ hnp _ => absurd hv hnp) (fun hi' => absurd hi hi')
    show checkBit s k = true ↔ _
    simp only [hold k, not_false_eq_true, and_true, hv, not_true_eq_false, false_and, and_false, or_false]
  have hpte : ∀ g n, (s.setPte (T, j) v).pte (g, n) = if (g, n) = (T, j) then v else s.pte (g, n) :=
    fun g n => setPte_pte s _ _ v
  refine ⟨h.mem.setPte hT huse (fun g n _ => hpte g n) rfl (fun _ _ => by rw [hvf, set_self]) hempty hslot ⟨rfl, rfl⟩,
    h.lru.imp rfl rfl (fun g hg => ⟨?_, hent g hg⟩), set_self _ _ _, T, ?_, ?_⟩
  · exact hg.setPte (.inl hv) hT huse (fun _ g hg => .inl (set_ne role _ (ne_of_role hf (by rw [hg]; simp))))
      (fun g n _ => hpte g n) rfl
  · rw [set_ne role _ (ne_of_role hf (by rw [hT]; simp)), hT]
  · rw [setPte_pte, if_pos rfl]
    exact hv

/-- **Mapping one user page**: either it is mapped, or the frame is still held. -/
theorem mappages_user {D f : Frame} {a : Addr} {perm : Pte} (hD : role D = .dir) (hf : role f = .held)
    (ha : a < kernbase) (ha0 : pgRoundDown a = a) (hperm : pteFlags perm = perm) (hz : sl → Z D (pdx a) (ptx a)) :
    Triple (Good sl) Fine (Inv sl Z role) (mappages D a pgsize (frameAddr f) perm) (fun r t =>
      if r then ∃ role', Keeps role role' ∧
        Mapped sl Z (role'.set f (.user D (pdx a) (ptx a))) D f (pdx a) (ptx a) t
      else Kept sl Z role t) := by
  have hi : pdx a < 512#10 := (pdx_lt_iff a).2 ha
  unfold mappages
  rw [ha0, pgRoundDown_last ha0]
  apply Triple.bind (walkpgdirAlloc_ok a hD)
  intro r
  apply Triple.freeze
  rintro t ⟨role', hk, hinv, hr⟩
  cases r with
  | none => exact Triple.pure_at ⟨role', hk, hinv⟩
  | some q =>
    obtain ⟨T, hT, rfl⟩ := hr q rfl
    apply Triple.read_at
    apply Triple.ite
    · exact fun _ => Triple.stop _
    intro hp
    apply Triple.modify_at
    rw [if_pos rfl]
    apply Triple.pure_at
    exact ⟨role', hk, hinv.mapUser hT hp (hk.held hf) (present_or_pteP _) (pteFrame_mapPte hperm)
      (fun hsl => hinv.mem.empty T D _ _ hT hi (hz hsl)) hi⟩

end Swap
end Xv6
