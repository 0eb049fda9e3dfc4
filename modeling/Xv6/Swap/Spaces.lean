import Xv6.Swap.Unmap
/-!
# Swap.Spaces — address spaces are made, grow, are copied and served

`setupkvm`, `allocuvm`, `copyuvm` and the page-fault handler keep the layout.
-/
namespace Xv6
namespace Swap

open Mem
open Prog (Triple)

variable {sl : Prop} {Z : Empties} {role role' : Roles} {s : Kern}

def noEmpties : Empties := fun _ _ _ => False

theorem Inv.forget (h : Inv sl Z role s) : Inv sl noEmpties role s := h.relabel fun _ _ _ _ _ _ hz => hz.elim

/-! ## A new page directory -/

structure Fresh (role role' : Roles) (d : Frame) : Prop where
  dir   : role' d = .dir
  new   : ¬ ((role d).isTable = true ∨ role d = .held)
  keeps : Keeps role (role'.set d .lost)

theorem Fresh.ne {d f : Frame} (h : Fresh role role' d) (hf : (role f).isTable = true ∨ role f = .held) : f ≠ d :=
  fun he => h.new (he ▸ hf)

theorem Fresh.use {d f : Frame} (h : Fresh role role' d) (hf : (role f).isTable = true ∨ role f = .held) :
    role' f = role f := by
  rw [← h.keeps.use f hf, set_ne _ _ (h.ne hf)]

theorem Fresh.trans {role'' : Roles} {d : Frame} (h : Fresh role role' d) (hk : Keeps role' role'') :
    Fresh role role'' d := by
  refine ⟨hk.dir h.dir, h.new, fun f hf => ?_, fun f hf => ?_⟩
  · rw [set_ne _ _ (h.ne hf), ← h.use hf]
    exact hk.use f (by rw [h.use hf]; exact hf)
  · by_cases hfd : f = d
    · rw [hfd, set_self] at hf
      cases hf
    · rw [set_ne _ _ hfd] at hf
      apply h.keeps.dirs f
      rw [set_ne _ _ hfd]
      exact hk.dirs f hf

theorem Fresh.gone {role'' : Roles} {d : Frame} (h : Fresh role role' d) (ht : Tables role s)
    (hk : KeepsBut d role' role'') (hd : role'' d = .free) : Keeps role role'' := by
  refine ⟨fun f hf => ?_, fun f hf => ?_⟩
  · rw [← h.use hf]
    refine hk.use f (by rw [h.use hf]; exact hf) ?_
    rintro (rfl | ⟨i, hT⟩)
    · exact h.new hf
    · -- a table of `d` was there before `d` was a directory
      rw [h.use hf] at hT
      exact h.new (.inl (isTable_of_dir (ht.tab f d i hT).1))
  · have hfd : f ≠ d := fun he => by rw [he, hd] at hf; cases hf
    apply h.keeps.dirs f
    rw [set_ne _ _ hfd]
    exact hk.dirs f hf

theorem Inv.newDir {f : Frame} {s' : Kern} (h : Inv sl Z role s) (hf : role f = .held) (hs : SameTables role s s')
    (hzero : ∀ n, s'.pte (f, n) = 0) (hfl : s'.freelist = s.freelist) (hb : s'.bitmap = s.bitmap)
    (hpg : s'.pages = s.pages) (hh : s'.pageLruHead = s.pageLruHead) (hl : SameLink s s') :
    Inv sl (fun D i j => Z D i j ∨ D = f) (role.set f .dir) s' := by
  refine ⟨h.mem.newDir hf hs hzero hfl hb hl, h.lru.imp hpg hh fun g hg => ?_⟩
  have hgf := hg.ne_held hf
  obtain ⟨D', T', hr, hg'⟩ := hg
  refine Entry.mono ⟨D', T', hr, hg'⟩ ⟨by rw [hpg], by rw [hpg]⟩ (fun D'' T'' hr' => ⟨?_, ?_⟩)
    (.inl (set_ne role _ hgf))
  · exact set_ne role _ (ne_of_role hf (by rw [hr'.tab]; simp))
  · rw [hs _ _ (isTable_of_tab hr'.tab)]
    exact hr'.pte

/-- An entry of `kmap` whose range is of the kernel half. -/
def KernRange (e : Addr × Addr × Addr × Pte) : Prop :=
  kernbase ≤ pgRoundDown e.1 ∧ pgRoundDown e.1 ≤ pgRoundDown (e.1 + (e.2.2.1 - e.2.1) - 1#32)

theorem kmap_range (h : Linked s) : ∀ e ∈ kmap s, KernRange e := by
  have hlast₂ : kernlink + (s.kdata - kernbase - (kernlink - kernbase)) - 1#32 = s.kdata - 1#32 := by grind
  have hlast₃ : s.kdata + (phystop - (s.kdata - kernbase)) - 1#32 = kernbase + phystop - 1#32 := by grind
  have hbase : kernbase ≤ s.kdata := BitVec.le_trans (y := kernlink) (by decide) (BitVec.le_of_lt h.data)
  have htop : s.kdata < kernbase + phystop := Nat.lt_of_lt_of_le h.kend h.top
  intro e he
  simp only [kmap, List.mem_cons, List.not_mem_nil, or_false] at he
  rcases he with rfl | rfl | rfl | rfl
  · exact ⟨by decide, by decide⟩
  · refine ⟨show kernbase ≤ pgRoundDown kernlink by decide, ?_⟩
    rw [hlast₂]
    exact pgRoundDown_mono (le_sub_one h.data)
  · refine ⟨pgRoundDown_mono hbase, ?_⟩
    rw [hlast₃]
    exact pgRoundDown_mono (le_sub_one htop)
  · exact ⟨by decide, by decide⟩

theorem mappages_kernel {D : Frame} {e : Addr × Addr × Addr × Pte} (he : KernRange e) (hD : role D = .dir) :
    Triple (Good sl) Fine (Inv sl Z role) (mappages D e.1 (e.2.2.1 - e.2.1) e.2.1 e.2.2.2) (fun _ => Kept sl Z role) :=
  mappagesLoop_kernel _ _ maxPages _ _ role hD he.1 he.2 (by rw [toNat_pgRoundDown]; omega)
    (by rw [toNat_pgRoundDown]; omega)

theorem mapKernel_ok {D : Frame} : ∀ (l : List (Addr × Addr × Addr × Pte)) (role : Roles), (∀ e ∈ l, KernRange e) →
    role D = .dir → Triple (Good sl) Fine (Inv sl Z role) (mapKernel D l) (fun _ => Kept sl Z role)
  | [], role, _, _ => Triple.pure true fun t ht => ⟨role, Keeps.refl role, ht⟩
  | e :: l, role, hl, hD => by
    apply Triple.bind (mappages_kernel (hl e List.mem_cons_self) hD)
    intro b
    apply Triple.of_exists
    intro role'
    apply Triple.of_pure
    intro hk
    apply Triple.ite
    · exact fun _ => (mapKernel_ok l role' (fun e he => hl e (List.mem_cons_of_mem _ he)) (hk.dir hD)).conseq
        (fun _ ht => ht) fun _ t ht => ht.trans hk
    · exact fun _ => Triple.pure false fun t ht => ⟨role', hk, ht⟩

theorem setupkvm_ok : Triple (Good sl) Fine (Inv sl Z role) setupkvm (fun r t => match r with
    | none   => Kept sl Z role t
    | some d => ∃ role', Fresh role role' d ∧ Inv sl (fun D i j => Z D i j ∨ D = d) role' t) := by
  apply Triple.freeze
  intro s hs
  apply Triple.bind (kalloc_ok.weaken fun t ht => ht ▸ hs)
  intro r
  apply Triple.freeze
  rintro t ⟨role₁, hst, hinv, hr⟩
  cases r with
  | none => exact Triple.pure_at ⟨role₁, hst.keeps, hinv⟩
  | some d =>
    obtain ⟨hheld, hnew⟩ := hr d rfl
    have hno := hst.given hheld hnew
    apply Triple.modify_at
    apply Triple.read_at
    have hft : (role₁ d).isTable = false := by rw [hheld]; rfl
    have hdir : Inv sl (fun D i j => Z D i j ∨ D = d) (role₁.set d .dir) (t.setPage d zeroPage) :=
      hinv.newDir hheld (sameTables_setPage _ hft) (fun n => by rw [setPage_pte, if_pos rfl, wordAt_zeroPage]) rfl rfl
        rfl rfl ⟨rfl, rfl⟩
    have hfresh : Fresh role (role₁.set d .dir) d := by
      refine ⟨set_self _ _ _, hno, ?_⟩
      have hset : (role₁.set d .dir).set d .lost = role₁.set d .lost := by
        funext f
        unfold Roles.set
        split <;> rfl
      rw [hset]
      exact hst.keeps.put hno (by simp)
    apply Triple.bind ((mapKernel_ok (kmap _) (role₁.set d .dir) (kmap_range hdir.mem.link) (set_self _ _ _)).weaken
      fun t ht => ht ▸ hdir)
    intro b
    apply Triple.of_exists
    intro role₂
    apply Triple.of_pure
    intro hk
    have hfresh₂ := hfresh.trans hk
    apply Triple.ite
    · exact fun _ => Triple.pure (some d) fun t ht => ⟨role₂, hfresh₂, ht⟩
    · intro _
      apply Triple.bind (freevm_ok hfresh₂.dir)
      intro _
      refine Triple.pure none fun t ⟨role₃, hb, hd, ht⟩ => ⟨role₃, hfresh₂.gone hs.mem.toTables hb hd, ?_⟩
      exact ht.relabel fun _ _ _ _ _ _ hz => .inl (.inl hz)

/-! ## Growth -/

theorem kfree_given {role₁ role₂ : Roles} {f : Frame} (hst : Stays role role₁) (hf : role₁ f = .held)
    (hn : role f ≠ .held) (hk : Keeps role₁ role₂) :
    Triple (Good sl) Fine (Inv sl Z role₂) (kfree f) (fun _ => Kept sl Z role) := by
  have hno := hst.given hf hn
  refine kfree_ok.conseq (fun t ht => ⟨ht, hk.held hf⟩) (fun _ t ht => ⟨_, ?_, ht⟩)
  exact (hst.keeps.trans hk).put hno (by simp)

/-- **The loop of `allocuvm` keeps the layout**, where swap slots are not looked at. -/
theorem allocuvmLoop_ok {D : Frame} {oldsz newsz : Addr} (hnew : newsz ≤ kernbase) : ∀ (n : Nat) (a : Addr)
    (role : Roles), role D = .dir → pgRoundDown a = a →
    Triple (Good False) Fine (Inv False noEmpties role) (allocuvmLoop n D a oldsz newsz)
      (fun _ => Kept False noEmpties role)
  | 0, _, _, _, _ => Triple.stop _
  | n + 1, a, role, hD, ha => by
    apply Triple.ite
    rotate_left
    · exact fun _ => Triple.pure newsz fun t ht => ⟨role, Keeps.refl role, ht⟩
    intro hlt
    have hak : a < kernbase := Nat.lt_of_lt_of_le hlt hnew
    apply Triple.bind kalloc_ok
    intro r
    apply Triple.of_exists
    intro role₁
    apply Triple.of_pure
    intro hst
    cases r with
    | none =>
      apply Triple.bind ((deallocuvm_ok (hst.keeps.dir hD) hnew).weaken fun t ht => ht.1)
      exact fun _ => Triple.pure 0 fun t ht => ht.trans hst.keeps
    | some mem =>
      apply Triple.freeze
      rintro s ⟨hinv, hr⟩
      obtain ⟨hheld, hn⟩ := hr mem rfl
      have hft : (role₁ mem).isTable = false := by rw [hheld]; rfl
      apply Triple.modify_at
      apply Triple.bind ((mappages_user (hst.keeps.dir hD) hheld hak ha (by decide) False.elim).weaken
        fun t ht => ht ▸ hinv.setPage zeroPage hft)
      intro b
      cases b with
      | true =>
        rw [if_pos rfl]
        apply Triple.of_exists
        intro role₂
        apply Triple.of_pure
        intro hk
        have hkeeps := (hst.keeps.trans hk).put (hst.given hheld hn) (by simp : Role.user D (pdx a) (ptx a) ≠ .dir)
        refine (allocuvmLoop_ok hnew n (a + pgsize) _ (hkeeps.dir hD) ?_).conseq (fun t ht => ht.inv.forget)
          (fun _ t ht => ht.trans hkeeps)
        rw [pgRoundDown_eq_self] at ha ⊢
        rw [BitVec.toNat_add, pgsize]
        simp only [BitVec.toNat_ofNat]
        omega
      | false =>
        apply Triple.of_exists
        intro role₂
        apply Triple.of_pure
        intro hk
        apply Triple.bind (deallocuvm_ok (hk.dir (hst.keeps.dir hD)) hnew)
        intro _
        apply Triple.of_exists
        intro role₃
        apply Triple.of_pure
        intro hk'
        apply Triple.bind (kfree_given hst hheld hn (hk.trans hk'))
        exact fun _ => Triple.pure 0 fun t ht => ht

theorem allocuvm_ok {D : Frame} {oldsz newsz : Addr} (hD : role D = .dir) :
    Triple (Good False) Fine (Inv False noEmpties role) (allocuvm D oldsz newsz)
      (fun _ => Kept False noEmpties role) := by
  have hkept : ∀ t, Inv False noEmpties role t → Kept False noEmpties role t := fun t ht => ⟨role, Keeps.refl role, ht⟩
  apply Triple.ite
  · exact fun _ => Triple.pure 0 hkept
  intro hlt
  apply Triple.ite
  · exact fun _ => Triple.pure oldsz hkept
  · intro _
    refine allocuvmLoop_ok (BitVec.le_of_lt (BitVec.not_le.1 hlt)) maxPages (pgRoundUp oldsz) role hD ?_
    show pgRoundDown (pgRoundDown _) = pgRoundDown _
    rw [pgRoundDown_eq_self, toNat_pgRoundDown]
    omega

/-! ## A page comes back -/

theorem swapread_keeps {G R : Event → Prop} {P : Kern → Prop} {f : Frame} {k : Nat} (hR : R (.swapRead k))
    (hP : ∀ t p, P t → P (t.setPage f p)) : Triple G R P (swapread f k) (fun _ => P) := by
  apply Triple.ite
  · exact fun _ => Triple.stop _
  · intro _
    apply Triple.emit_bind (fun _ => hR)
    exact fun _ => Triple.forEach blocks fun i _ => Triple.modify fun t ht => hP t _ ht

/-- The use of frames once a page has a new frame; the kernel half is nobody's. -/
def Roles.swapIn (role : Roles) (D f : Frame) (i j : BitVec 10) : Roles := fun g =>
  if g = f then if i < 512#10 then .user D i j else .lost
  else if role g = .user D i j then .lost else role g

theorem Keeps.swapIn {D f : Frame} (i j : BitVec 10) (h : Keeps role role')
    (hf : ¬ ((role f).isTable = true ∨ role f = .held)) : Keeps role (role'.swapIn D f i j) := by
  refine ⟨fun g hg => ?_, fun g hg => h.dirs g ?_⟩ <;> unfold Roles.swapIn at *
  · have hu : role' g ≠ .user D i j := by
      intro he
      rw [← h.use g hg, he] at hg
      simp [Role.isTable] at hg
    rw [if_neg fun he : g = f => hf (he ▸ hg), if_neg hu, h.use g hg]
  · split at hg
    · split at hg <;> cases hg
    · split at hg
      · cases hg
      · exact hg

theorem Inv.swapIn {T D f : Frame} {i j : BitVec 10} {bit : Bool} (h : Inv sl noEmpties role s)
    (hT : role T = .tab D i) (hf : role f = .held) (hbit : bit = checkBit s (pteFrame (s.pte (T, j))).toNat)
    (hg : Good sl (.swapIn (s.pte (T, j)) bit)) : Inv sl noEmpties (role.swapIn D f i j)
      ((s.clearBit (pteFrame (s.pte (T, j))).toNat).setPte (T, j) (mapPte f (pteFlags (s.pte (T, j))))) := by
  have hv : present (mapPte f (pteFlags (s.pte (T, j)))) := present_mapPte _ _
  have hpte : ∀ g n, ((s.clearBit (pteFrame (s.pte (T, j))).toNat).setPte (T, j) (mapPte f (pteFlags (s.pte (T, j))))).pte
      (g, n) = if (g, n) = (T, j) then mapPte f (pteFlags (s.pte (T, j))) else s.pte (g, n) :=
    fun g n => by rw [setPte_pte]; rfl
  have hrole : ∀ g, role.swapIn D f i j g = role g ∨ ((role g = .held ∨ role g = .user D i j) ∧
      (role.swapIn D f i j g = .held ∨ role.swapIn D f i j g = .lost ∨ role.swapIn D f i j g = .user D i j)) := by
    intro g
    unfold Roles.swapIn
    by_cases hgf : g = f
    · rw [if_pos hgf]
      refine .inr ⟨.inl (hgf ▸ hf), ?_⟩
      split
      · exact .inr (.inr rfl)
      · exact .inr (.inl rfl)
    · rw [if_neg hgf]
      by_cases hu : role g = .user D i j
      · rw [if_pos hu]
        exact .inr ⟨.inr hu, .inr (.inl rfl)⟩
      · rw [if_neg hu]
        exact .inl rfl
  have htab : ∀ g D' i', role.swapIn D f i j g = .tab D' i' ↔ role g = .tab D' i' := by
    intro g D' i'
    rcases hrole g with he | ⟨he | he, he' | he' | he'⟩
    · rw [he]
    all_goals simp [he, he']
  refine Inv.setPte (v := mapPte f (pteFlags (s.pte (T, j)))) h.mem (h.lru.imp rfl rfl fun g hg => ⟨hg, .inl hv⟩) hT hrole
    (fun _ g hg => ?_) (fun g n _ => hpte g n) rfl rfl rfl (fun hi _ => ?_) (fun _ _ _ _ hz => hz.elim) (fun hsl => ?_)
    ⟨rfl, rfl⟩
  · have hgf : g ≠ f := ne_of_role hf (by rw [hg]; simp)
    unfold Roles.swapIn
    rw [if_neg hgf, if_pos hg]
    exact .inr rfl
  · rw [pteFrame_mapPte (pteFlags_pteFlags _)]
    unfold Roles.swapIn
    rw [if_pos rfl, if_pos hi]
  · have hslots := h.mem.slots hsl
    refine hslots.setPte (v := mapPte f (pteFlags (s.pte (T, j)))) hT htab (fun g n _ => hpte g n) (fun k => ?_)
      (fun k _ hnp _ => absurd hv hnp) (fun _ => .inr hv)
    show checkBit (s.clearBit _) k = true ↔ _
    rw [checkBit_clearBit, Bool.and_eq_true, Bool.not_eq_true', decide_eq_false_iff_not]
    have hclear : checkBit s k = true → (k ≠ (pteFrame (s.pte (T, j))).toNat ↔ ¬ Holds role s (T, j) k) := by
      intro hk
      by_cases hno : s.pte (T, j) = 0 ∨ present (s.pte (T, j))
      · -- the PTE holds no slot, and the bit of its number is clear
        have hb := hg hsl hno
        refine ⟨fun _ hh => hno.elim hh.2.1 hh.2.2.1, fun _ he => ?_⟩
        rw [he, ← hbit, hb] at hk
        cases hk
      · have hh : Holds role s (T, j) (pteFrame (s.pte (T, j))).toNat :=
          ⟨⟨D, i, hT⟩, fun h0 => hno (.inl h0), fun hp => hno (.inr hp), rfl⟩
        exact not_congr ⟨fun he => he ▸ hh, fun hh' => hh'.2.2.2.symm⟩
    constructor
    · rintro ⟨hk, hne⟩
      exact .inl ⟨hk, (hclear hk).1 hne⟩
    · rintro (⟨hk, hn⟩ | ⟨-, hn, -⟩)
      · exact ⟨hk, (hclear hk).2 hn⟩
      · exact absurd hv hn

/-- **The page-fault handler keeps the layout**: the page has a new frame, and its slot, if it held one, is free. -/
theorem pageFaultHadler_ok {D : Frame} {va : Addr} (hD : role D = .dir) :
    Triple (Good sl) Fine (Inv sl noEmpties role) (pageFaultHadler D va) (fun _ => Kept sl noEmpties role) := by
  apply Triple.freeze
  intro s hs
  unfold pageFaultHadler
  cases hw : walkpgdir s D (pgRoundDown va) with
  | none => exact Triple.stopped (Prog.bind_run_error (follow_error hw))
  | some q =>
    obtain ⟨T, j⟩ := q
    obtain ⟨hT, -⟩ := hs.mem.walk hD hw
    refine Triple.run_at (follow_run hw) (Triple.read_at ?_)
    apply Triple.ite
    · exact fun _ => Triple.pure_at ⟨role, Keeps.refl role, hs⟩
    intro _
    apply Triple.bind (kalloc_ok.weaken fun t ht => ht ▸ hs)
    intro r
    apply Triple.of_exists
    intro role₁
    apply Triple.of_pure
    intro hst
    cases r with
    | none => exact Triple.pure false fun t ht => ⟨role₁, hst.keeps, ht.1⟩
    | some newPage =>
      apply Triple.freeze
      rintro t ⟨hinv, hr⟩
      obtain ⟨hheld, hn⟩ := hr newPage rfl
      have hT₁ := hst.keeps.tab hT
      have hTn : T ≠ newPage := ne_of_role hheld (by rw [hT₁]; simp)
      have hft : (role₁ newPage).isTable = false := by rw [hheld]; rfl
      refine Triple.read_at (Triple.read_at (Triple.emit_at (fun _ => trivial) (fun hg => ?_)))
      rw [shiftRight_toNat]
      apply Triple.bind ((swapread_keeps (P := fun u => Inv sl noEmpties role₁ u ∧ u.pte (T, j) = t.pte (T, j) ∧
        u.bitmap = t.bitmap) trivial fun u p ⟨hu, hp, hb⟩ => ⟨hu.setPage p hft, ?_, hb⟩).weaken ?_)
      · intro _
        apply Triple.freeze
        rintro u ⟨hu, hp, hb⟩
        refine Triple.bind (Q := fun _ t' => t' = u.clearBit (pteFrame (t.pte (T, j))).toNat) ?_ (fun _ => ?_)
        · exact Triple.emit_at (fun _ => trivial) fun _ => Triple.modify fun t ht => by rw [ht]
        refine Triple.modify_at (Triple.pure_at ⟨_, hst.keeps.swapIn (D := D) (pdx (pgRoundDown va)) j
          (hst.given hheld hn), ?_⟩)
        · rw [← hp]
          have hbit : checkBit t (pteFrame (t.pte (T, j))).toNat = checkBit u (pteFrame (u.pte (T, j))).toNat := by
            rw [hp]
            unfold checkBit
            rw [hb]
          refine hu.swapIn hT₁ hheld hbit ?_
          · rw [hp]
            rw [shiftRight_toNat] at hg
            exact hg
      · rintro u rfl
        exact ⟨hinv, rfl, rfl⟩
      · rw [setPage_pte, if_neg hTn, hp]

/-! ## A copy -/

theorem appendLru_keeps {d mem : Frame} {a : Addr} (ha : a < kernbase) (ha0 : pgRoundDown a = a) :
    Triple (Good sl) Fine (Mapped sl Z role d mem (pdx a) (ptx a)) (appendLru d a mem)
      (fun _ => Inv sl (Z.less d (pdx a) (ptx a)) role) := by
  apply Triple.freeze
  intro s hs
  obtain ⟨T, hT, hp⟩ := hs.page
  let W := fun (h : Frame) (l : List Frame) => (∀ g ∈ h :: l, Entry role s g ∧ ¬ EntryOf s d (pdx a) (ptx a) g ∧ g ≠ mem) ∧
    ∀ f ∈ h :: l, ∀ g ∈ h :: l, (s.pages f).pgdir = (s.pages g).pgdir → (s.pages f).vaddr = (s.pages g).vaddr → f = g
  refine (appendLru_ok (W := W) s d a mem fun h hh => ?_).conseq (fun _ ht => ht) ?_
  · obtain ⟨l, hr, hV, hinj⟩ := hs.lru h hh
    exact ⟨l, hr, fun hm => (hV mem hm).2.2 rfl, hV, hinj⟩
  rintro _ t ⟨⟨p, hd, n, rfl⟩, hm, hkey, hcase⟩
  have hmem : MemOk sl (Z.less d (pdx a) (ptx a)) role { s with pages := p, pageLruHead := hd, numLruPages := n } :=
    hs.mem.congr (fun _ _ _ => rfl) rfl rfl ⟨rfl, rfl⟩
  have hent : Entry role { s with pages := p, pageLruHead := hd, numLruPages := n } mem := by
    obtain ⟨hva, hpg⟩ := hm
    refine ⟨d, T, ⟨hpg, ?_, ?_, ?_, ?_⟩, .inr ?_⟩ <;> rw [hva]
    · exact ha
    · exact ha0
    · exact hT
    · exact hp
    · exact hs.use
  refine ⟨hmem, fun y hy => ?_⟩
  rcases hcase with ⟨hhd, hr⟩ | ⟨h, l, ⟨hV, hinj⟩, hhd, hr⟩
  · obtain rfl : mem = y := Option.some.inj (hhd.symm.trans hy)
    refine ⟨[], hr, fun f hf => ?_, fun f hf g hg _ _ => ?_⟩
    · rw [List.mem_singleton.1 hf]
      exact hent
    · rw [List.mem_singleton.1 hf, List.mem_singleton.1 hg]
  · obtain rfl : h = y := Option.some.inj (hhd.symm.trans hy)
    have hmem' : ∀ f ∈ h :: (l ++ [mem]), f ∈ h :: l ∨ f = mem := by
      intro f hf
      simp only [List.mem_cons, List.mem_append, List.not_mem_nil, or_false] at hf ⊢
      tauto
    -- no entry from before is of the page
    have hoff : ∀ f ∈ h :: l, ¬ ((p f).pgdir = (p mem).pgdir ∧ (p f).vaddr = (p mem).vaddr) := by
      rintro f hf ⟨h1, h2⟩
      obtain ⟨-, hno, hne⟩ := hV f hf
      have hk := hkey f hne
      refine hno ⟨hk.1.symm.trans (h1.trans hm.2), ?_, ?_⟩ <;> rw [← hk.2, show (p f).vaddr = a from h2.trans hm.1]
    refine ⟨l ++ [mem], hr, fun f hf => ?_, fun f hf g hg h1 h2 => ?_⟩
    · rcases hmem' f hf with hf | rfl
      · exact (hV f hf).1.congr (hkey f (hV f hf).2.2) (fun _ _ _ => rfl)
      · exact hent
    · rcases hmem' f hf with hfl | rfl <;> rcases hmem' g hg with hgl | rfl
      · rw [(hkey f (hV f hfl).2.2).1, (hkey g (hV g hgl).2.2).1] at h1
        rw [(hkey f (hV f hfl).2.2).2, (hkey g (hV g hgl).2.2).2] at h2
        exact hinj f hfl g hgl h1 h2
      · exact absurd ⟨h1, h2⟩ (hoff f hfl)
      · exact absurd ⟨h1.symm, h2.symm⟩ (hoff g hgl)
      · rfl

theorem copyMap_ok {role₁ : Roles} {d mem : Frame} {a : Addr} {flags : Pte} (hst : Stays role role₁)
    (hf : role₁ mem = .held) (hn : role mem ≠ .held) (hd : role d = .dir) (ha : a < kernbase) (ha0 : pgRoundDown a = a)
    (hflags : pteFlags flags = flags) (hz : sl → Z d (pdx a) (ptx a)) :
    Triple (Good sl) Fine (Inv sl Z role₁) (do
      if ← mappages d a pgsize (frameAddr mem) flags then
        appendLru d a mem
        pure true
      else
        kfree mem
        pure false) (fun _ => Kept sl (Z.less d (pdx a) (ptx a)) role) := by
  apply Triple.bind (mappages_user (hst.keeps.dir hd) hf ha ha0 hflags hz)
  intro b
  cases b with
  | true =>
    simp only [if_true]
    apply Triple.of_exists
    intro role₂
    apply Triple.of_pure
    intro hk
    have hkeeps := (hst.keeps.trans hk).put (hst.given hf hn) (by simp : Role.user d (pdx a) (ptx a) ≠ .dir)
    apply Triple.bind (appendLru_keeps ha ha0)
    exact fun _ => Triple.pure true fun t ht => ⟨_, hkeeps, ht⟩
  | false =>
    apply Triple.of_exists
    intro role₂
    apply Triple.of_pure
    intro hk
    apply Triple.bind (kfree_given hst hf hn hk)
    intro _
    refine Triple.pure false fun t ⟨role', hk', ht⟩ => ⟨role', hk', ht.relabel fun _ _ _ _ _ _ hz => .inl hz.1⟩

theorem copyPage_ok {D d : Frame} {a : Addr} (hd : role d = .dir) (ha : a < kernbase) (ha0 : pgRoundDown a = a)
    (hz : sl → Z d (pdx a) (ptx a)) : Triple (Good sl) Fine (Inv sl Z role) (copyPage D d a)
      (fun _ => Kept sl (Z.less d (pdx a) (ptx a)) role) := by
  have hless : ∀ {role : Roles} {t : Kern}, Inv sl Z role t → Inv sl (Z.less d (pdx a) (ptx a)) role t :=
    fun ht => ht.relabel fun _ _ _ _ _ _ hz => .inl hz.1
  apply Triple.freeze
  intro s hs
  apply Triple.read_at
  cases walkpgdir s D a with
  | none => exact Triple.stop _
  | some q =>
    apply Triple.read_at
    apply Triple.ite <;> intro _
    · apply Triple.read_at
      apply Triple.bind (kalloc_ok.weaken fun t ht => ht ▸ hs)
      intro r
      apply Triple.freeze
      rintro t ⟨role₁, hst, hinv, hr⟩
      cases r with
      | none => exact Triple.pure_at ⟨role₁, hst.keeps, hless hinv⟩
      | some mem =>
        obtain ⟨hheld, hn⟩ := hr mem rfl
        have hft : (role₁ mem).isTable = false := by rw [hheld]; rfl
        apply Triple.modify_at
        exact (copyMap_ok hst hheld hn hd ha ha0 (pteFlags_pteFlags _) hz).weaken fun t ht => ht ▸ hinv.setPage _ hft
    · apply Triple.bind (kalloc_ok.weaken fun t ht => ht ▸ hs)
      intro r
      apply Triple.freeze
      rintro t ⟨role₁, hst, hinv, hr⟩
      cases r with
      | none => exact Triple.pure_at ⟨role₁, hst.keeps, hless hinv⟩
      | some mem =>
        obtain ⟨hheld, hn⟩ := hr mem rfl
        have hft : (role₁ mem).isTable = false := by rw [hheld]; rfl
        apply Triple.read_at
        apply Triple.bind (Triple.weaken (P := fun u => u = t) (swapread_keeps (P := Inv sl Z role₁) trivial
          fun u p hu => hu.setPage p hft) (by rintro u rfl; exact hinv))
        intro _
        apply Triple.freeze
        intro u hu
        apply Triple.read_at
        have hflags : ∀ e : Pte, pteFlags (pteFlags e ||| pteP) = pteFlags e ||| pteP := by
          intro e
          unfold pteFlags
          rw [BitVec.and_or_distrib_right, BitVec.and_assoc, BitVec.and_self]
          rfl
        exact (copyMap_ok hst hheld hn hd ha ha0 (hflags _) hz).weaken fun t ht => ht ▸ hu

def Made (sl : Prop) (role : Roles) (r : Option Frame) (t : Kern) : Prop :=
  match r with
  | none   => Kept sl noEmpties role t
  | some d => ∃ role', Fresh role role' d ∧ Inv sl noEmpties role' t

/-- The pages of `d` from an address on are empty. -/
def tailEmpty (d : Frame) (a : Addr) : Empties := fun D i j => D = d ∧ a.toNat ≤ 4096 * pageNo i j

theorem copyuvmLoop_ok {D d : Frame} {sz : Addr} {role : Roles} (hsz : sz ≤ kernbase) (ht : Tables role s) :
    ∀ (n : Nat) (a : Addr) (role₁ : Roles), Fresh role role₁ d → a.toNat % 4096 = 0 →
      Triple (Good sl) Fine (Inv sl (tailEmpty d a) role₁) (copyuvmLoop n D d a sz) (Made sl role) := by
  intro n
  induction n with
  | zero => exact fun _ _ _ _ => Triple.stop _
  | succ n ih =>
    intro a role₁ hfr ha0
    apply Triple.ite
    rotate_left
    · exact fun _ => Triple.pure (some d) fun t ht => ⟨role₁, hfr, ht.forget⟩
    intro hlt
    have hak : a < kernbase := Nat.lt_of_lt_of_le hlt hsz
    have hnext : (a + pgsize).toNat = a.toNat + 4096 := by
      have h1 : a.toNat < 2147483648 := hak
      rw [BitVec.toNat_add, pgsize]
      simp only [BitVec.toNat_ofNat]
      omega
    have hza : tailEmpty d a d (pdx a) (ptx a) := ⟨rfl, by rw [pageNo_pdx_ptx]; omega⟩
    apply Triple.bind (copyPage_ok hfr.dir hak (pgRoundDown_eq_self.2 ha0) fun _ => hza)
    intro b
    apply Triple.of_exists
    intro role₂
    apply Triple.of_pure
    intro hk
    have hfr₂ := hfr.trans hk
    apply Triple.ite
    · intro _
      refine (ih (a + pgsize) role₂ hfr₂ (by omega)).weaken fun t ht => ?_
      refine ht.relabel fun T D' i j _ _ hz => ?_
      obtain ⟨h1, h2⟩ := hz
      refine .inl ⟨⟨h1, by omega⟩, fun he => ?_⟩
      cases he
      rw [pageNo_pdx_ptx] at h2
      omega
    · intro _
      apply Triple.bind (freevm_ok hfr₂.dir)
      intro _
      refine Triple.pure none ?_
      rintro t ⟨role₃, hb, hdf, hinv⟩
      exact ⟨role₃, hfr₂.gone ht hb hdf, hinv.forget⟩

/-- **`copyuvm` keeps the layout**, with the copy's page directory added to it. -/
theorem copyuvm_ok {D : Frame} {sz : Addr} (hsz : sz ≤ kernbase) :
    Triple (Good sl) Fine (Inv sl noEmpties role) (copyuvm D sz) (Made sl role) := by
  apply Triple.freeze
  intro s hs
  apply Triple.bind (setupkvm_ok.weaken fun t ht => ht ▸ hs)
  intro r
  cases r with
  | none => exact Triple.pure none fun t ht => ht
  | some d =>
    apply Triple.of_exists
    intro role₁
    apply Triple.of_pure
    intro hfr
    refine (copyuvmLoop_ok hsz hs.mem.toTables maxPages 0 role₁ hfr rfl).weaken fun t ht => ?_
    exact ht.relabel fun _ _ _ _ _ _ hz => .inl (.inr hz.1)

end Swap
end Xv6
