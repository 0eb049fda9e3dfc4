import Xv6.Swap.Lru
/-!
# Swap.Layout — what each frame is used for

A `Roles` says of every frame what it is: free, held by a kernel client, lost to everyone, a page directory, the page
table of a directory's entry, or the page of a user address.  `MemOk` is what the page tables, the free list and, if
`sl`, the swap bitmap have to do with it; it also records addresses known to have an empty PTE (`Z`).  Each change the
kernel makes to a page table or the free list has one lemma here, with the roles it leaves.
-/
namespace Xv6
namespace Swap

open Mem

inductive Role where
  | free | held | lost | dir
  | tab (D : Frame) (i : BitVec 10)
  | user (D : Frame) (i j : BitVec 10)
  deriving DecidableEq

abbrev Roles := Frame → Role

def Role.isTable : Role → Bool
  | .dir | .tab _ _ => true
  | _               => false

def Roles.set (role : Roles) (f : Frame) (r : Role) : Roles := fun g => if g = f then r else role g

@[simp] theorem set_self (role : Roles) (f : Frame) (r : Role) : role.set f r f = r := if_pos rfl

theorem set_ne (role : Roles) {f g : Frame} (r : Role) (h : g ≠ f) : role.set f r g = role g := if_neg h

theorem ne_of_role {role : Roles} {f g : Frame} {r : Role} (hf : role f = r) (hg : role g ≠ r) : g ≠ f :=
  fun h => hg (h ▸ hf)

structure Tables (role : Roles) (s : Kern) : Prop where
  pde : ∀ D i, role D = .dir → present (s.pte (D, i)) → role (pteFrame (s.pte (D, i))) = .tab D i
  tab : ∀ T D i, role T = .tab D i → role D = .dir ∧ present (s.pte (D, i)) ∧ pteFrame (s.pte (D, i)) = T

/-- A PTE of a live page table that holds slot `k`. -/
def Holds (role : Roles) (s : Kern) (q : PtePtr) (k : Nat) : Prop :=
  (∃ D i, role q.1 = .tab D i) ∧ s.pte q ≠ 0 ∧ ¬ present (s.pte q) ∧ (pteFrame (s.pte q)).toNat = k

/-- The bitmap is the set of the slots held, each by one PTE; kernel mappings are never swapped out. -/
structure SlotsOk (role : Roles) (s : Kern) : Prop where
  bits : ∀ k, checkBit s k = true ↔ ∃ q, Holds role s q k
  inj  : ∀ q q' k, Holds role s q k → Holds role s q' k → q = q'
  kern : ∀ T D i j, role T = .tab D i → ¬ i < 512#10 → s.pte (T, j) = 0 ∨ present (s.pte (T, j))

/-- The addresses known to have no page, by directory and indexes. -/
abbrev Empties := Frame → BitVec 10 → BitVec 10 → Prop

/-- The linker's symbols: the kernel's code, its data, its end, and memory behind it. -/
structure Linked (s : Kern) : Prop where
  data : kernlink < s.kdata
  kend : s.kdata < s.kend
  top  : s.kend ≤ kernbase + phystop

def SameLink (s s' : Kern) : Prop := s'.kend = s.kend ∧ s'.kdata = s.kdata

theorem Linked.congr {s s' : Kern} (h : Linked s) (hl : SameLink s s') : Linked s' := by
  obtain ⟨h1, h2⟩ := hl
  exact ⟨h2 ▸ h.data, h1 ▸ h2 ▸ h.kend, h1 ▸ h.top⟩

structure MemOk (sl : Prop) (Z : Empties) (role : Roles) (s : Kern) : Prop extends Tables role s where
  free  : ∀ f, role f = .free ↔ f ∈ s.freelist
  nodup : s.freelist.Nodup
  user  : ∀ T D i j, role T = .tab D i → i < 512#10 → present (s.pte (T, j)) →
    role (pteFrame (s.pte (T, j))) = .user D i j
  empty : ∀ T D i j, role T = .tab D i → i < 512#10 → Z D i j → s.pte (T, j) = 0
  slots : sl → SlotsOk role s
  link  : Linked s

/-- The words of the page directories and tables are the same. -/
def SameTables (role : Roles) (s s' : Kern) : Prop := ∀ g j, (role g).isTable = true → s'.pte (g, j) = s.pte (g, j)

/-! ## Walking -/

theorem Tables.walk {role : Roles} {s : Kern} (h : Tables role s) {D : Frame} (hD : role D = .dir) {va : Addr}
    {q : PtePtr} (hq : walkpgdir s D va = some q) : role q.1 = .tab D (pdx va) ∧ q.2 = ptx va := by
  unfold walkpgdir at hq
  split at hq
  · rename_i hp
    cases hq
    exact ⟨h.pde D _ hD hp, rfl⟩
  · cases hq

theorem Tables.walk_tab {role : Roles} {s : Kern} (h : Tables role s) {T D : Frame} {va : Addr}
    (hT : role T = .tab D (pdx va)) : walkpgdir s D va = some (T, ptx va) := by
  obtain ⟨-, hp, hf⟩ := h.tab T D _ hT
  unfold walkpgdir
  rw [if_pos hp, hf]

theorem Tables.tab_unique {role : Roles} {s : Kern} (h : Tables role s) {T T' D : Frame} {i : BitVec 10}
    (hT : role T = .tab D i) (hT' : role T' = .tab D i) : T = T' :=
  (h.tab T D i hT).2.2.symm.trans (h.tab T' D i hT').2.2

theorem Tables.congr {role role' : Roles} {s s' : Kern} (h : Tables role s)
    (hrole : ∀ f, (role f).isTable = true ∨ (role' f).isTable = true → role' f = role f)
    (hs : ∀ D i, role D = .dir → s'.pte (D, i) = s.pte (D, i)) : Tables role' s' := by
  have hdir : ∀ D, role' D = .dir → role D = .dir := fun D hD => by rw [← hrole D (.inr (by rw [hD]; rfl)), hD]
  refine ⟨fun D i hD hp => ?_, fun T D i hT => ?_⟩
  · have hD' := hdir D hD
    rw [hs D i hD'] at hp ⊢
    have hT := h.pde D i hD' hp
    rw [hrole _ (.inl (by rw [hT]; rfl)), hT]
  · have hT' : role T = .tab D i := by rw [← hrole T (.inr (by rw [hT]; rfl)), hT]
    obtain ⟨hD, hp, hf⟩ := h.tab T D i hT'
    rw [hs D i hD]
    exact ⟨by rw [hrole D (.inl (by rw [hD]; rfl)), hD], hp, hf⟩

/-! ## Slots -/

/-- **One PTE changes**: the bitmap loses the slot it held and gains the one it holds now. -/
theorem SlotsOk.setPte {role role' : Roles} {s s' : Kern} (h : SlotsOk role s) {T D : Frame} {i j : BitVec 10} {v : Pte}
    (hT : role T = .tab D i) (htab : ∀ f D i, role' f = .tab D i ↔ role f = .tab D i)
    (hs : ∀ g n, (role g).isTable = true → s'.pte (g, n) = if (g, n) = (T, j) then v else s.pte (g, n))
    (hbit : ∀ k, checkBit s' k = true ↔ (checkBit s k = true ∧ ¬ Holds role s (T, j) k) ∨
      (v ≠ 0 ∧ ¬ present v ∧ (pteFrame v).toNat = k))
    (hnew : ∀ k, v ≠ 0 → ¬ present v → (pteFrame v).toNat = k → checkBit s k = false)
    (hk : ¬ i < 512#10 → v = 0 ∨ present v) : SlotsOk role' s' := by
  have htable : ∀ {g D i}, role g = .tab D i → (role g).isTable = true := fun h => by rw [h]; rfl
  have hval : ∀ {g D i} n, role g = .tab D i → s'.pte (g, n) = if (g, n) = (T, j) then v else s.pte (g, n) :=
    fun n h => hs _ n (htable h)
  -- off the PTE that changes, the same slots are held
  have hoff : ∀ q k, q ≠ (T, j) → (Holds role' s' q k ↔ Holds role s q k) := by
    rintro ⟨g, n⟩ k hne
    unfold Holds
    simp only [htab]
    constructor
    · rintro ⟨⟨D', i', hg⟩, h1, h2, h3⟩
      rw [hval n hg, if_neg hne] at h1 h2 h3
      exact ⟨⟨D', i', hg⟩, h1, h2, h3⟩
    · rintro ⟨⟨D', i', hg⟩, h1, h2, h3⟩
      rw [hval n hg, if_neg hne]
      exact ⟨⟨D', i', hg⟩, h1, h2, h3⟩
  have hon : ∀ k, Holds role' s' (T, j) k ↔ v ≠ 0 ∧ ¬ present v ∧ (pteFrame v).toNat = k := by
    intro k
    unfold Holds
    rw [hval j hT, if_pos rfl]
    exact ⟨fun h => h.2, fun h => ⟨⟨D, i, (htab T D i).2 hT⟩, h⟩⟩
  refine ⟨fun k => ?_, fun q q' k hq hq' => ?_, fun T' D' i' j' hT' hi => ?_⟩
  · rw [hbit k]
    constructor
    · rintro (⟨hb, hne⟩ | hv)
      · obtain ⟨q, hq⟩ := (h.bits k).1 hb
        have hqT : q ≠ (T, j) := fun he => hne (he ▸ hq)
        exact ⟨q, (hoff q k hqT).2 hq⟩
      · exact ⟨(T, j), (hon k).2 hv⟩
    · rintro ⟨q, hq⟩
      by_cases hqT : q = (T, j)
      · subst hqT
        exact .inr ((hon k).1 hq)
      · have hq' := (hoff q k hqT).1 hq
        refine .inl ⟨(h.bits k).2 ⟨q, hq'⟩, fun hT' => hqT (h.inj q (T, j) k hq' hT')⟩
  · -- a slot newly held has its bit clear before, so no other PTE holds it
    have hclash : ∀ q, q ≠ (T, j) → Holds role' s' q k → Holds role' s' (T, j) k → False := by
      intro q hne hq hT'
      obtain ⟨h1, h2, h3⟩ := (hon k).1 hT'
      have hset := (h.bits k).2 ⟨q, (hoff q k hne).1 hq⟩
      rw [hnew k h1 h2 h3] at hset
      cases hset
    by_cases hqT : q = (T, j)
    · by_cases hqT' : q' = (T, j)
      · rw [hqT, hqT']
      · exact (hclash q' hqT' hq' (hqT ▸ hq)).elim
    · by_cases hqT' : q' = (T, j)
      · exact (hclash q hqT hq (hqT' ▸ hq')).elim
      · exact h.inj q q' k ((hoff q k hqT).1 hq) ((hoff q' k hqT').1 hq')
  · have hT'' := (htab T' D' i').1 hT'
    rw [hval j' hT'']
    split
    · rename_i he
      have hii : i' = i := by cases he; rw [hT''] at hT; injection hT
      exact hk (hii ▸ hi)
    · exact h.kern T' D' i' j' hT'' hi

theorem SlotsOk.congr {role role' : Roles} {s s' : Kern} (h : SlotsOk role s)
    (htab : ∀ f D i, role' f = .tab D i ↔ role f = .tab D i) (hs : SameTables role s s') (hb : s'.bitmap = s.bitmap) :
    SlotsOk role' s' := by
  have hbit : ∀ k, checkBit s' k = checkBit s k := fun k => by unfold checkBit; rw [hb]
  have hval : ∀ {g D i} n, role g = .tab D i → s'.pte (g, n) = s.pte (g, n) := fun n h => hs _ n (by rw [h]; rfl)
  have hholds : ∀ q k, Holds role' s' q k ↔ Holds role s q k := by
    rintro ⟨g, n⟩ k
    unfold Holds
    simp only [htab]
    constructor
    · rintro ⟨⟨D, i, hg⟩, hr⟩
      rw [hval n hg] at hr
      exact ⟨⟨D, i, hg⟩, hr⟩
    · rintro ⟨⟨D, i, hg⟩, hr⟩
      rw [hval n hg]
      exact ⟨⟨D, i, hg⟩, hr⟩
  refine ⟨fun k => ?_, fun q q' k hq hq' => ?_, fun T D i j hT hi => ?_⟩
  · rw [hbit, h.bits]
    exact exists_congr fun q => (hholds q k).symm
  · exact h.inj q q' k ((hholds q k).1 hq) ((hholds q' k).1 hq')
  · rw [hval j ((htab T D i).1 hT)]
    exact h.kern T D i j ((htab T D i).1 hT) hi

/-! ## Changes of use -/

section Changes

variable {sl : Prop} {Z Z' : Empties} {role role' : Roles} {s s' : Kern}

theorem isTable_of_tab {g D : Frame} {i : BitVec 10} (h : role g = .tab D i) : (role g).isTable = true := by rw [h]; rfl

theorem isTable_of_dir {g : Frame} (h : role g = .dir) : (role g).isTable = true := by rw [h]; rfl

theorem set_isTable {f : Frame} {r : Role} (hf : (role f).isTable = false) (hr : r.isTable = false) (g : Frame)
    (h : (role g).isTable = true ∨ (role.set f r g).isTable = true) : role.set f r g = role g := by
  by_cases hg : g = f
  · subst hg
    rw [set_self, hf, hr] at h
    simp at h
  · exact set_ne role r hg

theorem set_tab_iff {f : Frame} {r : Role} (hf : (role f).isTable = false) (hr : r.isTable = false) (g D : Frame)
    (i : BitVec 10) : role.set f r g = .tab D i ↔ role g = .tab D i := by
  constructor
  · intro h
    rw [← set_isTable hf hr g (.inr (isTable_of_tab h)), h]
  · intro h
    rw [set_isTable hf hr g (.inl (isTable_of_tab h)), h]

theorem MemOk.congr (h : MemOk sl Z role s) (hs : SameTables role s s') (hf : s'.freelist = s.freelist)
    (hb : s'.bitmap = s.bitmap) (hl : SameLink s s') : MemOk sl Z role s' where
  toTables := h.toTables.congr (fun _ _ => rfl) (fun D i hD => hs D i (isTable_of_dir hD))
  free     := by rw [hf]; exact h.free
  nodup    := by rw [hf]; exact h.nodup
  user     := fun T D i j hT hi => by rw [hs T j (isTable_of_tab hT)]; exact h.user T D i j hT hi
  empty    := fun T D i j hT hi hZ => by rw [hs T j (isTable_of_tab hT)]; exact h.empty T D i j hT hi hZ
  slots    := fun hsl => (h.slots hsl).congr (fun _ _ _ => Iff.rfl) hs hb
  link     := h.link.congr hl

theorem MemOk.reuse (h : MemOk sl Z role s) {f : Frame} {r : Role} (hf : role f = .free ∨ role f = .held)
    (hr : r = .free ∨ r = .held) (hs : SameTables role s s') (hb : s'.bitmap = s.bitmap) (hl : SameLink s s')
    (hfree : ∀ g, role.set f r g = .free ↔ g ∈ s'.freelist) (hnd : s'.freelist.Nodup) :
    MemOk sl Z (role.set f r) s' := by
  have hft : (role f).isTable = false := by rcases hf with h | h <;> rw [h] <;> rfl
  have hrt : r.isTable = false := by rcases hr with h | h <;> rw [h] <;> rfl
  have htab : ∀ g D i, role.set f r g = .tab D i ↔ role g = .tab D i := set_tab_iff hft hrt
  refine ⟨h.toTables.congr (set_isTable hft hrt) (fun D i hD => hs D i (isTable_of_dir hD)), hfree, hnd, ?_, ?_, ?_,
    h.link.congr hl⟩
  · intro T D i j hT hi hp
    rw [htab] at hT
    rw [hs T j (isTable_of_tab hT)] at hp ⊢
    have hu := h.user T D i j hT hi hp
    rw [set_ne role r (fun he => ?_), hu]
    rw [he] at hu
    rcases hf with hf | hf <;> rw [hf] at hu <;> cases hu
  · intro T D i j hT hi hZ
    rw [htab] at hT
    rw [hs T j (isTable_of_tab hT)]
    exact h.empty T D i j hT hi hZ
  · exact fun hsl => (h.slots hsl).congr htab hs hb

theorem MemOk.alloc (h : MemOk sl Z role s) {f : Frame} {l : List Frame} (hl : s.freelist = f :: l) :
    role f = .free ∧ MemOk sl Z (role.set f .held) { s with freelist := l } := by
  have hf : role f = .free := (h.free f).2 (by rw [hl]; exact List.mem_cons_self)
  have hnd : f ∉ l ∧ l.Nodup := List.nodup_cons.1 (hl ▸ h.nodup)
  refine ⟨hf, h.reuse (.inl hf) (.inr rfl) (fun _ _ _ => rfl) rfl ⟨rfl, rfl⟩ (fun g => ?_) hnd.2⟩
  by_cases hg : g = f
  · subst hg
    rw [set_self]
    exact ⟨fun he => (by cases he), fun hm => absurd hm hnd.1⟩
  · rw [set_ne role _ hg, h.free g, hl]
    simp [hg]

theorem MemOk.release (h : MemOk sl Z role s) {f : Frame} (hf : role f = .held) (hs : SameTables role s s')
    (hfl : s'.freelist = f :: s.freelist) (hb : s'.bitmap = s.bitmap) (hl : SameLink s s') :
    MemOk sl Z (role.set f .free) s' := by
  refine h.reuse (.inr hf) (.inl rfl) hs hb hl (fun g => ?_) ?_
  · rw [hfl]
    by_cases hg : g = f
    · subst hg; simp
    · rw [set_ne role _ hg, h.free g]
      simp [hg]
  · rw [hfl]
    exact List.nodup_cons.2 ⟨fun hm => (by rw [(h.free f).2 hm] at hf; cases hf), h.nodup⟩

/-- **One PTE changes**, and with it the use of the frames it pointed to and points to. -/
theorem MemOk.setPte (h : MemOk sl Z role s) {T D : Frame} {i j : BitVec 10} {v : Pte} (hT : role T = .tab D i)
    (hrole : ∀ f, role' f = role f ∨ ((role f = .held ∨ role f = .user D i j) ∧
      (role' f = .held ∨ role' f = .lost ∨ role' f = .user D i j)))
    (hs : ∀ g n, (role g).isTable = true → s'.pte (g, n) = if (g, n) = (T, j) then v else s.pte (g, n))
    (hf : s'.freelist = s.freelist) (hv : i < 512#10 → present v → role' (pteFrame v) = .user D i j)
    (hZ : ∀ D' i' j', i' < 512#10 → Z' D' i' j' → if (D', i', j') = (D, i, j) then v = 0 else Z D' i' j')
    (hslots : sl → SlotsOk role' s') (hl : SameLink s s') : MemOk sl Z' role' s' := by
  have htable : ∀ f, (role f).isTable = true ∨ (role' f).isTable = true → role' f = role f := by
    intro f hf
    rcases hrole f with h | ⟨h | h, h' | h' | h'⟩
    · exact h
    all_goals exact absurd hf (by rw [h, h']; simp [Role.isTable])
  have htab : ∀ f D i, role' f = .tab D i ↔ role f = .tab D i := fun f D i =>
    ⟨fun h => by rw [← htable f (.inr (isTable_of_tab h)), h], fun h => by rw [htable f (.inl (isTable_of_tab h)), h]⟩
  have hfree : ∀ f, role' f = .free ↔ role f = .free := by
    intro f
    rcases hrole f with h | ⟨h | h, h' | h' | h'⟩
    · rw [h]
    all_goals simp [h, h']
  have hval : ∀ {g D i} n, role g = .tab D i → s'.pte (g, n) = if (g, n) = (T, j) then v else s.pte (g, n) :=
    fun n h => hs _ n (isTable_of_tab h)
  -- the PTE at the same place is the PTE of the same table
  have hsame : ∀ {T' D' i' j'}, role T' = .tab D' i' → ((T', j') = (T, j) ↔ (D', i', j') = (D, i, j)) := by
    intro T' D' i' j' hT'
    constructor
    · intro he
      cases he
      rw [hT'] at hT
      cases hT
      rfl
    · intro he
      cases he
      rw [h.tab_unique hT' hT]
  refine ⟨h.toTables.congr htable (fun D' i' hD' => ?_), fun f => ?_, hf ▸ h.nodup, ?_, ?_, hslots, h.link.congr hl⟩
  · rw [hs D' i' (isTable_of_dir hD'), if_neg (fun he => by cases he; rw [hT] at hD'; cases hD')]
  · rw [hfree, h.free, hf]
  · intro T' D' i' j' hT' hi hp
    rw [htab] at hT'
    rw [hval j' hT'] at hp ⊢
    split at hp
    · rename_i he
      rw [if_pos he]
      obtain ⟨rfl, rfl, rfl⟩ : D' = D ∧ i' = i ∧ j' = j := by simpa using (hsame hT').1 he
      exact hv hi hp
    · rename_i he
      rw [if_neg he]
      have hu := h.user T' D' i' j' hT' hi hp
      rcases hrole (pteFrame (s.pte (T', j'))) with hr | ⟨hr | hr, -⟩
      · rw [hr, hu]
      · rw [hu] at hr; cases hr
      · rw [hu] at hr
        injection hr with h1 h2 h3
        exact absurd ((hsame hT').2 (by rw [h1, h2, h3])) he
  · intro T' D' i' j' hT' hi hz
    rw [htab] at hT'
    rw [hval j' hT']
    have hZ' := hZ D' i' j' hi hz
    by_cases he : (T', j') = (T, j)
    · rw [if_pos ((hsame hT').1 he)] at hZ'
      rw [if_pos he, hZ']
    · rw [if_neg (fun h => he ((hsame hT').2 h))] at hZ'
      rw [if_neg he]
      exact h.empty T' D' i' j' hT' hi hZ'

theorem MemOk.newTable (h : MemOk sl Z role s) {D f : Frame} {i : BitVec 10} {v : Pte} (hD : role D = .dir)
    (hp : ¬ present (s.pte (D, i))) (hf : role f = .held) (hvp : present v) (hvf : pteFrame v = f)
    (hs : ∀ g n, (role g).isTable = true → s'.pte (g, n) = if (g, n) = (D, i) then v else s.pte (g, n))
    (hzero : ∀ n, s'.pte (f, n) = 0) (hfl : s'.freelist = s.freelist) (hb : s'.bitmap = s.bitmap)
    (hl : SameLink s s') : MemOk sl Z (role.set f (.tab D i)) s' := by
  have hne : ∀ {g r}, role g = r → r ≠ .held → g ≠ f := fun hg hr he => hr (hg ▸ he ▸ hf)
  have hDf : D ≠ f := hne hD (by simp)
  have htab : ∀ g D' i', role.set f (.tab D i) g = .tab D' i' ↔ role g = .tab D' i' ∨ (g = f ∧ D' = D ∧ i' = i) := by
    intro g D' i'
    by_cases hg : g = f
    · subst hg
      rw [set_self, hf]
      simp only [Role.tab.injEq, reduceCtorEq, true_and, false_or]
      exact ⟨fun ⟨h1, h2⟩ => ⟨h1.symm, h2.symm⟩, fun ⟨h1, h2⟩ => ⟨h1.symm, h2.symm⟩⟩
    · rw [set_ne role _ hg]
      simp [hg]
  have hdir : ∀ g, role.set f (.tab D i) g = .dir ↔ role g = .dir := by
    intro g
    by_cases hg : g = f
    · subst hg; rw [set_self, hf]; simp
    · rw [set_ne role _ hg]
  have hval : ∀ {g D' i'} n, role g = .tab D' i' → s'.pte (g, n) = s.pte (g, n) := by
    intro g D' i' n hg
    rw [hs g n (isTable_of_tab hg), if_neg (fun he => by cases he; rw [hD] at hg; cases hg)]
  have hholds : ∀ q k, Holds (role.set f (.tab D i)) s' q k ↔ Holds role s q k := by
    rintro ⟨g, n⟩ k
    unfold Holds
    simp only [htab]
    constructor
    · rintro ⟨⟨D', i', hg | ⟨rfl, -⟩⟩, h1, h2, h3⟩
      · rw [hval n hg] at h1 h2 h3
        exact ⟨⟨D', i', hg⟩, h1, h2, h3⟩
      · exact absurd (hzero n) h1
    · rintro ⟨⟨D', i', hg⟩, h1, h2, h3⟩
      rw [hval n hg]
      exact ⟨⟨D', i', .inl hg⟩, h1, h2, h3⟩
  refine ⟨⟨fun D' i' hD' hpr => ?_, fun T D' i' hT => ?_⟩, fun g => ?_, hfl ▸ h.nodup, ?_, ?_, fun hsl => ?_,
    h.link.congr hl⟩
  · rw [hdir] at hD'
    rw [hs D' i' (isTable_of_dir hD')] at hpr ⊢
    rw [htab]
    split
    · rename_i he
      cases he
      exact .inr ⟨hvf, rfl, rfl⟩
    · rename_i he
      rw [if_neg he] at hpr
      exact .inl (h.pde D' i' hD' hpr)
  · rw [hdir]
    rcases (htab T D' i').1 hT with hT | ⟨rfl, rfl, rfl⟩
    · obtain ⟨h1, h2, h3⟩ := h.tab T D' i' hT
      have he : (D', i') ≠ (D, i) := fun he => by cases he; exact hp h2
      rw [hs D' i' (isTable_of_dir h1), if_neg he]
      exact ⟨h1, h2, h3⟩
    · rw [hs D' i' (isTable_of_dir hD), if_pos rfl]
      exact ⟨hD, hvp, hvf⟩
  · rw [hfl, ← h.free g]
    by_cases hg : g = f
    · subst hg; rw [set_self, hf]; simp
    · rw [set_ne role _ hg]
  · intro T D' i' j hT hi hpr
    rcases (htab T D' i').1 hT with hT | ⟨rfl, rfl, rfl⟩
    · rw [hval j hT] at hpr ⊢
      have hu := h.user T D' i' j hT hi hpr
      rw [set_ne role _ (hne hu (by simp)), hu]
    · rw [hzero] at hpr
      exact absurd hpr not_present_zero
  · intro T D' i' j hT hi hz
    rcases (htab T D' i').1 hT with hT | ⟨rfl, rfl, rfl⟩
    · rw [hval j hT]
      exact h.empty T D' i' j hT hi hz
    · exact hzero j
  · have hslots := h.slots hsl
    refine ⟨fun k => ?_, fun q q' k hq hq' => ?_, fun T D' i' j hT hi => ?_⟩
    · have hbit : checkBit s' k = checkBit s k := by unfold checkBit; rw [hb]
      rw [hbit, hslots.bits]
      exact exists_congr fun q => (hholds q k).symm
    · exact hslots.inj q q' k ((hholds q k).1 hq) ((hholds q' k).1 hq')
    · rcases (htab T D' i').1 hT with hT | ⟨rfl, rfl, rfl⟩
      · rw [hval j hT]
        exact hslots.kern T D' i' j hT hi
      · exact .inl (hzero j)

/-- **`setupkvm` starts a zeroed page directory**, at which every address is empty. -/
theorem MemOk.newDir (h : MemOk sl Z role s) {f : Frame} (hf : role f = .held) (hs : SameTables role s s')
    (hzero : ∀ n, s'.pte (f, n) = 0) (hfl : s'.freelist = s.freelist) (hb : s'.bitmap = s.bitmap)
    (hl : SameLink s s') : MemOk sl (fun D i j => Z D i j ∨ D = f) (role.set f .dir) s' := by
  have htab : ∀ g D i, role.set f .dir g = .tab D i ↔ role g = .tab D i := by
    intro g D i
    by_cases hg : g = f
    · subst hg; rw [set_self, hf]; simp
    · rw [set_ne role _ hg]
  have hdirs : ∀ g, role.set f .dir g = .dir → g = f ∨ role g = .dir := by
    intro g hg
    by_cases he : g = f
    · exact .inl he
    · rw [set_ne role _ he] at hg
      exact .inr hg
  have hne : ∀ {g r}, role g = r → r ≠ .held → g ≠ f := fun hg hr he => hr (hg ▸ he ▸ hf)
  -- no table belongs to the new directory
  have hnone : ∀ T i, role T ≠ .tab f i := fun T i hT => by
    have hd := (h.tab T f i hT).1
    rw [hf] at hd
    cases hd
  refine ⟨⟨fun D i hD hp => ?_, fun T D i hT => ?_⟩, fun g => ?_, hfl ▸ h.nodup, ?_, ?_, fun hsl => ?_,
    h.link.congr hl⟩
  · rcases hdirs D hD with rfl | hD
    · rw [hzero] at hp
      exact absurd hp not_present_zero
    · rw [hs D i (isTable_of_dir hD)] at hp ⊢
      rw [htab]
      exact h.pde D i hD hp
  · rw [htab] at hT
    obtain ⟨h1, h2, h3⟩ := h.tab T D i hT
    rw [hs D i (isTable_of_dir h1), set_ne role _ (hne h1 (by simp))]
    exact ⟨h1, h2, h3⟩
  · rw [hfl, ← h.free g]
    by_cases hg : g = f
    · subst hg; rw [set_self, hf]; simp
    · rw [set_ne role _ hg]
  · intro T D i j hT hi hp
    rw [htab] at hT
    rw [hs T j (isTable_of_tab hT)] at hp ⊢
    have hu := h.user T D i j hT hi hp
    rw [set_ne role _ (hne hu (by simp)), hu]
  · intro T D i j hT hi hz
    rw [htab] at hT
    rw [hs T j (isTable_of_tab hT)]
    rcases hz with hz | rfl
    · exact h.empty T D i j hT hi hz
    · exact absurd hT (hnone T i)
  · exact (h.slots hsl).congr htab hs hb

/-- The roles when a directory is given up: it and its tables are the kernel's to free, its pages are lost. -/
def Roles.retire (role : Roles) (D : Frame) : Roles := fun f =>
  match role f with
  | .dir         => if f = D then .held else .dir
  | .tab D' i    => if D' = D then .held else .tab D' i
  | .user D' i j => if D' = D then .lost else .user D' i j
  | r            => r

theorem MemOk.retire (h : MemOk sl Z role s) {D : Frame} (hZ : ∀ i j, i < 512#10 → Z D i j) :
    MemOk sl Z (role.retire D) s := by
  have hdir : ∀ f, role.retire D f = .dir ↔ role f = .dir ∧ f ≠ D := by
    intro f
    unfold Roles.retire
    cases hf : role f <;> simp only [reduceCtorEq, false_and]
    · split <;> simp [*]
    · split <;> simp
    · split <;> simp
  have htab : ∀ f D' i, role.retire D f = .tab D' i ↔ role f = .tab D' i ∧ D' ≠ D := by
    intro f D' i
    unfold Roles.retire
    cases hf : role f <;> simp only [reduceCtorEq, false_and]
    · split <;> simp
    · split
      · rename_i he
        simp only [reduceCtorEq, false_iff, Role.tab.injEq]
        rintro ⟨⟨rfl, -⟩, hne⟩
        exact hne he
      · rename_i he
        simp only [Role.tab.injEq]
        exact ⟨fun ⟨h1, h2⟩ => ⟨⟨h1, h2⟩, h1 ▸ he⟩, fun h => h.1⟩
    · split <;> simp
  have huser : ∀ f D' i j, role f = .user D' i j → D' ≠ D → role.retire D f = .user D' i j := by
    intro f D' i j hf hne
    unfold Roles.retire
    rw [hf]
    exact if_neg hne
  have hfree : ∀ f, role.retire D f = .free ↔ role f = .free := by
    intro f
    unfold Roles.retire
    cases role f <;> simp only [reduceCtorEq]
    all_goals split <;> simp
  refine ⟨⟨fun D' i hD hp => ?_, fun T D' i hT => ?_⟩, fun f => by rw [hfree, h.free], h.nodup, ?_, ?_, fun hsl => ?_,
    h.link⟩
  · rw [hdir] at hD
    exact (htab _ D' i).2 ⟨h.pde D' i hD.1 hp, hD.2⟩
  · rw [htab] at hT
    obtain ⟨h1, h2, h3⟩ := h.tab T D' i hT.1
    exact ⟨(hdir D').2 ⟨h1, hT.2⟩, h2, h3⟩
  · intro T D' i j hT hi hp
    rw [htab] at hT
    exact huser _ _ _ _ (h.user T D' i j hT.1 hi hp) hT.2
  · intro T D' i j hT hi hz
    exact h.empty T D' i j ((htab T D' i).1 hT).1 hi hz
  · have hslots := h.slots hsl
    -- the directory's own tables hold no slot: they are empty below, and mapped above
    have hholds : ∀ q k, Holds (role.retire D) s q k ↔ Holds role s q k := by
      rintro ⟨g, n⟩ k
      unfold Holds
      simp only [htab]
      constructor
      · rintro ⟨⟨D', i, hg⟩, hr⟩
        exact ⟨⟨D', i, hg.1⟩, hr⟩
      · rintro ⟨⟨D', i, hg⟩, h1, h2, h3⟩
        refine ⟨⟨D', i, hg, fun he => ?_⟩, h1, h2, h3⟩
        subst he
        by_cases hi : i < 512#10
        · exact h1 (h.empty g D' i n hg hi (hZ i n hi))
        · rcases hslots.kern g D' i n hg hi with h0 | hp
          · exact h1 h0
          · exact h2 hp
    refine ⟨fun k => ?_, fun q q' k hq hq' => ?_, fun T D' i j hT hi => ?_⟩
    · rw [hslots.bits]
      exact exists_congr fun q => (hholds q k).symm
    · exact hslots.inj q q' k ((hholds q k).1 hq) ((hholds q' k).1 hq')
    · exact hslots.kern T D' i j ((htab T D' i).1 hT).1 hi

end Changes

/-! ## The bitmap -/

theorem checkBit_eq (s : Kern) (k : Nat) : checkBit s k = (s.bitmap (k / 8)).getLsbD (k % 8) := by
  have hlt : k % 8 < 8 := Nat.mod_lt k (by decide)
  have hone : ∀ i, (1#8 <<< (k % 8)).getLsbD i = decide (i = k % 8) := by
    intro i
    rw [BitVec.getLsbD_shiftLeft, BitVec.getLsbD_one]
    by_cases hi : i = k % 8
    · simp [hi, hlt]
    · by_cases hlt' : i < k % 8
      · simp [hi, hlt']
      · have : ¬ i - k % 8 = 0 := by omega
        simp [hi, this]
  unfold checkBit
  by_cases hb : (s.bitmap (k / 8)).getLsbD (k % 8) = true
  · rw [hb, bne_iff_ne]
    intro he
    have := congrArg (fun x => x.getLsbD (k % 8)) he
    simp only [BitVec.getLsbD_and, hb, hone, decide_true, Bool.and_true] at this
    simp at this
  · rw [Bool.not_eq_true] at hb
    rw [hb, bne_eq_false_iff_eq]
    refine BitVec.eq_of_getLsbD_eq fun i hi => ?_
    rw [BitVec.getLsbD_and, hone]
    by_cases hi' : i = k % 8
    · rw [hi', hb]; simp
    · simp [hi']

theorem bit_place {k n : Nat} : n = k ↔ n / 8 = k / 8 ∧ n % 8 = k % 8 := by omega

theorem checkBit_setBit (s : Kern) (k n : Nat) : checkBit (s.setBit k) n = (checkBit s n || decide (n = k)) := by
  have hk : k % 8 < 8 := Nat.mod_lt k (by decide)
  rw [checkBit_eq, checkBit_eq]
  show BitVec.getLsbD (if n / 8 = k / 8 then _ else _) (n % 8) = _
  by_cases hd : n / 8 = k / 8
  · rw [if_pos hd, BitVec.getLsbD_or, BitVec.getLsbD_shiftLeft, BitVec.getLsbD_one]
    congr 1
    by_cases hm : n % 8 = k % 8
    · simp [bit_place.2 ⟨hd, hm⟩, hk]
    · have he : n ≠ k := fun he => hm (bit_place.1 he).2
      by_cases hlt : n % 8 < k % 8
      · simp [he, hlt]
      · have : ¬ n % 8 - k % 8 = 0 := by omega
        simp [he, this]
  · have he : n ≠ k := fun he => hd (bit_place.1 he).1
    rw [if_neg hd]
    simp [he]

theorem checkBit_clearBit (s : Kern) (k n : Nat) : checkBit (s.clearBit k) n = (checkBit s n && !decide (n = k)) := by
  have hk : k % 8 < 8 := Nat.mod_lt k (by decide)
  have hn : n % 8 < 8 := Nat.mod_lt n (by decide)
  rw [checkBit_eq, checkBit_eq]
  show BitVec.getLsbD (if n / 8 = k / 8 then _ else _) (n % 8) = _
  by_cases hd : n / 8 = k / 8
  · rw [if_pos hd, BitVec.getLsbD_and, BitVec.getLsbD_not, BitVec.getLsbD_shiftLeft, BitVec.getLsbD_one]
    congr 1
    by_cases hm : n % 8 = k % 8
    · simp [bit_place.2 ⟨hd, hm⟩, hk]
    · have he : n ≠ k := fun he => hm (bit_place.1 he).2
      by_cases hlt : n % 8 < k % 8
      · simp [he, hlt, hn]
      · have : ¬ n % 8 - k % 8 = 0 := by omega
        simp [he, this, hn]
  · have he : n ≠ k := fun he => hd (bit_place.1 he).1
    rw [if_neg hd]
    simp [he]

theorem findFreeFrom_some {s : Kern} {k : Nat} : ∀ (n i : Nat), findFreeFrom s n i = some k →
    i ≤ k ∧ k < i + n ∧ checkBit s k = false
  | 0, _, h => by cases h
  | n + 1, i, h => by
    unfold findFreeFrom at h
    split at h
    · rename_i hb
      cases h
      exact ⟨Nat.le_refl k, by omega, by simpa using hb⟩
    · obtain ⟨h1, h2, h3⟩ := findFreeFrom_some n (i + 1) h
      exact ⟨by omega, by omega, h3⟩

theorem findFreeSwapIndex_some {s : Kern} {k : Nat} (h : findFreeSwapIndex s = some k) :
    k < bitmapSize ∧ checkBit s k = false := by
  obtain ⟨-, h2, h3⟩ := findFreeFrom_some _ _ h
  exact ⟨by omega, h3⟩

end Swap
end Xv6
