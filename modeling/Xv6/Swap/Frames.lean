import Xv6.Swap.Layout
/-!
# Swap.Frames — the allocator keeps the layout

The invariant `Inv` of the whole machine (the layout and the LRU list) through kalloc.c.  `Good` is what the steps of a
run have to meet for it: chiefly that a page is evicted to the slot whose number is that of its frame, since the number
`reclaim` frees is the slot's.
-/
namespace Xv6
namespace Swap

open Mem
open Prog (Triple)

/-- An entry of the LRU list that stands for a resident page of a live directory. -/
structure Resident (role : Roles) (s : Kern) (f D T : Frame) : Prop where
  pgdir   : (s.pages f).pgdir = some D
  user    : (s.pages f).vaddr < kernbase
  aligned : pgRoundDown (s.pages f).vaddr = (s.pages f).vaddr
  tab     : role T = .tab D (pdx (s.pages f).vaddr)
  pte     : present (s.pte (T, ptx (s.pages f).vaddr))

/-- An entry of the LRU list, whose frame holds its page or was lost to it. -/
def Entry (role : Roles) (s : Kern) (f : Frame) : Prop :=
  ∃ D T, Resident role s f D T ∧ (role f = .lost ∨ role f = .user D (pdx (s.pages f).vaddr) (ptx (s.pages f).vaddr))

/-- The LRU list is a ring of entries with `V`, each for a page of its own. -/
def LruOk (V : Frame → Prop) (s : Kern) : Prop := ∀ h, s.pageLruHead = some h → ∃ l, OnRing s h l ∧
  (∀ f ∈ h :: l, V f) ∧ ∀ f ∈ h :: l, ∀ g ∈ h :: l,
    (s.pages f).pgdir = (s.pages g).pgdir → (s.pages f).vaddr = (s.pages g).vaddr → f = g

structure Inv (sl : Prop) (Z : Empties) (role : Roles) (s : Kern) : Prop where
  mem : MemOk sl Z role s
  lru : LruOk (Entry role s) s

def Good (sl : Prop) : Event → Prop
  | .evict e        => BitVec.ofNat 20 e.slot = pteFrame e.pte
  | .dealloc pte    => present pte ↔ pteAddr pte ≠ 0
  | .popLru f g     => f = g
  | .swapIn pte bit => sl → pte = 0 ∨ present pte → bit = false
  | _               => True

/-- The frame that `reclaim` frees is the frame of its victim. -/
def Fine : Event → Prop
  | .evict e => e.freed = pteFrame e.pte
  | _        => True

/-- Frames in the kernel's own hands keep their use, and no page directory is made. -/
structure Keeps (role role' : Roles) : Prop where
  use  : ∀ f, (role f).isTable = true ∨ role f = .held → role' f = role f
  dirs : ∀ f, role' f = .dir → role f = .dir

/-- What `kalloc` does to the uses of frames: it makes no table either. -/
def Stays (role role' : Roles) : Prop :=
  ∀ f, (role f).isTable = true ∨ (role' f).isTable = true ∨ role f = .held → role' f = role f

theorem Stays.keeps {role role' : Roles} (h : Stays role role') : Keeps role role' :=
  ⟨fun f hf => h f (hf.imp_right .inr), fun f hf => by rw [← h f (.inr (.inl (isTable_of_dir hf))), hf]⟩

theorem Stays.refl (role : Roles) : Stays role role := fun _ _ => rfl

theorem Stays.trans {role role' role'' : Roles} (h : Stays role role') (h' : Stays role' role'') :
    Stays role role'' := by
  intro f hf
  have h0 : (role' f).isTable = true ∨ role f = .held → role'' f = role f := by
    rintro (ht | hh)
    · rw [h' f (.inl ht), h f (.inr (.inl ht))]
    · rw [h' f (.inr (.inr (by rw [h f (.inr (.inr hh)), hh]))), h f (.inr (.inr hh))]
  rcases hf with ht | ht | hh
  · exact h0 (.inl (by rw [h f (.inl ht), ht]))
  · exact h0 (.inl (by rw [← h' f (.inr (.inl ht)), ht]))
  · exact h0 (.inr hh)

theorem Keeps.refl (role : Roles) : Keeps role role := ⟨fun _ _ => rfl, fun _ h => h⟩

theorem Keeps.trans {role role' role'' : Roles} (h : Keeps role role') (h' : Keeps role' role'') : Keeps role role'' :=
  ⟨fun f hf => by rw [h'.use f (by rw [h.use f hf]; exact hf), h.use f hf], fun f hf => h.dirs f (h'.dirs f hf)⟩

theorem Keeps.dir {role role' : Roles} (h : Keeps role role') {D : Frame} (hD : role D = .dir) : role' D = .dir := by
  rw [h.use D (.inl (isTable_of_dir hD)), hD]

theorem Keeps.held {role role' : Roles} (h : Keeps role role') {f : Frame} (hf : role f = .held) : role' f = .held := by
  rw [h.use f (.inr hf), hf]

theorem Keeps.tab {role role' : Roles} (h : Keeps role role') {T D : Frame} {i : BitVec 10} (hT : role T = .tab D i) :
    role' T = .tab D i := by
  rw [h.use T (.inl (isTable_of_tab hT)), hT]

theorem Keeps.put {role role' : Roles} (h : Keeps role role') {f : Frame} {r : Role}
    (hf : ¬ ((role f).isTable = true ∨ role f = .held)) (hr : r ≠ .dir) : Keeps role (role'.set f r) := by
  refine ⟨fun g hg => ?_, fun g hg => ?_⟩
  · rw [set_ne role' r fun he : g = f => hf (he ▸ hg), h.use g hg]
  · by_cases hgf : g = f
    · rw [hgf, set_self] at hg
      exact absurd hg hr
    · rw [set_ne role' r hgf] at hg
      exact h.dirs g hg

theorem Stays.given {role role' : Roles} (h : Stays role role') {f : Frame} (hf : role' f = .held)
    (hn : role f ≠ .held) : ¬ ((role f).isTable = true ∨ role f = .held) := by
  rintro (ht | hh)
  · rw [← h f (.inl ht), hf] at ht
    cases ht
  · exact hn hh

theorem Stays.set {role : Roles} {f : Frame} {r : Role} (ht : (role f).isTable = false) (hh : role f ≠ .held)
    (hr : r.isTable = false) : Stays role (role.set f r) := by
  intro g hg
  refine set_ne role r (fun he => ?_)
  rw [he, ht, set_self, hr] at hg
  simp [hh] at hg

/-! ## The list -/

theorem LruOk.imp {V V' : Frame → Prop} {s s' : Kern} (h : LruOk V s) (hp : s'.pages = s.pages)
    (hh : s'.pageLruHead = s.pageLruHead) (hV : ∀ f, V f → V' f) : LruOk V' s' := by
  intro hd hhd
  rw [hh] at hhd
  obtain ⟨l, hr, hv, hinj⟩ := h hd hhd
  unfold OnRing
  rw [hp]
  exact ⟨l, hr, fun f hf => hV f (hv f hf), hinj⟩

theorem LruOk.of_none {V : Frame → Prop} {s : Kern} (h : s.pageLruHead = none) : LruOk V s := fun hd hhd => by
  rw [h] at hhd
  cases hhd

theorem Entry.mono {role role' : Roles} {s s' : Kern} {f : Frame} (h : Entry role s f) (hk : SameKey s s' f)
    (htab : ∀ D T, Resident role s f D T → role' T = role T ∧ present (s'.pte (T, ptx (s.pages f).vaddr)))
    (hrole : role' f = role f ∨ role' f = .lost) : Entry role' s' f := by
  obtain ⟨D, T, hr, hf⟩ := h
  obtain ⟨hT, hp⟩ := htab D T hr
  refine ⟨D, T, ⟨hk.1.trans hr.pgdir, ?_, ?_, ?_, ?_⟩, ?_⟩
  · rw [hk.2]; exact hr.user
  · rw [hk.2]; exact hr.aligned
  · rw [hk.2, hT]; exact hr.tab
  · rw [hk.2]; exact hp
  · rw [hk.2]
    rcases hrole with h | h
    · rw [h]; exact hf
    · exact .inl h

section Alloc

variable {sl : Prop} {Z : Empties} {role : Roles} {s s' : Kern}

theorem Entry.congr {f : Frame} (h : Entry role s f) (hk : SameKey s s' f) (hs : SameTables role s s') :
    Entry role s' f :=
  h.mono hk (fun _ _ hr => ⟨rfl, by rw [hs _ _ (isTable_of_tab hr.tab)]; exact hr.pte⟩) (.inl rfl)

theorem Resident.congr {f D T : Frame} (h : Resident role s f D T) (hk : SameKey s s' f) (hs : SameTables role s s') :
    Resident role s' f D T := by
  obtain ⟨h1, h2, h3, h4, h5⟩ := h
  refine ⟨hk.1.trans h1, ?_, ?_, ?_, ?_⟩ <;> rw [hk.2]
  · exact h2
  · exact h3
  · exact h4
  · rw [hs _ _ (isTable_of_tab h4)]
    exact h5

theorem Inv.congr (h : Inv sl Z role s) (hs : SameTables role s s') (hf : s'.freelist = s.freelist)
    (hb : s'.bitmap = s.bitmap) (hp : s'.pages = s.pages) (hh : s'.pageLruHead = s.pageLruHead)
    (hl : SameLink s s') : Inv sl Z role s' where
  mem := h.mem.congr hs hf hb hl
  lru := h.lru.imp hp hh (fun f hf => hf.congr ⟨by rw [hp], by rw [hp]⟩ hs)

theorem sameTables_setPage {f : Frame} (p : Page) (hf : (role f).isTable = false) :
    SameTables role s (s.setPage f p) := by
  intro g j hg
  show wordAt (if g = f then p else s.mem g) j = _
  rw [if_neg (fun he => by rw [he, hf] at hg; cases hg)]
  rfl

theorem setPage_pte (s : Kern) (f : Frame) (p : Page) (q : PtePtr) :
    (s.setPage f p).pte q = if q.1 = f then wordAt p q.2 else s.pte q := by
  show wordAt (if q.1 = f then p else s.mem q.1) q.2 = _
  split <;> rfl

@[simp] theorem setPte_pte (s : Kern) (q r : PtePtr) (v : Pte) : (s.setPte q v).pte r = if r = q then v else s.pte r := by
  unfold Kern.setPte
  rw [setPage_pte]
  by_cases h1 : r.1 = q.1
  · rw [if_pos h1, wordAt_setWord]
    by_cases h2 : r.2 = q.2
    · rw [if_pos h2, if_pos (Prod.ext h1 h2)]
    · rw [if_neg h2, if_neg (fun he => h2 (congrArg Prod.snd he)), ← h1]
      rfl
  · rw [if_neg h1, if_neg (fun he => h1 (congrArg Prod.fst he))]

theorem Inv.setPage (h : Inv sl Z role s) {f : Frame} (p : Page) (hf : (role f).isTable = false) :
    Inv sl Z role (s.setPage f p) :=
  h.congr (sameTables_setPage p hf) rfl rfl rfl rfl ⟨rfl, rfl⟩

theorem Inv.release (h : Inv sl Z role s) {f : Frame} (hf : role f = .held) (p : Page) :
    Inv sl Z (role.set f .free) { s.setPage f p with freelist := f :: s.freelist } := by
  have hs : SameTables role s { s.setPage f p with freelist := f :: s.freelist } :=
    fun g j hg => sameTables_setPage p (by rw [hf]; rfl) g j hg
  refine ⟨h.mem.release hf hs rfl rfl ⟨rfl, rfl⟩, h.lru.imp rfl rfl (fun g hg => ?_)⟩
  obtain ⟨D, T, hr, hg'⟩ := hg
  have hgf : g ≠ f := fun he => by rw [he, hf] at hg'; rcases hg' with h | h <;> cases h
  refine Entry.mono ⟨D, T, hr, hg'⟩ ⟨rfl, rfl⟩ (fun D' T' hr' => ?_) (.inl (set_ne role _ hgf))
  have hTf : T' ≠ f := fun he => by have := hr'.tab; rw [he, hf] at this; cases this
  exact ⟨set_ne role _ hTf, by rw [hs _ _ (isTable_of_tab hr'.tab)]; exact hr'.pte⟩

theorem Inv.alloc (h : Inv sl Z role s) {f : Frame} {l : List Frame} (hl : s.freelist = f :: l) :
    role f = .free ∧ Inv sl Z (role.set f .held) { s with freelist := l } := by
  obtain ⟨hf, hm⟩ := h.mem.alloc hl
  refine ⟨hf, hm, h.lru.imp rfl rfl (fun g hg => ?_)⟩
  obtain ⟨D, T, hr, hg'⟩ := hg
  have hgf : g ≠ f := fun he => by rw [he, hf] at hg'; rcases hg' with h | h <;> cases h
  refine Entry.mono ⟨D, T, hr, hg'⟩ ⟨rfl, rfl⟩ (fun D' T' hr' => ?_) (.inl (set_ne role _ hgf))
  exact ⟨set_ne role _ (fun he => by have := hr'.tab; rw [he, hf] at this; cases this), hr'.pte⟩

theorem kfree_ok {f : Frame} : Triple (Good sl) Fine (fun t => Inv sl Z role t ∧ role f = .held) (kfree f)
    (fun _ t => Inv sl Z (role.set f .free) t) := by
  refine Triple.freeze (fun s hs => Triple.emit_at (fun _ => trivial) (fun _ => Triple.read_at ?_))
  refine Triple.ite (fun _ => Triple.stop _) (fun _ => Triple.modify (fun t ht => ?_))
  rw [ht]
  exact hs.1.release hs.2 _

theorem kfree_at {f : Frame} (h : Inv sl Z role s) (hf : role f = .held) :
    Triple (Good sl) Fine (fun t => t = s) (kfree f) (fun _ t => Inv sl Z (role.set f .free) t) :=
  kfree_ok.weaken fun _ ht => ht ▸ ⟨h, hf⟩

theorem kfree_zero {Q : Unit → Kern → Prop} (h : Linked s) :
    Triple (Good sl) Fine (fun t => t = s) (kfree 0) Q := by
  have hlt : p2v 0 < s.kend := by
    have h1 := h.data
    have h2 := h.kend
    simp only [BitVec.lt_def] at h1 h2 ⊢
    have h3 : (p2v 0).toNat < kernlink.toNat := by decide
    omega
  refine Triple.emit_at (fun _ => trivial) (fun _ => Triple.read_at ?_)
  rw [if_pos (decide_eq_true (.inl hlt))]
  exact Triple.stop _

/-! ## One PTE -/

/-- The entry is that of the page at the indexes `i`, `j` of `D`. -/
def EntryOf (s : Kern) (D : Frame) (i j : BitVec 10) (f : Frame) : Prop :=
  (s.pages f).pgdir = some D ∧ pdx (s.pages f).vaddr = i ∧ ptx (s.pages f).vaddr = j

theorem Entry.setPte {role' : Roles} {T D f : Frame} {i j : BitVec 10} {v : Pte} (h : Entry role s f)
    (hcase : present v ∨ ¬ EntryOf s D i j f) (hT : role T = .tab D i)
    (hrole : ∀ f, role' f = role f ∨ ((role f = .held ∨ role f = .user D i j) ∧
      (role' f = .held ∨ role' f = .lost ∨ role' f = .user D i j)))
    (hkeep : present v → ∀ f, role f = .user D i j → role' f = role f ∨ role' f = .lost)
    (hs : ∀ g n, (role g).isTable = true → s'.pte (g, n) = if (g, n) = (T, j) then v else s.pte (g, n))
    (hp : s'.pages = s.pages) : Entry role' s' f := by
  obtain ⟨D', T', hr, hrf⟩ := h
  refine Entry.mono ⟨D', T', hr, hrf⟩ ⟨by rw [hp], by rw [hp]⟩ (fun D'' T'' hr' => ⟨?_, ?_⟩) ?_
  · rcases hrole T'' with he | ⟨he | he, -⟩
    · exact he
    all_goals rw [hr'.tab] at he; cases he
  · rw [hs _ _ (isTable_of_tab hr'.tab)]
    split
    · rename_i he
      rcases hcase with hpv | hne
      · exact hpv
      · obtain ⟨rfl, hj⟩ := Prod.mk.inj he
        have := hr'.tab
        rw [hT] at this
        injection this with h1 h2
        exact absurd ⟨h1 ▸ hr'.pgdir, h2.symm, hj⟩ hne
    · exact hr'.pte
  · rcases hrf with hlost | huser
    · rcases hrole f with he | ⟨he | he, -⟩
      · exact .inl he
      all_goals rw [hlost] at he; cases he
    · by_cases hof : EntryOf s D i j f
      · obtain ⟨h1, h2, h3⟩ := hof
        have hD : D' = D := Option.some.inj (hr.pgdir.symm.trans h1)
        rw [hD, h2, h3] at huser
        rcases hcase with hpv | hne
        · exact hkeep hpv f huser
        · exact absurd ⟨h1, h2, h3⟩ hne
      · rcases hrole f with he | ⟨he | he, -⟩
        · exact .inl he
        · rw [huser] at he; cases he
        · rw [huser] at he
          injection he with h1 h2 h3
          exact absurd ⟨h1 ▸ hr.pgdir, h2, h3⟩ hof

theorem Inv.setPte {Z' : Empties} {role' : Roles} {T D : Frame} {i j : BitVec 10} {v : Pte} (h : MemOk sl Z role s)
    (hl : LruOk (fun f => Entry role s f ∧ (present v ∨ ¬ EntryOf s D i j f)) s) (hT : role T = .tab D i)
    (hrole : ∀ f, role' f = role f ∨ ((role f = .held ∨ role f = .user D i j) ∧
      (role' f = .held ∨ role' f = .lost ∨ role' f = .user D i j)))
    (hkeep : present v → ∀ f, role f = .user D i j → role' f = role f ∨ role' f = .lost)
    (hs : ∀ g n, (role g).isTable = true → s'.pte (g, n) = if (g, n) = (T, j) then v else s.pte (g, n))
    (hf : s'.freelist = s.freelist) (hp : s'.pages = s.pages) (hh : s'.pageLruHead = s.pageLruHead)
    (hv : i < 512#10 → present v → role' (pteFrame v) = .user D i j)
    (hZ : ∀ D' i' j', i' < 512#10 → Z' D' i' j' → if (D', i', j') = (D, i, j) then v = 0 else Z D' i' j')
    (hslots : sl → SlotsOk role' s') (hln : SameLink s s') : Inv sl Z' role' s' :=
  ⟨h.setPte hT hrole hs hf hv hZ hslots hln,
    hl.imp hp hh fun _ ⟨he, hcase⟩ => he.setPte hcase hT hrole hkeep hs hp⟩

theorem Inv.clearA (h : Inv sl Z role s) {T D : Frame} {i j : BitVec 10} (hT : role T = .tab D i) (hi : i < 512#10)
    (hp : present (s.pte (T, j))) : Inv sl Z role (s.setPte (T, j) (s.pte (T, j) &&& ~~~pteA)) := by
  have hne : s.pte (T, j) ≠ 0 := fun he => not_present_zero (he ▸ hp)
  have hpv : present (s.pte (T, j) &&& ~~~pteA) := (present_clearA _).2 hp
  have hval : ∀ g n, (s.setPte (T, j) (s.pte (T, j) &&& ~~~pteA)).pte (g, n) =
      if (g, n) = (T, j) then s.pte (T, j) &&& ~~~pteA else s.pte (g, n) := fun g n => by rw [setPte_pte]
  refine Inv.setPte (v := s.pte (T, j) &&& ~~~pteA) h.mem (h.lru.imp rfl rfl fun f hf => ⟨hf, .inl hpv⟩) hT
    (fun _ => .inl rfl) (fun _ _ _ => .inl rfl) (fun g n _ => hval g n) rfl rfl rfl (fun _ _ => ?_)
    (fun D' i' j' _ hz => ?_) (fun hsl => ?_) ⟨rfl, rfl⟩
  · rw [pteFrame_clearA]
    exact h.mem.user T D i j hT hi hp
  · split
    · rename_i he
      cases he
      exact absurd (h.mem.empty T D i j hT hi hz) hne
    · exact hz
  · have hslots := h.mem.slots hsl
    have hold : ∀ k, ¬ Holds role s (T, j) k := fun k hk => hk.2.2.1 hp
    refine hslots.setPte (v := s.pte (T, j) &&& ~~~pteA) hT (fun _ _ _ => Iff.rfl) (fun g n _ => hval g n) (fun k => ?_)
      (fun k _ hnp _ => absurd hpv hnp) (fun hi' => absurd hi hi')
    show checkBit s k = true ↔ _
    simp only [hold k, not_false_eq_true, and_true, hpv, not_true_eq_false, false_and, and_false, or_false]

/-- **The scan keeps the layout**, and its choice is the head of the list, a resident page. -/
theorem clockScan_ok : ∀ n : Nat, Triple (Good sl) Fine (Inv sl Z role) (clockScan n) (fun r t => Inv sl Z role t ∧
    t.pageLruHead = some r.1 ∧ ∃ D T, Resident role t r.1 D T ∧ r.2 = (T, ptx (t.pages r.1).vaddr))
  | 0 => Triple.stop _
  | n + 1 => by
    refine Triple.freeze (fun s hs => ?_)
    unfold clockScan
    cases hh : s.pageLruHead with
    | none =>
      exact Triple.stopped (Prog.bind_run_error (follow_error hh))
    | some h =>
      obtain ⟨l, hr, hent, hinj⟩ := hs.lru h hh
      obtain ⟨D, T, hres, hrole⟩ := hent h List.mem_cons_self
      have hw : walkpgdir s D (pgRoundDown (s.pages h).vaddr) = some (T, ptx (s.pages h).vaddr) := by
        rw [hres.aligned]
        exact hs.mem.walk_tab hres.tab
      refine Triple.run_at (follow_run hh) (Triple.run_at (follow_run hres.pgdir) (Triple.run_at (follow_run hw)
        (Triple.read_at (Triple.ite (fun _ => ?_) (fun _ => ?_)))))
      · have hi : pdx (s.pages h).vaddr < 512#10 := (pdx_lt_iff _).2 hres.user
        refine Triple.modify_at (Triple.modify_at ?_)
        refine (clockScan_ok n).weaken (fun t ht => ?_)
        rw [ht]
        have hinv := hs.clearA hres.tab hi hres.pte
        refine ⟨hinv.mem.congr (fun _ _ _ => rfl) rfl rfl ⟨rfl, rfl⟩, fun y hy => ?_⟩
        obtain ⟨l', hr', hent', hinj'⟩ := hinv.lru h hh
        -- the ring is entered at the next entry
        cases l' with
        | nil =>
          have hnext : (s.pages h).next = some h := (hr'.link_last rfl).1
          obtain rfl : h = y := Option.some.inj (hnext.symm.trans hy)
          exact ⟨[], hr', fun f hf => (hent' f hf).congr ⟨rfl, rfl⟩ (fun _ _ _ => rfl), hinj'⟩
        | cons y' l' =>
          have hnext : (s.pages h).next = some y' := hr'.next_cons.1
          obtain rfl : y' = y := Option.some.inj (hnext.symm.trans hy)
          have hmem : ∀ f ∈ y' :: (l' ++ [h]), f ∈ h :: y' :: l' := by
            intro f hf
            simp only [List.mem_cons, List.mem_append, List.not_mem_nil, or_false] at hf ⊢
            tauto
          exact ⟨l' ++ [h], (show OnRing _ h ([] ++ y' :: l') from hr').rotate,
            fun f hf => (hent' f (hmem f hf)).congr ⟨rfl, rfl⟩ (fun _ _ _ => rfl),
            fun f hf g hg => hinj' f (hmem f hf) g (hmem g hg)⟩
      · exact Triple.pure_at ⟨hs, hh, D, T, hres, rfl⟩

end Alloc

end Swap
end Xv6
