import Xv6.Swap.Frames
/-!
# Swap.Evict — `reclaim` and `kalloc` keep the layout

A page goes to a slot: its PTE holds the slot and no frame, its frame is the kernel's to free.  This is where the rely
`Good` is needed, for the frame given to `kfree` is read back from the PTE just written.
-/
namespace Xv6
namespace Swap

open Mem
open Prog (Triple)

variable {sl : Prop} {Z : Empties} {role : Roles} {s : Kern}

theorem touch_locked (a : Addr) (s : Kern) : touch lockedFault a s = ⟨.ok (), s, []⟩ ∨
    ∃ e, touch lockedFault a s = ⟨.error e, s, []⟩ := by
  unfold touch
  rw [Prog.read_bind_run]
  cases translate s s.cur a with
  | some f => exact .inl rfl
  | none   => exact .inr (lockedFault_run a s)

theorem copyIn_locked (a : Addr) (s : Kern) : (∃ b, copyIn lockedFault a s = ⟨.ok b, s, []⟩) ∨
    ∃ e, copyIn lockedFault a s = ⟨.error e, s, []⟩ := by
  unfold copyIn
  rcases touch_locked a s with h | ⟨e, h⟩
  · rw [Prog.bind_run_ok h, Prog.read_bind_run]
    by_cases hp : pageNum (a + 511#32) = pageNum a
    · exact .inl ⟨_, by rw [if_pos hp]; rfl⟩
    · rw [if_neg hp]
      rcases touch_locked (a + 511#32) s with h' | ⟨e, h'⟩
      · exact .inl ⟨_, by rw [Prog.bind_run_ok h', Prog.read_bind_run]; rfl⟩
      · exact .inr ⟨e, by rw [Prog.bind_run_error h']; rfl⟩
  · exact .inr ⟨e, by rw [Prog.bind_run_error h]⟩

theorem swapwrite_ok {G R : Event → Prop} (ptr : Addr) (k : Nat) (hR : R (.swapWrite k)) :
    Triple G R (fun t => t = s) (swapwrite lockedFault ptr k) (fun _ t => ∃ d, t = { s with disk := d }) := by
  have hblock : ∀ i : BitVec 3, Triple G R (fun t => ∃ d, t = { s with disk := d })
      (do let b ← copyIn lockedFault (ptr + i.setWidth 32 * 512#32)
          Prog.modify (fun s => { s with disk := fun n => if n = slotBlock k i then b else s.disk n }))
      (fun _ t => ∃ d, t = { s with disk := d }) := by
    intro i
    apply Triple.freeze
    rintro t ⟨d, rfl⟩
    rcases copyIn_locked (ptr + i.setWidth 32 * 512#32) { s with disk := d } with ⟨b, h⟩ | ⟨e, h⟩
    · exact Triple.run_at h (Triple.modify (by rintro t rfl; exact ⟨_, rfl⟩))
    · exact Triple.stopped (Prog.bind_run_error h)
  apply Triple.ite
  · exact fun _ => Triple.stop _
  · intro _
    apply Triple.emit_at (fun _ => hR)
    exact fun _ => (Triple.forEach blocks fun i _ => hblock i).weaken fun t ht => ⟨s.disk, ht⟩

theorem Inv.swapOut {T D F : Frame} {i j : BitVec 10} {k : Nat} {d : Nat → Block} (h : MemOk sl Z role s)
    (hl : LruOk (fun f => Entry role s f ∧ ¬ EntryOf s D i j f) s) (hT : role T = .tab D i) (hi : i < 512#10)
    (hp : present (s.pte (T, j))) (hF : pteFrame (s.pte (T, j)) = F) (hk : k < bitmapSize)
    (hk0 : BitVec.ofNat 20 k ≠ 0) (hbit : checkBit s k = false) : Inv sl Z (role.set F .held)
      ((Kern.setBit { s with disk := d } k).setPte (T, j) (swapPte k (pteFlags (s.pte (T, j))))) := by
  have huser : role F = .user D i j := hF ▸ h.user T D i j hT hi hp
  have hne : s.pte (T, j) ≠ 0 := fun he => not_present_zero (he ▸ hp)
  have hset : ∀ {g : Frame}, g ≠ F → role.set F .held g = role g := fun hg => set_ne role _ hg
  have hpte : ∀ g n, ((Kern.setBit { s with disk := d } k).setPte (T, j) (swapPte k (pteFlags (s.pte (T, j))))).pte
      (g, n) = if (g, n) = (T, j) then swapPte k (pteFlags (s.pte (T, j))) else s.pte (g, n) :=
    fun g n => by rw [setPte_pte]; rfl
  have htoNat : (pteFrame (swapPte k (pteFlags (s.pte (T, j))))).toNat = k := by
    rw [pteFrame_swapPte k (pteFlags_pteFlags _), BitVec.toNat_ofNat]
    exact Nat.mod_eq_of_lt (Nat.lt_trans hk (by decide))
  refine Inv.setPte (v := swapPte k (pteFlags (s.pte (T, j)))) h
    (hl.imp rfl rfl fun f hf => ⟨hf.1, .inr hf.2⟩) hT (fun f => ?_) (fun hv => absurd hv (not_present_swapPte _ _))
    (fun g n _ => hpte g n) rfl rfl rfl (fun _ hv => absurd hv (not_present_swapPte _ _)) (fun D' i' j' _ hz => ?_)
    (fun hsl => ?_) ⟨rfl, rfl⟩
  · by_cases hf : f = F
    · exact .inr ⟨.inr (hf ▸ huser), .inl (hf ▸ set_self role f .held)⟩
    · exact .inl (hset hf)
  · split
    · rename_i he
      cases he
      exact absurd (h.empty T D i j hT hi hz) hne
    · exact hz
  · have hslots := h.slots hsl
    refine hslots.setPte (v := swapPte k (pteFlags (s.pte (T, j)))) hT
      (set_tab_iff (by rw [huser]; rfl) rfl) (fun g n _ => hpte g n) (fun m => ?_) (fun m _ _ hm => ?_)
      (fun hni => absurd hi hni)
    · show checkBit (Kern.setBit { s with disk := d } k) m = true ↔ _
      rw [checkBit_setBit, Bool.or_eq_true, decide_eq_true_eq]
      have hold : ¬ Holds role s (T, j) m := fun hh => hh.2.2.1 hp
      have hv : swapPte k (pteFlags (s.pte (T, j))) ≠ 0 := by
        intro he
        rw [← pteFrame_swapPte k (pteFlags_pteFlags (s.pte (T, j))), he] at hk0
        exact hk0 rfl
      constructor
      · rintro (hm | rfl)
        · exact .inl ⟨hm, hold⟩
        · exact .inr ⟨hv, not_present_swapPte _ _, htoNat⟩
      · rintro (⟨hm, -⟩ | ⟨-, -, hm⟩)
        · exact .inl hm
        · exact .inr (hm.symm.trans htoNat)
    · rw [← hm, htoNat]
      exact hbit

theorem swapOut_ok {target T D : Frame} {k : Nat} (h : MemOk sl Z role s) (hres : Resident role s target D T)
    (hl : LruOk (fun f => Entry role s f ∧
      ¬ EntryOf s D (pdx (s.pages target).vaddr) (ptx (s.pages target).vaddr) f) s)
    (hk : findFreeSwapIndex s = some k) :
    Triple (Good sl) Fine (fun t => t = s) (swapOut target (T, ptx (s.pages target).vaddr) k)
      (fun _ t => ∃ role', Stays role role' ∧ Inv sl Z role' t) := by
  obtain ⟨hk, hbit⟩ := findFreeSwapIndex_some hk
  have hi := (pdx_lt_iff _).2 hres.user
  let pte := s.pte (T, ptx (s.pages target).vaddr)
  have huser : role (pteFrame pte) = .user D (pdx (s.pages target).vaddr) (ptx (s.pages target).vaddr) :=
    h.user T D _ _ hres.tab hi hres.pte
  apply Triple.read_at
  apply Triple.bind (swapwrite_ok _ k trivial)
  intro _
  apply Triple.freeze
  rintro t ⟨d, rfl⟩
  apply Triple.modify_at
  refine Triple.read_as (a := pte) rfl ?_
  apply Triple.modify_at
  have hfreed : pteFrame (((Kern.setBit { s with disk := d } k).setPte (T, ptx (s.pages target).vaddr)
      (swapPte k (pteFlags pte))).pte (T, ptx (s.pages target).vaddr)) = BitVec.ofNat 20 k := by
    rw [setPte_pte, if_pos rfl, pteFrame_swapPte k (pteFlags_pteFlags _)]
  refine Triple.read_as hfreed ?_
  -- the slot's number is the number of the victim's frame
  refine Triple.emit_at (fun hg => hg) (fun hg => ?_)
  have hF : pteFrame pte = BitVec.ofNat 20 k := Eq.symm hg
  rw [hF] at huser
  by_cases hk0 : BitVec.ofNat 20 k = 0
  · rw [hk0]
    exact kfree_zero (h.link.congr ⟨rfl, rfl⟩)
  · have hinv := Inv.swapOut (d := d) h hl hres.tab hi hres.pte hF hk hk0 hbit
    refine (kfree_at hinv (set_self _ _ _)).conseq (fun _ ht => ht) (fun _ t ht => ⟨_, fun f hf => ?_, ht⟩)
    have hfk : f ≠ BitVec.ofNat 20 k := by
      rintro rfl
      rw [huser, set_self] at hf
      simp [Role.isTable] at hf
    rw [set_ne _ _ hfk, set_ne _ _ hfk]

theorem unlinkHead_ok {target D T : Frame} (h : Inv sl Z role s) (hh : s.pageLruHead = some target)
    (hres : Resident role s target D T) : ∃ s', unlinkHead target s = ⟨.ok (), s', []⟩ ∧ MemOk sl Z role s' ∧
      SameKey s s' target ∧ Resident role s' target D T ∧ LruOk (fun f => Entry role s' f ∧
        ¬ EntryOf s' D (pdx (s'.pages target).vaddr) (ptx (s'.pages target).vaddr) f) s' := by
  obtain ⟨l, hr, hent, hinj⟩ := h.lru target hh
  obtain ⟨s', hrun, ⟨p, hd, n, rfl⟩, hkey, hrest⟩ := unlinkHead_run hr
  have hmem : MemOk sl Z role { s with pages := p, pageLruHead := hd, numLruPages := n } :=
    h.mem.congr (fun _ _ _ => rfl) rfl rfl ⟨rfl, rfl⟩
  refine ⟨_, hrun, hmem, hkey target, hres.congr (hkey target) (fun _ _ _ => rfl), ?_⟩
  intro y hy
  rcases hrest with ⟨-, hnone⟩ | ⟨y', l', rfl, hhd, hr'⟩
  · rw [hnone] at hy
    cases hy
  obtain rfl : y' = y := Option.some.inj (hhd.symm.trans hy)
  have hsub : ∀ f ∈ y' :: l', f ∈ target :: y' :: l' := fun f hf => List.mem_cons_of_mem target hf
  refine ⟨l', hr', fun f hf => ⟨(hent f (hsub f hf)).congr (hkey f) (fun _ _ _ => rfl), ?_⟩, ?_⟩
  · rintro ⟨h1, h2, h3⟩
    rw [(hkey f).1] at h1
    rw [(hkey f).2, (hkey target).2] at h2 h3
    obtain ⟨D', T', hres', -⟩ := hent f (hsub f hf)
    have hv := eq_of_pdx_ptx hres'.aligned hres.aligned h2 h3
    have hft := hinj f (hsub f hf) target List.mem_cons_self (h1.trans hres.pgdir.symm) hv
    exact (List.nodup_cons.1 hr.nodup).1 (hft ▸ hf)
  · intro f hf g hg h1 h2
    rw [(hkey f).1, (hkey g).1] at h1
    rw [(hkey f).2, (hkey g).2] at h2
    exact hinj f (hsub f hf) g (hsub g hg) h1 h2

/-- **`reclaim` keeps the layout**, up to the use of the frame it frees. -/
theorem reclaim_ok : Triple (Good sl) Fine (Inv sl Z role) reclaim
    (fun _ t => ∃ role', Stays role role' ∧ Inv sl Z role' t) := by
  apply Triple.freeze
  intro s hs
  apply Triple.read_at
  apply Triple.ite
  · exact fun _ => Triple.pure_at ⟨role, Stays.refl role, hs⟩
  intro _
  apply Triple.bind ((clockScan_ok _).weaken fun t ht => ht ▸ hs)
  rintro ⟨target, q⟩
  apply Triple.freeze
  rintro t ⟨hinv, hh, D, T, hres, hq⟩
  obtain ⟨t', hrun, hmem, hkey, hres', hlru⟩ := unlinkHead_ok hinv hh hres
  apply Triple.run_at hrun
  apply Triple.read_at
  cases hk : findFreeSwapIndex t' with
  | none => exact Triple.pure_at ⟨role, Stays.refl role, hmem, fun hd hhd => (hlru hd hhd).imp fun l hl =>
      ⟨hl.1, fun f hf => (hl.2.1 f hf).1, hl.2.2⟩⟩
  | some k =>
    have hq' : q = (T, ptx (t'.pages target).vaddr) := by rw [hkey.2]; exact hq
    rw [hq']
    exact (swapOut_ok hmem hres' hlru hk).bind fun _ => Triple.pure true fun _ ht => ht

/-- A frame is handed out: it is the kernel's now, and was not before. -/
def Given (sl : Prop) (Z : Empties) (role : Roles) (r : Option Frame) (t : Kern) : Prop :=
  ∃ role', Stays role role' ∧ Inv sl Z role' t ∧ ∀ f, r = some f → role' f = .held ∧ role f ≠ .held

theorem kallocLoop_ok : ∀ (n : Nat) (role : Roles),
    Triple (Good sl) Fine (Inv sl Z role) (kallocLoop n) (Given sl Z role)
  | 0, _ => Triple.stop _
  | n + 1, role => by
    apply Triple.freeze
    intro s hs
    apply Triple.read_at
    cases hl : s.freelist with
    | cons f l =>
      obtain ⟨hf, hinv⟩ := hs.alloc hl
      apply Triple.modify_at
      refine Triple.pure_at ⟨_, Stays.set (by rw [hf]; rfl) (by rw [hf]; exact fun he => by cases he) rfl, hinv, ?_⟩
      rintro g ⟨⟩
      exact ⟨set_self _ _ _, by rw [hf]; exact fun he => by cases he⟩
    | nil =>
      apply Triple.bind (reclaim_ok.weaken fun t ht => ht ▸ hs)
      intro b
      apply Triple.of_exists
      intro role₁
      apply Triple.of_pure
      intro hk
      apply Triple.ite
      · intro _
        refine (kallocLoop_ok n role₁).conseq (fun _ ht => ht) ?_
        rintro r t ⟨role₂, hk₂, hinv, hr⟩
        exact ⟨role₂, hk.trans hk₂, hinv, fun f hf => ⟨(hr f hf).1, fun he => (hr f hf).2 (hk.keeps.held he)⟩⟩
      · exact fun _ => Triple.pure none fun t ht => ⟨role₁, hk, ht, fun f hf => by cases hf⟩

/-- **`kalloc` keeps the layout.** -/
theorem kalloc_ok : Triple (Good sl) Fine (Inv sl Z role) kalloc (Given sl Z role) := kallocLoop_ok 2 role

end Swap
end Xv6
