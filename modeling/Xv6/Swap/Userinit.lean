import Xv6.Swap.Append
import Xv6.Swap.Kvm
/-!
# Swap.Userinit — is every user page on the LRU list? (page-replacement)

The first process.  Only `copyuvm` calls `append_lru`; the call in `mappages` is commented out.
-/
namespace Xv6
namespace Swap

open Mem

/-- The kernel's memory, and of each process its `pgdir` and `sz`. -/
structure Procs where
  kern : Kern
  dirs : List Frame
  sz   : Frame → Addr

abbrev P := Prog Stop Procs Event

def ofKern {α : Type} (c : K α) : P α := Prog.zoom Procs.kern (fun s k => { s with kern := k }) id c

/-- `userinit`; `init` is the code of initcode.S. -/
def userinit (init : List (BitVec 8)) : P Unit := do
  match ← ofKern kalloc with
  | none   => Prog.stop .wild
  | some _ =>
    match ← ofKern setupkvm with
    | none   => Prog.stop (.panic "userinit: out of memory?")
    | some d =>
      ofKern (inituvm d init)
      Prog.modify (fun s => { s with dirs := d :: s.dirs, sz := Function.update s.sz d pgsize })

/-- **Every resident user page is on the LRU list once**, with its own page table and address. -/
def Procs.Known (s : Procs) : Prop := ∃ l, LruList s.kern l ∧ ∀ D ∈ s.dirs, ∀ va < s.sz D, pgRoundDown va = va →
  ∀ q, walkpgdir s.kern D va = some q → present (s.kern.pte q) → s.kern.pte q &&& pteU ≠ 0 →
    ∃! f, f ∈ l ∧ Matches s.kern D va f

/-- What `main` leaves to `userinit`: a stack, a page directory, 65 page tables and a page are free. -/
structure Booted (s : Kern) : Prop extends LinkedPages s where
  nodup : s.freelist.Nodup
  free  : 68 ≤ s.freelist.length
  lru   : LruList s []

variable {s t : Kern} {d : Frame}

theorem ofKern_run {α : Type} {c : K α} {s : Procs} {a : α} {k : Kern} (h : c s.kern = ⟨.ok a, k, []⟩) :
    ofKern c s = ⟨.ok a, { s with kern := k }, []⟩ := by
  unfold ofKern Prog.zoom
  rw [h]
  rfl

theorem user_page (pa : Addr) : (pa ||| (pteW ||| pteU) ||| pteP) &&& pteU ≠ 0 := by
  intro he
  have h2 := congrArg (fun x => x.getLsbD 2) he
  simp only [BitVec.getLsbD_and, BitVec.getLsbD_or, getLsbD_pteW, getLsbD_pteU, getLsbD_pteP] at h2
  simp at h2

theorem inituvm_run (h : Making s d t) (hnd : s.freelist.Nodup) {init : List (BitVec 8)} (hinit : init.length < 4096)
    (hno : ¬ Has t d (pdx 0) (ptx 0)) (hfree : 2 ≤ t.freelist.length) : ∃ u q, inituvm d init t = ⟨.ok (), u, []⟩ ∧
      walkpgdir u d 0 = some q ∧ present (u.pte q) ∧ u.pte q &&& pteU ≠ 0 ∧ SameRest t u := by
  obtain ⟨mem, l, hl⟩ : ∃ mem l, t.freelist = mem :: l := List.exists_cons_of_ne_nil fun h0 => by
    rw [h0, List.length_nil] at hfree
    omega
  have hmem : mem ∈ t.freelist := by rw [hl]; exact List.mem_cons_self
  have hmeml : mem ∉ l := (List.nodup_cons.1 (hl ▸ hnd.sublist h.suffix.sublist)).1
  have hlen : l ≠ [] := fun h0 => by
    rw [hl, h0, List.length_singleton] at hfree
    omega
  let t₁ : Kern := { t.setPage mem zeroPage with freelist := l }
  obtain ⟨hm₁, -⟩ := h.take hnd hl zeroPage
  have hpte : ∀ q : PtePtr, q.1 ≠ mem → t₁.pte q = t.pte q := fun q hq =>
    (setPage_pte t mem zeroPage q).trans (if_neg hq)
  have hpde : ∀ k, t₁.pte (d, k) = t.pte (d, k) := fun k => hpte (d, k) (h.ne_dir hmem)
  have hno₁ : ¬ Has t₁ d (pdx 0) (ptx 0) := by
    rintro ⟨hp, hp'⟩
    rw [hpde] at hp hp'
    rw [hpte _ (h.ne_tab hp hmem)] at hp'
    exact hno ⟨hp, hp'⟩
  obtain ⟨w, hw, hrun⟩ := mapOne_run hm₁ hnd (frameAddr mem) (pteW ||| pteU) (by decide) hno₁ fun _ => hlen
  -- the page is no table
  have hT : pteFrame (w.pte (d, pdx 0)) ≠ mem := by
    by_cases hp : present (t₁.pte (d, pdx 0))
    · rw [hw.pde _ hp, hpde]
      rw [hpde] at hp
      exact h.ne_tab hp hmem
    · exact fun he => hmeml (he ▸ hw.new hp)
  let v := frameAddr mem ||| (pteW ||| pteU) ||| pteP
  let u₁ := w.setPte (pteFrame (w.pte (d, pdx 0)), ptx 0) v
  let u := u₁.setPage mem (fun o => init.getD o.toNat (u₁.mem mem o))
  have hd : d ≠ mem := h.ne_dir hmem
  have hTd : pteFrame (w.pte (d, pdx 0)) ≠ d := (hw.making.tab _ hw.present).2
  have hupde : u.pte (d, pdx 0) = w.pte (d, pdx 0) := by
    rw [setPage_pte, if_neg hd, setPte_pte, if_neg fun he => hTd (Prod.mk.inj he).1.symm]
  have hupte : u.pte (pteFrame (w.pte (d, pdx 0)), ptx 0) = v := by
    rw [setPage_pte, if_neg hT, setPte_pte, if_pos rfl]
  refine ⟨u, (pteFrame (w.pte (d, pdx 0)), ptx 0), ?_, ?_, ?_, ?_, ?_⟩
  · unfold inituvm
    rw [if_neg (Nat.not_le.2 hinit), Prog.bind_run_nil (kalloc_run hl)]
    dsimp only
    unfold memset0
    rw [Prog.modify_bind_run]
    exact (Prog.bind_run_nil hrun).trans rfl
  · unfold walkpgdir
    rw [hupde, if_pos hw.present]
  · rw [hupte]
    exact present_or_pteP _
  · rw [hupte]
    exact user_page _
  · exact SameRest.trans (t := t₁) rfl (hw.rest.trans rfl)

/-- **`userinit` succeeds, and its page is not on the list.** -/
theorem userinit_run (s : Procs) (h : Booted s.kern) {init : List (BitVec 8)} (hinit : init.length < 4096) :
    ∃ t, userinit init s = ⟨.ok (), t, []⟩ ∧ ¬ t.Known := by
  obtain ⟨kstack, l, hl⟩ : ∃ f l, s.kern.freelist = f :: l := List.exists_cons_of_ne_nil fun h0 => by
    have hlen := h.free
    rw [h0, List.length_nil] at hlen
    omega
  have hlen : 67 ≤ l.length := by
    have hlen := h.free
    rw [hl, List.length_cons] at hlen
    omega
  obtain ⟨d, l', rfl⟩ : ∃ d l', l = d :: l' := List.exists_cons_of_ne_nil fun h0 => by
    rw [h0, List.length_nil] at hlen
    omega
  rw [List.length_cons] at hlen
  let k₁ : Kern := { s.kern with freelist := d :: l' }
  have hnd : k₁.freelist.Nodup := (List.nodup_cons.1 (hl ▸ h.nodup)).2
  have hlink : LinkedPages k₁ := ⟨h.toLinked.congr ⟨rfl, rfl⟩, h.aligned⟩
  obtain ⟨k₂, hset, hmake, hhas, hcount, hrest⟩ := setupkvm_run hlink hnd rfl (by omega)
  have hno : ¬ Has k₂ d (pdx 0) (ptx 0) := by
    rw [hhas, pageNo_pdx_ptx]
    unfold inKmap
    have h0 : (0 : Addr).toNat = 0 := rfl
    omega
  obtain ⟨u, q, hinituvm, hq, hp, hu, hrest'⟩ := inituvm_run hmake hnd hinit hno (by omega)
  refine ⟨⟨u, d :: s.dirs, Function.update s.sz d pgsize⟩, ?_, ?_⟩
  · unfold userinit
    rw [Prog.bind_run_nil (ofKern_run (kalloc_run hl))]
    dsimp only
    refine (Prog.bind_run_nil (ofKern_run hset)).trans ?_
    dsimp only
    exact (Prog.bind_run_nil (ofKern_run hinituvm)).trans rfl
  · rintro ⟨r, hr, hall⟩
    have hhead : u.pageLruHead = none := by
      rw [hrest', hrest]
      exact h.lru.1
    have hsz : Function.update s.sz d pgsize d = pgsize := Function.update_self d pgsize s.sz
    have hlt : (0 : Addr) < Function.update s.sz d pgsize d := by
      rw [hsz]
      decide
    obtain ⟨f, ⟨hf, -⟩, -⟩ := hall d List.mem_cons_self 0 hlt (by decide) q hq hp hu
    cases r with
    | nil => cases hf
    | cons g r =>
      rw [hr.1] at hhead
      cases hhead

/-- **The first process breaks the invariant**, so every run does. -/
theorem userinit_unknown (s : Procs) (h : Booted s.kern) (init : List (BitVec 8)) (hinit : init.length < 4096) :
    (userinit init s).res = .ok () ∧ ¬ (userinit init s).st.Known := by
  obtain ⟨t, hrun, ht⟩ := userinit_run s h hinit
  rw [hrun]
  exact ⟨rfl, ht⟩

/-- A kernel that ends at 0x80102000, with 68 free pages from 4M on. -/
def boot : Procs where
  kern := { bss with
    freelist := (List.range 68).map (fun i => BitVec.ofNat 20 (1024 + i))
    kend     := 0x80102000
    kdata    := 0x80101000 }
  dirs := []
  sz _ := 0

theorem boot_booted : Booted boot.kern where
  data    := by decide
  kend    := by decide
  top     := by decide
  aligned := by decide
  nodup   := by decide +kernel
  free    := by decide +kernel
  lru     := ⟨rfl, rfl⟩

theorem boot_unknown : (userinit [0x90] boot).res = .ok () ∧ ¬ (userinit [0x90] boot).st.Known :=
  userinit_unknown boot boot_booted [0x90] (by decide)

/-- The page of initcode is missing from the list. -/
theorem boot_reaches : ∃ t, userinit [] boot = ⟨.ok (), t, []⟩ ∧ ¬ t.Known :=
  userinit_run boot boot_booted (by decide)

end Swap
end Xv6
