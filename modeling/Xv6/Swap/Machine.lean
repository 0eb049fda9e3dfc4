import Xv6.Swap.Spaces
/-!
# Swap.Machine — runs of the memory subsystem

`Sys` adds to the kernel's memory what its callers keep: the live page directories and the frames `kalloc` gave out.  A
run is any list of operations; one whose caller breaks its part (a page directory that is not live, a frame not held, a
size above the user half) is not made.
-/
namespace Xv6
namespace Swap

open Mem
open Prog (Triple)

structure Sys where
  kern : Kern
  dirs : List Frame
  held : List Frame

inductive Op where
  | kalloc
  | kfree (f : Frame)
  | reclaim
  | fault (D : Frame) (va : Addr)
  | allocuvm (D : Frame) (oldsz newsz : Addr)
  | deallocuvm (D : Frame) (oldsz newsz : Addr)
  | copyuvm (D : Frame) (sz : Addr)
  | freevm (D : Frame)
  | setupkvm
  /-- Another process is now the current one. -/
  | switch (D : Frame)

abbrev M := Prog Stop Sys Event

def lift {α : Type} (c : K α) : M α := fun s => ⟨(c s.kern).res, { s with kern := (c s.kern).st }, (c s.kern).tr⟩

def checked (p : Sys → Prop) [DecidablePred p] (c : M Unit) : M Unit := do
  if ← Prog.read (fun s => decide (p s)) then c else pure ()

def keepDir : Option Frame → M Unit
  | none   => pure ()
  | some d => Prog.modify (fun s => { s with dirs := d :: s.dirs })

def keepFrame : Option Frame → M Unit
  | none   => pure ()
  | some f => Prog.modify (fun s => { s with held := f :: s.held })

def runOp : Op → M Unit
  | .kalloc => do keepFrame (← lift kalloc)
  | .kfree f => checked (f ∈ ·.held) (do
      lift (kfree f)
      Prog.modify (fun s => { s with held := s.held.erase f }))
  | .reclaim => do let _ ← lift reclaim
  | .fault D va => checked (D ∈ ·.dirs) (do let _ ← lift (pageFaultHadler D va))
  | .allocuvm D oldsz newsz => checked (D ∈ ·.dirs) (do let _ ← lift (allocuvm D oldsz newsz))
  | .deallocuvm D oldsz newsz =>
    checked (fun s => D ∈ s.dirs ∧ oldsz ≤ kernbase) (do let _ ← lift (deallocuvm D oldsz newsz))
  | .copyuvm D sz => checked (fun s => D ∈ s.dirs ∧ sz ≤ kernbase) (do keepDir (← lift (copyuvm D sz)))
  | .freevm D => checked (D ∈ ·.dirs) (do
      lift (freevm D)
      Prog.modify (fun s => { s with dirs := s.dirs.filter (· ≠ D) }))
  | .setupkvm => do keepDir (← lift setupkvm)
  | .switch D => Prog.modify (fun s => { s with kern := { s.kern with cur := D } })

def runOps (l : List Op) : M Unit := Prog.forEach l runOp

/-- Growth of an address space maps pages without a look at swapped-out ones. -/
def Op.grows : Op → Bool
  | .allocuvm .. => true
  | _            => false

structure Owns (role : Roles) (ds fs : List Frame) : Prop where
  dirs  : ∀ D, role D = .dir ↔ D ∈ ds
  held  : ∀ f ∈ fs, role f = .held
  nodup : fs.Nodup

/-- **A consistent machine**: its memory has a layout, and the callers keep what is theirs. -/
def Consistent (sl : Prop) (s : Sys) : Prop := ∃ role, Inv sl noEmpties role s.kern ∧ Owns role s.dirs s.held

variable {sl : Prop} {role role' : Roles}

theorem Owns.keeps {ds fs : List Frame} (h : Owns role ds fs) (hk : Keeps role role') :
    Owns role' ds fs := by
  refine ⟨fun D => ⟨fun hD => (h.dirs D).1 (hk.dirs D hD), fun hD => hk.dir ((h.dirs D).2 hD)⟩,
    fun f hf => hk.held (h.held f hf), h.nodup⟩

theorem Owns.fresh {ds fs : List Frame} {d : Frame} (h : Owns role ds fs) (hf : Fresh role role' d) :
    Owns role' (d :: ds) fs := by
  refine ⟨fun D => ?_, fun f hm => ?_, h.nodup⟩
  · rw [List.mem_cons, ← h.dirs D]
    constructor
    · intro hD
      by_cases hd : D = d
      · exact .inl hd
      · exact .inr (hf.keeps.dirs D (by rw [set_ne _ _ hd, hD]))
    · rintro (rfl | hD)
      · exact hf.dir
      · rw [hf.use (.inl (isTable_of_dir hD)), hD]
  · rw [hf.use (.inr (h.held f hm)), h.held f hm]

theorem lift_ok {G R : Event → Prop} {α : Type} {P : Kern → Prop} {c : K α} {Q : α → Kern → Prop} {ds fs : List Frame}
    (hc : Triple G R P c Q) : Triple G R (fun s => P s.kern ∧ s.dirs = ds ∧ s.held = fs) (lift c)
      (fun a s => Q a s.kern ∧ s.dirs = ds ∧ s.held = fs) := by
  rintro s ⟨hP, hd, hh⟩ hG
  obtain ⟨hR, hQ⟩ := hc s.kern hP hG
  exact ⟨hR, fun a ha => ⟨hQ a ha, hd, hh⟩⟩

theorem checked_ok {G R : Event → Prop} {P : Sys → Prop} {p : Sys → Prop} [DecidablePred p] {c : M Unit}
    (h : Triple G R (fun s => P s ∧ p s) c (fun _ => P)) : Triple G R P (checked p c) (fun _ => P) := by
  apply Triple.freeze
  intro s hs
  apply Triple.read_at
  apply Triple.ite <;> intro hp
  · exact h.weaken fun t ht => ht ▸ ⟨hs, of_decide_eq_true hp⟩
  · exact Triple.pure_at hs

theorem consistent_at {G R : Event → Prop} {α : Type} {p : Sys → Prop} {c : M α} {Q : α → Sys → Prop}
    (h : ∀ role k ds fs, Owns role ds fs → p ⟨k, ds, fs⟩ →
      Triple G R (fun s => Inv sl noEmpties role s.kern ∧ s.dirs = ds ∧ s.held = fs) c Q) :
    Triple G R (fun s => Consistent sl s ∧ p s) c Q := by
  rintro ⟨k, ds, fs⟩ ⟨⟨role, hinv, hown⟩, hp⟩
  exact h role k ds fs hown hp ⟨k, ds, fs⟩ ⟨hinv, rfl, rfl⟩

theorem kept_ok {α : Type} {ds fs : List Frame} {c : K α} (hown : Owns role ds fs)
    (hc : Triple (Good sl) Fine (Inv sl noEmpties role) c (fun _ => Kept sl noEmpties role)) :
    Triple (Good sl) Fine (fun s => Inv sl noEmpties role s.kern ∧ s.dirs = ds ∧ s.held = fs)
      (do let _ ← lift c) (fun _ => Consistent sl) := by
  apply Triple.bind (lift_ok hc)
  intro _
  refine Triple.pure () ?_
  rintro ⟨k, _, _⟩ ⟨⟨role', hk, hinv⟩, rfl, rfl⟩
  exact ⟨role', hinv, hown.keeps hk⟩

theorem keepDir_ok {ds fs : List Frame} {r : Option Frame} (hown : Owns role ds fs) :
    Triple (Good sl) Fine (fun s => Made sl role r s.kern ∧ s.dirs = ds ∧ s.held = fs) (keepDir r)
      (fun _ => Consistent sl) := by
  cases r with
  | none =>
    refine Triple.pure () ?_
    rintro ⟨k, _, _⟩ ⟨⟨role', hk, hinv⟩, rfl, rfl⟩
    exact ⟨role', hinv, hown.keeps hk⟩
  | some d =>
    apply Triple.modify
    rintro ⟨k, _, _⟩ ⟨⟨role', hf, hinv⟩, rfl, rfl⟩
    exact ⟨role', hinv, hown.fresh hf⟩

/-- **Every operation keeps the machine consistent**; the swap bitmap too, if no address space grows. -/
theorem runOp_ok (op : Op) (hop : sl → op.grows = false) :
    Triple (Good sl) Fine (Consistent sl) (runOp op) (fun _ => Consistent sl) := by
  have hall : ∀ {α : Type} {c : M α} {Q : α → Sys → Prop}, Triple (Good sl) Fine (fun s => Consistent sl s ∧ True) c Q →
      Triple (Good sl) Fine (Consistent sl) c Q := fun h => h.weaken fun _ hs => ⟨hs, trivial⟩
  cases op with
  | kalloc =>
    refine hall (consistent_at fun role k ds fs hown _ => ?_)
    apply Triple.bind (lift_ok kalloc_ok)
    intro r
    cases r with
    | none =>
      refine Triple.pure () ?_
      rintro ⟨k, _, _⟩ ⟨⟨role', hst, hinv, -⟩, rfl, rfl⟩
      exact ⟨role', hinv, hown.keeps hst.keeps⟩
    | some f =>
      apply Triple.modify
      rintro ⟨k, _, _⟩ ⟨⟨role', hst, hinv, hr⟩, rfl, rfl⟩
      obtain ⟨hf, hn⟩ := hr f rfl
      have hown' := hown.keeps hst.keeps
      refine ⟨role', hinv, hown'.dirs, fun g hg => ?_, List.nodup_cons.2 ⟨fun hm => hn (hown.held f hm), hown.nodup⟩⟩
      rcases List.mem_cons.1 hg with rfl | hg
      · exact hf
      · exact hown'.held g hg
  | kfree f =>
    refine checked_ok (consistent_at fun role k ds fs hown hp => ?_)
    have hm : f ∈ fs := hp
    have hfree : Triple (Good sl) Fine (fun t => Inv sl noEmpties role t ∧ role f = .held) (kfree f) _ := kfree_ok
    apply Triple.bind (lift_ok hfree |>.weaken fun s hs => ⟨⟨hs.1, hown.held f hm⟩, hs.2⟩)
    intro _
    apply Triple.modify
    rintro ⟨k, _, _⟩ ⟨hinv, rfl, rfl⟩
    refine ⟨_, hinv, fun D => ?_, fun g hg => ?_, hown.nodup.erase f⟩
    · rw [← hown.dirs D]
      by_cases hD : D = f
      · subst hD
        rw [set_self, hown.held _ hm]
        simp
      · rw [set_ne _ _ hD]
    · obtain ⟨hne, hg⟩ := (List.Nodup.mem_erase_iff hown.nodup).1 hg
      rw [set_ne _ _ hne, hown.held g hg]
  | reclaim =>
    refine hall (consistent_at fun role k ds fs hown _ => kept_ok hown ?_)
    exact reclaim_ok.conseq (fun _ h => h) fun _ t ⟨role', hst, hinv⟩ => ⟨role', hst.keeps, hinv⟩
  | fault D va =>
    refine checked_ok (consistent_at fun role k ds fs hown hp => kept_ok hown ?_)
    exact pageFaultHadler_ok ((hown.dirs D).2 hp)
  | allocuvm D oldsz newsz =>
    refine checked_ok (consistent_at fun role k ds fs hown hp => kept_ok hown ?_)
    have hsl : sl = False := eq_false fun h => by simpa [Op.grows] using hop h
    subst hsl
    exact allocuvm_ok ((hown.dirs D).2 hp)
  | deallocuvm D oldsz newsz =>
    refine checked_ok (consistent_at fun role k ds fs hown hp => kept_ok hown ?_)
    exact deallocuvm_ok ((hown.dirs D).2 hp.1) hp.2
  | copyuvm D sz =>
    refine checked_ok (consistent_at fun role k ds fs hown hp => ?_)
    exact (lift_ok (copyuvm_ok hp.2)).bind fun r => keepDir_ok hown
  | freevm D =>
    refine checked_ok (consistent_at fun role k ds fs hown hp => ?_)
    have hD : role D = .dir := (hown.dirs D).2 hp
    apply Triple.bind (lift_ok (freevm_ok hD))
    intro _
    apply Triple.modify
    rintro ⟨k, _, _⟩ ⟨⟨role', hk, hfree, hinv⟩, rfl, rfl⟩
    refine ⟨role', hinv, fun E => ?_, fun f hf => ?_, hown.nodup⟩
    · rw [List.mem_filter, ← hown.dirs E]
      constructor
      · intro hE
        have hne : E ≠ D := fun he => by rw [he, hfree] at hE; cases hE
        exact ⟨hk.dirs E hE, by simpa using hne⟩
      · rintro ⟨hE, hne⟩
        rw [hk.use E (.inl (isTable_of_dir hE)), hE]
        rintro (he | ⟨i, he⟩)
        · simp [he] at hne
        · rw [hE] at he
          cases he
    · have hheld := hown.held f hf
      rw [hk.use f (.inr hheld), hheld]
      rintro (rfl | ⟨i, he⟩)
      · rw [hD] at hheld
        cases hheld
      · rw [hheld] at he
        cases he
  | setupkvm =>
    refine hall (consistent_at fun role k ds fs hown _ => ?_)
    refine (lift_ok (Triple.conseq (Q := Made sl role) setupkvm_ok (fun _ h => h) fun r t ht => ?_)).bind
      fun r => keepDir_ok hown
    cases r with
    | none => exact ht
    | some d =>
      obtain ⟨role', hf, hinv⟩ := ht
      exact ⟨role', hf, hinv.forget⟩
  | switch D =>
    apply Triple.modify
    rintro s ⟨role, hinv, hown⟩
    exact ⟨role, hinv.congr (fun _ _ _ => rfl) rfl rfl rfl rfl ⟨rfl, rfl⟩, hown⟩

end Swap
end Xv6
