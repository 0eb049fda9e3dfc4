import Xv6.Lib.Chain
import Xv6.Lib.Ring
/-!
# Rings with a head

Every node has a successor and a predecessor; the nodes `l` are linked in a ring with a head `h` that is none of them.  A
node is taken out by joining its neighbours and put back right after the head.
-/

/-- The ring of `h` and `l`. -/
def Looped {α : Type} (next prev : α → α) (h : α) (l : List α) : Prop :=
  IsRing (fun x => some (next x)) (fun x => some (prev x)) h l

namespace Looped

variable {α : Type} {next prev next' prev' : α → α} {h x y z : α} {l l₁ l₂ : List α}

theorem nodup (hl : Looped next prev h l) : (h :: l).Nodup := IsRing.nodup hl

theorem link_iff : Link (fun x => some (next x)) (fun x => some (prev x)) x y ↔ next x = y ∧ prev y = x := by
  simp [Link]

theorem next_ne (hl : Looped next prev h (l₁ ++ x :: l₂)) : next x ≠ x := by
  obtain ⟨y, m, hym⟩ : ∃ y m, l₂ ++ [h] = y :: m := List.exists_cons_of_ne_nil (by simp)
  have he : h :: (l₁ ++ x :: l₂ ++ [h]) = (h :: l₁) ++ x :: y :: m := by simp [← hym]
  have hch := IsRing.chain hl
  rw [he, List.isChain_append_cons_cons] at hch
  have hnd : (l₁ ++ x :: (l₂ ++ [h])).Nodup := by
    rw [← List.singleton_append, ← List.append_assoc, ← List.append_assoc, List.append_assoc l₁]
    exact List.nodup_append_comm.1 hl.nodup
  rw [(link_iff.1 hch.2.1).1]
  rintro rfl
  rw [hym] at hnd
  exact (List.nodup_cons.1 (List.nodup_append.1 hnd).2.1).1 List.mem_cons_self

theorem reverse (hl : Looped next prev h l) : Looped prev next h l.reverse := by
  refine ⟨?_, ?_⟩
  · have hnd := List.nodup_cons.1 hl.nodup
    exact List.nodup_cons.2 ⟨by simpa using hnd.1, List.nodup_reverse.2 hnd.2⟩
  · have hrev : h :: (l.reverse ++ [h]) = (h :: (l ++ [h])).reverse := by simp
    rw [hrev, List.isChain_reverse]
    exact (IsRing.chain hl).imp fun a b hab => link_iff.2 (link_iff.1 hab).symm

theorem threaded (hl : Looped next prev h l) : Threaded h next (next h) l := by
  have hnd := (List.nodup_cons.1 hl.nodup).1
  have hwalk : ∀ (m : List α) (x : α), h ∉ m →
      (x :: (m ++ [h])).IsChain (Link (fun x => some (next x)) (fun x => some (prev x))) → Threaded h next (next x) m := by
    intro m
    induction m with
    | nil =>
      intro x _ hc
      exact (link_iff.1 (List.isChain_pair.1 hc)).1
    | cons y m ih =>
      intro x hm hc
      rw [List.cons_append, List.isChain_cons_cons] at hc
      have hy := (link_iff.1 hc.1).1
      rw [List.mem_cons, not_or] at hm
      refine ⟨hy, fun e => hm.1 e.symm, ?_⟩
      exact ih y hm.2 hc.2
  exact hwalk l h hnd (IsRing.chain hl)

theorem nil (hn : next h = h) (hp : prev h = h) : Looped next prev h [] := IsRing.singleton (link_iff.2 ⟨hn, hp⟩)

variable [DecidableEq α]

theorem leave (hl : Looped next prev h (l₁ ++ x :: l₂)) :
    Looped (Function.update next (prev x) (next x)) (Function.update prev (next x) (prev x)) h (l₁ ++ l₂) := by
  have hrot : IsRing (fun x => some (next x)) (fun x => some (prev x)) x (l₂ ++ h :: l₁) := IsRing.rotate hl
  obtain ⟨y, m, hym⟩ : ∃ y m, l₂ ++ h :: l₁ = y :: m := by
    cases l₂ with
    | nil => exact ⟨h, l₁, rfl⟩
    | cons y m => exact ⟨y, m ++ h :: l₁, rfl⟩
  rw [hym] at hrot
  obtain ⟨w, z, hwz⟩ : ∃ w z, y :: m = w ++ [z] :=
    (List.eq_nil_or_concat (y :: m)).elim (fun e => absurd e (List.cons_ne_nil y m)) fun ⟨w, z, e⟩ =>
      ⟨w, z, e.trans List.concat_eq_append⟩
  have hlast : (y :: m).getLast? = some z := by rw [hwz, List.getLast?_append]; rfl
  have hz : prev x = z := by
    have := hrot.link_last (by rw [List.getLast?_cons_cons]; exact hlast)
    exact (link_iff.1 this).2
  have hy : next x = y := (link_iff.1 hrot.next_cons).1
  have hnd := hrot.nodup
  have hym' : y ∉ m := (List.nodup_cons.1 (List.nodup_cons.1 hnd).2).1
  have hring : IsRing (fun a => some (Function.update next z y a)) (fun a => some (Function.update prev y z a)) y m :=
    hrot.unlink hlast (fun a _ ha => by rw [Function.update_of_ne ha])
      (fun b hb => by rw [Function.update_of_ne fun e => hym' (by rwa [e] at hb)])
      (link_iff.2 ⟨Function.update_self .., Function.update_self ..⟩)
  rw [hz, hy]
  cases l₂ with
  | nil =>
    obtain ⟨rfl, rfl⟩ := List.cons.inj hym
    rwa [List.append_nil]
  | cons c l₂ =>
    obtain ⟨rfl, rfl⟩ := List.cons.inj hym
    exact IsRing.rotate hring

theorem enter (hl : Looped next prev h l) (hx : x ∉ h :: l) :
    Looped (Function.update (Function.update next x (next h)) h x)
      (Function.update (Function.update prev x h) (next h) x) h (x :: l) := by
  rw [List.mem_cons, not_or] at hx
  have hnext : ∀ a, a ≠ h → a ≠ x → Function.update (Function.update next x (next h)) h x a = next a := fun a ha hax => by
    rw [Function.update_of_ne ha, Function.update_of_ne hax]
  have hprev : ∀ a, a ≠ next h → a ≠ x → Function.update (Function.update prev x h) (next h) x a = prev a := fun a ha hax =>
    by rw [Function.update_of_ne ha, Function.update_of_ne hax]
  have hnh : next h ≠ x := by
    cases l with
    | nil => rw [hl.threaded]; exact fun e => hx.1 e.symm
    | cons y l => rw [hl.threaded.1]; exact fun e => hx.2 (by rw [e]; exact List.mem_cons_self)
  have hlast : Link (fun a => some (Function.update (Function.update next x (next h)) h x a))
      (fun a => some (Function.update (Function.update prev x h) (next h) x a)) h x := by
    refine link_iff.2 ⟨Function.update_self .., ?_⟩
    rw [Function.update_of_ne fun e => hnh e.symm, Function.update_self]
  have hfirst : Link (fun a => some (Function.update (Function.update next x (next h)) h x a))
      (fun a => some (Function.update (Function.update prev x h) (next h) x a)) x (next h) := by
    refine link_iff.2 ⟨?_, Function.update_self ..⟩
    rw [Function.update_of_ne hx.1, Function.update_self]
  cases l with
  | nil =>
    have hh : next h = h := hl.threaded
    rw [hh] at hlast hfirst hprev ⊢
    exact IsRing.append (l := []) hl rfl (by simpa using hx.1) (fun a ha hne => absurd (List.mem_singleton.1 ha) hne)
      (fun b hb => absurd hb List.not_mem_nil) hlast hfirst
  | cons y l =>
    have hy : next h = y := hl.threaded.1
    rw [hy] at hlast hfirst hnext hprev ⊢
    have hhead : IsRing (fun x => some (next x)) (fun x => some (prev x)) h ([] ++ y :: l) := hl
    have hrot := hhead.rotate
    have hnd := List.nodup_cons.1 hrot.nodup
    have hxy : x ∉ y :: (l ++ [h]) := by
      simp only [List.mem_cons, List.mem_append, List.not_mem_nil, or_false, not_or] at hx ⊢
      exact ⟨hx.2.1, hx.2.2, hx.1⟩
    have hring := IsRing.append hrot (by rw [← List.cons_append, List.getLast?_append]; rfl) hxy
      (fun a ha hne => congrArg some (hnext a hne fun e => hxy (e ▸ ha)))
      (fun b hb => congrArg some (hprev b (fun e => hnd.1 (e ▸ hb)) fun e => hxy (e ▸ List.mem_cons_of_mem y hb)))
      hlast hfirst
    rw [List.append_assoc, List.cons_append] at hring
    exact hring.rotate

end Looped
