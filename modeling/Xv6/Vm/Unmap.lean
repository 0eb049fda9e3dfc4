import Xv6.Vm.Frame
/-!
# Vm.Unmap — the pages that munmap gives up

What the loop of `munmap` does: it gives up the pages that are there, one after the other, and ends if `kfree` takes the
frame of each.
-/
namespace Xv6
namespace Vm

open Mem
open Prog (Quiet Triple)
open Sched (nproc)

/-! ## One page -/

/-- The page table without the pages `ns`. -/
def Space.drop (g : Space) (ns : List Frame) : Space := { g with pte := fun n => if ns.contains n then 0 else g.pte n }

/-- From `s` to `t` the pages `ns` of `p`, whose page table was `g`, have been given up. -/
structure Unmapped (p : Fin nproc) (g : Space) (ns : List Frame) (s t : Sys) : Prop where
  pgdir    : t.pgdir = fun q => if q = p then some (g.drop ns) else s.pgdir q
  freelist : t.phys.freelist = (ns.map g.frame).reverse ++ s.phys.freelist
  kend     : t.phys.kend = s.phys.kend
  mem      : ∀ f, f ∉ ns.map g.frame → t.phys.mem f = s.phys.mem f
  maps     : t.maps = s.maps
  locked   : t.locked = s.locked
  procs    : t.tab = s.tab ∧ t.sz = s.sz ∧ t.kstack = s.kstack ∧ t.ofile = s.ofile ∧ t.file = s.file

section Page

variable {p : Fin nproc} {g : Space} {s t u : Sys}

theorem drop_mem {n : Frame} {ns : List Frame} (h : n ∈ ns) : (g.drop ns).pte n = 0 := if_pos (List.contains_iff_mem.2 h)

theorem drop_not_mem {n : Frame} {ns : List Frame} (h : n ∉ ns) : (g.drop ns).pte n = g.pte n :=
  if_neg (fun hc => h (List.contains_iff_mem.1 hc))

theorem mapped_drop {n : Frame} {ns : List Frame} (h : n ∈ ns) : (g.drop ns).mapped n = false := by
  have hz : ¬ present 0 := not_present_zero
  unfold Space.mapped
  rw [drop_mem h, decide_eq_false hz, Bool.and_false]

theorem mapped_drop_not {n : Frame} {ns : List Frame} (h : n ∉ ns) : (g.drop ns).mapped n = g.mapped n := by
  unfold Space.mapped
  rw [drop_not_mem h]
  rfl

theorem frame_drop_not {n : Frame} {ns : List Frame} (h : n ∉ ns) : (g.drop ns).frame n = g.frame n := by
  unfold Space.frame
  rw [drop_not_mem h]

theorem drop_nil (g : Space) : g.drop [] = g := by
  unfold Space.drop
  congr 1

theorem drop_drop (g : Space) (n : Frame) (ns : List Frame) : (g.drop [n]).drop ns = g.drop (n :: ns) := by
  unfold Space.drop
  congr 1
  funext m
  by_cases hm : m ∈ ns <;> by_cases hmn : m = n <;> simp [hm, hmn, eq_comm]

theorem Unmapped.refl (hg : s.pgdir p = some g) : Unmapped p g [] s s where
  pgdir    := by
    funext q
    by_cases hq : q = p
    · rw [if_pos hq, hq, drop_nil, hg]
    · rw [if_neg hq]
  freelist := rfl
  kend     := rfl
  mem _ _  := rfl
  maps     := rfl
  locked   := rfl
  procs    := ⟨rfl, rfl, rfl, rfl, rfl⟩

theorem Unmapped.cons {n : Frame} {ns : List Frame} (hn : n ∉ ns) (h : Unmapped p g [n] s t)
    (h' : Unmapped p (g.drop [n]) ns t u) : Unmapped p g (n :: ns) s u := by
  have hframe : ns.map (g.drop [n]).frame = ns.map g.frame :=
    List.map_congr_left fun m hm => frame_drop_not fun he => hn (List.mem_singleton.1 he ▸ hm)
  refine ⟨?_, ?_, h'.kend.trans h.kend, fun f hf => ?_, h'.maps.trans h.maps, h'.locked.trans h.locked, ?_⟩
  · rw [h'.pgdir, h.pgdir, drop_drop]
    funext q
    by_cases hq : q = p
    · rw [if_pos hq, if_pos hq]
    · rw [if_neg hq, if_neg hq]
      exact if_neg hq
  · rw [h'.freelist, h.freelist, hframe]
    simp
  · rw [h'.mem f (by rw [hframe]; exact fun hm => hf (List.mem_cons_of_mem _ hm)),
      h.mem f (fun hm => hf (by rw [List.mem_singleton.1 hm]; exact List.mem_cons_self))]
  · obtain ⟨a1, a2, a3, a4, a5⟩ := h.procs
    obtain ⟨b1, b2, b3, b4, b5⟩ := h'.procs
    exact ⟨b1.trans a1, b2.trans a2, b3.trans a3, b4.trans a4, b5.trans a5⟩

theorem mm_kfree_run (f : Frame) (s : Sys) : mm (kfree f) s = if s.phys.kfrees f then
    ⟨.ok (), { s with phys := { s.phys.setPage f (freePage s.phys.freelist.head?) with
      freelist := f :: s.phys.freelist, freemems := s.phys.freemems + 1 } }, [.mm (.kfree f)]⟩
    else ⟨.error (.panic "kfree"), s, [.mm (.kfree f)]⟩ := by
  unfold mm Prog.zoom
  rw [kfree_run]
  split <;> rfl

theorem mm_memset_run (f : Frame) (b : Byte) (s : Sys) :
    mm (memset f b) s = ⟨.ok (), { s with phys := s.phys.setPage f (fun _ => b) }, []⟩ := rfl

theorem dropPage_run {n : Frame} (hk : s.phys.kfrees (g.frame n) = true) :
    ∃ t tr, dropPage p g n s = ⟨.ok (), t, tr⟩ ∧ Unmapped p g [n] s t := by
  unfold Space.frame at hk
  obtain ⟨s', hs'⟩ : ∃ s' : Sys, s' = { s with phys := s.phys.setPage (pteFrame (g.pte n)) (fun _ => 1) } := ⟨_, rfl⟩
  have hset : mm (memset (pteFrame (g.pte n)) 1) s = ⟨.ok (), s', []⟩ := by rw [mm_memset_run, hs']
  have hk' : s'.phys.kfrees (pteFrame (g.pte n)) = true := by rw [hs']; exact (kfrees_congr rfl _).trans hk
  have hfree := (mm_kfree_run (pteFrame (g.pte n)) s').trans (if_pos hk')
  unfold dropPage
  rw [Prog.bind_run_nil hset, Prog.bind_run_ok hfree]
  subst hs'
  refine ⟨_, _, rfl, ?_, rfl, rfl, fun f hf => ?_, rfl, rfl, rfl, rfl, rfl, rfl, rfl⟩
  · funext q
    show (if q = p then some (g.setPte n 0) else s.pgdir q) = _
    by_cases hq : q = p
    · rw [if_pos hq, if_pos hq]
      unfold Space.setPte Space.drop
      simp
    · rw [if_neg hq, if_neg hq]
  · have hne : f ≠ pteFrame (g.pte n) := fun he => hf (by rw [he]; exact List.mem_singleton_self _)
    show (if f = _ then _ else if f = _ then _ else _ : Page) = _
    rw [if_neg hne, if_neg hne]

theorem dropPage_panic {n : Frame} (hk : s.phys.kfrees (g.frame n) = false) :
    ∃ t tr, dropPage p g n s = ⟨.error (.panic "kfree"), t, tr⟩ := by
  unfold Space.frame at hk
  obtain ⟨s', hs'⟩ : ∃ s' : Sys, s' = { s with phys := s.phys.setPage (pteFrame (g.pte n)) (fun _ => 1) } := ⟨_, rfl⟩
  have hset : mm (memset (pteFrame (g.pte n)) 1) s = ⟨.ok (), s', []⟩ := by rw [mm_memset_run, hs']
  have hk' : s'.phys.kfrees (pteFrame (g.pte n)) = false := by rw [hs']; exact (kfrees_congr rfl _).trans hk
  have hfree := (mm_kfree_run (pteFrame (g.pte n)) s').trans (if_neg (ne_true_of_eq_false hk'))
  unfold dropPage
  rw [Prog.bind_run_nil hset, Prog.bind_run_error hfree]
  exact ⟨_, _, rfl⟩

theorem unmapPage_run {va : Addr} (hg : s.pgdir p = some g) : unmapPage p va s =
    if g.mapped (pageNum va) then
      ⟨(dropPage p g (pageNum va) s).res, (dropPage p g (pageNum va) s).st,
        .mm (.walk va) :: (dropPage p g (pageNum va) s).tr⟩
    else ⟨.ok (), s, [.mm (.walk va)]⟩ := by
  have hwalk : mm (walkpgdir g va) s = ⟨.ok (if g.hasTable va then some (pageNum va) else none), s, [.mm (.walk va)]⟩ := rfl
  unfold unmapPage
  rw [Prog.bind_run_nil (follow_run hg), Prog.bind_run_ok hwalk, mapped_pageNum]
  cases g.hasTable va with
  | false => rfl
  | true =>
    by_cases hp : present (g.pte (pageNum va))
    · simp only [hp, decide_true, Bool.and_self, if_true, Prog.when_pos]
      generalize dropPage p g (pageNum va) s = o
      rfl
    · simp only [hp, decide_false, Bool.and_false, if_true, Prog.when_neg not_false]
      rfl

/-- **The loop**: the pages that are there are given up, if `kfree` takes the frame of each. -/
theorem unmapPages_run (l : List Addr) : ∀ (g : Space) (s : Sys), s.pgdir p = some g → (l.map pageNum).Nodup →
    ((∀ n ∈ (l.map pageNum).filter g.mapped, s.phys.kfrees (g.frame n) = true) →
      ∃ t tr, Prog.forEach l (unmapPage p) s = ⟨.ok (), t, tr⟩ ∧
        Unmapped p g ((l.map pageNum).filter g.mapped) s t) ∧
    ((Prog.forEach l (unmapPage p) s).res = .ok () →
      ∀ n ∈ (l.map pageNum).filter g.mapped, s.phys.kfrees (g.frame n) = true) := by
  induction l with
  | nil => exact fun g s hg _ => ⟨fun _ => ⟨s, [], rfl, .refl hg⟩, fun _ n hn => by cases hn⟩
  | cons va l ih =>
    intro g s hg hnd
    rw [List.map_cons, List.nodup_cons] at hnd
    obtain ⟨hnot, hnd⟩ := hnd
    rw [List.map_cons, Prog.forEach_cons]
    cases hm : g.mapped (pageNum va) with
    | false =>
      have hrun : unmapPage p va s = ⟨.ok (), s, [.mm (.walk va)]⟩ := by
        rw [unmapPage_run hg, if_neg (ne_true_of_eq_false hm)]
      rw [List.filter_cons_of_neg (by rw [hm]; decide), Prog.bind_run_ok hrun]
      obtain ⟨h1, h2⟩ := ih g s hg hnd
      refine ⟨fun hk => ?_, h2⟩
      obtain ⟨t, tr, ht, hu⟩ := h1 hk
      rw [ht]
      exact ⟨t, _, rfl, hu⟩
    | true =>
      rw [List.filter_cons_of_pos hm]
      -- the pages behind this one are the same in the table that is left
      have hrest : ∀ n ∈ l.map pageNum, (g.drop [pageNum va]).mapped n = g.mapped n ∧
          (g.drop [pageNum va]).frame n = g.frame n := by
        intro n hn
        have hne : n ∉ [pageNum va] := fun he => hnot (List.mem_singleton.1 he ▸ hn)
        exact ⟨mapped_drop_not hne, frame_drop_not hne⟩
      have hfilter : (l.map pageNum).filter (g.drop [pageNum va]).mapped = (l.map pageNum).filter g.mapped :=
        List.filter_congr fun n hn => (hrest n hn).1
      cases hkv : s.phys.kfrees (g.frame (pageNum va)) with
      | false =>
        obtain ⟨t, tr, hdrop⟩ := dropPage_panic (p := p) (n := pageNum va) hkv
        have hrun : unmapPage p va s = ⟨.error (.panic "kfree"), t, .mm (.walk va) :: tr⟩ := by
          rw [unmapPage_run hg, if_pos hm, hdrop]
        refine ⟨fun hk => ?_, fun hok => ?_⟩
        · have := hk _ List.mem_cons_self
          rw [hkv] at this; cases this
        · rw [Prog.bind_run_error hrun] at hok
          cases hok
      | true =>
        obtain ⟨t, tr, hdrop, hu⟩ := dropPage_run (p := p) (n := pageNum va) hkv
        have hrun : unmapPage p va s = ⟨.ok (), t, .mm (.walk va) :: tr⟩ := by
          rw [unmapPage_run hg, if_pos hm, hdrop]
        have hgt : t.pgdir p = some (g.drop [pageNum va]) := by
          rw [hu.pgdir]; exact if_pos rfl
        have hkt : ∀ n ∈ (l.map pageNum).filter g.mapped, t.phys.kfrees ((g.drop [pageNum va]).frame n) =
            s.phys.kfrees (g.frame n) := by
          intro n hn
          rw [(hrest n (List.mem_filter.1 hn).1).2]
          unfold Phys.kfrees
          rw [hu.kend]
        obtain ⟨h1, h2⟩ := ih _ t hgt hnd
        rw [hfilter] at h1 h2
        rw [Prog.bind_run_ok hrun]
        refine ⟨fun hk => ?_, fun hok n hn => ?_⟩
        · obtain ⟨u, tr', hrest', hu'⟩ := h1 fun n hn => (hkt n hn).trans (hk n (List.mem_cons_of_mem _ hn))
          rw [hrest']
          exact ⟨u, _, rfl, hu.cons (fun hn => hnot (List.mem_filter.1 hn).1) hu'⟩
        · rcases List.mem_cons.1 hn with rfl | hn
          · exact hkv
          · exact (hkt n hn).symm.trans (h2 hok n hn)

end Page

end Vm
end Xv6
