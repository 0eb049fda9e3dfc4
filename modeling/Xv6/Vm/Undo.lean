import Xv6.Vm.Apart
import Xv6.Vm.Lock
import Xv6.Vm.Unmap
/-!
# Vm.Undo — munmap at the address that mmap returned

`mmap` takes an address below `MMAPBASE` and returns it with `MMAPBASE` added; `munmap` adds `MMAPBASE` once more and
looks for an area that reaches so far.  `Undone` is what a user expects of `munmap` at the address `mmap` returned,
`Found` the condition under which it happens.
-/
namespace Xv6
namespace Vm

open Mem
open Prog (wp Quiet)
open Sched (nproc)

variable {s t u : Sys} {p : Fin nproc} {i : Fin nmaps} {addr length prot flags fd offset : Word} {r : Addr}

/-- The addresses of `length` bytes from `r` on. -/
def spans (r length : Word) (x : Nat) : Prop := r.toNat ≤ x ∧ x < r.toNat + length.toNat

/-- What `munmap p r` does where `mmap` made the entry `i` an area of `length` bytes at `r`. -/
structure Undone (p : Fin nproc) (i : Fin nmaps) (r length : Word) (u t : Sys) : Prop where
  areas  : ∀ j x, (t.maps j).ownedBy p = true → (t.maps j).holds x → ¬ spans r length x
  pages  : ∀ g n, t.pgdir p = some g → spans r length (n.toNat * 4096) → g.mapped n = false
  frames : ∀ g n, u.pgdir p = some g → spans r length (n.toNat * 4096) → g.mapped n = true →
    t.phys.freelist.count (g.frame n) = 1
  maps   : ∀ j, j ≠ i → t.maps j = u.maps j
  pgdir  : ∀ q, q ≠ p → t.pgdir q = u.pgdir q
  ptes   : ∀ g, u.pgdir p = some g → ∃ g', t.pgdir p = some g' ∧ g'.dir = g.dir ∧ g'.pde = g.pde ∧
    ∀ n, ¬ spans r length (n.toNat * 4096) → g'.pte n = g.pte n
  procs  : t.tab = u.tab ∧ t.sz = u.sz ∧ t.kstack = u.kstack ∧ t.ofile = u.ofile ∧ t.file = u.file
  again  : t.clash p (r - mmapBase) = false ∧ t.free.isSome = true

/-- **The condition**: `munmap` finds the area, no other own area lies there too, and the frames of its pages are frames
that `kfree` takes, each of one page and none free. -/
structure Found (p : Fin nproc) (i : Fin nmaps) (r length : Word) (u : Sys) : Prop where
  first  : u.findArea (Area.reaches p (r + mmapBase)) = some i
  apart  : ∀ j x, j ≠ i → (u.maps j).ownedBy p = true → (u.maps j).holds x → ¬ spans r length x
  frames : ∃ g, u.pgdir p = some g ∧ (∀ n ∈ (u.maps i).nums.filter g.mapped, u.phys.kfrees (g.frame n) = true) ∧
    (((u.maps i).nums.filter g.mapped).map g.frame).Nodup ∧
    ∀ n ∈ (u.maps i).nums.filter g.mapped, g.frame n ∉ u.phys.freelist

/-! ## The area that mmap makes -/

/-- The entry `i` is an area of `p`, of `length` bytes at `r`. -/
structure Made (p : Fin nproc) (i : Fin nmaps) (r length : Word) (s : Sys) : Prop where
  owned  : (s.maps i).ownedBy p = true
  addr   : (s.maps i).addr = r
  length : (s.maps i).length = length

theorem Made.congr (h : Made p i r length s) (hm : t.maps = s.maps) : Made p i r length t := by
  obtain ⟨h1, h2, h3⟩ := h
  exact ⟨by rw [hm]; exact h1, by rw [hm]; exact h2, by rw [hm]; exact h3⟩

theorem unfaulted_maps : Unfaulted Sys.maps := ⟨fun _ _ h => h.maps, fun _ _ _ => rfl, fun _ _ => rfl⟩

theorem maps_keeps {α : Type} {R : Event → Prop} {c : M α} (hc : Quiet Sys.maps R c) (h : Made p i r length s) :
    wp c (fun _ t => Made p i r length t) (fun _ => True) s := (Quiet.keeps hc s).imp fun _ _ ht => h.congr ht

theorem openArea_made (h : Made p i r length s) :
    wp (openArea p i fd offset) (fun b t => b = true → Made p i r length t) (fun _ => True) s := by
  unfold openArea
  rw [Prog.wp_bind, Prog.wp_modify, Prog.wp_bind, Prog.wp_read, Prog.wp_bind]
  have hset : Made p i r length (s.setArea i { s.maps i with f := s.ofileAt p fd, offset := offset }) := by
    refine ⟨?_, ?_, ?_⟩
    all_goals rw [setArea_maps]
    · exact h.owned
    · exact h.addr
    · exact h.length
  refine (maps_keeps (setOff_quiet unfaulted_maps.alike (R := fun _ => True) p _ _) hset).imp fun _ t ht => ?_
  rw [Prog.wp_bind]
  refine (maps_keeps (compareProt_quiet (R := fun _ => True) p i) ht).imp fun b t ht => ?_
  cases b with
  | true => exact fun _ => ht
  | false => exact nofun

theorem mapArea_made (h : Made p i r length s) : wp (mapArea p i addr flags fd offset)
    (fun a t => a ≠ 0 → a = addr + mmapBase ∧ Made p i r length t) (fun _ => True) s := by
  unfold mapArea
  refine Prog.wp_ite (fun _ => Prog.wp_ite (fun _ => ?_) fun _ => ?_) fun _ => ?_
  · rw [Prog.wp_bind]
    exact (maps_keeps (mapPopulateAnonymous_fills unfaulted_maps i) h).imp fun _ t ht _ => ⟨rfl, ht⟩
  · rw [Prog.wp_bind]
    refine (openArea_made h).imp fun b t ht => ?_
    cases b with
    | true =>
      rw [if_pos rfl, Prog.wp_bind]
      exact (maps_keeps (mapPopulateFile_fills unfaulted_maps i) (ht rfl)).imp fun _ t ht _ => ⟨rfl, ht⟩
    | false => exact fun hne => absurd rfl hne
  · rw [Prog.wp_bind]
    refine (openArea_made h).imp fun b t ht => ?_
    cases b with
    | true => exact fun _ => ⟨rfl, ht rfl⟩
    | false => exact fun hne => absurd rfl hne

theorem mmap_success (hi : s.free = some i) (hr : r ≠ 0)
    (h : (mmap p addr length prot flags fd offset s).res = .ok r) :
    validArgs addr length prot flags fd offset = true ∧ r = addr + mmapBase ∧
      Made p i r length (mmap p addr length prot flags fd offset s).st := by
  cases hv : validArgs addr length prot flags fd offset with
  | false =>
    rw [mmap_invalid hv] at h
    exact absurd (Except.ok.inj h).symm hr
  | true =>
    cases hl : s.locked with
    | true =>
      rw [mmap_locked hv hl] at h
      cases h
    | false =>
      cases hc : s.clash p addr with
      | true =>
        rw [mmap_clash hv hl hc] at h
        exact absurd (Except.ok.inj h).symm hr
      | false =>
        rw [mmap_made hv hl hc hi] at h ⊢
        have hmade : Made p i (addr + mmapBase) length (s.setArea i ((s.maps i).init p addr length prot flags)) := by
          refine ⟨?_, ?_, ?_⟩
          all_goals rw [setArea_maps]
          · exact ownedBy_iff.2 ⟨rfl, rfl⟩
          · rfl
          · rfl
        have hwp : wp (do Prog.emit (.made p i); mapArea p i addr flags fd offset : M Addr)
            (fun a t => a ≠ 0 → a = addr + mmapBase ∧ Made p i (addr + mmapBase) length t) (fun _ => True)
            (s.setArea i ((s.maps i).init p addr length prot flags)) :=
          Prog.wp_bind.2 (Prog.wp_emit _ |>.2 (mapArea_made hmade))
        obtain ⟨rfl, ht⟩ := hwp.ok h hr
        exact ⟨rfl, rfl, ht⟩

theorem touch_quiet (va : Addr) (write : Bool) : Quiet Sys.maps Filled (touch p va write) :=
  Quiet.bind (follow_quiet _) (fun _ => Quiet.ite (fun _ => Quiet.pure _) (fun _ =>
    Quiet.bind (pageFaultHandler_fills unfaulted_maps va _) (fun _ => Quiet.pure _)))

/-! ## What munmap leaves -/

theorem reaches_fits {a : Area} {x : Addr} (h : a.reaches p x = true) : a.addr.toNat + a.length.toNat < 4294967296 := by
  obtain ⟨h, -⟩ := Bool.and_eq_true_iff.1 h
  rw [Bool.and_eq_true, decide_eq_true_eq, decide_eq_true_eq, BitVec.le_def, BitVec.le_def, BitVec.toNat_add] at h
  have := a.addr.isLt
  have := a.length.isLt
  omega

theorem covers_holds {a : Area} {x : Addr} (h : a.covers x = true) : a.holds x.toNat := by
  unfold Area.covers at h
  rw [Bool.and_eq_true, decide_eq_true_eq, decide_eq_true_eq, BitVec.le_def, BitVec.lt_def, BitVec.toNat_add] at h
  have := Nat.mod_le (a.addr.toNat + a.length.toNat) (2 ^ 32)
  exact ⟨h.1, by omega⟩

section Munmap

/-- The loop of `munmap` over the pages of the area. -/
def unmapLoop (p : Fin nproc) (a : Area) : M Unit := Prog.forEach (List.range a.npages) (fun n => unmapPage p (a.page n))

theorem unmapLoop_eq (p : Fin nproc) (a : Area) :
    unmapLoop p a = Prog.forEach ((List.range a.npages).map a.page) (unmapPage p) := (Prog.forEach_map _ _ _).symm

theorem unmapArea_run {v : Sys} {tr : List Event} (h : unmapLoop p (s.maps i) s = ⟨.ok (), v, tr⟩)
    (hv : v.locked = true) : unmapArea p i s = ⟨.ok 1, (v.setArea i Area.cleared).unlock, tr⟩ := by
  have hrelease : release (v.setArea i Area.cleared) = ⟨.ok (), (v.setArea i Area.cleared).unlock, []⟩ := release_run hv
  unfold unmapArea
  rw [Prog.read_bind_run]
  refine (Prog.bind_run_ok h).trans ?_
  rw [Prog.modify_bind_run, Prog.bind_run_nil hrelease]
  simp

theorem unmapArea_ok (h : (unmapArea p i s).res = .ok 1) : (unmapLoop p (s.maps i) s).res = .ok () := by
  unfold unmapArea at h
  rw [Prog.read_bind_run] at h
  obtain ⟨_, hloop, -⟩ := Prog.bind_ok h
  exact hloop

variable {g : Space} (hl : u.locked = false) (hi : u.findArea (Area.reaches p (r + mmapBase)) = some i)

include hl hi

theorem munmap_eq : (munmap p r u).res = (unmapArea p i u.lock).res ∧ (munmap p r u).st = (unmapArea p i u.lock).st := by
  rw [munmap_some hl hi, Prog.emit_bind_run]
  exact ⟨rfl, rfl⟩

theorem munmap_maps (h : (munmap p r u).res = .ok 1) : (munmap p r u).st.maps = (u.setArea i Area.cleared).maps := by
  obtain ⟨hres, hst⟩ := munmap_eq hl hi
  rw [hres] at h
  have hloop : Quiet Sys.maps (fun _ => True) (unmapLoop p (u.maps i)) :=
    Quiet.forEach _ fun n _ => unmapPage_quiet unfaulted_maps.alike unfaulted_maps.space p trivial fun _ => trivial
  have hwp : wp (unmapArea p i) (fun _ t => t.maps = (u.setArea i Area.cleared).maps) (fun _ => True) u.lock := by
    unfold unmapArea
    rw [Prog.wp_bind, Prog.wp_read, Prog.wp_bind]
    refine (Quiet.keeps hloop u.lock).imp fun _ v hv => ?_
    rw [Prog.wp_bind, Prog.wp_modify, Prog.wp_bind]
    have hset : (v.setArea i Area.cleared).maps = (u.setArea i Area.cleared).maps := by
      unfold Sys.setArea
      rw [hv]
      rfl
    exact (Quiet.keeps (release_quiet (R := fun _ => True) fun _ _ => rfl) _).imp fun _ t ht => ht.trans hset
  rw [hst]
  exact hwp.ok h

/-- **The pages of the area** are given up where `kfree` takes the frame of each. -/
theorem munmap_run (hg : u.pgdir p = some g) (hflat : (u.maps i).Flat)
    (hk : ∀ n ∈ (u.maps i).nums.filter g.mapped, u.phys.kfrees (g.frame n) = true) :
    ∃ v, (munmap p r u).res = .ok 1 ∧ (munmap p r u).st = (v.setArea i Area.cleared).unlock ∧
      Unmapped p g ((u.maps i).nums.filter g.mapped) u.lock v := by
  have hnums : ((List.range (u.maps i).npages).map (u.maps i).page).map pageNum = (u.maps i).nums := List.map_map
  obtain ⟨hdo, -⟩ := unmapPages_run (p := p) ((List.range (u.maps i).npages).map (u.maps i).page) g u.lock hg
    (by rw [hnums]; exact hflat.nodup_nums)
  rw [hnums] at hdo
  obtain ⟨v, tr, hrun, hun⟩ := hdo hk
  rw [← unmapLoop_eq] at hrun
  have harea := unmapArea_run (s := u.lock) hrun hun.locked
  obtain ⟨hres, hst⟩ := munmap_eq hl hi
  rw [harea] at hres hst
  exact ⟨v, hres, hst, hun⟩

theorem munmap_returns (hflat : (u.maps i).Flat) (hpos : 0 < (u.maps i).length.toNat)
    (h : (munmap p r u).res = .ok 1) : ∃ g, u.pgdir p = some g ∧
      ∀ n ∈ (u.maps i).nums.filter g.mapped, u.phys.kfrees (g.frame n) = true := by
  obtain ⟨hres, -⟩ := munmap_eq hl hi
  rw [hres] at h
  have hloop := unmapArea_ok h
  have hnums : ((List.range (u.maps i).npages).map (u.maps i).page).map pageNum = (u.maps i).nums := List.map_map
  cases hg : u.pgdir p with
  | none =>
    -- the first page is walked to
    have hwh := hflat.whole
    have hn := hflat.npages
    obtain ⟨k, hk⟩ : ∃ k, (u.maps i).npages = k + 1 := ⟨(u.maps i).npages - 1, by omega⟩
    have hstop : ∀ va, unmapPage p va u.lock = ⟨.error .wild, u.lock, []⟩ := fun va =>
      Prog.bind_run_error (follow_wild (s := u.lock) hg)
    have hrange : List.range (u.maps i).npages = 0 :: (List.range k).map Nat.succ := by
      rw [hk, List.range_succ_eq_map]
    unfold unmapLoop at hloop
    rw [show (u.lock.maps i) = u.maps i from rfl, hrange, Prog.forEach_cons, Prog.bind_run_error (hstop _)] at hloop
    cases hloop
  | some g =>
    obtain ⟨-, hstop⟩ := unmapPages_run (p := p) ((List.range (u.maps i).npages).map (u.maps i).page) g u.lock hg
      (by rw [hnums]; exact hflat.nodup_nums)
    rw [hnums, ← unmapLoop_eq] at hstop
    exact ⟨g, rfl, hstop hloop⟩

end Munmap

/-! ## munmap undoes mmap -/

theorem validArgs_small (h : validArgs addr length prot flags fd offset = true) : length.toNat < 2147483648 := by
  unfold validArgs at h
  simp only [Bool.and_eq_true, Bool.not_eq_true'] at h
  have hslt : length.slt 0 = false := h.1.1.1.2
  have hneg : ¬ length.toInt < 0 := of_decide_eq_false hslt
  rw [BitVec.toInt_eq_toNat_cond] at hneg
  have := length.isLt
  split at hneg <;> omega

theorem Made.flat (h : Made p i r length u) (hv : validArgs addr length prot flags fd offset = true)
    (hr : r = addr + mmapBase) {x : Addr} (hx : (u.maps i).reaches p x = true) : (u.maps i).Flat := by
  have hvalid := validArgs_valid hv
  have hal := hvalid.aligned
  refine ⟨?_, ?_, reaches_fits hx, ?_⟩
  · rw [h.addr, hr, BitVec.toNat_add]
    show (addr.toNat + 1073741824) % 4294967296 % 4096 = 0
    omega
  · rw [h.length]
    exact hvalid.whole
  · rw [h.length]
    exact validArgs_small hv

theorem Made.holds (h : Made p i r length u) (x : Nat) : (u.maps i).holds x ↔ spans r length x := by
  unfold Area.holds spans
  rw [h.addr, h.length]

theorem Found.undone (h : Found p i r length u) (hmade : Made p i r length u) (hpos : 0 < length.toNat)
    (hl : u.locked = false) (hflat : (u.maps i).Flat) : (munmap p r u).res = .ok 1 ∧
      Undone p i r length u (munmap p r u).st := by
  obtain ⟨g, hg, hk, hnd, hfree⟩ := h.frames
  obtain ⟨v, hres, hst, hun⟩ := munmap_run hl h.first hg hflat hk
  have hmem : ∀ n, n ∈ (u.maps i).nums ↔ spans r length (n.toNat * 4096) := fun n =>
    hflat.mem_nums.trans (hmade.holds _)
  have hmaps : (munmap p r u).st.maps = (u.setArea i Area.cleared).maps := munmap_maps hl h.first hres
  have hpgdir : (munmap p r u).st.pgdir = fun q =>
      if q = p then some (g.drop ((u.maps i).nums.filter g.mapped)) else u.pgdir q := by
    rw [hst]
    exact hun.pgdir
  have hown : ∀ j, ((munmap p r u).st.maps j).ownedBy p = true → j ≠ i ∧ (munmap p r u).st.maps j = u.maps j := by
    intro j hj
    rw [hmaps] at hj ⊢
    by_cases hji : j = i
    · rw [hji, setArea_maps] at hj
      cases hj
    · exact ⟨hji, setArea_other hji⟩
  have hareas : ∀ j x, ((munmap p r u).st.maps j).ownedBy p = true → ((munmap p r u).st.maps j).holds x →
      ¬ spans r length x := by
    intro j x hj hx
    obtain ⟨hji, hsame⟩ := hown j hj
    rw [hsame] at hj hx
    exact h.apart j x hji hj hx
  have hnot : ∀ n, ¬ spans r length (n.toNat * 4096) → n ∉ (u.maps i).nums.filter g.mapped := fun n hn hm =>
    hn ((hmem n).1 (List.mem_filter.1 hm).1)
  refine ⟨hres, hareas, fun g' n hg' hn => ?_, fun g' n hg' hn hm => ?_, fun j hji => ?_, fun q hq => ?_, fun g' hg' => ?_,
    ?_, ?_, ?_⟩
  · rw [hpgdir] at hg'
    obtain rfl := Option.some.inj ((if_pos rfl).symm.trans hg')
    by_cases hm : g.mapped n = true
    · exact mapped_drop (List.mem_filter.2 ⟨(hmem n).2 hn, hm⟩)
    · rw [mapped_drop_not fun hin => hm (List.mem_filter.1 hin).2]
      exact Bool.eq_false_iff.2 hm
  · obtain rfl : g = g' := Option.some.inj (hg.symm.trans hg')
    have hin : n ∈ (u.maps i).nums.filter g.mapped := List.mem_filter.2 ⟨(hmem n).2 hn, hm⟩
    have hlist : (munmap p r u).st.phys.freelist =
        (((u.maps i).nums.filter g.mapped).map g.frame).reverse ++ u.phys.freelist := by
      rw [hst]
      exact hun.freelist
    rw [hlist, List.count_append, List.count_reverse, List.count_eq_one_of_mem hnd (List.mem_map_of_mem hin),
      List.count_eq_zero.2 (hfree n hin)]
  · rw [hmaps]
    exact setArea_other hji
  · rw [hpgdir]
    exact if_neg hq
  · obtain rfl : g = g' := Option.some.inj (hg.symm.trans hg')
    refine ⟨g.drop ((u.maps i).nums.filter g.mapped), ?_, rfl, rfl, fun n hn => drop_not_mem (hnot n hn)⟩
    rw [hpgdir]
    exact if_pos rfl
  · obtain ⟨h1, h2, h3, h4, h5⟩ := hun.procs
    rw [hst]
    exact ⟨h1, h2, h3, h4, h5⟩
  · have hback : r - mmapBase + mmapBase = r := BitVec.sub_add_cancel r mmapBase
    have hnone : (munmap p r u).st.findArea (fun a => a.covers r && a.ownedBy p) = none := by
      refine findArea_none.2 fun j => ?_
      rw [Bool.and_eq_false_iff]
      by_contra hcov
      rw [not_or, Bool.not_eq_false, Bool.not_eq_false] at hcov
      exact hareas j r.toNat hcov.2 (covers_holds hcov.1) ⟨le_refl _, by omega⟩
    unfold Sys.clash
    rw [hback, hnone]
    rfl
  · cases hf : (munmap p r u).st.free with
    | some _ => rfl
    | none =>
      have hused := findArea_none.1 hf i
      rw [hmaps, setArea_maps] at hused
      cases hused

theorem Undone.found (hres : (munmap p r u).res = .ok 1) (h : Undone p i r length u (munmap p r u).st)
    (hmade : Made p i r length u) (hpos : 0 < length.toNat) (hl : u.locked = false)
    (hflat : ∀ x, (u.maps i).reaches p x = true → (u.maps i).Flat) : Found p i r length u := by
  cases hf : u.findArea (Area.reaches p (r + mmapBase)) with
  | none =>
    rw [munmap_none hl hf] at hres
    exact absurd (Except.ok.inj hres) (by decide)
  | some j =>
    have hmaps := munmap_maps hl hf hres
    -- the area that went is the one at `r`: it is not there any more
    have hji : j = i := by
      by_contra hji
      have hsame : (munmap p r u).st.maps i = u.maps i := by
        rw [hmaps]
        exact setArea_other fun he => hji he.symm
      refine h.areas i r.toNat ?_ ?_ ⟨le_refl _, by omega⟩
      · rw [hsame]
        exact hmade.owned
      · rw [hsame]
        exact (hmade.holds _).2 ⟨le_refl _, by omega⟩
    subst hji
    have hflat := hflat _ (findArea_some.1 hf).1
    have hmem : ∀ n, n ∈ (u.maps j).nums ↔ spans r length (n.toNat * 4096) := fun n =>
      hflat.mem_nums.trans (hmade.holds _)
    obtain ⟨g, hg, hk⟩ := munmap_returns hl hf hflat (by rw [hmade.length]; exact hpos) hres
    obtain ⟨v, -, hst, hun⟩ := munmap_run hl hf hg hflat hk
    have hlist : (munmap p r u).st.phys.freelist =
        (((u.maps j).nums.filter g.mapped).map g.frame).reverse ++ u.phys.freelist := by
      rw [hst]
      exact hun.freelist
    have hcount : ∀ n ∈ (u.maps j).nums.filter g.mapped,
        (((u.maps j).nums.filter g.mapped).map g.frame).count (g.frame n) + u.phys.freelist.count (g.frame n) = 1 := by
      intro n hn
      obtain ⟨hin, hm⟩ := List.mem_filter.1 hn
      have hone := h.frames g n hg ((hmem n).1 hin) hm
      rwa [hlist, List.count_append, List.count_reverse] at hone
    have hpos : ∀ n ∈ (u.maps j).nums.filter g.mapped,
        0 < (((u.maps j).nums.filter g.mapped).map g.frame).count (g.frame n) := fun n hn =>
      List.count_pos_iff.2 (List.mem_map_of_mem hn)
    refine ⟨hf, fun k x hkj hk hx => ?_, g, hg, hk, List.nodup_iff_count_le_one.2 fun f => ?_, fun n hn => ?_⟩
    · have hsame := h.maps k hkj
      exact h.areas k x (by rw [hsame]; exact hk) (by rw [hsame]; exact hx)
    · by_cases hmf : f ∈ ((u.maps j).nums.filter g.mapped).map g.frame
      · obtain ⟨n, hn, rfl⟩ := List.mem_map.1 hmf
        have := hcount n hn
        omega
      · rw [List.count_eq_zero.2 hmf]
        exact Nat.zero_le 1
    · refine List.count_eq_zero.1 ?_
      have := hcount n hn
      have := hpos n hn
      omega

/-- The state after a call of `mmap` and accesses of the process to its memory. -/
def touched (s : Sys) (p : Fin nproc) (addr length prot flags fd offset : Word) (touches : List (Addr × Bool)) :
    Outcome Stop Sys Event Unit :=
  Prog.forEach touches (fun x => touch p x.1 x.2) (mmap p addr length prot flags fd offset s).st

/-- A file is mapped from `MMAPBASE` up to `KERNBASE`, and two of its pages are touched. -/
def mapHalf : Sys := (touched sample 0 0 0x40000000#32 protRead 0 3 0 [(0x40000000#32, false), (0x40001000#32, false)]).st

def halfSpace : Space := (sampleSpace.setPte 0x40000#20 (mapPte 300#20 pteU)).setPte 0x40001#20 (mapPte 301#20 pteU)

theorem mapHalf_space : mapHalf.pgdir 0 = some halfSpace := rfl

theorem halfSpace_mapped (n : Frame) : halfSpace.mapped n = true ↔ n = 0x40000#20 ∨ n = 0x40001#20 := by
  have hz : ¬ present (sampleSpace.pte n) := not_present_zero
  have hno : sampleSpace.mapped n = false := by
    unfold Space.mapped
    rw [decide_eq_false hz, Bool.and_false]
  unfold halfSpace
  rw [mapped_setPte, mapped_setPte, hno]
  split_ifs with h1 h0
  · subst h1
    exact iff_of_true (by decide) (.inr rfl)
  · subst h0
    exact iff_of_true (by decide) (.inl rfl)
  · exact iff_of_false nofun (not_or.2 ⟨h0, h1⟩)

theorem mapHalf_found : Found 0 0 0x40000000#32 0x40000000#32 mapHalf := by
  have hothers : ∀ j : Fin nmaps, j ≠ 0 → (mapHalf.maps j).state = .unusing := by decide +kernel
  have hflat : (mapHalf.maps 0).Flat := by
    refine ⟨?_, ?_, ?_, ?_⟩ <;> decide +kernel
  have hpages : ∀ n ∈ (mapHalf.maps 0).nums.filter halfSpace.mapped, n = 0x40000#20 ∨ n = 0x40001#20 := fun n hn =>
    (halfSpace_mapped n).1 (List.mem_filter.1 hn).2
  refine ⟨by decide +kernel, fun j x hj hown => ?_, halfSpace, mapHalf_space, fun n hn => ?_,
    (hflat.nodup_nums.filter _).map_on fun m hm n hn => ?_, fun n hn => ?_⟩
  · have hstate := hothers j hj
    rw [(ownedBy_iff.1 hown).1] at hstate
    cases hstate
  · rcases hpages n hn with rfl | rfl <;> decide +kernel
  · rcases hpages m hm with rfl | rfl <;> rcases hpages n hn with rfl | rfl <;> decide
  · rcases hpages n hn with rfl | rfl <;> decide +kernel

end Vm
end Xv6
