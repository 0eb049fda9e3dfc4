import Xv6.Vm.Image
/-!
# Vm.Exec — the arguments on the new stack

exec.c from the image on: each string goes below the one before it, and `ustack` below the last.  The stack pointer is
unsigned and the lengths are the user's, so it can leave the stack page.  Below it is the guard page, which every copy
that starts lower meets; above `KERNBASE`, where the pointer wraps to, the kernel's pages are closed to the user.  Only
between `PHYSTOP` and `DEVSPACE` is there no page table, and `uva2ka` does not look for that.
-/
namespace Xv6
namespace Vm

open Mem
open Prog (wp)

variable {g : Space} {s t : Phys} {sz sp va : Addr} {E : Stop → Prop}

def maxarg : Nat := 32

/-- The pointer from `walkpgdir` is not looked at before it is followed. -/
def uva2ka (g : Space) (uva : Addr) : V (Option Frame) := do
  match ← walkpgdir g uva with
  | none   => Prog.stop .wild
  | some q =>
    if ¬ present (g.pte q) then pure none
    else if g.pte q &&& pteU = 0 then pure none
    else pure (some (pteFrame (g.pte q)))

/-- `memmove` into a page, from `off` on. -/
def Phys.store (s : Phys) (f : Frame) (off : Nat) (p : List Byte) : Phys :=
  s.setPage f fun o => if off ≤ o.toNat then p.getD (o.toNat - off) (s.mem f o) else s.mem f o

def copyoutLoop : Nat → Space → Addr → List Byte → V Bool
  | 0, _, _, _ => Prog.stop .diverge
  | n + 1, g, va, buf => do
    if buf = [] then pure true
    else
      let va0 := pgRoundDown va
      match ← uva2ka g va0 with
      | none     => pure false
      | some pa0 =>
        let k := min (pgsize - (va - va0)).toNat buf.length
        Prog.modify (fun s => s.store pa0 (va - va0).toNat (buf.take k))
        copyoutLoop n g (va0 + pgsize) (buf.drop k)

def copyout (g : Space) (va : Addr) (p : List Byte) : V Bool := copyoutLoop maxPages g va p

/-- `(sp - (strlen(arg) + 1)) & ~3`. -/
def pushed (sp : Addr) (len : Nat) : Addr := (sp - BitVec.ofNat 32 (len + 1)) &&& ~~~3#32

/-- The loop that pushes the strings; `ptrs` is `ustack[3..3+argc)`. -/
def pushArgs (g : Space) : Addr → List Addr → List (List Byte) → V (Option (Addr × List Addr))
  | sp, ptrs, []          => pure (some (sp, ptrs))
  | sp, ptrs, arg :: argv => do
    if maxarg ≤ ptrs.length then pure none
    else
      let sp := pushed sp arg.length
      if ← copyout g sp (arg ++ [0]) then pushArgs g sp (ptrs ++ [sp]) argv
      else pure none

def wordBytes (w : BitVec 32) : List Byte := [w.extractLsb' 0 8, w.extractLsb' 8 8, w.extractLsb' 16 8, w.extractLsb' 24 8]

/-- `ustack`: the fake return address, `argc`, the pointer to `argv`, and `argv`. -/
def ustack (sp : Addr) (ptrs : List Addr) : List Addr :=
  [0xFFFFFFFF#32, BitVec.ofNat 32 ptrs.length, sp - (BitVec.ofNat 32 ptrs.length + 1) * 4] ++ ptrs ++ [0]

/-- The strings and `ustack`; the stack pointer of the new program, or `goto bad`. -/
def execArgs (g : Space) (sz : Addr) (argv : List (List Byte)) : V (Option Addr) := do
  match ← pushArgs g sz [] argv with
  | none            => pure none
  | some (sp, ptrs) =>
    let us := ustack sp ptrs
    let sp := sp - (3 + BitVec.ofNat 32 ptrs.length + 1) * 4
    if ← copyout g sp (us.flatMap wordBytes) then pure (some sp) else pure none

/-! ## The pages of the image -/

/-- No page table: from `PHYSTOP` to `DEVSPACE`. -/
def inGap (va : Addr) : Prop := 2382364672 ≤ va.toNat ∧ va.toNat < 4261412864

theorem uva2ka_wp {Q : Option Frame → Phys → Prop} :
    wp (uva2ka g va) Q E s ↔ if g.hasTable va = true then Q (g.user va false) s else E .wild := by
  unfold uva2ka
  rw [Prog.wp_bind, walkpgdir_wp]
  by_cases ht : g.hasTable va = true
  · rw [if_pos ht, if_pos ht]
    have hbit : g.pte (pageNum va) &&& pteU = 0 ↔ ¬ (g.pte (pageNum va)).getLsbD 2 = true := by
      constructor
      · intro h h2
        have h2' := congrArg (fun e : Pte => e.getLsbD 2) h
        simp only [BitVec.getLsbD_and, h2, getLsbD_pteU] at h2'
        simp at h2'
      · intro h
        refine BitVec.eq_of_getLsbD_eq fun i _ => ?_
        rw [BitVec.getLsbD_and, getLsbD_pteU]
        by_cases hi : i = 2
        · simpa [hi] using h
        · simp [hi]
    unfold Space.user
    rw [ht]
    by_cases hp : present (g.pte (pageNum va))
    · by_cases hu : (g.pte (pageNum va)).getLsbD 2 = true
      · simp only [hp, hu, hbit]
        exact Iff.rfl
      · simp only [hp, hu, hbit]
        exact Iff.rfl
    · simp only [hp]
      exact Iff.rfl
  · rw [if_neg ht, if_neg ht]
    exact Iff.rfl

theorem pageNum_lt (hva : va.toNat < 2147483648) : (pageNum va).toNat < 524288 := by
  rw [pageNum_toNat]
  omega

theorem NewImage.user_own (h : NewImage g sz) (va : Addr) (hva : va.toNat < sz.toNat)
    (hguard : va.toNat / 4096 * 4096 + 8192 ≠ sz.toNat) :
    g.hasTable va = true ∧ g.user va false = some (g.frame (pageNum va)) := by
  have hnum := pageNum_toNat va
  have hhi := h.high
  have hmap := (h.user (pageNum va) (pageNum_lt (by omega))).2 (by omega)
  have hu := (h.own (pageNum va) (by omega)).2 (by rwa [hnum])
  rw [mapped_pageNum, Bool.and_eq_true] at hmap
  refine ⟨hmap.1, ?_⟩
  unfold Space.user
  rw [hmap.1, hmap.2, hu]
  rfl

theorem user_closed (hmap : g.mapped (pageNum va) = true) (hu : (g.pte (pageNum va)).getLsbD 2 = false) :
    g.hasTable va = true ∧ g.user va false = none := by
  rw [mapped_pageNum, Bool.and_eq_true] at hmap
  refine ⟨hmap.1, ?_⟩
  unfold Space.user
  rw [hmap.1, hmap.2, hu]
  rfl

theorem NewImage.user_guard (h : NewImage g sz) (hva : va.toNat / 4096 * 4096 + 8192 = sz.toNat) :
    g.hasTable va = true ∧ g.user va false = none := by
  have hnum := pageNum_toNat va
  have hhi := h.high
  refine user_closed ((h.user (pageNum va) (pageNum_lt (by omega))).2 (by omega)) (Bool.eq_false_iff.2 fun hu => ?_)
  exact (h.own (pageNum va) (by omega)).1 hu (by rwa [hnum])

theorem NewImage.user_kernel (h : NewImage g sz) (va : Addr) (hva : 2147483648 ≤ va.toNat) (hgap : ¬ inGap va) :
    g.hasTable va = true ∧ g.user va false = none := by
  have hnum := pageNum_toNat va
  unfold inGap at hgap
  have hmap := (h.kernel (pageNum va) (by omega)).2 (by omega)
  exact user_closed hmap (h.closed _ (by omega) hmap)

theorem NewImage.no_table (h : NewImage g sz) (va : Addr) (hgap : inGap va) : g.hasTable va = false := by
  refine Bool.eq_false_iff.2 fun ht => ?_
  obtain ⟨m, hm, hmap⟩ := h.tight (pdx va) ht
  unfold inGap at hgap
  have hdir : m.toNat / 1024 = va.toNat / 4194304 := by
    rw [← toNat_pdx, ← hm]
    unfold dirIx
    rw [BitVec.extractLsb'_toNat, Nat.shiftRight_eq_div_pow]
    have := m.isLt
    omega
  have := (h.kernel m (by omega)).1 hmap
  omega

/-! ## One copy -/

theorem toNat_pageOff : (va - pgRoundDown va).toNat = va.toNat % 4096 := by
  rw [BitVec.toNat_sub, toNat_pgRoundDown]
  have := va.isLt
  omega

theorem toNat_pageRest : (pgsize - (va - pgRoundDown va)).toNat = 4096 - va.toNat % 4096 := by
  rw [BitVec.toNat_sub, toNat_pageOff]
  show (4294967296 - va.toNat % 4096 + 4096) % 4294967296 = _
  omega

def stackFrame (g : Space) (sz : Addr) : Frame := g.frame (pageNum (sz - pgsize))

theorem NewImage.stack_page (h : NewImage g sz) (va : Addr) (hlo : sz.toNat ≤ va.toNat + 4096) (hhi : va.toNat < sz.toNat) :
    g.hasTable va = true ∧ g.user va false = some (stackFrame g sz) := by
  have hal := h.aligned
  have hlow := h.low
  obtain ⟨ht, hu⟩ := h.user_own va hhi (by omega)
  refine ⟨ht, hu.trans (congrArg (fun m => some (g.frame m)) ?_)⟩
  rw [← BitVec.toNat_inj, pageNum_toNat, pageNum_toNat, BitVec.toNat_sub]
  show _ = (4294967296 - 4096 + sz.toNat) % 4294967296 / 4096
  have := sz.isLt
  omega

theorem copyout_stack (h : NewImage g sz) {buf : List Byte} (hb : buf ≠ []) (hlo : sz.toNat ≤ va.toNat + 4096)
    (hhi : va.toNat + buf.length ≤ sz.toNat) :
    wp (copyout g va buf) (fun r t => r = true ∧ t = s.store (stackFrame g sz) (va.toNat % 4096) buf) E s := by
  have hal := h.aligned
  have hpos := List.length_pos_iff.2 hb
  have hdown := toNat_pgRoundDown va
  obtain ⟨ht, hu⟩ := h.stack_page (pgRoundDown va) (by omega) (by omega)
  unfold copyout maxPages copyoutLoop
  rw [if_neg hb]
  dsimp only
  rw [Prog.wp_bind, uva2ka_wp, if_pos ht, hu]
  have hk : min (pgsize - (va - pgRoundDown va)).toNat buf.length = buf.length := by
    rw [toNat_pageRest]
    omega
  dsimp only
  rw [hk, Prog.wp_bind, Prog.wp_modify, List.drop_length, List.take_length, toNat_pageOff]
  unfold copyoutLoop
  rw [if_pos rfl]
  exact ⟨rfl, rfl⟩

/-- **A copy that meets the guard page** fails, whatever it has written below. -/
theorem copyoutLoop_guard (h : NewImage g sz) : ∀ (n : Nat) (s : Phys) (va : Addr) (buf : List Byte), buf ≠ [] →
    va.toNat + 4096 < sz.toNat → sz.toNat < va.toNat + buf.length + 8192 → sz.toNat ≤ va.toNat + n * 4096 →
      wp (copyoutLoop n g va buf) (fun r _ => r = false) E s := by
  have hal := h.aligned
  have hhi := h.high
  intro n
  induction n with
  | zero => intro _ _ _ _ _ _ _; omega
  | succ n ih =>
    intro s va buf hb hva hend hn
    have hdown := toNat_pgRoundDown va
    unfold copyoutLoop
    rw [if_neg hb]
    dsimp only
    rw [Prog.wp_bind, uva2ka_wp]
    by_cases hguard : (pgRoundDown va).toNat / 4096 * 4096 + 8192 = sz.toNat
    · obtain ⟨ht, hu⟩ := h.user_guard hguard
      rw [if_pos ht, hu]
      rfl
    · obtain ⟨ht, hu⟩ := h.user_own (pgRoundDown va) (by omega) hguard
      rw [if_pos ht, hu]
      dsimp only
      rw [Prog.wp_bind, Prog.wp_modify]
      have hbelow : (pgRoundDown va).toNat + 12288 ≤ sz.toNat := by
        have : (pgRoundDown va).toNat + 8192 ≠ sz.toNat := fun he => hguard (by omega)
        omega
      have hnext : (pgRoundDown va + pgsize).toNat = (pgRoundDown va).toNat + 4096 := toNat_nextPage (by omega)
      have hk : min (pgsize - (va - pgRoundDown va)).toNat buf.length = 4096 - va.toNat % 4096 := by
        rw [toNat_pageRest]
        omega
      have hlen : (buf.drop (4096 - va.toNat % 4096)).length = buf.length - (4096 - va.toNat % 4096) := List.length_drop
      rw [hk]
      refine ih _ _ _ (List.length_pos_iff.1 ?_) (by omega) ?_ (by omega)
      · rw [hlen]
        omega
      · rw [hlen]
        omega

theorem copyout_guard (h : NewImage g sz) {buf : List Byte} (hb : buf ≠ []) (hva : va.toNat + 4096 < sz.toNat)
    (hend : sz.toNat < va.toNat + buf.length + 8192) : wp (copyout g va buf) (fun r _ => r = false) E s := by
  have hhi := h.high
  refine copyoutLoop_guard h maxPages s va buf hb hva hend ?_
  unfold maxPages
  omega

theorem copyout_kernel (h : NewImage g sz) {buf : List Byte} (hb : buf ≠ []) (hva : 2147483648 ≤ va.toNat)
    (hgap : ¬ inGap va) : wp (copyout g va buf) (fun r _ => r = false) E s := by
  have hdown := toNat_pgRoundDown va
  unfold inGap at hgap
  obtain ⟨ht, hu⟩ := h.user_kernel (pgRoundDown va) (by omega) (by unfold inGap; omega)
  unfold copyout maxPages copyoutLoop
  rw [if_neg hb]
  dsimp only
  rw [Prog.wp_bind, uva2ka_wp, if_pos ht, hu]
  rfl

/-- **A copy to where there is no page table** follows the null pointer. -/
theorem copyout_gap (h : NewImage g sz) {buf : List Byte} (hb : buf ≠ []) (hgap : inGap va) :
    wp (copyout g va buf) (fun _ _ => False) (fun e => e = .wild) s := by
  have hdown := toNat_pgRoundDown va
  unfold inGap at hgap
  have ht := h.no_table (pgRoundDown va) (by unfold inGap; omega)
  unfold copyout maxPages copyoutLoop
  rw [if_neg hb]
  dsimp only
  rw [Prog.wp_bind, uva2ka_wp, if_neg (by rw [ht]; decide)]

/-! ## One string -/

/-- The bytes that a string takes with its end, up to a word. -/
def room (len : Nat) : Nat := (len + 4) / 4 * 4

theorem toNat_align (a : Addr) : (a &&& ~~~3#32).toNat = a.toNat / 4 * 4 := by
  have h : (a &&& ~~~3#32) = (a >>> 2) <<< 2 := by
    refine BitVec.eq_of_getLsbD_eq fun i hi => ?_
    have h3 : (3#32).getLsbD i = decide (i < 2) := by
      rw [BitVec.getLsbD_ofNat, show 3 = 2 ^ 2 - 1 from rfl, Nat.testBit_two_pow_sub_one, ← Bool.decide_and]
      exact decide_eq_decide.2 (by omega)
    rw [BitVec.getLsbD_and, BitVec.getLsbD_not, h3, BitVec.getLsbD_shiftLeft, BitVec.getLsbD_ushiftRight]
    by_cases h2 : i < 2
    · simp [h2]
    · simp [hi, h2, show 2 + (i - 2) = i by omega]
  rw [h, BitVec.toNat_shiftLeft, BitVec.toNat_ushiftRight, Nat.shiftRight_eq_div_pow, Nat.shiftLeft_eq]
  have := a.isLt
  omega

theorem toNat_pushed {len : Nat} (hsp : sp.toNat % 4 = 0) (hsp' : sp.toNat < 2147483648) (hlen : len + 1 < 2147483648) :
    (pushed sp len).toNat = if room len ≤ sp.toNat then sp.toNat - room len else sp.toNat + 4294967296 - room len := by
  unfold pushed room
  rw [toNat_align, BitVec.toNat_sub, BitVec.toNat_ofNat]
  split <;> omega

/-- The length moves `sp` to where there is no page table: more than 32 MB below 0, and at most 1824 MB. -/
def Astray (sp len : Nat) : Prop := sp + 33554432 < len + 1 ∧ len + 1 ≤ sp + 1912602624

theorem astray_iff {len : Nat} (hsp : sp.toNat % 4 = 0) (hsp' : sp.toNat < 2147483648) (hlen : len + 1 < 2147483648) :
    inGap (pushed sp len) ↔ Astray sp.toNat len := by
  unfold inGap Astray
  rw [toNat_pushed hsp hsp' hlen]
  unfold room
  split <;> omega

/-! ## Bytes on the stack -/

/-- The byte that the new program reads at `va`. -/
def Space.byte (g : Space) (s : Phys) (va : Addr) : Option Byte :=
  (g.user va false).map fun f => s.mem f (va.extractLsb' 0 12)

/-- The bytes are at `va`, in the stack page. -/
structure OnStack (g : Space) (sz : Addr) (t : Phys) (va : Addr) (b : List Byte) : Prop where
  low   : sz.toNat ≤ va.toNat + 4096
  high  : va.toNat + b.length ≤ sz.toNat
  bytes : ∀ i < b.length, g.byte t (va + BitVec.ofNat 32 i) = b[i]?

theorem NewImage.stack_byte (h : NewImage g sz) (hlo : sz.toNat ≤ va.toNat + 4096) {i : Nat} (hi : va.toNat + i < sz.toNat) :
    g.byte t (va + BitVec.ofNat 32 i) = some (t.mem (stackFrame g sz) (BitVec.ofNat 12 (va.toNat % 4096 + i))) := by
  have hal := h.aligned
  have hhi := h.high
  have hadd : (va + BitVec.ofNat 32 i).toNat = va.toNat + i := by
    rw [BitVec.toNat_add, BitVec.toNat_ofNat]
    omega
  obtain ⟨-, hu⟩ := h.stack_page (va + BitVec.ofNat 32 i) (by omega) (by omega)
  have hoff : (va + BitVec.ofNat 32 i).extractLsb' 0 12 = BitVec.ofNat 12 (va.toNat % 4096 + i) := by
    rw [← BitVec.toNat_inj, BitVec.extractLsb'_toNat, hadd, BitVec.toNat_ofNat]
    simp only [Nat.shiftRight_zero]
    omega
  unfold Space.byte
  rw [hu, hoff]
  rfl

theorem store_mem (f : Frame) (off : Nat) (b : List Byte) (o : BitVec 12) : (s.store f off b).mem f o =
    if off ≤ o.toNat then b.getD (o.toNat - off) (s.mem f o) else s.mem f o := by
  unfold Phys.store Phys.setPage
  dsimp only
  rw [if_pos rfl]

theorem NewImage.stored (h : NewImage g sz) {b : List Byte} (hlo : sz.toNat ≤ va.toNat + 4096)
    (hhi : va.toNat + b.length ≤ sz.toNat) : OnStack g sz (s.store (stackFrame g sz) (va.toNat % 4096) b) va b := by
  have hal := h.aligned
  refine ⟨hlo, hhi, fun i hi => ?_⟩
  have hoff : (BitVec.ofNat 12 (va.toNat % 4096 + i)).toNat = va.toNat % 4096 + i := by
    rw [BitVec.toNat_ofNat]
    omega
  rw [h.stack_byte hlo (by omega), store_mem, hoff, if_pos (by omega), Nat.add_sub_cancel_left, List.getD_eq_getElem?_getD,
    List.getElem?_eq_getElem hi]
  rfl

theorem OnStack.store (h : NewImage g sz) {b b' : List Byte} {va' : Addr} (hb : OnStack g sz s va' b')
    (hlo : sz.toNat ≤ va.toNat + 4096) (hbelow : va.toNat + b.length ≤ va'.toNat) :
    OnStack g sz (s.store (stackFrame g sz) (va.toNat % 4096) b) va' b' := by
  have hal := h.aligned
  have hhi := hb.high
  refine ⟨hb.low, hhi, fun i hi => ?_⟩
  have hold := hb.bytes i hi
  rw [h.stack_byte hb.low (by omega)] at hold ⊢
  have hoff : (BitVec.ofNat 12 (va'.toNat % 4096 + i)).toNat = va'.toNat % 4096 + i := by
    rw [BitVec.toNat_ofNat]
    omega
  rw [← hold, store_mem, hoff, if_pos (by omega), List.getD_eq_default _ _ (by omega)]

/-! ## The strings -/

def taken (argv : List (List Byte)) : Nat := (argv.map fun arg => room arg.length).sum

theorem taken_cons (arg : List Byte) (argv : List (List Byte)) : taken (arg :: argv) = room arg.length + taken argv := by
  unfold taken
  rw [List.map_cons, List.sum_cons]

theorem taken_snoc (done : List (List Byte)) (arg : List Byte) : taken (done ++ [arg]) = taken done + room arg.length := by
  unfold taken
  rw [List.map_append, List.sum_append]
  simp

theorem taken_mod (argv : List (List Byte)) : taken argv % 4 = 0 := by
  induction argv with
  | nil => rfl
  | cons arg argv ih =>
    rw [taken_cons]
    unfold room
    omega

/-- **The strings pushed so far** are on the stack page, at `ptrs`, and nothing but that page has changed. -/
structure Pushed (g : Space) (sz : Addr) (s : Phys) (done : List (List Byte)) (sp : Addr) (ptrs : List Addr) (t : Phys) :
    Prop where
  stack : sp.toNat + taken done = sz.toNat
  fits  : taken done ≤ 4096
  args  : List.Forall₂ (fun arg p => sp.toNat ≤ p.toNat ∧ OnStack g sz t p (arg ++ [0])) done ptrs
  count : ptrs.length ≤ maxarg
  page  : ∃ p, t = s.setPage (stackFrame g sz) p

theorem setPage_self (s : Phys) (f : Frame) : s.setPage f (s.mem f) = s := by
  have hmem : (fun g => if g = f then s.mem f else s.mem g) = s.mem := by
    funext g
    split
    · next h => rw [h]
    · rfl
  unfold Phys.setPage
  rw [hmem]

theorem setPage_setPage (s : Phys) (f : Frame) (p q : Page) : (s.setPage f p).setPage f q = s.setPage f q := by
  have hmem : (fun g => if g = f then q else if g = f then p else s.mem g) = fun g => if g = f then q else s.mem g := by
    funext g
    split <;> rfl
  unfold Phys.setPage
  dsimp only
  rw [hmem]

theorem store_page {f : Frame} {off : Nat} {b : List Byte} (h : ∃ p, t = s.setPage f p) :
    ∃ p, t.store f off b = s.setPage f p := by
  obtain ⟨p, rfl⟩ := h
  exact ⟨_, setPage_setPage s f p _⟩

theorem Pushed.start (s : Phys) : Pushed g sz s [] sz [] s :=
  ⟨rfl, Nat.zero_le _, .nil, Nat.zero_le _, _, (setPage_self s _).symm⟩

theorem Pushed.push (h : NewImage g sz) {done : List (List Byte)} {ptrs : List Addr} {arg : List Byte}
    (hp : Pushed g sz s done sp ptrs t) (hcount : ptrs.length < maxarg) (hlen : arg.length + 1 < 2147483648)
    (hfit : taken done + room arg.length ≤ 4096) :
    wp (copyout g (pushed sp arg.length) (arg ++ [0])) (fun r u => r = true ∧
      Pushed g sz s (done ++ [arg]) (pushed sp arg.length) (ptrs ++ [pushed sp arg.length]) u) E t := by
  have hal := h.aligned
  have hlow := h.low
  have hhi := h.high
  have hsp := hp.stack
  have hmod := taken_mod done
  have hto : (pushed sp arg.length).toNat = _ := toNat_pushed (by omega) (by omega) hlen
  rw [if_pos (by omega)] at hto
  have hbytes : (arg ++ [0]).length = arg.length + 1 := List.length_append
  have hroom : arg.length + 1 ≤ room arg.length := by
    unfold room
    omega
  have hlo' : sz.toNat ≤ (pushed sp arg.length).toNat + 4096 := by omega
  refine (copyout_stack h (by simp) hlo' (by omega)).imp fun r u hr => ?_
  obtain ⟨hr, rfl⟩ := hr
  refine ⟨hr, ?_, ?_, ?_, ?_, store_page hp.page⟩
  · rw [taken_snoc]
    omega
  · rw [taken_snoc]
    exact hfit
  · refine List.rel_append (hp.args.imp fun a p ha => ⟨by omega, ha.2.store h hlo' (by omega)⟩) ?_
    exact .cons ⟨Nat.le_refl _, h.stored hlo' (by omega)⟩ .nil
  · rw [List.length_append]
    exact hcount

/-- **A string that does not fit** is refused, at the guard page or at the kernel's, if the pointer does not go astray. -/
theorem Pushed.refuse (h : NewImage g sz) {done : List (List Byte)} {ptrs : List Addr} {arg : List Byte}
    (hp : Pushed g sz s done sp ptrs t) (hlen : arg.length + 1 < 2147483648) (hfit : ¬ taken done + room arg.length ≤ 4096)
    (hclear : ¬ Astray sp.toNat arg.length) :
    wp (copyout g (pushed sp arg.length) (arg ++ [0])) (fun r _ => r = false) E t := by
  have hal := h.aligned
  have hlow := h.low
  have hhi := h.high
  have hsp := hp.stack
  have hfits := hp.fits
  have hmod := taken_mod done
  have hto : (pushed sp arg.length).toNat = _ := toNat_pushed (by omega) (by omega) hlen
  have hbytes : (arg ++ [0]).length = arg.length + 1 := List.length_append
  have hroom : room arg.length ≤ arg.length + 4 := by
    unfold room
    omega
  have hroom' : room arg.length ≤ 2147483648 := by
    unfold room
    omega
  by_cases hwrap : room arg.length ≤ sp.toNat
  · rw [if_pos hwrap] at hto
    exact copyout_guard h (by simp) (by omega) (by omega)
  · rw [if_neg hwrap] at hto
    refine copyout_kernel h (by simp) (by omega) fun hgap => hclear ?_
    exact (astray_iff (by omega) (by omega) hlen).1 hgap

/-- **The loop**: all strings are pushed, or one is refused. -/
theorem pushArgs_wp (h : NewImage g sz) : ∀ (argv done : List (List Byte)) (sp : Addr) (ptrs : List Addr) (t : Phys),
    Pushed g sz s done sp ptrs t → (∀ arg ∈ argv, arg.length + 1 < 2147483648) →
      (∀ pre arg post, argv = pre ++ arg :: post → ptrs.length + pre.length < maxarg →
        taken done + taken pre ≤ 4096 → ¬ Astray (sz.toNat - (taken done + taken pre)) arg.length) →
        wp (pushArgs g sp ptrs argv) (fun o u => ∀ r, o = some r → Pushed g sz s (done ++ argv) r.1 r.2 u) E t := by
  intro argv
  induction argv with
  | nil =>
    intro done sp ptrs t hp _ _ r hr
    obtain rfl := Option.some.inj hr
    rwa [List.append_nil]
  | cons arg argv ih =>
    intro done sp ptrs t hp hlens hclear
    have hlen := hlens arg List.mem_cons_self
    have hsp := hp.stack
    unfold pushArgs
    refine Prog.wp_ite (fun _ r hr => by cases hr) fun hcount => ?_
    have hcount' : ptrs.length < maxarg := Nat.not_le.1 hcount
    rw [Prog.wp_bind]
    by_cases hfit : taken done + room arg.length ≤ 4096
    · refine (hp.push h hcount' hlen hfit).imp fun r u hr => ?_
      obtain ⟨hr, hp'⟩ := hr
      rw [hr]
      refine (ih _ _ _ _ hp' (fun a ha => hlens a (List.mem_cons_of_mem _ ha)) ?_).imp fun o v ho r hr => ?_
      · intro pre a post he hn ht
        have := hclear (arg :: pre) a post (by rw [he]; rfl)
        rw [taken_cons, List.length_cons] at this
        rw [taken_snoc, Nat.add_assoc] at ht ⊢
        rw [List.length_append, List.length_singleton] at hn
        exact this (by omega) ht
      · have hlist : done ++ arg :: argv = done ++ [arg] ++ argv := by simp
        rw [hlist]
        exact ho r hr
    · have hast : ¬ Astray sp.toNat arg.length := by
        have := hclear [] arg argv rfl (by simpa using hcount') hp.fits
        rwa [show sz.toNat - (taken done + taken []) = sp.toNat by rw [← hsp]; simp [taken]] at this
      refine (hp.refuse h hlen hfit hast).imp fun r u hr => ?_
      rw [hr]
      exact fun _ h => by cases h

/-- **A string that goes astray**, after others that fit, stops the machine. -/
theorem pushArgs_wild (h : NewImage g sz) {arg : List Byte} {post : List (List Byte)} (hlen : arg.length + 1 < 2147483648) :
    ∀ (pre done : List (List Byte)) (sp : Addr) (ptrs : List Addr) (t : Phys), Pushed g sz s done sp ptrs t →
      (∀ a ∈ pre, a.length + 1 < 2147483648) → ptrs.length + pre.length < maxarg → taken done + taken pre ≤ 4096 →
        Astray (sz.toNat - (taken done + taken pre)) arg.length →
          wp (pushArgs g sp ptrs (pre ++ arg :: post)) (fun _ _ => False) (fun e => e = .wild) t := by
  have hlow := h.low
  have hhi := h.high
  have hal := h.aligned
  intro pre
  induction pre with
  | nil =>
    intro done sp ptrs t hp _ hn ht hast
    have hsp := hp.stack
    have hmod := taken_mod done
    rw [show sz.toNat - (taken done + taken []) = sp.toNat by rw [← hsp]; simp [taken]] at hast
    show wp (pushArgs g sp ptrs (arg :: post)) _ _ _
    unfold pushArgs
    rw [if_neg (by simpa using hn), Prog.wp_bind]
    refine (copyout_gap h (by simp) ?_).imp fun r u hr => hr.elim
    exact (astray_iff (by omega) (by omega) hlen).2 hast
  | cons a pre ih =>
    intro done sp ptrs t hp hlens hn ht hast
    rw [taken_cons, ← Nat.add_assoc] at ht hast
    rw [List.length_cons] at hn
    show wp (pushArgs g sp ptrs (a :: (pre ++ arg :: post))) _ _ _
    unfold pushArgs
    rw [if_neg (by omega), Prog.wp_bind]
    refine (hp.push h (by omega) (hlens a List.mem_cons_self) (by omega)).imp fun r u hr => ?_
    obtain ⟨hr, hp'⟩ := hr
    rw [hr]
    refine ih _ _ _ _ hp' (fun b hb => hlens b (List.mem_cons_of_mem _ hb)) ?_ ?_ ?_
    · rw [List.length_append, List.length_singleton]
      omega
    · rwa [taken_snoc]
    · rwa [taken_snoc]

/-! ## ustack -/

/-- **The new stack**: the strings with their ends, below them `ustack` at `sp`, and no change but to the stack page. -/
structure Laid (g : Space) (sz : Addr) (s : Phys) (argv : List (List Byte)) (sp : Addr) (t : Phys) : Prop where
  args : ∃ ptrs, List.Forall₂ (fun arg p => OnStack g sz t p (arg ++ [0])) argv ptrs ∧
    OnStack g sz t sp (([0xFFFFFFFF#32, BitVec.ofNat 32 argv.length, sp + 12] ++ ptrs ++ [0]).flatMap wordBytes)
  page : ∃ p, t = s.setPage (stackFrame g sz) p

/-- No string is astray that the loop comes to: the first `MAXARG`, as long as those before it fit on the page. -/
def OnCourse (sz : Addr) (argv : List (List Byte)) : Prop := ∀ pre arg post, argv = pre ++ arg :: post →
  pre.length < maxarg → taken pre ≤ 4096 → ¬ Astray (sz.toNat - taken pre) arg.length

theorem flatMap_wordBytes (l : List Addr) : (l.flatMap wordBytes).length = 4 * l.length := by
  induction l with
  | nil => rfl
  | cons w l ih =>
    rw [List.flatMap_cons, List.length_append, ih, List.length_cons]
    show 4 + _ = _
    omega

theorem Pushed.laid (h : NewImage g sz) {argv : List (List Byte)} {ptrs : List Addr} (hp : Pushed g sz s argv sp ptrs t) :
    wp (do if ← copyout g (sp - (3 + BitVec.ofNat 32 ptrs.length + 1) * 4) ((ustack sp ptrs).flatMap wordBytes) then
             pure (some (sp - (3 + BitVec.ofNat 32 ptrs.length + 1) * 4)) else pure none)
      (fun o u => ∀ sp', o = some sp' → Laid g sz s argv sp' u) E t := by
  have hal := h.aligned
  have hlow := h.low
  have hhi := h.high
  have hsp := hp.stack
  have hfits := hp.fits
  have hcount : ptrs.length ≤ 32 := hp.count
  have hargs : argv.length = ptrs.length := hp.args.length_eq
  obtain ⟨sp', hsp'⟩ : ∃ sp', sp' = sp - (3 + BitVec.ofNat 32 ptrs.length + 1) * 4 := ⟨_, rfl⟩
  have hto : sp'.toNat + 4 * (4 + ptrs.length) = sp.toNat := by
    rw [hsp', BitVec.toNat_sub, BitVec.toNat_mul, BitVec.toNat_add, BitVec.toNat_add, BitVec.toNat_ofNat]
    show (4294967296 - ((3 + ptrs.length % 4294967296) % 4294967296 + 1) % 4294967296 * 4 % 4294967296 + sp.toNat) %
      4294967296 + _ = _
    omega
  have hptr : sp - (BitVec.ofNat 32 ptrs.length + 1) * 4 = sp' + 12 := by
    rw [hsp']
    ring
  have hlen : ((ustack sp ptrs).flatMap wordBytes).length = 4 * (4 + ptrs.length) := by
    rw [flatMap_wordBytes]
    unfold ustack
    simp only [List.length_append, List.length_cons, List.length_nil]
    omega
  have hne : (ustack sp ptrs).flatMap wordBytes ≠ [] := List.length_pos_iff.1 (by omega)
  rw [← hsp', Prog.wp_bind]
  by_cases hlo : sz.toNat ≤ sp'.toNat + 4096
  · refine (copyout_stack h hne hlo (by omega)).imp fun r u hr => ?_
    obtain ⟨hr, rfl⟩ := hr
    rw [hr]
    intro q hq
    obtain rfl := Option.some.inj hq
    refine ⟨⟨ptrs, hp.args.imp fun a p ha => ha.2.store h hlo (by omega), ?_⟩, store_page hp.page⟩
    have hst := h.stored (s := t) hlo (b := (ustack sp ptrs).flatMap wordBytes) (by omega)
    unfold ustack at hst ⊢
    rw [hargs, ← hptr]
    exact hst
  · refine (copyout_guard h hne (by omega) (by omega)).imp fun r u hr => ?_
    rw [hr]
    exact fun _ h => by cases h

/-- **Every argument vector** of strings of the caller's memory. -/
theorem execArgs_safe (h : NewImage g sz) (argv : List (List Byte)) (hlens : ∀ arg ∈ argv, arg.length + 1 < 2147483648)
    (s : Phys) : wp (execArgs g sz argv) (fun o t => ∀ sp, o = some sp → Laid g sz s argv sp t) (fun _ => False) s ↔
      OnCourse sz argv := by
  constructor
  · intro hsafe pre arg post he hn ht hast
    have hwild : wp (execArgs g sz argv) (fun _ _ => False) (fun e => e = .wild) s := by
      unfold execArgs
      rw [Prog.wp_bind, he]
      refine (pushArgs_wild h (hlens arg (by rw [he]; simp)) pre [] sz [] s (.start s)
        (fun a ha => hlens a (by rw [he]; exact List.mem_append_left _ ha)) ?_ ?_ ?_).imp fun _ _ h => h.elim
      · simpa using hn
      · simpa [taken] using ht
      · simpa [taken] using hast
    obtain ⟨o, ho, -⟩ := hsafe.returns
    exact hwild.ok ho
  · intro hclear
    unfold execArgs
    rw [Prog.wp_bind]
    refine (pushArgs_wp h argv [] sz [] s (.start s) hlens fun pre arg post he hn ht => ?_).imp fun o t ho => ?_
    · have hempty : taken [] + taken pre = taken pre := Nat.zero_add _
      rw [hempty] at ht ⊢
      exact hclear pre arg post he (by simpa using hn) ht
    · cases o with
      | none => exact fun _ h => by cases h
      | some r => exact (ho r rfl).laid h

/-- A program of one page, with the guard page and the stack above it. -/
def threePages : Space where
  dir := 1024#20
  pde d := if d.toNat = 0 ∨ 512 ≤ d.toNat ∧ (d.toNat < 568 ∨ 1016 ≤ d.toNat) then some (1025#20 + d.setWidth 20) else none
  pte m := if m.toNat < 3 then mapPte (2560#20 + m) (if m.toNat = 1 then pteW else pteW ||| pteU)
    else if 524288 ≤ m.toNat then mapPte (m - 0x80000#20) pteW else 0

theorem getLsbD_mapPte_two (f : Frame) (perm : Pte) : (mapPte f perm).getLsbD 2 = perm.getLsbD 2 := by
  unfold mapPte
  simp only [BitVec.getLsbD_or, getLsbD_frameAddr, getLsbD_pteP]
  simp

theorem threePages_image : NewImage threePages 12288#32 := by
  have hsz : (12288#32 : Addr).toNat = 12288 := rfl
  have htab : ∀ d, (threePages.pde d).isSome = true ↔ d.toNat = 0 ∨ 512 ≤ d.toNat ∧ (d.toNat < 568 ∨ 1016 ≤ d.toNat) := by
    intro d
    unfold threePages
    dsimp only
    split
    · next h => exact iff_of_true rfl h
    · next h => exact iff_of_false (by simp) h
  have hmap : ∀ m, threePages.mapped m = true ↔ (threePages.pde (dirIx m)).isSome = true ∧ present (threePages.pte m) := by
    intro m
    unfold Space.mapped
    rw [Bool.and_eq_true, decide_eq_true_eq]
  have hlow : ∀ m : Frame, m.toNat < 3 → threePages.pte m =
      mapPte (2560#20 + m) (if m.toNat = 1 then pteW else pteW ||| pteU) := fun m hm => if_pos hm
  have hhigh : ∀ m : Frame, 524288 ≤ m.toNat → threePages.pte m = mapPte (m - 0x80000#20) pteW := fun m hm =>
    (if_neg (by omega)).trans (if_pos hm)
  refine ⟨by decide, by decide, by decide, fun m hm => ?_, fun m hm => ?_, fun m hm => ?_, fun m hm _ => ?_, fun d hd => ?_⟩
  · rw [hmap, htab, dirIx_toNat, hsz]
    by_cases h3 : m.toNat < 3
    · rw [hlow m h3]
      exact iff_of_true ⟨.inl (by omega), present_mapPte _ _⟩ (by omega)
    · have hz : threePages.pte m = 0 := (if_neg h3).trans (if_neg (by omega))
      rw [hz]
      exact iff_of_false (fun h => not_present_zero h.2) (by omega)
  · rw [hsz] at hm ⊢
    rw [hlow m (by omega), getLsbD_mapPte_two]
    by_cases h1 : m.toNat = 1
    · rw [if_pos h1]
      exact iff_of_false (by decide) (by omega)
    · rw [if_neg h1]
      exact iff_of_true (by decide) (by omega)
  · rw [hmap, htab, dirIx_toNat, hhigh m hm]
    have hp := present_mapPte (m - 0x80000#20) pteW
    have := m.isLt
    constructor
    · intro h
      omega
    · intro h
      exact ⟨by omega, hp⟩
  · rw [hhigh m hm, getLsbD_mapPte_two]
    decide
  · rw [htab] at hd
    obtain ⟨m, hm⟩ : ∃ m : Frame, m.toNat = d.toNat * 1024 := ⟨BitVec.ofNat 20 (d.toNat * 1024), by
      rw [BitVec.toNat_ofNat]
      have := d.isLt
      omega⟩
    have hdir : dirIx m = d := by
      rw [← BitVec.toNat_inj, dirIx_toNat, hm]
      omega
    refine ⟨m, hdir, (hmap m).2 ⟨by rw [hdir, htab]; exact hd, ?_⟩⟩
    by_cases h0 : m.toNat < 3
    · rw [hlow m h0]
      exact present_mapPte _ _
    · rw [hhigh m (by omega)]
      exact present_mapPte _ _

/-- `ls` with an argument. -/
def lsArgs : List (List Byte) := [[0x6C, 0x73], [0x2F]]

theorem lsArgs_onCourse : OnCourse 12288#32 lsArgs := by
  intro pre arg post he _ ht hast
  have hshort : arg.length ≤ 2 := by
    have hall : ∀ a ∈ lsArgs, a.length ≤ 2 := by decide
    exact hall arg (by rw [he]; simp)
  have hsz : (12288#32 : Addr).toNat = 12288 := rfl
  have := hast.1
  omega

theorem lsArgs_safe : wp (execArgs threePages 12288#32 lsArgs)
    (fun o t => ∀ sp, o = some sp → Laid threePages 12288#32 eightyFree lsArgs sp t) (fun _ => False) eightyFree :=
  (execArgs_safe threePages_image lsArgs (by decide) eightyFree).2 lsArgs_onCourse

theorem threePages_wild {arg : List Byte} (hlen : arg.length = 33566720) :
    (execArgs threePages 12288#32 [arg] eightyFree).res = .error .wild := by
  have hsz : (12288#32 : Addr).toNat = 12288 := rfl
  have hast : Astray ((12288#32 : Addr).toNat - (taken [] + taken [])) arg.length := by
    unfold Astray
    rw [hlen, hsz, show taken [] = 0 from rfl]
    omega
  have hwild : wp (execArgs threePages 12288#32 [arg]) (fun _ _ => False) (fun e => e = .wild) eightyFree := by
    unfold execArgs
    rw [Prog.wp_bind]
    exact (pushArgs_wild threePages_image (by omega) [] [] 12288#32 [] eightyFree (.start _) (fun _ h => by cases h)
      (by decide) (by decide) hast).imp fun _ _ h => h.elim
  cases hr : (execArgs threePages 12288#32 [arg] eightyFree).res with
  | ok o    => exact (hwild.ok hr).elim
  | error e => exact congrArg Except.error (hwild.error hr)

/-- One string of 32 MB more than the image has. -/
theorem longArg_wild : NewImage threePages 12288#32 ∧
    (execArgs threePages 12288#32 [List.replicate 33566720 0x61] eightyFree).res = .error .wild :=
  ⟨threePages_image, threePages_wild List.length_replicate⟩

end Vm
end Xv6
