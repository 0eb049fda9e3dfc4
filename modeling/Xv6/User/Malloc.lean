import Xv6.Lib.Segment
import Xv6.Lib.Tiling
import Xv6.Lib.Traced
/-!
# User.Malloc — the memory allocator of user programs (umalloc.c)

Addresses are bytes, below `kernbase`, so that no sum wraps around.  A header is at every address that one can be at; the
program writes what it likes between the headers of the blocks that it has.
-/
namespace Xv6
namespace Malloc

/-- `sizeof(Header)`. -/
abbrev unit : Nat := 8
abbrev kernbase : Nat := 0x80000000

/-- `union header`. -/
structure Header where
  ptr  : Nat
  size : Nat

structure Heap where
  hdr   : Nat → Header
  freep : Nat
  /-- The end of the memory that `sbrk` has given. -/
  brk   : Nat

inductive Stop where
  /-- A loop does not end. -/
  | stuck

abbrev C := Prog Stop Heap Empty

def Heap.set (s : Heap) (a : Nat) (h : Header) : Heap := { s with hdr := fun b => if b = a then h else s.hdr b }

/-! ## Freeing -/

/-- The loop of `free`, in at most `k` turns. -/
def place (bp : Nat) : Nat → Nat → C Nat
  | 0, _     => Prog.stop .stuck
  | k + 1, p => do
    let h ← Prog.read (fun s => s.hdr p)
    if bp > p ∧ bp < h.ptr then pure p
    else if p ≥ h.ptr ∧ (bp > p ∨ bp < h.ptr) then pure p
    else place bp k h.ptr

/-- The first `if` of `free`: the block after `bp` is joined to it. -/
def joinNext (p bp : Nat) (s : Heap) : Heap :=
  if bp + unit * (s.hdr bp).size = (s.hdr p).ptr then
    s.set bp ⟨(s.hdr (s.hdr p).ptr).ptr, (s.hdr bp).size + (s.hdr (s.hdr p).ptr).size⟩
  else s.set bp ⟨(s.hdr p).ptr, (s.hdr bp).size⟩

/-- The second: `bp` is joined to `p`, or comes after it. -/
def joinPrev (p bp : Nat) (s : Heap) : Heap :=
  if p + unit * (s.hdr p).size = bp then s.set p ⟨(s.hdr bp).ptr, (s.hdr p).size + (s.hdr bp).size⟩
  else s.set p ⟨bp, (s.hdr p).size⟩

def free (ap : Nat) : C Unit := do
  let s ← Prog.get
  let p ← place (ap - unit) (s.brk + 1) s.freep
  Prog.modify (joinNext p (ap - unit))
  Prog.modify (joinPrev p (ap - unit))
  Prog.modify (fun s => { s with freep := p })

/-! ## Allocating -/

def sbrk (grant : Nat → Bool) (n : Nat) : C (Option Nat) := do
  let s ← Prog.get
  if grant s.brk = true ∧ s.brk + n ≤ kernbase then
    Prog.modify (fun s => { s with brk := s.brk + n })
    pure (some s.brk)
  else pure none

def morecore (grant : Nat → Bool) (nu : Nat) : C Nat := do
  let nu := if nu < 4096 then 4096 else nu
  let p ← sbrk grant (nu * unit % 2 ^ 32)
  match p with
  | none    => pure 0
  | some hp =>
    Prog.modify (fun s => s.set hp ⟨(s.hdr hp).ptr, nu⟩)
    free (hp + unit)
    Prog.read (fun s => s.freep)

/-- The block `p` is large enough: it goes from the list, or its tail goes. -/
def take (nunits prevp p : Nat) : C Nat := do
  let h ← Prog.read (fun s => s.hdr p)
  if h.size = nunits then
    Prog.modify (fun s => s.set prevp ⟨h.ptr, (s.hdr prevp).size⟩)
    Prog.modify (fun s => { s with freep := prevp })
    pure (p + unit)
  else
    Prog.modify (fun s => s.set p ⟨h.ptr, h.size - nunits⟩)
    let q := p + unit * (h.size - nunits)
    Prog.modify (fun s => s.set q ⟨(s.hdr q).ptr, nunits⟩)
    Prog.modify (fun s => { s with freep := prevp })
    pure (q + unit)

/-- The loop of `malloc`, in at most `k` turns. -/
def search (grant : Nat → Bool) (nunits : Nat) : Nat → Nat → Nat → C Nat
  | 0, _, _         => Prog.stop .stuck
  | k + 1, prevp, p => do
    let h ← Prog.read (fun s => s.hdr p)
    if h.size ≥ nunits then take nunits prevp p
    else do
      let freep ← Prog.read (fun s => s.freep)
      if p = freep then do
        let p ← morecore grant nunits
        if p = 0 then pure 0
        else do
          let h ← Prog.read (fun s => s.hdr p)
          search grant nunits k p h.ptr
      else search grant nunits k p h.ptr

/-- `(nbytes + sizeof(Header) - 1)/sizeof(Header) + 1`, where the sum may wrap around. -/
def units (nbytes : Nat) : Nat := (nbytes + unit - 1) % 2 ^ 32 / unit + 1

/-- More turns than the list has places, with a second round after `morecore`. -/
def turns (s : Heap) (nunits : Nat) : Nat := 2 * (s.brk + unit * (nunits + 4096)) + 4

/-- `malloc`, where the static `base` has its address. -/
def malloc (base : Nat) (grant : Nat → Bool) (nbytes : Nat) : C Nat := do
  let s ← Prog.get
  Prog.when (s.freep = 0) (Prog.modify (fun s => { s.set base ⟨base, 0⟩ with freep := base }))
  let t ← Prog.get
  search grant (units nbytes) (turns s (units nbytes)) t.freep (t.hdr t.freep).ptr

/-! ## Programs -/

/-- The heap, and the blocks that are handed out, with the sizes that were asked for. -/
structure Sys where
  heap : Heap
  out  : Nat → Option Nat

inductive Act where
  | malloc (nbytes : Nat) (grant : Nat → Bool)
  | free (ap : Nat)
  /-- The program writes to the block at `ap`. -/
  | write (ap : Nat) (f : Nat → Header)

def Sys.setOut (s : Sys) (ap : Nat) (n : Option Nat) : Sys := { s with out := fun a => if a = ap then n else s.out a }

def Sys.step (base : Nat) (s : Sys) (a : Act) : Except Stop Sys :=
  match a with
  | .malloc n grant =>
    let o := malloc base grant n s.heap
    match o.res with
    | .ok p    => .ok (if p = 0 then { s with heap := o.st } else { s.setOut p (some n) with heap := o.st })
    | .error e => .error e
  | .free ap =>
    if s.out ap = none then .ok s
    else
      let o := free ap s.heap
      match o.res with
      | .ok _    => .ok { s.setOut ap none with heap := o.st }
      | .error e => .error e
  | .write ap f =>
    .ok (if s.out ap = none then s
      else { s with heap := { s.heap with hdr := fun a =>
        if ap ≤ a ∧ a < ap - unit + unit * (s.heap.hdr (ap - unit)).size then f a else s.heap.hdr a } })

def Sys.run (base : Nat) : Sys → List Act → Except Stop Sys
  | s, []      => .ok s
  | s, a :: as =>
    match s.step base a with
    | .ok s    => s.run base as
    | .error e => .error e

/-- The program starts with its break at `start`, a page that `exec` puts above the static data. -/
def Sys.init (start : Nat) (hdr : Nat → Header) : Sys := ⟨⟨hdr, 0, start⟩, fun _ => none⟩

/-! ## The list of free blocks -/

def Heap.next (s : Heap) (a : Nat) : Option Nat := some (s.hdr a).ptr

/-- The memory from `start` on is cut into the tiles `ts`; the free ones are, in the order of their addresses, the list
that goes from `base` back to it. -/
structure Valid (base start : Nat) (s : Heap) (ts : List Tile) : Prop where
  tiles : Tiles unit start ts s.brk
  size  : ∀ t ∈ ts, (s.hdr t.addr).size = t.size
  apart : Apart ts
  ring  : Seg s.next (some base) (base :: freeTiles ts) (some base)
  zero  : (s.hdr base).size = 0
  freep : s.freep ∈ base :: freeTiles ts

variable {base start bp p q k n : Nat} {s : Heap} {ts l m : List Tile}

theorem set_self (s : Heap) (a : Nat) (h : Header) : (s.set a h).hdr a = h := if_pos rfl

theorem set_other (s : Heap) {a b : Nat} (h : Header) (hne : b ≠ a) : (s.set a h).hdr b = s.hdr b := if_neg hne

/-- Where the loop of `free` stops. -/
def Stops (bp p q : Nat) : Prop := (bp > p ∧ bp < q) ∨ p ≥ q ∧ (bp > p ∨ bp < q)

theorem place_stop (h : Stops bp p (s.hdr p).ptr) : place bp (k + 1) p s = ⟨.ok p, s, []⟩ := by
  unfold place
  rw [Prog.read_bind_run]
  rcases h with h | h
  · rw [if_pos h]
    rfl
  · split_ifs
    · rfl
    · rfl

theorem place_next (h : ¬ Stops bp p (s.hdr p).ptr) : place bp (k + 1) p s = place bp k (s.hdr p).ptr s := by
  conv_lhs => unfold place
  rw [Prog.read_bind_run, if_neg fun hp => h (.inl hp), if_neg fun hp => h (.inr hp)]

theorem place_walk : ∀ (l : List Nat) (p : Nat), Seg s.next (some p) l (some q) →
    (∀ x ∈ l, ¬ Stops bp x (s.hdr x).ptr) → place bp (l.length + k) p s = place bp k q s
  | [], p, h, _ => by
    cases h
    rw [List.length_nil, Nat.zero_add]
  | x :: l, p, ⟨hx, h⟩, hno => by
    obtain rfl := Option.some.inj hx
    have hp := hno p List.mem_cons_self
    have hl := place_walk l (s.hdr p).ptr h fun y hy => hno y (List.mem_cons_of_mem p hy)
    rw [List.length_cons, Nat.add_right_comm, place_next hp]
    exact hl

/-- **The loop of `free` ends** at the last place of the list below `bp`. -/
theorem place_run {L F : List Nat} {x : Nat} (hseg : Seg s.next (some base) (L ++ [p] ++ F) (some base))
    (hs : (L ++ [p] ++ F).Pairwise (· < ·)) (hle : ∀ y ∈ L ++ [p] ++ F, base ≤ y) (hp : p < bp) (hF : ∀ y ∈ F, bp < y)
    (hx : x ∈ L ++ [p] ++ F) (hk : (L ++ [p] ++ F).length ≤ k) : place bp k x s = ⟨.ok p, s, []⟩ := by
  obtain ⟨r, hLp, hFr⟩ := Seg.append.1 hseg
  obtain ⟨_, hL, rfl, hr⟩ := Seg.append.1 hLp
  have hbase : base < bp := Nat.lt_of_le_of_lt (hle p (by simp)) hp
  have hsL : (L ++ [p]).Pairwise (· < ·) := (List.pairwise_append.1 hs).1
  have hstop : Stops bp p (s.hdr p).ptr := by
    cases F with
    | nil =>
      have hptr : s.next p = some base := hr.trans hFr
      rw [Option.some.inj hptr]
      exact .inr ⟨hle p (by simp), .inl hp⟩
    | cons y F =>
      have hptr : s.next p = some y := hr.trans hFr.1
      rw [Option.some.inj hptr]
      exact .inl ⟨hp, hF y List.mem_cons_self⟩
  have hnoL : ∀ y ∈ L, ¬ Stops bp y (s.hdr y).ptr := by
    intro y hy
    obtain ⟨z, hz, hyz, hzp⟩ := hL.next_lt hsL hy
    rw [Option.some.inj hz]
    unfold Stops
    omega
  have hnoF : ∀ y ∈ F, ¬ Stops bp y (s.hdr y).ptr := by
    intro y hy
    have hbp := hF y hy
    rcases List.eq_nil_or_concat F with rfl | ⟨M, z, rfl⟩
    · cases hy
    · rw [List.concat_eq_append] at hFr hy hs
      obtain ⟨_, hM, rfl, hz⟩ := Seg.append.1 hFr
      rcases List.mem_append.1 hy with hy | hy
      · obtain ⟨w, hw, hyw, -⟩ := hM.next_lt (List.pairwise_append.1 hs).2.1 hy
        rw [Option.some.inj hw]
        unfold Stops
        omega
      · rw [List.mem_singleton.1 hy] at hbp ⊢
        have hptr : s.next z = some base := hz
        rw [Option.some.inj hptr]
        unfold Stops
        omega
  simp only [List.length_append, List.length_singleton] at hk
  have hfromL : ∀ A B y, L = A ++ y :: B → ∀ j, B.length + 2 ≤ j → place bp j y s = ⟨.ok p, s, []⟩ := by
    rintro A B y rfl j hj
    obtain ⟨i, rfl⟩ : ∃ i, j = (y :: B).length + (i + 1) := ⟨j - (B.length + 2), by rw [List.length_cons]; omega⟩
    rw [place_walk (y :: B) y hL.suffix fun z hz => hnoL z (List.mem_append_right A hz)]
    exact place_stop hstop
  have hfromBase : ∀ j, L.length + 1 ≤ j → place bp j base s = ⟨.ok p, s, []⟩ := by
    intro j hj
    obtain ⟨i, rfl⟩ : ∃ i, j = L.length + (i + 1) := ⟨j - (L.length + 1), by omega⟩
    rw [place_walk L base hL hnoL]
    exact place_stop hstop
  rcases List.mem_append.1 hx with hx | hx
  · rcases List.mem_append.1 hx with hx | hx
    · obtain ⟨A, B, rfl⟩ := List.append_of_mem hx
      refine hfromL A B x rfl k ?_
      rw [List.length_append, List.length_cons] at hk
      omega
    · rw [List.mem_singleton.1 hx]
      obtain ⟨i, rfl⟩ : ∃ i, k = i + 1 := ⟨k - 1, by omega⟩
      exact place_stop hstop
  · obtain ⟨A, B, rfl⟩ := List.append_of_mem hx
    rw [List.length_append, List.length_cons] at hk
    obtain ⟨i, rfl⟩ : ∃ i, k = (x :: B).length + i := ⟨k - (B.length + 1), by rw [List.length_cons]; omega⟩
    rw [place_walk (x :: B) x hFr.suffix fun z hz => hnoF z (List.mem_append_right A hz)]
    rw [List.length_cons] at hk
    exact hfromBase i (by omega)

/-! ## A block is freed -/

/-- What is after the block `bp` once its size is `n'` and its link `q`: no free block is next to it. -/
structure Ahead (base : Nat) (s : Heap) (bp n' : Nat) (m m' : List Tile) (q b : Nat) : Prop where
  tiles : Tiles unit (bp + unit * n') m' b
  rest  : Seg s.next (some q) (freeTiles m') (some base)
  apart : Apart m'
  head  : ∀ v ∈ m'.head?, v.used = true
  sub   : m' ⊆ m
  used  : ∀ t ∈ m, t.used = true → t ∈ m'

theorem joinNext_run {b c : Nat} (hm : Tiles unit c m b) (hc : bp + unit * n = c) (hbase : base < c)
    (hsize : ∀ t ∈ m, (s.hdr t.addr).size = t.size) (hn : (s.hdr bp).size = n)
    (hseg : Seg s.next (s.next p) (freeTiles m) (some base)) (hap : Apart m) :
    ∃ n' m' q, joinNext p bp s = s.set bp ⟨q, n'⟩ ∧ n ≤ n' ∧ Ahead base s bp n' m m' q b := by
  have hkeep : c ≠ (s.hdr p).ptr → joinNext p bp s = s.set bp ⟨(s.hdr p).ptr, n⟩ := by
    intro hne
    unfold joinNext
    rw [hn, hc, if_neg hne]
  cases m with
  | nil =>
    have hptr : (s.hdr p).ptr = base := Option.some.inj hseg
    refine ⟨n, [], _, hkeep (hptr ▸ Nat.ne_of_gt hbase), Nat.le_refl n, hc ▸ hm, hseg, hap, ?_, ?_, ?_⟩
    · exact fun _ h => by cases h
    · exact List.Subset.refl _
    · exact fun _ h => absurd h List.not_mem_nil
  | cons t m =>
    obtain ⟨addr, size, used⟩ := t
    obtain ⟨haddr, hpos, htail⟩ := hm
    cases haddr
    dsimp only at hbase hc htail
    cases used with
    | true =>
      have hne : addr ≠ (s.hdr p).ptr := by
        intro he
        have hseg' : Seg s.next (some (s.hdr p).ptr) (freeTiles m) (some base) := hseg
        cases hf : freeTiles m with
        | nil =>
          rw [hf] at hseg'
          have : (s.hdr p).ptr = base := Option.some.inj hseg'
          omega
        | cons x F =>
          rw [hf] at hseg'
          have hx : (s.hdr p).ptr = x := Option.some.inj hseg'.1
          have hmem : x ∈ freeTiles m := hf ▸ List.mem_cons_self
          have := (htail.free_bounds (by decide) hmem).1
          have hp : 0 < unit * size := Nat.mul_pos (by decide) hpos
          omega
      refine ⟨n, ⟨addr, size, true⟩ :: m, _, hkeep hne, Nat.le_refl n, ?_, hseg, hap, ?_, List.Subset.refl _,
        fun _ h _ => h⟩
      · rw [hc]
        exact ⟨rfl, hpos, htail⟩
      · rintro v ⟨⟩
        rfl
    | false =>
      have hptr : (s.hdr p).ptr = addr := Option.some.inj hseg.1
      have hsz : (s.hdr addr).size = size := hsize _ List.mem_cons_self
      have hu := (List.isChain_cons.1 hap).1
      refine ⟨n + size, m, (s.hdr addr).ptr, ?_, Nat.le_add_right _ _, ?_, hseg.2, (List.isChain_cons.1 hap).2,
        fun v hv => ((hu v hv).resolve_left Bool.false_ne_true), List.subset_cons_self _ _, fun t ht htu => ?_⟩
      · unfold joinNext
        rw [hn, hc, if_pos hptr.symm, hptr, hsz]
      · rw [Nat.mul_add, ← Nat.add_assoc, hc]
        exact htail
      · refine (List.mem_cons.1 ht).resolve_left fun e => ?_
        rw [e] at htu
        cases htu

/-- The tiles and the places of the list around a block `bp`. -/
structure Around (base start : Nat) (s : Heap) (l : List Tile) (bp n : Nat)
    (m : List Tile) (L : List Nat) (p : Nat) : Prop where
  before : Tiles unit start l bp
  pos    : 0 < n
  after  : Tiles unit (bp + unit * n) m s.brk
  places : base :: freeTiles l = L ++ [p]
  walk   : Seg s.next (some base) L (some p)
  sorted : (L ++ [p] ++ freeTiles m).Pairwise (· < ·)
  low    : ∀ x ∈ L ++ [p], base ≤ x ∧ x < bp
  high   : ∀ x ∈ freeTiles m, bp < x

theorem Valid.around {u : Bool} (hv : Valid base start s ts) (hbase : base < start) (hts : ts = l ++ ⟨bp, n, u⟩ :: m) :
    ∃ L p, Around base start s l bp n m L p ∧ Seg s.next (s.next p) (freeTiles (⟨bp, n, u⟩ :: m)) (some base) := by
  subst hts
  obtain ⟨c, hl, hc, hpos, hm⟩ := Tiles.append.1 hv.tiles
  cases hc
  dsimp only at hl hpos hm
  obtain ⟨L, p, hLp⟩ : ∃ L p, base :: freeTiles l = L ++ [p] := by
    rcases List.eq_nil_or_concat (base :: freeTiles l) with h | ⟨L, p, h⟩
    · cases h
    · exact ⟨L, p, h.trans (List.concat_eq_append ..)⟩
  have hring := hv.ring
  rw [freeTiles_append, ← List.cons_append, hLp] at hring
  obtain ⟨r, hwalk, hrest⟩ := Seg.append.1 hring
  obtain ⟨_, hL, rfl, rfl⟩ := Seg.append.1 hwalk
  have hlow : ∀ x ∈ base :: freeTiles l, base ≤ x ∧ x < bp := by
    intro x hx
    have hle := hl.le
    rcases List.mem_cons.1 hx with rfl | hx
    · exact ⟨Nat.le_refl _, Nat.lt_of_lt_of_le hbase hle⟩
    · have := hl.free_bounds (by decide) hx
      omega
  have hall : (base :: freeTiles (l ++ ⟨bp, n, u⟩ :: m)).Pairwise (· < ·) := by
    refine .cons (fun x hx => ?_) (hv.tiles.free_sorted (by decide))
    exact Nat.lt_of_lt_of_le hbase (hv.tiles.free_bounds (by decide) hx).1
  have hsub : (freeTiles m).Sublist (freeTiles (⟨bp, n, u⟩ :: m)) := by
    cases u with
    | true => exact List.Sublist.refl _
    | false => exact List.sublist_cons_self _ _
  rw [freeTiles_append, ← List.cons_append, hLp] at hall
  refine ⟨L, p, ⟨hl, hpos, hm, hLp, hL, hall.sublist (List.Sublist.append (List.Sublist.refl _) hsub), hLp ▸ hlow,
    fun x hx => ?_⟩, hrest⟩
  have := (hm.free_bounds (by decide) hx).1
  have := Nat.mul_pos (show 0 < unit by decide) hpos
  omega

theorem Around.relink {L F : List Nat} {s' : Heap} {r : Option Nat} (h : Around base start s l bp n m L p)
    (hsame : ∀ x, x ≠ p → x ≠ bp → s'.hdr x = s.hdr x) (hp : s'.next p = r) (hF : Seg s'.next r F (some base)) :
    Seg s'.next (some base) (L ++ [p] ++ F) (some base) := by
  have hlt : ∀ x ∈ L, x < p := fun x hx =>
    (List.pairwise_append.1 (List.pairwise_append.1 h.sorted).1).2.2 x hx p (List.mem_singleton_self p)
  refine Seg.append.2 ⟨r, Seg.append.2 ⟨some p, h.walk.congr fun x hx => ?_, rfl, hp⟩, hF⟩
  have hx' := h.low x (List.mem_append_left _ hx)
  exact congrArg (fun y : Header => some y.ptr) (hsame x (Nat.ne_of_lt (hlt x hx)) (Nat.ne_of_lt hx'.2))

def Heap.freed (s : Heap) (bp : Nat) (b : Header) (p : Nat) (h : Header) : Heap := { (s.set bp b).set p h with freep := p }

section Freed

variable {L : List Nat} {n' : Nat} {m' : List Tile} {b e : Header}

theorem freed_p (s : Heap) (bp : Nat) (b : Header) (p : Nat) (e : Header) : (s.freed bp b p e).hdr p = e := set_self _ p e

theorem freed_bp (s : Heap) (b e : Header) (hne : bp ≠ p) : (s.freed bp b p e).hdr bp = b :=
  (set_other _ e hne).trans (set_self s bp b)

theorem freed_other (s : Heap) (b e : Header) (x : Nat) (hp : x ≠ p) (hb : x ≠ bp) : (s.freed bp b p e).hdr x = s.hdr x :=
  (set_other _ e hp).trans (set_other s b hb)

theorem Around.lt (h : Around base start s l bp n m L p) : p < bp := (h.low p (by simp)).2

theorem Around.base_le (h : Around base start s l bp n m L p) : base ≤ p := (h.low p (by simp)).1

theorem Ahead.freed (ha : Ahead base s bp n' m m' q s.brk) (h : Around base start s l bp n m L p)
    (hsize : ∀ t ∈ m, (s.hdr t.addr).size = t.size) :
    Seg (s.freed bp b p e).next (some q) (freeTiles m') (some base) ∧
      ∀ t ∈ m', ((s.freed bp b p e).hdr t.addr).size = t.size := by
  have hlt := h.lt
  have hsame : ∀ t ∈ m', (s.freed bp b p e).hdr t.addr = s.hdr t.addr := by
    intro t ht
    have := (h.after.bounds (ha.sub ht)).1
    have := Nat.mul_pos (show 0 < unit by decide) h.pos
    exact freed_other s b e _ (by omega) (by omega)
  refine ⟨ha.rest.congr fun x hx => ?_, fun t ht => ?_⟩
  · obtain ⟨t, ht, -, rfl⟩ := Tiles.mem_free.1 hx
    exact congrArg (fun y : Header => some y.ptr) (hsame t ht)
  · rw [hsame t ht]
    exact hsize t (ha.sub ht)

theorem Around.separate (h : Around base start s l bp n m L p) (hv : Valid base start s (l ++ ⟨bp, n, true⟩ :: m))
    (ha : Ahead base s bp n' m m' q s.brk) (hn : n ≤ n') (hl : ∀ v ∈ l.getLast?, v.used = true) :
    Valid base start (s.freed bp ⟨q, n'⟩ p ⟨bp, (s.hdr p).size⟩) (l ++ ⟨bp, n', false⟩ :: m') := by
  have hlt := h.lt
  obtain ⟨hrest, hsize⟩ := ha.freed (b := ⟨q, n'⟩) (e := ⟨bp, (s.hdr p).size⟩) h fun t ht => hv.size t (by simp [ht])
  have hbp := freed_bp s ⟨q, n'⟩ ⟨bp, (s.hdr p).size⟩ (Nat.ne_of_gt hlt)
  have hp := freed_p s bp ⟨q, n'⟩ p ⟨bp, (s.hdr p).size⟩
  have hother : ∀ x, x ≠ p → x ≠ bp → (s.freed bp ⟨q, n'⟩ p ⟨bp, (s.hdr p).size⟩).hdr x = s.hdr x :=
    freed_other s ⟨q, n'⟩ ⟨bp, (s.hdr p).size⟩
  -- sizes up to `p` are as they were
  have hbefore : ∀ x, x < bp → ((s.freed bp ⟨q, n'⟩ p ⟨bp, (s.hdr p).size⟩).hdr x).size = (s.hdr x).size := by
    intro x hx
    by_cases hxp : x = p
    · rw [hxp, hp]
    · rw [hother x hxp (Nat.ne_of_lt hx)]
  have hplaces : base :: freeTiles (l ++ ⟨bp, n', false⟩ :: m') = L ++ [p] ++ bp :: freeTiles m' := by
    rw [freeTiles_append, freeTiles_free, ← List.cons_append, h.places]
  refine ⟨?_, fun t ht => ?_, hv.apart.left.mid ha.apart hl ha.head, ?_, ?_, ?_⟩
  · exact Tiles.append.2 ⟨bp, h.before, rfl, Nat.lt_of_lt_of_le h.pos hn, ha.tiles⟩
  · rcases List.mem_append.1 ht with ht | ht
    · rw [hbefore _ (h.before.lt (by decide) ht)]
      exact hv.size t (List.mem_append_left _ ht)
    · rcases List.mem_cons.1 ht with rfl | ht
      · dsimp only
        rw [hbp]
      · exact hsize t ht
  · rw [hplaces]
    refine h.relink hother (congrArg (fun y : Header => some y.ptr) hp) ⟨rfl, ?_⟩
    have hnext : (s.freed bp ⟨q, n'⟩ p ⟨bp, (s.hdr p).size⟩).next bp = some q :=
      congrArg (fun y : Header => some y.ptr) hbp
    rw [hnext]
    exact hrest
  · rw [hbefore base (Nat.lt_of_le_of_lt h.base_le hlt)]
    exact hv.zero
  · rw [hplaces]
    exact List.mem_append_left _ (List.mem_append_right _ (List.mem_singleton_self p))

theorem Around.joined {j : Nat} (h : Around base start s (l ++ [⟨p, j, false⟩]) bp n m L p)
    (hv : Valid base start s (l ++ [⟨p, j, false⟩] ++ ⟨bp, n, true⟩ :: m)) (ha : Ahead base s bp n' m m' q s.brk) :
    Valid base start (s.freed bp ⟨q, n'⟩ p ⟨q, j + n'⟩) (l ++ ⟨p, j + n', false⟩ :: m') := by
  have hlt := h.lt
  obtain ⟨hrest, hsize⟩ := ha.freed (b := ⟨q, n'⟩) (e := ⟨q, j + n'⟩) h fun t ht => hv.size t (by simp [ht])
  have hp := freed_p s bp ⟨q, n'⟩ p ⟨q, j + n'⟩
  have hother : ∀ x, x ≠ p → x ≠ bp → (s.freed bp ⟨q, n'⟩ p ⟨q, j + n'⟩).hdr x = s.hdr x :=
    freed_other s ⟨q, n'⟩ ⟨q, j + n'⟩
  obtain ⟨c, hl, hc, hj, hend⟩ := Tiles.append.1 h.before
  cases hc
  dsimp only at hl hj hend
  have hend' : p + unit * j = bp := hend
  have hplaces : base :: freeTiles (l ++ ⟨p, j + n', false⟩ :: m') = L ++ [p] ++ freeTiles m' := by
    have hpl := h.places
    rw [freeTiles_append] at hpl
    have hsplit : base :: (freeTiles l ++ p :: freeTiles m') = base :: (freeTiles l ++ [p]) ++ freeTiles m' := by simp
    rw [freeTiles_append, freeTiles_free, hsplit]
    exact congrArg (· ++ freeTiles m') hpl
  have hzero : base ≠ p := by
    rintro rfl
    have hsz := hv.size ⟨base, j, false⟩ (by simp)
    have hz := hv.zero
    dsimp only at hsz
    omega
  obtain ⟨hused, -⟩ := Apart.around (l := l) (m := ⟨bp, n, true⟩ :: m) (t := ⟨p, j, false⟩)
    (by simpa using hv.apart) rfl
  refine ⟨?_, fun t ht => ?_, hv.apart.left.left.mid ha.apart hused ha.head, ?_, ?_, ?_⟩
  · refine Tiles.append.2 ⟨p, hl, rfl, Nat.lt_of_lt_of_le hj (Nat.le_add_right _ _), ?_⟩
    have htiles := ha.tiles
    rw [← hend', Nat.add_assoc, ← Nat.mul_add] at htiles
    exact htiles
  · rcases List.mem_append.1 ht with ht | ht
    · have htp := hl.lt (by decide) ht
      rw [hother t.addr (by omega) (by omega)]
      exact hv.size t (by simp [ht])
    · rcases List.mem_cons.1 ht with rfl | ht
      · dsimp only
        rw [hp]
      · exact hsize t ht
  · rw [hplaces]
    exact h.relink hother (congrArg (fun y : Header => some y.ptr) hp) hrest
  · have hb := h.base_le
    rw [hother base hzero (by omega)]
    exact hv.zero
  · rw [hplaces]
    exact List.mem_append_left _ (List.mem_append_right _ (List.mem_singleton_self p))

end Freed

theorem Around.place {L : List Nat} (h : Around base start s l bp n m L p)
    (hv : Valid base start s (l ++ ⟨bp, n, true⟩ :: m)) : place bp (s.brk + 1) s.freep s = ⟨.ok p, s, []⟩ := by
  have hp := h.low p (by simp)
  have hring := hv.ring
  have hfreep := hv.freep
  rw [freeTiles_append, freeTiles_used, ← List.cons_append, h.places] at hring hfreep
  refine place_run hring h.sorted (fun y hy => ?_) hp.2 h.high hfreep ?_
  · rcases List.mem_append.1 hy with hy | hy
    · exact (h.low y hy).1
    · have := h.high y hy
      omega
  · rw [← h.places, List.cons_append, ← freeTiles_used bp n m, ← freeTiles_append, List.length_cons]
    have := hv.tiles.length_le (by decide)
    have := freeTiles_length (l ++ ⟨bp, n, true⟩ :: m)
    omega

/-- **`free` gives the block `bp` back**: it is joined to the free blocks at its sides. -/
theorem free_run (hv : Valid base start s ts) (hbase : base < start) (hts : ts = l ++ ⟨bp, n, true⟩ :: m) :
    ∃ s' ts', free (bp + unit) s = ⟨.ok (), s', []⟩ ∧ Valid base start s' ts' ∧ s'.brk = s.brk ∧
      (∀ t, t.used = true → (t ∈ ts' ↔ t ∈ l ∨ t ∈ m)) ∧ ∃ t ∈ ts', t.used = false ∧ n ≤ t.size := by
  obtain ⟨L, p, h, hrest⟩ := hv.around hbase hts
  subst hts
  have hp := h.low p (by simp)
  have hplace := h.place hv
  have hnbp : (s.hdr bp).size = n := hv.size ⟨bp, n, true⟩ (by simp)
  obtain ⟨n', m', q, hjoin, hn', ha⟩ := joinNext_run (s := s) (p := p) h.after rfl
    (Nat.lt_of_lt_of_le (Nat.lt_of_le_of_lt hp.1 hp.2) (Nat.le_add_right _ _))
    (fun t ht => hv.size t (by simp [ht])) hnbp hrest (List.isChain_cons.1 hv.apart.right).2
  have hrun : free (bp + unit) s = ⟨.ok (), { joinPrev p bp (s.set bp ⟨q, n'⟩) with freep := p }, []⟩ := by
    unfold free
    rw [Nat.add_sub_cancel, Prog.get_bind_run, Prog.bind_run_nil hplace, Prog.modify_bind_run, Prog.modify_bind_run, hjoin]
    rfl
  have hself : (s.set bp ⟨q, n'⟩).hdr bp = ⟨q, n'⟩ := set_self s bp _
  have hpsame : (s.set bp ⟨q, n'⟩).hdr p = s.hdr p := set_other s _ (Nat.ne_of_lt hp.2)
  have hmem : ∀ t, t.used = true → (t ∈ m' ↔ t ∈ m) := fun t ht => ⟨fun h => ha.sub h, fun h => ha.used t h ht⟩
  have hseparate : p + unit * (s.hdr p).size ≠ bp → (∀ v ∈ l.getLast?, v.used = true) →
      ∃ s' ts', free (bp + unit) s = ⟨.ok (), s', []⟩ ∧ Valid base start s' ts' ∧ s'.brk = s.brk ∧
        (∀ t, t.used = true → (t ∈ ts' ↔ t ∈ l ∨ t ∈ m)) ∧ ∃ t ∈ ts', t.used = false ∧ n ≤ t.size := by
    intro hne hl
    refine ⟨_, _, ?_, h.separate hv ha hn' hl, rfl, fun t ht => ?_, ⟨bp, n', false⟩, by simp, rfl, hn'⟩
    · rw [hrun]
      unfold joinPrev
      rw [hpsame, if_neg hne]
      rfl
    · rw [List.mem_append, List.mem_cons, hmem t ht]
      refine or_congr_right (or_iff_right ?_)
      rintro rfl
      cases ht
  rcases List.eq_nil_or_concat l with rfl | ⟨l, ⟨x, j, u⟩, rfl⟩
  · refine hseparate ?_ fun v hv => by cases hv
    have hLp : [base] = L ++ [p] := h.places
    have hpb : p = base := by
      have := congrArg List.getLast? hLp
      simpa using this.symm
    rw [hpb, hv.zero]
    omega
  · rw [List.concat_eq_append] at h hv hseparate ⊢
    obtain ⟨c, hl, hc, hj, hend⟩ := Tiles.append.1 h.before
    cases hc
    dsimp only at hl hj hend
    have hend' : x + unit * j = bp := hend
    have hpl := h.places
    rw [freeTiles_append] at hpl
    cases u with
    | true =>
      refine hseparate (fun he => ?_) fun v hv => ?_
      · have hxj := Nat.mul_pos (show 0 < unit by decide) hj
        have hmem : p ∈ base :: freeTiles l := by
          rw [freeTiles_used, show freeTiles [] = [] from rfl, List.append_nil] at hpl
          rw [hpl]
          exact List.mem_append_right L (List.mem_singleton_self p)
        rcases List.mem_cons.1 hmem with rfl | hmem
        · rw [hv.zero] at he
          omega
        · obtain ⟨t, ht, -, rfl⟩ := Tiles.mem_free.1 hmem
          rw [hv.size t (by simp [ht])] at he
          have := (hl.bounds ht).2
          omega
      · rw [List.getLast?_concat] at hv
        cases hv
        rfl
    | false =>
      have hpl' : (base :: freeTiles l) ++ [x] = L ++ [p] := hpl
      obtain rfl : x = p := List.singleton_inj.1 (List.append_inj' hpl' rfl).2
      have hsz : (s.hdr x).size = j := hv.size ⟨x, j, false⟩ (by simp)
      refine ⟨_, _, ?_, h.joined hv ha, rfl, fun t ht => ?_, ⟨x, j + n', false⟩, by simp, rfl,
        Nat.le_trans hn' (Nat.le_add_left _ _)⟩
      · rw [hrun]
        unfold joinPrev
        rw [hpsame, hself, hsz, if_pos hend']
        rfl
      · have hfree : ∀ i, t ≠ ⟨x, i, false⟩ := by
          rintro i rfl
          cases ht
        rw [List.mem_append, List.mem_cons, List.mem_append, List.mem_singleton, hmem t ht, or_iff_right (hfree _),
          or_iff_left (hfree _)]

/-! ## A block is allocated -/

theorem Around.only (h : Around base start s l bp n m L p) (hrest : Seg s.next (s.next p) (bp :: freeTiles m) (some base))
    {x : Nat} (hx : x ∈ L ++ [p] ++ bp :: freeTiles m) (hnext : s.next x = some bp) : x = p := by
  have hlt := h.lt
  rcases List.mem_append.1 hx with hx | hx
  · rcases List.mem_append.1 hx with hx | hx
    · obtain ⟨z, hz, -, hzp⟩ := h.walk.next_lt (List.pairwise_append.1 h.sorted).1 hx
      have : z = bp := Option.some.inj (hz.symm.trans hnext)
      omega
    · exact List.mem_singleton.1 hx
  · obtain ⟨z, hz, he⟩ := hrest.next_mem hx
    have hzb : z = bp := Option.some.inj (he.symm.trans hnext)
    rcases List.mem_append.1 hz with hz | hz
    · have := h.high z hz
      omega
    · have := h.base_le
      have := List.mem_singleton.1 hz
      omega

theorem Around.unlink {j x : Nat} (h : Around base start s l bp j m L x)
    (hrest : Seg s.next (s.next x) (bp :: freeTiles m) (some base)) (hv : Valid base start s (l ++ ⟨bp, j, false⟩ :: m)) :
    Valid base start { s.set x ⟨(s.hdr bp).ptr, (s.hdr x).size⟩ with freep := x } (l ++ ⟨bp, j, true⟩ :: m) := by
  have hlt := h.lt
  have hx := set_self s x ⟨(s.hdr bp).ptr, (s.hdr x).size⟩
  have hother : ∀ y, y ≠ x → (s.set x ⟨(s.hdr bp).ptr, (s.hdr x).size⟩).hdr y = s.hdr y := fun y hy => set_other s _ hy
  have hsize : ∀ y, ((s.set x ⟨(s.hdr bp).ptr, (s.hdr x).size⟩).hdr y).size = (s.hdr y).size := by
    intro y
    by_cases hy : y = x
    · rw [hy, hx]
    · rw [hother y hy]
  have hplaces : base :: freeTiles (l ++ ⟨bp, j, true⟩ :: m) = L ++ [x] ++ freeTiles m := by
    rw [freeTiles_append, freeTiles_used, ← List.cons_append, h.places]
  refine ⟨?_, fun t ht => ?_, hv.apart.left.mid_used hv.apart.right.tail rfl, ?_, ?_, ?_⟩
  · exact Tiles.append.2 ⟨bp, h.before, rfl, h.pos, h.after⟩
  · dsimp only
    rw [hsize]
    rcases List.mem_append.1 ht with ht | ht
    · exact hv.size t (List.mem_append_left _ ht)
    · rcases List.mem_cons.1 ht with rfl | ht
      · exact hv.size ⟨bp, j, false⟩ (by simp)
      · exact hv.size t (by simp [ht])
  · rw [hplaces]
    refine h.relink (r := s.next bp) (fun y hy _ => hother y hy) ((congrArg (fun y : Header => some y.ptr) hx).trans rfl) ?_
    refine hrest.2.congr fun y hy => congrArg (fun y : Header => some y.ptr) (hother y ?_)
    have := h.high y hy
    omega
  · exact (hsize base).trans hv.zero
  · rw [hplaces]
    exact List.mem_append_left _ (List.mem_append_right _ (List.mem_singleton_self x))

theorem Around.split {i nunits x : Nat} {f : Header} (h : Around base start s l bp (i + nunits) m L x) (hi : 0 < i)
    (hpos : 0 < nunits) (hf : f.size = nunits) (hv : Valid base start s (l ++ ⟨bp, i + nunits, false⟩ :: m)) :
    Valid base start { (s.set bp ⟨(s.hdr bp).ptr, i⟩).set (bp + unit * i) f with freep := x }
      (l ++ ⟨bp, i, false⟩ :: ⟨bp + unit * i, nunits, true⟩ :: m) := by
  have hlt := h.lt
  have hup := Nat.mul_pos (show 0 < unit by decide) hi
  have hend : bp + unit * (i + nunits) = bp + unit * i + unit * nunits := by rw [Nat.mul_add, Nat.add_assoc]
  have hun := Nat.mul_pos (show 0 < unit by decide) hpos
  have hq := set_self (s.set bp ⟨(s.hdr bp).ptr, i⟩) (bp + unit * i) f
  have hbp : ((s.set bp ⟨(s.hdr bp).ptr, i⟩).set (bp + unit * i) f).hdr bp = ⟨(s.hdr bp).ptr, i⟩ :=
    (set_other _ f (by omega)).trans (set_self s bp _)
  have hother : ∀ y, y ≠ bp → y ≠ bp + unit * i →
      ((s.set bp ⟨(s.hdr bp).ptr, i⟩).set (bp + unit * i) f).hdr y = s.hdr y := fun y hy hyq =>
    (set_other _ f hyq).trans (set_other s _ hy)
  have hafter : ∀ t ∈ m, bp + unit * (i + nunits) ≤ t.addr := fun t ht => (h.after.bounds ht).1
  obtain ⟨hused, -⟩ := hv.apart.around rfl
  have hfree : freeTiles (l ++ ⟨bp, i, false⟩ :: ⟨bp + unit * i, nunits, true⟩ :: m) =
      freeTiles (l ++ ⟨bp, i + nunits, false⟩ :: m) := by
    rw [freeTiles_append, freeTiles_append]
    rfl
  refine ⟨?_, fun t ht => ?_, ?_, ?_, ?_, ?_⟩
  · refine Tiles.append.2 ⟨bp, h.before, rfl, hi, rfl, hpos, ?_⟩
    have hafter' := h.after
    rw [hend] at hafter'
    exact hafter'
  · dsimp only
    rcases List.mem_append.1 ht with ht | ht
    · have := h.before.lt (by decide) ht
      rw [hother _ (by omega) (by omega)]
      exact hv.size t (List.mem_append_left _ ht)
    · rcases List.mem_cons.1 ht with rfl | ht
      · dsimp only
        rw [hbp]
      · rcases List.mem_cons.1 ht with rfl | ht
        · dsimp only
          rw [hq, hf]
        · have := hafter t ht
          rw [hother _ (by omega) (by omega)]
          exact hv.size t (by simp [ht])
  · refine hv.apart.left.mid (List.isChain_cons.2 ⟨fun _ _ => .inl rfl, hv.apart.right.tail⟩) hused ?_
    rintro v ⟨⟩
    rfl
  · rw [hfree]
    refine hv.ring.congr fun y hy => ?_
    by_cases hyb : y = bp
    · rw [hyb]
      exact (congrArg (fun y : Header => some y.ptr) hbp).trans rfl
    · refine congrArg (fun y : Header => some y.ptr) (hother y hyb fun e => ?_)
      rcases List.mem_cons.1 hy with rfl | hy
      · have := h.base_le
        omega
      · obtain ⟨t, ht, -, rfl⟩ := Tiles.mem_free.1 hy
        rcases List.mem_append.1 ht with ht | ht
        · have := h.before.lt (by decide) ht
          omega
        · rcases List.mem_cons.1 ht with rfl | ht
          · exact hyb rfl
          · have := hafter t ht
            omega
  · have := h.base_le
    dsimp only
    rw [hother base (by omega) (by omega)]
    exact hv.zero
  · rw [hfree, freeTiles_append, ← List.cons_append, h.places]
    exact List.mem_append_left _ (List.mem_append_right _ (List.mem_singleton_self x))

theorem take_run {j nunits x : Nat} (hv : Valid base start s ts) (hbase : base < start) (hts : ts = l ++ ⟨bp, j, false⟩ :: m)
    (hx : x ∈ base :: freeTiles ts) (hnext : s.next x = some bp) (hpos : 0 < nunits) (hj : nunits ≤ j) :
    ∃ a s' ts', take nunits x bp s = ⟨.ok (a + unit), s', []⟩ ∧ Valid base start s' ts' ∧ s'.brk = s.brk ∧
      ∀ t : Tile, t.used = true → (t ∈ ts' ↔ t ∈ ts ∨ t = ⟨a, nunits, true⟩) := by
  obtain ⟨L, p, h, hrest⟩ := hv.around hbase hts
  subst hts
  have hplaces : base :: freeTiles (l ++ ⟨bp, j, false⟩ :: m) = L ++ [p] ++ bp :: freeTiles m := by
    rw [freeTiles_append, freeTiles_free, ← List.cons_append, h.places]
  obtain rfl : x = p := h.only hrest (hplaces ▸ hx) hnext
  have hsize : (s.hdr bp).size = j := hv.size ⟨bp, j, false⟩ (by simp)
  have hold : ∀ t : Tile, t.used = true → ∀ i, t ≠ ⟨bp, i, false⟩ := by
    rintro t ht i rfl
    cases ht
  unfold take
  rw [Prog.read_bind_run, hsize]
  by_cases he : j = nunits
  · subst he
    rw [if_pos rfl, Prog.modify_bind_run, Prog.modify_bind_run]
    refine ⟨bp, _, l ++ ⟨bp, j, true⟩ :: m, rfl, ?_, rfl, fun t ht => ?_⟩
    · exact h.unlink hrest hv
    · rw [List.mem_append, List.mem_cons, List.mem_append, List.mem_cons, or_iff_right (hold t ht j)]
      tauto
  · obtain ⟨i, rfl⟩ : ∃ i, j = i + nunits := ⟨j - nunits, by omega⟩
    rw [if_neg he, Nat.add_sub_cancel, Prog.modify_bind_run, Prog.modify_bind_run, Prog.modify_bind_run]
    refine ⟨bp + unit * i, _, l ++ ⟨bp, i, false⟩ :: ⟨bp + unit * i, nunits, true⟩ :: m, rfl, ?_, rfl, fun t ht => ?_⟩
    · exact h.split (by omega) hpos rfl hv
    · rw [List.mem_append, List.mem_cons, List.mem_cons, List.mem_append, List.mem_cons, or_iff_right (hold t ht _),
        or_iff_right (hold t ht _)]
      tauto

/-! ## The search -/

variable (grant : Nat → Bool) {nunits prev : Nat}

theorem search_take (h : nunits ≤ (s.hdr p).size) : search grant nunits (k + 1) prev p s = take nunits prev p s := by
  unfold search
  rw [Prog.read_bind_run, if_pos h]

theorem search_next (h : (s.hdr p).size < nunits) (hne : p ≠ s.freep) :
    search grant nunits (k + 1) prev p s = search grant nunits k p (s.hdr p).ptr s := by
  conv_lhs => unfold search
  rw [Prog.read_bind_run, if_neg (Nat.not_le_of_lt h), Prog.read_bind_run, if_neg hne]

theorem search_more (h : (s.hdr s.freep).size < nunits) : search grant nunits (k + 1) prev s.freep s =
    (morecore grant nunits >>= fun p => if p = 0 then pure 0 else
      Prog.read (fun s => s.hdr p) >>= fun h => search grant nunits k p h.ptr) s := by
  conv_lhs => unfold search
  rw [Prog.read_bind_run, if_neg (Nat.not_le_of_lt h), Prog.read_bind_run, if_pos rfl]

theorem search_found {R : List Nat} {q : Option Nat} : ∀ (l : List Nat) (prev p : Nat),
    Seg s.next (some p) (l ++ [s.freep]) q → s.freep ∉ l → s.next prev = some p → prev ∈ R → (∀ y ∈ l, y ∈ R) →
    (∃ y ∈ l ++ [s.freep], nunits ≤ (s.hdr y).size) → ∃ x y, x ∈ R ∧ s.next x = some y ∧ y ∈ l ++ [s.freep] ∧
      nunits ≤ (s.hdr y).size ∧ search grant nunits (l.length + 1 + k) prev p s = take nunits x y s
  | [], prev, p, h, _, hprev, hR, _, hex => by
    obtain rfl : p = s.freep := Option.some.inj h.1
    obtain ⟨y, hy, hsize⟩ := hex
    rw [List.mem_singleton.1 hy] at hsize
    refine ⟨prev, s.freep, hR, hprev, List.mem_singleton_self _, hsize, ?_⟩
    rw [List.length_nil, Nat.add_right_comm]
    exact search_take grant hsize
  | z :: l, prev, p, h, hno, hprev, hR, hl, hex => by
    obtain rfl : p = z := Option.some.inj h.1
    rw [List.length_cons, Nat.add_right_comm (l.length + 1)]
    by_cases hsize : nunits ≤ (s.hdr p).size
    · exact ⟨prev, p, hR, hprev, List.mem_cons_self, hsize, search_take grant hsize⟩
    · have hne : p ≠ s.freep := fun e => hno (e ▸ List.mem_cons_self)
      have hex' : ∃ y ∈ l ++ [s.freep], nunits ≤ (s.hdr y).size := by
        obtain ⟨y, hy, hys⟩ := hex
        refine ⟨y, (List.mem_cons.1 hy).resolve_left ?_, hys⟩
        rintro rfl
        exact hsize hys
      obtain ⟨x, y, hx, hnext, hy, hys, hrun⟩ := search_found l p (s.hdr p).ptr h.2
        (fun hm => hno (List.mem_cons_of_mem p hm))
        rfl (hl p List.mem_cons_self) (fun y hy => hl y (List.mem_cons_of_mem p hy)) hex'
      refine ⟨x, y, hx, hnext, List.mem_cons_of_mem p hy, hys, ?_⟩
      rw [search_next grant (Nat.lt_of_not_le hsize) hne]
      exact hrun

theorem search_round {q : Option Nat} : ∀ (l : List Nat) (prev p : Nat), Seg s.next (some p) (l ++ [s.freep]) q →
    s.freep ∉ l → (∀ y ∈ l ++ [s.freep], (s.hdr y).size < nunits) →
    ∃ x, search grant nunits (l.length + 1 + k) prev p s = search grant nunits (k + 1) x s.freep s
  | [], prev, p, h, _, _ => by
    obtain rfl : p = s.freep := Option.some.inj h.1
    refine ⟨prev, ?_⟩
    rw [List.length_nil, Nat.zero_add, Nat.add_comm]
  | z :: l, prev, p, h, hno, hall => by
    obtain rfl : p = z := Option.some.inj h.1
    have hne : p ≠ s.freep := fun e => hno (e ▸ List.mem_cons_self)
    obtain ⟨x, hx⟩ := search_round l p (s.hdr p).ptr h.2 (fun hm => hno (List.mem_cons_of_mem p hm)) fun y hy =>
      hall y (List.mem_cons_of_mem p hy)
    refine ⟨x, ?_⟩
    rw [List.length_cons, Nat.add_right_comm (l.length + 1), search_next grant (hall p List.mem_cons_self) hne]
    exact hx

theorem Valid.round (hv : Valid base start s ts) (hbase : base < start) : ∃ l, Seg s.next (s.next s.freep) (l ++ [s.freep])
    (s.next s.freep) ∧ s.freep ∉ l ∧ (∀ y, y ∈ l ++ [s.freep] ↔ y ∈ base :: freeTiles ts) ∧ l.length ≤ s.brk := by
  obtain ⟨A, B, hAB⟩ := List.append_of_mem hv.freep
  have hring := hv.ring
  have hall : (base :: freeTiles ts).Pairwise (· < ·) := by
    refine .cons (fun x hx => ?_) (hv.tiles.free_sorted (by decide))
    exact Nat.lt_of_lt_of_le hbase (hv.tiles.free_bounds (by decide) hx).1
  have hnd : (base :: freeTiles ts).Nodup := hall.imp Nat.ne_of_lt
  have hlen : (base :: freeTiles ts).length ≤ s.brk + 1 := by
    have := hv.tiles.length_le (by decide)
    have := freeTiles_length ts
    rw [List.length_cons]
    omega
  rw [hAB] at hring hnd hlen
  obtain ⟨_, hA, rfl, hB⟩ := Seg.append.1 hring
  rw [List.nodup_append] at hnd
  refine ⟨B ++ A, ?_, fun hm => ?_, fun y => ?_, ?_⟩
  · exact Seg.append.2 ⟨some s.freep, Seg.append.2 ⟨some base, hB, hA⟩, rfl, rfl⟩
  · rcases List.mem_append.1 hm with hm | hm
    · exact (List.nodup_cons.1 hnd.2.1).1 hm
    · exact hnd.2.2 _ hm _ List.mem_cons_self rfl
  · rw [hAB]
    simp only [List.mem_append, List.mem_cons, List.not_mem_nil, or_false]
    tauto
  · rw [List.length_append, List.length_cons] at hlen
    rw [List.length_append]
    omega

theorem Valid.tile (hv : Valid base start s ts) {y : Nat} (hy : y ∈ base :: freeTiles ts) (hpos : 0 < nunits)
    (hsize : nunits ≤ (s.hdr y).size) : ∃ l m, ts = l ++ ⟨y, (s.hdr y).size, false⟩ :: m := by
  rcases List.mem_cons.1 hy with rfl | hy
  · rw [hv.zero] at hsize
    omega
  · obtain ⟨t, ht, hu, rfl⟩ := Tiles.mem_free.1 hy
    obtain ⟨l, m, rfl⟩ := List.append_of_mem ht
    refine ⟨l, m, ?_⟩
    rw [hv.size t ht, ← hu]

theorem search_run (hv : Valid base start s ts) (hbase : base < start) (hpos : 0 < nunits)
    (hex : ∃ y ∈ base :: freeTiles ts, nunits ≤ (s.hdr y).size) (hk : s.brk + 1 ≤ k) : ∃ a s' ts',
    search grant nunits k s.freep (s.hdr s.freep).ptr s = ⟨.ok (a + unit), s', []⟩ ∧ Valid base start s' ts' ∧
      s'.brk = s.brk ∧ ∀ t : Tile, t.used = true → (t ∈ ts' ↔ t ∈ ts ∨ t = ⟨a, nunits, true⟩) := by
  obtain ⟨l, hseg, hno, hmem, hlen⟩ := hv.round hbase
  obtain ⟨i, rfl⟩ : ∃ i, k = l.length + 1 + i := ⟨k - (l.length + 1), by omega⟩
  obtain ⟨y, hy, hys⟩ := hex
  obtain ⟨x, y, hx, hnext, hy, hys, hrun⟩ := search_found grant (k := i) (R := base :: freeTiles ts) l s.freep _
    hseg hno rfl hv.freep (fun y hy => (hmem y).1 (List.mem_append_left _ hy)) ⟨y, (hmem y).2 hy, hys⟩
  obtain ⟨l', m', hts⟩ := hv.tile ((hmem y).1 hy) hpos hys
  rw [hrun]
  exact take_run hv hbase hts hx hnext hpos hys

theorem Valid.grown (hv : Valid base start s ts) (hbase : base < start) (hn : 0 < n) :
    Valid base start ({ s with brk := s.brk + unit * n }.set s.brk ⟨(s.hdr s.brk).ptr, n⟩) (ts ++ [⟨s.brk, n, true⟩]) := by
  have hlow : ∀ y ∈ base :: freeTiles ts, y < s.brk := by
    have hle := hv.tiles.le
    intro y hy
    rcases List.mem_cons.1 hy with rfl | hy
    · omega
    · exact (hv.tiles.free_bounds (by decide) hy).2
  have hself := set_self { s with brk := s.brk + unit * n } s.brk ⟨(s.hdr s.brk).ptr, n⟩
  have hother : ∀ y, y < s.brk → ({ s with brk := s.brk + unit * n }.set s.brk ⟨(s.hdr s.brk).ptr, n⟩).hdr y = s.hdr y :=
    fun y hy => set_other _ _ (Nat.ne_of_lt hy)
  have hfree : freeTiles (ts ++ [⟨s.brk, n, true⟩]) = freeTiles ts := by
    rw [freeTiles_append]
    exact List.append_nil _
  refine ⟨Tiles.append.2 ⟨s.brk, hv.tiles, rfl, hn, rfl⟩, fun t ht => ?_, hv.apart.mid_used List.isChain_nil rfl, ?_, ?_, ?_⟩
  · rcases List.mem_append.1 ht with ht | ht
    · rw [hother _ (hv.tiles.lt (by decide) ht)]
      exact hv.size t ht
    · rw [List.mem_singleton.1 ht, hself]
  · rw [hfree]
    exact hv.ring.congr fun y hy => congrArg (fun y : Header => some y.ptr) (hother y (hlow y hy))
  · rw [hother base (hlow base List.mem_cons_self)]
    exact hv.zero
  · rw [hfree]
    exact hv.freep

/-- `sbrk` is granted the memory that `morecore` asks for. -/
def Granted (nu : Nat) (s : Heap) : Prop := grant s.brk = true ∧ s.brk + unit * max nu 4096 ≤ kernbase

/-- **`morecore` adds a free block of at least `nu` units**, or there is no memory and nothing happens. -/
theorem morecore_run (hv : Valid base start s ts) (hbase : base < start) {nu : Nat} (hnu : nu ≤ 2 ^ 28) :
    ¬ Granted grant nu s ∧ morecore grant nu s = ⟨.ok 0, s, []⟩ ∨ Granted grant nu s ∧
      ∃ s' ts', morecore grant nu s = ⟨.ok s'.freep, s', []⟩ ∧
        Valid base start s' ts' ∧ s.brk ≤ s'.brk ∧ s'.brk ≤ s.brk + unit * (nu + 4096) ∧ s'.brk ≤ kernbase ∧
        (∀ t : Tile, t.used = true → (t ∈ ts' ↔ t ∈ ts)) ∧ ∃ y ∈ base :: freeTiles ts', nu ≤ (s'.hdr y).size := by
  obtain ⟨n, hn⟩ : ∃ n, n = if nu < 4096 then 4096 else nu := ⟨_, rfl⟩
  have hmax : max nu 4096 = n := by
    rw [hn]
    split_ifs
    · omega
    · omega
  have hbounds : nu ≤ n ∧ 0 < n ∧ n ≤ nu + 4096 ∧ n ≤ 2 ^ 28 := by omega
  unfold Granted
  rw [hmax]
  have hmod : n * unit % 2 ^ 32 = unit * n := by
    rw [Nat.mul_comm]
    exact Nat.mod_eq_of_lt (by unfold unit; omega)
  unfold morecore
  rw [← hn, hmod]
  by_cases hg : grant s.brk = true ∧ s.brk + unit * n ≤ kernbase
  · have hsbrk : sbrk grant (unit * n) s = ⟨.ok (some s.brk), { s with brk := s.brk + unit * n }, []⟩ := by
      unfold sbrk
      rw [Prog.get_bind_run, if_pos hg]
      rfl
    rw [Prog.bind_run_nil hsbrk]
    dsimp only
    rw [Prog.modify_bind_run]
    obtain ⟨s', ts', hrun, hv', hbrk, hused, t, ht, htu, htn⟩ := free_run (hv.grown hbase hbounds.2.1) hbase rfl
    have hbrk' : s'.brk = s.brk + unit * n := hbrk
    have hun : unit * n ≤ unit * (nu + 4096) := Nat.mul_le_mul_left _ hbounds.2.2.1
    refine .inr ⟨hg, s', ts', ?_, hv', by omega, by omega, by omega, fun v hv => ?_, t.addr, ?_, ?_⟩
    · rw [Prog.bind_run_nil hrun]
      rfl
    · rw [hused v hv]
      exact or_iff_left List.not_mem_nil
    · exact List.mem_cons_of_mem _ (Tiles.mem_free.2 ⟨t, ht, htu, rfl⟩)
    · rw [hv'.size t ht]
      exact Nat.le_trans hbounds.1 htn
  · refine .inl ⟨hg, ?_⟩
    have hsbrk : sbrk grant (unit * n) s = ⟨.ok none, s, []⟩ := by
      unfold sbrk
      rw [Prog.get_bind_run, if_neg hg]
      rfl
    rw [Prog.bind_run_nil hsbrk]
    rfl

theorem units_le {nbytes : Nat} (h : nbytes < 2 ^ 30) : 0 < units nbytes ∧ units nbytes ≤ 2 ^ 28 ∧
    nbytes ≤ unit * (units nbytes - 1) := by
  unfold units unit
  omega

/-- No block of the list has `nunits` units, and no memory is granted. -/
def Refused (base : Nat) (nunits : Nat) (s : Heap) (ts : List Tile) : Prop :=
  (∀ y ∈ base :: freeTiles ts, (s.hdr y).size < nunits) ∧ ¬ Granted grant nunits s

/-- **`malloc` gives out a block of its own**, or there is no memory for it and nothing happens. -/
theorem malloc_run (hv : Valid base start s ts) (hpos : 0 < base) (hbase : base < start) (hbrk : s.brk ≤ kernbase)
    {nbytes : Nat} (hunits : units nbytes ≤ 2 ^ 28) : ∃ r s' ts', malloc base grant nbytes s = ⟨.ok r, s', []⟩ ∧
      Valid base start s' ts' ∧ s.brk ≤ s'.brk ∧ s'.brk ≤ kernbase ∧
      (r = 0 ∧ s' = s ∧ ts' = ts ∧ Refused grant base (units nbytes) s ts ∨ ∃ a, r = a + unit ∧
        ¬ Refused grant base (units nbytes) s ts ∧ ∀ t : Tile, t.used = true →
          (t ∈ ts' ↔ t ∈ ts ∨ t = ⟨a, units nbytes, true⟩)) := by
  have hun : 0 < units nbytes := Nat.succ_pos _
  have hfreep : ∀ {s' : Heap} {ts' : List Tile}, Valid base start s' ts' → s'.freep ≠ 0 := by
    intro s' ts' hv'
    rcases List.mem_cons.1 hv'.freep with h | h
    · omega
    · have := (hv'.tiles.free_bounds (by decide) h).1
      omega
  unfold malloc
  rw [Prog.get_bind_run, Prog.when_neg (hfreep hv), Prog.pure_bind_run, Prog.get_bind_run]
  have hturns : turns s (units nbytes) = 2 * (s.brk + unit * (units nbytes + 4096)) + 4 := rfl
  by_cases hex : ∃ y ∈ base :: freeTiles ts, units nbytes ≤ (s.hdr y).size
  · obtain ⟨a, s', ts', hrun, hv', hbrk', hused⟩ := search_run grant (k := turns s (units nbytes)) hv hbase hun hex
      (by omega)
    refine ⟨a + unit, s', ts', hrun, hv', hbrk'.ge, hbrk' ▸ hbrk, .inr ⟨a, rfl, fun href => ?_, hused⟩⟩
    obtain ⟨y, hy, hsize⟩ := hex
    exact Nat.not_lt_of_le hsize (href.1 y hy)
  · obtain ⟨l, hseg, hno, hmem, hlen⟩ := hv.round hbase
    have hall : ∀ y ∈ l ++ [s.freep], (s.hdr y).size < units nbytes := fun y hy =>
      Nat.lt_of_not_le fun h => hex ⟨y, (hmem y).1 hy, h⟩
    obtain ⟨i, hi⟩ : ∃ i, turns s (units nbytes) = l.length + 1 + i := ⟨turns s (units nbytes) - (l.length + 1), by omega⟩
    obtain ⟨x, hx⟩ := search_round grant (k := i) l s.freep _ hseg hno hall
    rw [hi, hx, search_more grant (hall _ (List.mem_append_right _ List.mem_cons_self))]
    rcases morecore_run grant hv hbase hunits with ⟨hg, hmore⟩ | ⟨hg, s', ts', hmore, hv', hle, hle', hkern, hused, hex'⟩
    · rw [Prog.bind_run_nil hmore, if_pos rfl]
      exact ⟨0, s, ts, rfl, hv, Nat.le_refl _, hbrk, .inl ⟨rfl, rfl, rfl, fun y hy => hall y ((hmem y).2 hy), hg⟩⟩
    · rw [Prog.bind_run_nil hmore, if_neg (hfreep hv'), Prog.read_bind_run]
      obtain ⟨a, s₂, ts₂, hrun, hv₂, hbrk₂, hused₂⟩ := search_run grant (k := i) hv' hbase hun hex' (by omega)
      refine ⟨a + unit, s₂, ts₂, hrun, hv₂, hbrk₂ ▸ hle, hbrk₂ ▸ hkern, .inr ⟨a, rfl, fun href => href.2 hg, fun t ht => ?_⟩⟩
      rw [hused₂ t ht, hused t ht]

theorem first_valid (hbrk : s.brk = start) : Valid base start { s.set base ⟨base, 0⟩ with freep := base } [] := by
  have hself : { s.set base ⟨base, 0⟩ with freep := base }.hdr base = ⟨base, 0⟩ := set_self s base _
  exact ⟨hbrk.symm, fun _ h => absurd h List.not_mem_nil, List.isChain_nil,
    ⟨rfl, congrArg (fun y : Header => some y.ptr) hself⟩, congrArg Header.size hself, List.mem_cons_self⟩

theorem malloc_first (hfreep : s.freep = 0) (nbytes : Nat) (hbase : 0 < base) : malloc base grant nbytes s =
    malloc base grant nbytes { s.set base ⟨base, 0⟩ with freep := base } := by
  have hne : { s.set base ⟨base, 0⟩ with freep := base }.freep ≠ 0 := Nat.ne_of_gt hbase
  unfold malloc
  rw [Prog.get_bind_run, Prog.get_bind_run, Prog.when_pos hfreep, Prog.when_neg hne, Prog.modify_bind_run,
    Prog.pure_bind_run]
  rfl

/-! ## Runs -/

structure Inv (base start : Nat) (s : Sys) (ts : List Tile) : Prop where
  heap  : Valid base start s.heap ts ∨ s.heap.freep = 0 ∧ s.heap.brk = start ∧ ts = []
  brk   : s.heap.brk ≤ kernbase
  out   : ∀ ap n, s.out ap = some n → n < 2 ^ 30 ∧ ∃ t ∈ ts, t.used = true ∧ t.addr + unit = ap ∧ t.size = units n
  used  : ∀ t ∈ ts, t.used = true → s.out (t.addr + unit) ≠ none

def Act.Small : Act → Prop
  | .malloc n _ => n < 2 ^ 30
  | _           => True

variable {s : Sys}

theorem Inv.tiles (h : Inv base start s ts) : Tiles unit start ts s.heap.brk := by
  rcases h.heap with hv | ⟨-, hbrk, rfl⟩
  · exact hv.tiles
  · exact hbrk.symm

theorem Inv.step_malloc (h : Inv base start s ts) (hpos : 0 < base) (hbase : base < start) {n : Nat} (hn : n < 2 ^ 30) :
    ∃ s' ts', s.step base (.malloc n grant) = .ok s' ∧ Inv base start s' ts' := by
  have hrun : ∃ r s' ts', malloc base grant n s.heap = ⟨.ok r, s', []⟩ ∧ Valid base start s' ts' ∧ s'.brk ≤ kernbase ∧
      (r = 0 ∧ (∀ t : Tile, t.used = true → (t ∈ ts' ↔ t ∈ ts)) ∨
        ∃ a, r = a + unit ∧ ∀ t : Tile, t.used = true → (t ∈ ts' ↔ t ∈ ts ∨ t = ⟨a, units n, true⟩)) := by
    have hlist : ∃ s₀, malloc base grant n s.heap = malloc base grant n s₀ ∧ Valid base start s₀ ts ∧ s₀.brk ≤ kernbase := by
      rcases h.heap with hv | ⟨hfreep, hbrk, rfl⟩
      · exact ⟨s.heap, rfl, hv, h.brk⟩
      · exact ⟨_, malloc_first grant hfreep n hpos, first_valid hbrk, h.brk⟩
    obtain ⟨s₀, he, hv, hk⟩ := hlist
    obtain ⟨r, s', ts', hr, hv', -, hk', hcase⟩ := malloc_run grant hv hpos hbase hk (units_le hn).2.1
    refine ⟨r, s', ts', he.trans hr, hv', hk', hcase.imp (fun ⟨h0, _, hts, _⟩ => ⟨h0, fun t _ => hts ▸ Iff.rfl⟩) ?_⟩
    exact fun ⟨a, ha, _, hused⟩ => ⟨a, ha, hused⟩
  obtain ⟨r, s', ts', hrun, hv, hbrk, hcase⟩ := hrun
  unfold Sys.step
  dsimp only
  rw [hrun]
  rcases hcase with ⟨rfl, hused⟩ | ⟨a, rfl, hused⟩
  · refine ⟨_, ts', rfl, .inl hv, hbrk, fun ap i hi => ?_, fun t ht htu => ?_⟩
    · obtain ⟨hi, t, ht, htu, hta⟩ := h.out ap i hi
      exact ⟨hi, t, (hused t htu).2 ht, htu, hta⟩
    · exact h.used t ((hused t htu).1 ht) htu
  · have hmem : (⟨a, units n, true⟩ : Tile) ∈ ts' := (hused _ rfl).2 (.inr rfl)
    dsimp only
    rw [if_neg (Nat.ne_of_gt (Nat.add_pos_right a (show 0 < unit by decide)))]
    refine ⟨_, ts', rfl, .inl hv, hbrk, fun ap i hi => ?_, fun t ht htu => ?_⟩
    · change (if ap = a + unit then some n else s.out ap) = some i at hi
      split_ifs at hi with hap
      · cases hi
        exact ⟨hn, _, hmem, rfl, hap.symm, rfl⟩
      · obtain ⟨hi, t, ht, htu, hta⟩ := h.out ap i hi
        exact ⟨hi, t, (hused t htu).2 (.inl ht), htu, hta⟩
    · change (if t.addr + unit = a + unit then some n else s.out (t.addr + unit)) ≠ none
      split_ifs with ha
      · exact Option.some_ne_none n
      · refine h.used t (((hused t htu).1 ht).resolve_right ?_) htu
        rintro rfl
        exact ha rfl

theorem Inv.step_free (h : Inv base start s ts) (hbase : base < start) (ap : Nat) :
    ∃ s' ts', s.step base (.free ap) = .ok s' ∧ Inv base start s' ts' := by
  unfold Sys.step
  dsimp only
  by_cases hout : s.out ap = none
  · rw [if_pos hout]
    exact ⟨s, ts, rfl, h⟩
  obtain ⟨n, hn⟩ := Option.ne_none_iff_exists'.1 hout
  obtain ⟨-, ⟨a, j, u⟩, ht, hu, rfl, -⟩ := h.out ap n hn
  dsimp only at hu
  subst hu
  have hv := h.heap.resolve_right fun ⟨_, _, hnil⟩ => by
    rw [hnil] at ht
    cases ht
  obtain ⟨l, m, rfl⟩ := List.append_of_mem ht
  obtain ⟨s', ts', hrun, hv', hbrk, hused, -⟩ := free_run hv hbase rfl
  rw [if_neg hout, hrun]
  have hdiff : ∀ t ∈ l ++ ⟨a, j, true⟩ :: m, t.addr = a → t = ⟨a, j, true⟩ := fun t ht' he =>
    hv.tiles.eq_of_addr (by decide) ht' ht he
  have hrest : ∀ t : Tile, t ∈ l ∨ t ∈ m → t.addr ≠ a := by
    intro t ht' he
    obtain ⟨c, hl, hc, hp, hm⟩ := Tiles.append.1 hv.tiles
    have hup := Nat.mul_pos (show 0 < unit by decide) hp
    dsimp only at hc hup hm
    rcases ht' with ht' | ht'
    · have := hl.lt (by decide) ht'
      omega
    · have := (hm.bounds ht').1
      omega
  refine ⟨_, ts', rfl, .inl hv', hbrk ▸ h.brk, fun ap i hi => ?_, fun t ht' htu => ?_⟩
  · change (if ap = a + unit then none else s.out ap) = some i at hi
    split_ifs at hi with hap
    obtain ⟨hi, t, ht', htu, hta, hts⟩ := h.out ap i hi
    refine ⟨hi, t, (hused t htu).2 ?_, htu, hta, hts⟩
    rcases List.mem_append.1 ht' with hl | hm
    · exact .inl hl
    · refine .inr ((List.mem_cons.1 hm).resolve_left ?_)
      rintro rfl
      exact hap hta.symm
  · have hmem := (hused t htu).1 ht'
    change (if t.addr + unit = a + unit then none else s.out (t.addr + unit)) ≠ none
    rw [if_neg fun e => hrest t hmem (Nat.add_right_cancel e)]
    refine h.used t ?_ htu
    rcases hmem with hl | hm
    · exact List.mem_append_left _ hl
    · exact List.mem_append_right _ (List.mem_cons_of_mem _ hm)

theorem Inv.step_write (h : Inv base start s ts) (hbase : base < start) (ap : Nat) (f : Nat → Header) :
    ∃ s' ts', s.step base (.write ap f) = .ok s' ∧ Inv base start s' ts' := by
  unfold Sys.step
  dsimp only
  by_cases hout : s.out ap = none
  · rw [if_pos hout]
    exact ⟨s, ts, rfl, h⟩
  obtain ⟨n, hn⟩ := Option.ne_none_iff_exists'.1 hout
  obtain ⟨-, t, ht, hu, rfl, -⟩ := h.out ap n hn
  have hv := h.heap.resolve_right fun ⟨_, _, hnil⟩ => by
    rw [hnil] at ht
    cases ht
  rw [if_neg hout, Nat.add_sub_cancel, hv.size t ht]
  have hsame : ∀ x, (x = base ∨ ∃ v ∈ ts, v.addr = x) →
      (if t.addr + unit ≤ x ∧ x < t.addr + unit * t.size then f x else s.heap.hdr x) = s.heap.hdr x := by
    intro x hx
    refine if_neg fun ⟨hle, hlt⟩ => ?_
    rcases hx with rfl | ⟨v, hvm, rfl⟩
    · have := (hv.tiles.bounds ht).1
      omega
    · have hunit : 0 < unit := by decide
      have hne : t ≠ v := by
        rintro rfl
        omega
      have hvp := Nat.mul_pos (show 0 < unit by decide) (hv.tiles.pos hvm)
      rcases hv.tiles.disjoint ht hvm hne with hd | hd
      · omega
      · omega
  refine ⟨_, ts, rfl, .inl ⟨hv.tiles, fun v hvm => ?_, hv.apart, ?_, ?_, hv.freep⟩, h.brk, h.out, h.used⟩
  · exact (congrArg Header.size (hsame v.addr (.inr ⟨v, hvm, rfl⟩))).trans (hv.size v hvm)
  · refine hv.ring.congr fun x hx => congrArg (fun y : Header => some y.ptr) (hsame x ?_)
    refine (List.mem_cons.1 hx).imp_right fun hx => ?_
    obtain ⟨v, hvm, -, he⟩ := Tiles.mem_free.1 hx
    exact ⟨v, hvm, he⟩
  · exact (congrArg Header.size (hsame base (.inl rfl))).trans hv.zero

theorem Inv.run (hpos : 0 < base) (hbase : base < start) : ∀ (as : List Act) (s : Sys) (ts : List Tile),
    (∀ a ∈ as, a.Small) → Inv base start s ts → ∃ s' ts', s.run base as = .ok s' ∧ Inv base start s' ts'
  | [], s, ts, _, h => ⟨s, ts, rfl, h⟩
  | a :: as, s, ts, ha, h => by
    have hstep : ∃ s' ts', s.step base a = .ok s' ∧ Inv base start s' ts' := by
      cases a with
      | malloc n grant => exact h.step_malloc grant hpos hbase (ha _ List.mem_cons_self)
      | free ap => exact h.step_free hbase ap
      | write ap f => exact h.step_write hbase ap f
    obtain ⟨s', ts', hs, h'⟩ := hstep
    unfold Sys.run
    rw [hs]
    exact Inv.run hpos hbase as s' ts' (fun b hb => ha b (List.mem_cons_of_mem a hb)) h'

/-- The memory that `sbrk` has given is cut into blocks, without a gap or an overlap; those that are used are handed out
and large enough, and those that are free are no neighbours, and are the list in the order of their addresses. -/
structure Sound (base start : Nat) (s : Sys) (ts : List Tile) : Prop where
  tiles   : Tiles unit start ts s.heap.brk
  ordered : ts.Pairwise (fun t v => t.addr + unit * t.size ≤ v.addr)
  apart   : Apart ts
  ring    : s.heap.freep = 0 ∧ ts = [] ∨ Seg s.heap.next (some base) (base :: freeTiles ts) (some base) ∧
    (s.heap.hdr base).size = 0 ∧ ∀ t ∈ ts, (s.heap.hdr t.addr).size = t.size
  out     : ∀ ap n, s.out ap = some n → unit ∣ ap ∧ ∃ t ∈ ts, t.used = true ∧ t.addr + unit = ap ∧
    ap + n ≤ t.addr + unit * t.size
  used    : ∀ t ∈ ts, t.used = true → s.out (t.addr + unit) ≠ none

/-- **Every run of a program ends and leaves the memory in order.** -/
theorem malloc_sound (base start : Nat) (hdr : Nat → Header) (as : List Act) (hpos : 0 < base) (hbase : base < start)
    (hstart : unit ∣ start) (hkern : start ≤ kernbase) (hsmall : ∀ a ∈ as, a.Small) :
    ∃ s ts, (Sys.init start hdr).run base as = .ok s ∧ Sound base start s ts := by
  have hinit : Inv base start (Sys.init start hdr) [] := by
    refine ⟨.inr ⟨rfl, rfl, rfl⟩, hkern, fun _ _ h => (nomatch h), fun _ h => absurd h List.not_mem_nil⟩
  obtain ⟨s, ts, hrun, h⟩ := Inv.run hpos hbase as _ _ hsmall hinit
  have ht := h.tiles
  refine ⟨s, ts, hrun, ht, ht.pairwise, ?_, ?_, fun ap n hn => ?_, h.used⟩
  · rcases h.heap with hv | ⟨-, -, rfl⟩
    · exact hv.apart
    · exact List.isChain_nil
  · rcases h.heap with hv | ⟨hfreep, -, rfl⟩
    · exact .inr ⟨hv.ring, hv.zero, hv.size⟩
    · exact .inl ⟨hfreep, rfl⟩
  · obtain ⟨hlt, t, htm, hu, rfl, hsz⟩ := h.out ap n hn
    refine ⟨(Nat.dvd_add_left (Nat.dvd_refl unit)).2 (ht.dvd hstart t htm), t, htm, hu, rfl, ?_⟩
    obtain ⟨hupos, -, hle⟩ := units_le hlt
    rw [hsz]
    obtain ⟨i, hi⟩ : ∃ i, units n = i + 1 := ⟨units n - 1, by omega⟩
    rw [hi, Nat.add_sub_cancel] at hle
    rw [hi, Nat.mul_add]
    omega

/-- Two blocks are taken from the heap that starts at 16384, and the first is freed. -/
theorem malloc_sound_two : ∃ s ts, (Sys.init 16384 fun _ => ⟨0, 0⟩).run 4096
    [.malloc 10 fun _ => true, .malloc 100 fun _ => true, .free 49136] = .ok s ∧ Sound 4096 16384 s ts :=
  malloc_sound 4096 16384 _ _ (by decide) (by decide) (by decide) (by decide) fun a ha => by
    rcases List.mem_cons.1 ha with rfl | ha
    · exact (by decide : 10 < 2 ^ 30)
    · rcases List.mem_cons.1 ha with rfl | ha
      · exact (by decide : 100 < 2 ^ 30)
      · rw [List.mem_singleton.1 ha]
        trivial

/-- The blocks are the tails of what `sbrk` gave. -/
example : ((Sys.init 16384 fun _ => ⟨0, 0⟩).run 4096 [.malloc 10 fun _ => true, .malloc 100 fun _ => true]).toOption.map
    (fun s => (s.out 49136, s.out 49024, s.heap.freep, s.heap.brk)) = some (some 10, some 100, 4096, 49152) := by
  decide +kernel

end Malloc
end Xv6
