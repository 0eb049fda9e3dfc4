import Xv6.User.Malloc
/-!
# User.Umalloc — the allocator in 32 bits (umalloc.c, page-replacement)

`malloc` with the arithmetic of the machine, in a process whose size `sbrk` changes through `growproc`.  An access to a
header outside the pages of the process is a fault that kills it.  `Malloc` is the same allocator where nothing wraps around.
-/
namespace Xv6
namespace Umalloc

open Malloc (Header Heap Valid unit kernbase units turns)
open Prog (wp)

/-- The memory of a process; `heap.brk` is `curproc->sz`. -/
structure Proc where
  heap  : Heap
  pages : Nat → Bool

inductive Stop where
  /-- A page that the process does not have is accessed. -/
  | fault
  /-- A loop does not end. -/
  | stuck

abbrev U := Prog Stop Proc Empty

def wrap (n : Nat) : Nat := n % 2 ^ 32

/-- An unsigned number as an `int`. -/
def toInt (n : Nat) : Int := if n < 2 ^ 31 then n else n - 2 ^ 32

/-! ## The kernel -/

def pgRoundUp (a : Nat) : Nat := wrap (a + 4095) / 4096 * 4096

/-- The pages from `lo` up to `hi` come or go. -/
def Proc.setPages (s : Proc) (lo hi : Nat) (b : Bool) : Proc :=
  { s with pages := fun p => if lo ≤ p * 4096 ∧ p * 4096 < hi then b else s.pages p }

/-- `allocuvm`, where `grant` says whether the kernel has the memory; where it has not, the pages are given back. -/
def allocuvm (grant : Nat → Bool) (oldsz newsz : Nat) : U Nat := do
  if newsz ≥ kernbase then pure 0
  else if newsz < oldsz then pure oldsz
  else if grant oldsz then
    Prog.modify (·.setPages (pgRoundUp oldsz) newsz true)
    pure newsz
  else pure 0

def deallocuvm (oldsz newsz : Nat) : U Nat := do
  if newsz ≥ oldsz then pure oldsz
  else
    Prog.modify (·.setPages (pgRoundUp newsz) oldsz false)
    pure newsz

/-- `curproc->sz = sz`, and the return value 0. -/
def setSz (sz : Nat) : U Int := do
  Prog.modify fun s => { s with heap := { s.heap with brk := sz } }
  pure 0

def growproc (grant : Nat → Bool) (n : Int) : U Int := do
  let sz ← Prog.read (·.heap.brk)
  if n > 0 then
    let sz ← allocuvm grant sz ((sz + n) % 2 ^ 32).toNat
    if sz = 0 then pure (-1) else setSz sz
  else if n < 0 then
    let sz ← deallocuvm sz ((sz + n) % 2 ^ 32).toNat
    if sz = 0 then pure (-1) else setSz sz
  else setSz sz

/-- `sys_sbrk`. -/
def sbrk (grant : Nat → Bool) (n : Int) : U Int := do
  let addr ← Prog.read (·.heap.brk)
  if (← growproc grant n) < 0 then pure (-1) else pure addr

/-! ## umalloc.c -/

/-- The process has the page, or the two pages, of a header. -/
def Proc.has (s : Proc) (a : Nat) : Bool := s.pages (a / 4096) && s.pages ((a + 7) / 4096)

def load (a : Nat) : U Header := do
  if ← Prog.read (·.has a) then Prog.read fun s => s.heap.hdr a else Prog.stop .fault

def store (a : Nat) (h : Header) : U Unit := do
  if ← Prog.read (·.has a) then Prog.modify fun s => { s with heap := s.heap.set a h } else Prog.stop .fault

def setFreep (p : Nat) : U Unit := Prog.modify fun s => { s with heap := { s.heap with freep := p } }

/-- The loop of `free`, in at most `k` turns. -/
def place (bp : Nat) : Nat → Nat → U Nat
  | 0, _     => Prog.stop .stuck
  | k + 1, p => do
    let h ← load p
    if bp > p ∧ bp < h.ptr then pure p
    else if p ≥ h.ptr ∧ (bp > p ∨ bp < h.ptr) then pure p
    else place bp k h.ptr

def joinNext (p bp : Nat) : U Unit := do
  let b ← load bp
  let h ← load p
  if wrap (bp + unit * b.size) = h.ptr then
    let n ← load h.ptr
    store bp ⟨n.ptr, wrap (b.size + n.size)⟩
  else store bp ⟨h.ptr, b.size⟩

def joinPrev (p bp : Nat) : U Unit := do
  let h ← load p
  if wrap (p + unit * h.size) = bp then
    let b ← load bp
    store p ⟨b.ptr, wrap (h.size + b.size)⟩
  else store p ⟨bp, h.size⟩

def free (ap : Nat) : U Unit := do
  let s ← Prog.get
  let bp := wrap (ap + (2 ^ 32 - unit))
  let p ← place bp (s.heap.brk + 1) s.heap.freep
  joinNext p bp
  joinPrev p bp
  setFreep p

def morecore (grant : Nat → Bool) (nu : Nat) : U Nat := do
  let nu := if nu < 4096 then 4096 else nu
  let p ← sbrk grant (toInt (wrap (nu * unit)))
  if p = -1 then pure 0
  else
    let h ← load p.toNat
    store p.toNat ⟨h.ptr, nu⟩
    free (wrap (p.toNat + unit))
    Prog.read (·.heap.freep)

def take (nunits prevp p : Nat) : U Nat := do
  let h ← load p
  if h.size = nunits then
    let g ← load prevp
    store prevp ⟨h.ptr, g.size⟩
    setFreep prevp
    pure (wrap (p + unit))
  else
    store p ⟨h.ptr, h.size - nunits⟩
    let q := wrap (p + unit * (h.size - nunits))
    let g ← load q
    store q ⟨g.ptr, nunits⟩
    setFreep prevp
    pure (wrap (q + unit))

/-- The loop of `malloc`, in at most `k` turns. -/
def search (grant : Nat → Bool) (nunits : Nat) : Nat → Nat → Nat → U Nat
  | 0, _, _         => Prog.stop .stuck
  | k + 1, prevp, p => do
    let h ← load p
    if h.size ≥ nunits then take nunits prevp p
    else do
      let freep ← Prog.read (·.heap.freep)
      if p = freep then do
        let p ← morecore grant nunits
        if p = 0 then pure 0
        else do
          let h ← load p
          search grant nunits k p h.ptr
      else search grant nunits k p h.ptr

def malloc (base : Nat) (grant : Nat → Bool) (nbytes : Nat) : U Nat := do
  let s ← Prog.get
  Prog.when (s.heap.freep = 0) (do
    store base ⟨base, 0⟩
    setFreep base)
  let freep ← Prog.read (·.heap.freep)
  let h ← load freep
  search grant (units nbytes) (turns s.heap (units nbytes)) freep h.ptr

/-- The memory of the allocator is cut into the tiles, and all of it is in pages of the process. -/
structure Intact (base start : Nat) (ts : List Tile) (s : Proc) : Prop where
  valid : Valid base start s.heap ts
  below : s.heap.brk ≤ kernbase
  pages : ∀ a, base ≤ a ∧ a < base + unit ∨ start ≤ a ∧ a < s.heap.brk → s.pages (a / 4096) = true
  user  : ∀ p, s.pages p = true → p * 4096 < kernbase

structure Fresh (base start : Nat) (s : Proc) : Prop where
  freep : s.heap.freep = 0
  brk   : s.heap.brk = start
  below : start ≤ kernbase
  pages : ∀ a, base ≤ a ∧ a < base + unit → s.pages (a / 4096) = true
  user  : ∀ p, s.pages p = true → p * 4096 < kernbase

/-- What the call is to do: the process gets no smaller; `malloc` returns 0, with the blocks as they were, or a new block of
at least `nbytes` bytes. -/
def Right (base start : Nat) (ts : List Tile) (nbytes : Nat) (s : Proc) (o : Outcome Stop Proc Empty Nat) : Prop :=
  ∃ r, o.res = .ok r ∧ s.heap.brk ≤ o.st.heap.brk ∧
    (r = 0 ∧ Intact base start ts o.st ∨
      r ≠ 0 ∧ ∃ ts' t, Intact base start ts' o.st ∧ (∀ v : Tile, v.used = true → (v ∈ ts' ↔ v ∈ ts ∨ v = t)) ∧
        t.used = true ∧ t.addr + unit = r ∧ nbytes ≤ unit * (t.size - 1))

variable {base start bp p q k n r : Nat} {s t : Proc} {h : Heap} {ts l m : List Tile} {M : Nat → Bool} {x : Header}

/-! ## Accesses -/

theorem load_run (ha : s.has p = true) : load p s = ⟨.ok (s.heap.hdr p), s, []⟩ := by simp [load, ha]

theorem store_run (ha : s.has p = true) : store p x s = ⟨.ok (), { s with heap := s.heap.set p x }, []⟩ := by
  simp [store, ha]

def Backed (base start : Nat) (h : Heap) (M : Nat → Bool) : Prop :=
  ∀ a, base ≤ a ∧ a < base + unit ∨ start ≤ a ∧ a < h.brk → M (a / 4096) = true

theorem Backed.tile (hM : Backed base start h M) (hv : Valid base start h ts) {v : Tile} (hvt : v ∈ ts) (h' : Heap) :
    (Proc.mk h' M).has v.addr = true := by
  have hb := hv.tiles.bounds hvt
  have hpos := hv.tiles.pos hvt
  have h1 := hM v.addr (.inr (by unfold unit at hb; omega))
  have h2 := hM (v.addr + 7) (.inr (by unfold unit at hb; omega))
  simp [Proc.has, h1, h2]

theorem Backed.ring (hM : Backed base start h M) (hv : Valid base start h ts) (hp : p ∈ base :: freeTiles ts) (h' : Heap) :
    (Proc.mk h' M).has p = true := by
  rcases List.mem_cons.1 hp with rfl | hp
  · have h1 := hM p (.inl (by unfold unit; omega))
    have h2 := hM (p + 7) (.inl (by unfold unit; omega))
    simp [Proc.has, h1, h2]
  · obtain ⟨v, hvt, -, rfl⟩ := Tiles.mem_free.1 hp
    exact hM.tile hv hvt h'

theorem ring_closed (hv : Valid base start h ts) (hp : p ∈ base :: freeTiles ts) : (h.hdr p).ptr ∈ base :: freeTiles ts := by
  obtain ⟨z, hz, he⟩ := hv.ring.next_mem hp
  obtain rfl : (h.hdr p).ptr = z := Option.some.inj he
  rw [List.tail_cons] at hz
  rcases List.mem_append.1 hz with hz | hz
  · exact List.mem_cons_of_mem _ hz
  · exact List.mem_singleton.1 hz ▸ List.mem_cons_self

theorem ring_end (hv : Valid base start h ts) (hbase : base < start) (hp : p ∈ base :: freeTiles ts) :
    p + unit * (h.hdr p).size ≤ h.brk := by
  rcases List.mem_cons.1 hp with rfl | hp
  · rw [hv.zero]
    have := hv.tiles.le
    omega
  · obtain ⟨v, hvt, -, rfl⟩ := Tiles.mem_free.1 hp
    rw [hv.size v hvt]
    exact (hv.tiles.bounds hvt).2

theorem wrap_of_le (hn : n ≤ kernbase) : wrap n = n := Nat.mod_eq_of_lt (by unfold kernbase at hn; omega)

/-! ## Where nothing wraps around -/

theorem place_sim {R : List Nat} (hR : ∀ y ∈ R, (Proc.mk h M).has y = true ∧ (h.hdr y).ptr ∈ R) : ∀ (k p : Nat), p ∈ R →
    Malloc.place bp k p h = ⟨.ok q, h, []⟩ → place bp k p ⟨h, M⟩ = ⟨.ok q, ⟨h, M⟩, []⟩
  | 0, _, _, hrun     => by cases hrun
  | k + 1, p, hp, hrun => by
    obtain ⟨hhas, hptr⟩ := hR p hp
    unfold Malloc.place at hrun
    unfold place
    rw [Prog.read_bind_run] at hrun
    rw [Prog.bind_run_nil (load_run hhas)]
    dsimp only
    split
    · rename_i hc
      rw [if_pos hc] at hrun
      cases hrun
      rfl
    · rename_i hc
      rw [if_neg hc] at hrun
      split
      · rename_i hd
        rw [if_pos hd] at hrun
        cases hrun
        rfl
      · rename_i hd
        rw [if_neg hd] at hrun
        exact place_sim hR k _ hptr hrun

theorem joinNext_sim (hbp : (Proc.mk h M).has bp = true) (hp : (Proc.mk h M).has p = true)
    (hq : (Proc.mk h M).has (h.hdr p).ptr = true) (hend : bp + unit * (h.hdr bp).size ≤ kernbase)
    (hsize : (h.hdr bp).size + (h.hdr (h.hdr p).ptr).size ≤ kernbase) :
    joinNext p bp ⟨h, M⟩ = ⟨.ok (), ⟨Malloc.joinNext p bp h, M⟩, []⟩ := by
  unfold joinNext Malloc.joinNext
  rw [Prog.bind_run_nil (load_run hbp), Prog.bind_run_nil (load_run hp)]
  dsimp only
  rw [wrap_of_le hend]
  split
  · rw [Prog.bind_run_nil (load_run hq), store_run hbp]
    dsimp only
    rw [wrap_of_le hsize]
  · rw [store_run hbp]

theorem joinPrev_sim (hbp : (Proc.mk h M).has bp = true) (hp : (Proc.mk h M).has p = true)
    (hend : p + unit * (h.hdr p).size ≤ kernbase) (hsize : (h.hdr p).size + (h.hdr bp).size ≤ kernbase) :
    joinPrev p bp ⟨h, M⟩ = ⟨.ok (), ⟨Malloc.joinPrev p bp h, M⟩, []⟩ := by
  unfold joinPrev Malloc.joinPrev
  rw [Prog.bind_run_nil (load_run hp)]
  dsimp only
  rw [wrap_of_le hend]
  split
  · rw [Prog.bind_run_nil (load_run hbp), store_run hp]
    dsimp only
    rw [wrap_of_le hsize]
  · rw [store_run hp]

theorem free_sim (hv : Valid base start h ts) (hbase : base < start) (hbrk : h.brk ≤ kernbase) (hM : Backed base start h M)
    (hts : ts = l ++ ⟨bp, n, true⟩ :: m) {h' : Heap} (hrun : Malloc.free (bp + unit) h = ⟨.ok (), h', []⟩) :
    free (wrap (bp + unit)) ⟨h, M⟩ = ⟨.ok (), ⟨h', M⟩, []⟩ := by
  obtain ⟨L, p, ha, hrest⟩ := hv.around hbase hts
  subst hts
  have hmem : (⟨bp, n, true⟩ : Tile) ∈ l ++ ⟨bp, n, true⟩ :: m := by simp
  have hplace := ha.place hv
  have hpl := ha.low p (by simp)
  have hring : p ∈ base :: freeTiles (l ++ ⟨bp, n, true⟩ :: m) := by
    rw [freeTiles_append, ← List.cons_append, ha.places]
    simp
  have hhas : ∀ h' : Heap, (Proc.mk h' M).has bp = true ∧ (Proc.mk h' M).has p = true := fun h' =>
    ⟨hM.tile hv hmem h', hM.ring hv hring h'⟩
  have hsize : (h.hdr bp).size = n := hv.size _ hmem
  have hbounds := hv.tiles.bounds hmem
  dsimp only at hbounds
  have hnext := ring_closed hv hring
  have hq := ring_end hv hbase hnext
  have hpe := ring_end hv hbase hring
  -- the addresses and the sizes are small
  have hbp : wrap (wrap (bp + unit) + (2 ^ 32 - unit)) = bp := by
    unfold wrap
    unfold kernbase at hbrk
    unfold unit at hbounds ⊢
    omega
  obtain ⟨n', m', r, hjoin, -, hah⟩ := Malloc.joinNext_run (s := h) (p := p) ha.after rfl
    (Nat.lt_of_lt_of_le (Nat.lt_of_le_of_lt hpl.1 hpl.2) (Nat.le_add_right _ _)) (fun t ht => hv.size t (by simp [ht]))
    hsize hrest (List.isChain_cons.1 hv.apart.right).2
  have hend' := hah.tiles.le
  have hself : (h.set bp ⟨r, n'⟩).hdr bp = ⟨r, n'⟩ := Malloc.set_self h bp _
  have hpsame : (h.set bp ⟨r, n'⟩).hdr p = h.hdr p := Malloc.set_other h _ (Nat.ne_of_lt hpl.2)
  have hnextrun := joinNext_sim (M := M) (hhas h).1 (hhas h).2 (hM.ring hv hnext h) (by rw [hsize]; omega)
    (by unfold unit at hbounds hq; omega)
  have hprevrun := joinPrev_sim (h := Malloc.joinNext p bp h) (M := M) (hhas _).1 (hhas _).2
    (by rw [hjoin, hpsame]; omega) (by rw [hjoin, hpsame, hself]; unfold unit at hend' hpe; dsimp only; omega)
  have hplace' : place bp (h.brk + 1) h.freep ⟨h, M⟩ = ⟨.ok p, ⟨h, M⟩, []⟩ :=
    place_sim (R := base :: freeTiles (l ++ ⟨bp, n, true⟩ :: m)) (fun y hy => ⟨hM.ring hv hy h, ring_closed hv hy⟩) _ _
      hv.freep hplace
  unfold Malloc.free at hrun
  rw [Nat.add_sub_cancel, Prog.get_bind_run, Prog.bind_run_nil hplace, Prog.modify_bind_run, Prog.modify_bind_run,
    Prog.modify_run] at hrun
  obtain rfl := congrArg Outcome.st hrun
  unfold free
  rw [Prog.get_bind_run, hbp]
  dsimp only
  rw [Prog.bind_run_nil hplace', Prog.bind_run_nil hnextrun, Prog.bind_run_nil hprevrun]
  rfl

theorem take_sim {nunits prevp : Nat} (hv : Valid base start h ts) (hbase : base < start) (hbrk : h.brk ≤ kernbase)
    (hM : Backed base start h M) (hprev : prevp ∈ base :: freeTiles ts) (hp : p ∈ base :: freeTiles ts) (hpos : 0 < nunits)
    (hsize : nunits ≤ (h.hdr p).size) :
    ∃ r h', Malloc.take nunits prevp p h = ⟨.ok r, h', []⟩ ∧ take nunits prevp p ⟨h, M⟩ = ⟨.ok r, ⟨h', M⟩, []⟩ ∧
      h'.brk = h.brk := by
  have hend := ring_end hv hbase hp
  have hhas := hM.ring hv hp
  have hpw : wrap (p + unit) = p + unit := wrap_of_le (by unfold unit at hend ⊢; omega)
  unfold take Malloc.take
  rw [Prog.bind_run_nil (load_run (hhas h)), Prog.read_bind_run]
  dsimp only
  by_cases he : (h.hdr p).size = nunits
  · rw [if_pos he, if_pos he, Prog.bind_run_nil (load_run (hM.ring hv hprev h)),
      Prog.bind_run_nil (store_run (hM.ring hv hprev h)), hpw]
    exact ⟨_, _, rfl, rfl, rfl⟩
  · obtain ⟨l, m, hts⟩ := hv.tile hp hpos hsize
    have hq : wrap (p + unit * ((h.hdr p).size - nunits)) = p + unit * ((h.hdr p).size - nunits) :=
      wrap_of_le (by unfold unit at hend ⊢; omega)
    have hqw : wrap (p + unit * ((h.hdr p).size - nunits) + unit) = p + unit * ((h.hdr p).size - nunits) + unit :=
      wrap_of_le (by unfold unit at hend ⊢; omega)
    -- the tail of the block is in its pages
    have hqhas : ∀ h' : Heap, (Proc.mk h' M).has (p + unit * ((h.hdr p).size - nunits)) = true := by
      intro h'
      have hlow := (hv.tiles.bounds (t := ⟨p, (h.hdr p).size, false⟩) (by rw [hts]; simp)).1
      dsimp only at hlow
      have h1 := hM (p + unit * ((h.hdr p).size - nunits)) (.inr (by unfold unit at hend ⊢; omega))
      have h2 := hM (p + unit * ((h.hdr p).size - nunits) + 7) (.inr (by unfold unit at hend ⊢; omega))
      simp [Proc.has, h1, h2]
    rw [if_neg he, if_neg he, Prog.bind_run_nil (store_run (hhas h)), hq, Prog.bind_run_nil (load_run (hqhas _)),
      Prog.bind_run_nil (store_run (hqhas _)), hqw]
    exact ⟨_, _, rfl, rfl, rfl⟩

/-- What the kernel grants `morecore`, in the terms of the other model. -/
def granted (grant : Nat → Bool) (nu : Nat) : Nat → Bool := fun b => grant b && decide (b + unit * max nu 4096 < kernbase)

/-- The pages after `allocuvm`. -/
def grownPages (M : Nat → Bool) (lo hi : Nat) : Nat → Bool := fun p => if lo ≤ p * 4096 ∧ p * 4096 < hi then true else M p

theorem toInt_of_lt (hn : n < 2 ^ 31) : toInt n = n := if_pos hn

theorem allocuvm_run (grant : Nat → Bool) {oldsz newsz : Nat} (hle : oldsz ≤ newsz) : allocuvm grant oldsz newsz s =
    if grant oldsz = true ∧ newsz < kernbase then ⟨.ok newsz, s.setPages (pgRoundUp oldsz) newsz true, []⟩
    else ⟨.ok 0, s, []⟩ := by
  unfold allocuvm
  by_cases hk : newsz ≥ kernbase
  · have hnot : ¬ (grant oldsz = true ∧ newsz < kernbase) := fun hg => Nat.not_lt_of_le hk hg.2
    rw [if_pos hk, if_neg hnot, Prog.pure_run]
  · rw [if_neg hk, if_neg (Nat.not_lt_of_le hle)]
    cases hg : grant oldsz with
    | false => simp
    | true => simp [Nat.lt_of_not_le hk]

theorem sbrk_grow (grant : Nat → Bool) (hn : 0 < n) (hlt : n < 2 ^ 31) (hbrk : h.brk ≤ kernbase) : sbrk grant n ⟨h, M⟩ =
    if grant h.brk = true ∧ h.brk + n < kernbase then
      ⟨.ok h.brk, ⟨{ h with brk := h.brk + n }, grownPages M (pgRoundUp h.brk) (h.brk + n)⟩, []⟩
    else ⟨.ok (-1), ⟨h, M⟩, []⟩ := by
  have hnew : (((h.brk : Int) + n) % 2 ^ 32).toNat = h.brk + n := by
    unfold kernbase at hbrk
    omega
  have hpos : (n : Int) > 0 := by omega
  have halloc := allocuvm_run (s := ⟨h, M⟩) grant (Nat.le_add_right h.brk n)
  unfold sbrk
  rw [Prog.read_bind_run]
  split at halloc
  · rename_i hg
    have hne : h.brk + n ≠ 0 := by omega
    have hgrow : growproc grant n ⟨h, M⟩ =
        ⟨.ok 0, ⟨{ h with brk := h.brk + n }, grownPages M (pgRoundUp h.brk) (h.brk + n)⟩, []⟩ := by
      unfold growproc
      rw [Prog.read_bind_run, if_pos hpos, hnew, Prog.bind_run_nil halloc, if_neg hne]
      rfl
    rw [Prog.bind_run_nil hgrow, if_pos hg]
    rfl
  · rename_i hg
    have hgrow : growproc grant n ⟨h, M⟩ = ⟨.ok (-1), ⟨h, M⟩, []⟩ := by
      unfold growproc
      rw [Prog.read_bind_run, if_pos hpos, hnew, Prog.bind_run_nil halloc]
      rfl
    rw [Prog.bind_run_nil hgrow, if_neg hg]
    rfl

theorem pgRoundUp_eq (hn : n ≤ kernbase) : pgRoundUp n = (n + 4095) / 4096 * 4096 := by
  unfold pgRoundUp
  rw [wrap, Nat.mod_eq_of_lt]
  unfold kernbase at hn
  omega

theorem Backed.grown (hM : Backed base start h M) (hstart : start % 4096 = 0) (hbrk : h.brk ≤ kernbase)
    {h' : Heap} (hb : h'.brk = h.brk + n) : Backed base start h' (grownPages M (pgRoundUp h.brk) (h.brk + n)) := by
  intro a ha
  rw [hb] at ha
  unfold grownPages
  rw [pgRoundUp_eq hbrk]
  split
  · rfl
  · rename_i hout
    -- the last page of the old memory reaches up to the page boundary
    rcases ha with ha | ⟨hlo, hhi⟩
    · exact hM a (.inl ha)
    · by_cases hold : a < h.brk
      · exact hM a (.inr ⟨hlo, hold⟩)
      · have hpage : a / 4096 = (h.brk - 1) / 4096 := by omega
        rw [hpage]
        exact hM _ (.inr (by omega))

theorem morecore_sim (grant : Nat → Bool) (hv : Valid base start h ts) (hbase : base < start)
    (hbrk : h.brk ≤ kernbase) (hM : Backed base start h M) (hstart : start % 4096 = 0) {nu : Nat} (hnu : nu < 2 ^ 28)
    (huser : ∀ p, M p = true → p * 4096 < kernbase) : ∃ r h' ts' M',
      Malloc.morecore (granted grant nu) nu h = ⟨.ok r, h', []⟩ ∧ morecore grant nu ⟨h, M⟩ = ⟨.ok r, ⟨h', M'⟩, []⟩ ∧
      Valid base start h' ts' ∧ Backed base start h' M' ∧ h'.brk ≤ kernbase ∧ (∀ p, M' p = true → p * 4096 < kernbase) ∧
      (r = 0 ∨ r ∈ base :: freeTiles ts') := by
  obtain ⟨n, hn⟩ : ∃ n, n = if nu < 4096 then 4096 else nu := ⟨_, rfl⟩
  have hmax : max nu 4096 = n := by
    rw [hn]
    split_ifs
    · omega
    · omega
  have hprod : toInt (wrap (n * unit)) = ((unit * n : Nat) : Int) := by
    rw [wrap, Nat.mul_comm, Nat.mod_eq_of_lt (by unfold unit; omega), toInt_of_lt (by unfold unit; omega)]
  have hgrow := sbrk_grow (M := M) grant (show 0 < unit * n by unfold unit; omega) (by unfold unit; omega) hbrk
  have hrun := Malloc.morecore_run (granted grant nu) hv hbase hnu.le
  have hiff : Malloc.Granted (granted grant nu) nu h ↔ grant h.brk = true ∧ h.brk + unit * n < kernbase := by
    unfold Malloc.Granted granted
    rw [hmax, Bool.and_eq_true, decide_eq_true_eq]
    exact ⟨fun hg => hg.1, fun hg => ⟨hg, hg.2.le⟩⟩
  rw [hiff] at hrun
  unfold morecore
  rw [← hn, hprod]
  rcases hrun with ⟨hg, hrun⟩ | ⟨hg, h', ts', hrun, hv', -, -, hk, -⟩
  · rw [if_neg hg] at hgrow
    refine ⟨0, h, ts, M, hrun, ?_, hv, hM, hbrk, huser, .inl rfl⟩
    rw [Prog.bind_run_nil hgrow]
    rfl
  · rw [if_pos hg] at hgrow
    -- the new block is freed
    have hnew := hv.grown hbase (n := n) (by omega)
    have hback : Backed base start ({ h with brk := h.brk + unit * n }.set h.brk ⟨(h.hdr h.brk).ptr, n⟩)
        (grownPages M (pgRoundUp h.brk) (h.brk + unit * n)) := hM.grown hstart hbrk rfl
    have hhas : ∀ h' : Heap, (Proc.mk h' (grownPages M (pgRoundUp h.brk) (h.brk + unit * n))).has h.brk = true :=
      hback.tile hnew (v := ⟨h.brk, n, true⟩) (by simp)
    obtain ⟨f, tf, hfree, -, hfbrk, -⟩ := Malloc.free_run hnew hbase rfl
    have hsim := free_sim hnew hbase hg.2.le hback rfl hfree
    have hmore : Malloc.morecore (granted grant nu) nu h = ⟨.ok f.freep, f, []⟩ := by
      have hsbrk : Malloc.sbrk (granted grant nu) (unit * n) h =
          ⟨.ok (some h.brk), { h with brk := h.brk + unit * n }, []⟩ := by
        have hg' : granted grant nu h.brk = true ∧ h.brk + unit * n ≤ kernbase := by
          unfold granted
          rw [hmax, Bool.and_eq_true, decide_eq_true_eq]
          exact ⟨hg, hg.2.le⟩
        unfold Malloc.sbrk
        rw [Prog.get_bind_run, if_pos hg']
        rfl
      have hmod : n * unit % 2 ^ 32 = unit * n := by
        rw [Nat.mul_comm]
        exact Nat.mod_eq_of_lt (by unfold unit; omega)
      unfold Malloc.morecore
      rw [← hn, hmod, Prog.bind_run_nil hsbrk]
      dsimp only
      rw [Prog.modify_bind_run, Prog.bind_run_nil hfree]
      rfl
    obtain rfl : f = h' := congrArg Outcome.st (hmore.symm.trans hrun)
    have hne : ((h.brk : Nat) : Int) ≠ -1 := by omega
    refine ⟨f.freep, f, ts', _, hrun, ?_, hv', hM.grown hstart hbrk hfbrk, hk, fun p hp => ?_, .inr hv'.freep⟩
    · rw [Prog.bind_run_nil hgrow, if_neg hne]
      simp only [Int.toNat_natCast]
      rw [Prog.bind_run_nil (load_run (hhas _)), Prog.bind_run_nil (store_run (hhas _)), Prog.bind_run_nil hsim]
      rfl
    · unfold grownPages at hp
      split at hp
      · omega
      · exact huser p hp

/-- What the two models share: the allocator's memory in the process. -/
def Shared (base start : Nat) (h : Heap) (M : Nat → Bool) : Prop :=
  Backed base start h M ∧ ∀ p, M p = true → p * 4096 < kernbase

theorem search_sim (grant : Nat → Bool) (hpos : 0 < base) (hbase : base < start) (hstart : start % 4096 = 0) {nunits : Nat}
    (hn : 0 < nunits) (hlt : nunits < 2 ^ 28) : ∀ (k : Nat) (h : Heap) (M : Nat → Bool) (ts : List Tile) (prevp p r : Nat)
    (h' : Heap), Valid base start h ts → h.brk ≤ kernbase → Shared base start h M → prevp ∈ base :: freeTiles ts →
    p ∈ base :: freeTiles ts → Malloc.search (granted grant nunits) nunits k prevp p h = ⟨.ok r, h', []⟩ →
    ∃ M', search grant nunits k prevp p ⟨h, M⟩ = ⟨.ok r, ⟨h', M'⟩, []⟩ ∧ Shared base start h' M'
  | 0, _, _, _, _, _, _, _, _, _, _, _, _, hrun => by cases hrun
  | k + 1, h, M, ts, prevp, p, r, h', hv, hbrk, hM, hprev, hp, hrun => by
    have hhas := hM.1.ring hv hp h
    unfold Malloc.search at hrun
    rw [Prog.read_bind_run] at hrun
    unfold search
    rw [Prog.bind_run_nil (load_run hhas)]
    dsimp only
    by_cases hsize : (h.hdr p).size ≥ nunits
    · rw [if_pos hsize] at hrun ⊢
      obtain ⟨r', h'', htake, htake', hb⟩ := take_sim hv hbase hbrk hM.1 hprev hp hn hsize
      have he := htake.symm.trans hrun
      cases he
      exact ⟨M, htake', fun a ha => hM.1 a (by rwa [hb] at ha), hM.2⟩
    · rw [if_neg hsize] at hrun ⊢
      rw [Prog.read_bind_run] at hrun
      rw [Prog.read_bind_run]
      dsimp only
      by_cases hf : p = h.freep
      · rw [if_pos hf] at hrun ⊢
        obtain ⟨q, g, tg, N, hmore, hmore', hvg, hN, hgk, huser, hq⟩ := morecore_sim grant hv hbase hbrk hM.1 hstart hlt hM.2
        rw [Prog.bind_run_nil hmore] at hrun
        rw [Prog.bind_run_nil hmore']
        by_cases hq0 : q = 0
        · rw [if_pos hq0] at hrun ⊢
          cases hrun
          exact ⟨N, rfl, hN, huser⟩
        · rw [if_neg hq0, Prog.read_bind_run] at hrun
          have hqr := hq.resolve_left hq0
          rw [if_neg hq0, Prog.bind_run_nil (load_run (hN.ring hvg hqr g))]
          exact search_sim grant hpos hbase hstart hn hlt k g N tg q _ r h' hvg hgk ⟨hN, huser⟩ hqr
            (ring_closed hvg hqr) hrun
      · rw [if_neg hf] at hrun ⊢
        exact search_sim grant hpos hbase hstart hn hlt k h M ts p _ r h' hv hbrk hM hp (ring_closed hv hp) hrun

/-- **`malloc` in 32 bits** of less than 2 ^ 28 units is the other model's. -/
theorem malloc_sim (grant : Nat → Bool) (hpos : 0 < base) (hbase : base < start) (hstart : start % 4096 = 0) {nbytes : Nat}
    (hlt : units nbytes < 2 ^ 28) (hv : Valid base start h ts) (hbrk : h.brk ≤ kernbase) (hM : Shared base start h M)
    {h' : Heap} (hrun : Malloc.malloc base (granted grant (units nbytes)) nbytes h = ⟨.ok r, h', []⟩) :
    ∃ M', malloc base grant nbytes ⟨h, M⟩ = ⟨.ok r, ⟨h', M'⟩, []⟩ ∧ Shared base start h' M' := by
  have hfreep : h.freep ≠ 0 := by
    rcases List.mem_cons.1 hv.freep with he | he
    · omega
    · have := (hv.tiles.free_bounds (by decide) he).1
      omega
  unfold Malloc.malloc at hrun
  rw [Prog.get_bind_run, Prog.when_neg hfreep, Prog.pure_bind_run, Prog.get_bind_run] at hrun
  unfold malloc
  rw [Prog.get_bind_run, Prog.when_neg hfreep, Prog.pure_bind_run, Prog.read_bind_run,
    Prog.bind_run_nil (load_run (hM.1.ring hv hv.freep h))]
  exact search_sim grant hpos hbase hstart (Nat.succ_pos _) hlt _ h M ts _ _ r h' hv hbrk hM hv.freep
    (ring_closed hv hv.freep) hrun

theorem malloc_fresh (grant : Nat → Bool) (hpos : 0 < base) (hf : Fresh base start s) (nbytes : Nat) :
    ∃ s₀, malloc base grant nbytes s = malloc base grant nbytes s₀ ∧ Intact base start [] s₀ ∧
      s₀.heap.brk = s.heap.brk := by
  have hhas : ∀ h' : Heap, (Proc.mk h' s.pages).has base = true := by
    intro h'
    have h1 := hf.pages base (by unfold unit; omega)
    have h2 := hf.pages (base + 7) (by unfold unit; omega)
    simp [Proc.has, h1, h2]
  obtain ⟨h, M⟩ := s
  refine ⟨⟨{ h.set base ⟨base, 0⟩ with freep := base }, M⟩, ?_,
    ⟨Malloc.first_valid hf.brk, ?_, fun a ha => ?_, hf.user⟩, rfl⟩
  · have hne : { h.set base ⟨base, 0⟩ with freep := base }.freep ≠ 0 := Nat.ne_of_gt hpos
    have hset : (do
        store base ⟨base, 0⟩
        setFreep base : U Unit) ⟨h, M⟩ = ⟨.ok (), ⟨{ h.set base ⟨base, 0⟩ with freep := base }, M⟩, []⟩ := by
      rw [Prog.bind_run_nil (store_run (hhas h))]
      rfl
    unfold malloc
    rw [Prog.get_bind_run, Prog.get_bind_run, Prog.when_pos hf.freep, Prog.when_neg hne,
      Prog.bind_run_nil hset, Prog.pure_bind_run]
    rfl
  · exact hf.brk.trans_le hf.below
  · rcases ha with ha | ⟨h1, h2⟩
    · exact hf.pages a ha
    · have hb : h.brk = start := hf.brk
      have h2' : a < h.brk := h2
      omega

/-! ## Where something does -/

theorem load_quiet (a : Nat) : Prog.Quiet (fun s => (s.heap.brk, s.pages)) (fun _ => False) (load a) := by
  refine Prog.Quiet.bind (.read _) fun b => Prog.Quiet.ite (fun _ => .read _) fun _ => .stop _

theorem store_quiet (a : Nat) (x : Header) : Prog.Quiet (fun s => (s.heap.brk, s.pages)) (fun _ => False) (store a x) := by
  refine Prog.Quiet.bind (.read _) fun b => Prog.Quiet.ite (fun _ => .modify fun _ => rfl) fun _ => .stop _

theorem place_quiet (bp : Nat) : ∀ k p, Prog.Quiet (fun s => (s.heap.brk, s.pages)) (fun _ => False) (place bp k p)
  | 0, _     => .stop _
  | k + 1, p => (load_quiet p).bind fun h =>
      .ite (fun _ => .pure _) fun _ => .ite (fun _ => .pure _) fun _ => place_quiet bp k h.ptr

theorem free_quiet (ap : Nat) : Prog.Quiet (fun s => (s.heap.brk, s.pages)) (fun _ => False) (free ap) := by
  refine Prog.Quiet.bind .get fun s => (place_quiet _ _ _).bind fun p => ?_
  refine Prog.Quiet.bind ?_ fun _ => Prog.Quiet.bind ?_ fun _ => .modify fun _ => rfl
  · refine (load_quiet _).bind fun b => (load_quiet _).bind fun h => .ite (fun _ => ?_) fun _ => store_quiet _ _
    exact (load_quiet _).bind fun n => store_quiet _ _
  · refine (load_quiet _).bind fun h => .ite (fun _ => ?_) fun _ => store_quiet _ _
    exact (load_quiet _).bind fun b => store_quiet _ _

/-- **`sbrk` of an increment that is not positive** makes no memory, and fails only where it has given back all there was. -/
theorem sbrk_shrink (grant : Nat → Bool) {i : Int} (hi : i ≤ 0) {E : Stop → Prop} : wp (sbrk grant i) (fun a t =>
    t.heap.brk ≤ s.heap.brk ∧ (∀ p, t.pages p = true → s.pages p = true) ∧
      (a = -1 → ∀ x, x < s.heap.brk → t.pages (x / 4096) = false)) E s := by
  have haddr : ((s.heap.brk : Nat) : Int) ≠ -1 := by omega
  have hnot : ¬ i > 0 := by omega
  have hset : ∀ (t : Proc) (sz : Nat), wp (setSz sz) (fun a t' => a = 0 ∧ t'.heap.brk = sz ∧ t'.pages = t.pages) E t :=
    fun _ _ => ⟨rfl, rfl, rfl⟩
  have hgrow : wp (growproc grant i) (fun a t => t.heap.brk ≤ s.heap.brk ∧ (∀ p, t.pages p = true → s.pages p = true) ∧
      (a < 0 → ∀ x, x < s.heap.brk → t.pages (x / 4096) = false)) E s := by
    unfold growproc
    rw [Prog.wp_bind, Prog.wp_read, if_neg hnot]
    refine Prog.wp_ite (fun _ => ?_) fun _ => ?_
    · generalize (((s.heap.brk : Nat) : Int) + i) % 2 ^ 32 = z
      unfold deallocuvm
      rw [Prog.wp_bind]
      refine Prog.wp_ite (fun _ => ?_) fun hlt => ?_
      · rw [Prog.wp_pure]
        refine Prog.wp_ite (fun h0 => ⟨Nat.le_refl _, fun p hp => hp, fun _ x hx => by omega⟩) fun _ => ?_
        exact (hset s _).imp fun a t ⟨ha, hb, hp⟩ => ⟨hb.le, fun p h => hp ▸ h, by omega⟩
      · rw [Prog.wp_bind, Prog.wp_modify, Prog.wp_pure]
        have hsub : ∀ p, (s.setPages (pgRoundUp z.toNat) s.heap.brk false).pages p = true → s.pages p = true := by
          intro p hp
          unfold Proc.setPages at hp
          dsimp only at hp
          split at hp
          · cases hp
          · exact hp
        refine Prog.wp_ite (fun h0 => ⟨Nat.le_refl _, hsub, fun _ x hx => ?_⟩) fun _ => ?_
        · -- all pages go, and the new size 0 is taken for a failure
          rw [h0]
          exact if_pos ⟨Nat.zero_le _, by omega⟩
        · exact (hset _ _).imp fun a t ⟨ha, hb, hp⟩ => ⟨by omega, fun p h => hsub p (hp ▸ h), by omega⟩
    · exact (hset s _).imp fun a t ⟨ha, hb, hp⟩ => ⟨hb.le, fun p h => hp ▸ h, by omega⟩
  unfold sbrk
  rw [Prog.wp_bind, Prog.wp_read, Prog.wp_bind]
  refine hgrow.imp fun a t ⟨hb, hp, hfail⟩ => Prog.wp_ite (fun ha => ⟨hb, hp, fun _ => hfail ha⟩) fun _ => ?_
  exact ⟨hb, hp, fun h => absurd h haddr⟩

theorem take_ne_zero {nunits prevp : Nat} (huser : ∀ p, s.pages p = true → p * 4096 < kernbase) :
    wp (take nunits prevp p) (fun r _ => r ≠ 0) (fun _ => True) s := by
  have hhas : ∀ (t : Proc) (a : Nat), t.pages = s.pages → t.has a = true → wrap (a + unit) ≠ 0 := by
    intro t a ht ha
    have hlt := huser (a / 4096) (by rw [← ht]; exact (Bool.and_eq_true_iff.1 ha).1)
    unfold wrap unit
    unfold kernbase at hlt
    omega
  have hload : ∀ (t : Proc) (a : Nat) {Q : Header → Proc → Prop}, (t.has a = true → Q (t.heap.hdr a) t) →
      wp (load a) Q (fun _ => True) t := by
    intro t a Q hQ
    unfold load
    rw [Prog.wp_bind, Prog.wp_read]
    exact Prog.wp_ite (fun ha => hQ ha) fun _ => trivial
  have hstore : ∀ (t : Proc) (a : Nat) (x : Header) {Q : Unit → Proc → Prop},
      (Q () { t with heap := t.heap.set a x }) → wp (store a x) Q (fun _ => True) t := by
    intro t a x Q hQ
    unfold store
    rw [Prog.wp_bind, Prog.wp_read]
    exact Prog.wp_ite (fun _ => hQ) fun _ => trivial
  unfold take
  rw [Prog.wp_bind]
  refine hload s p fun hp => Prog.wp_ite (fun _ => ?_) fun _ => ?_
  · rw [Prog.wp_bind]
    refine hload s prevp fun _ => ?_
    rw [Prog.wp_bind]
    exact hstore s prevp _ (hhas s p rfl hp)
  · rw [Prog.wp_bind]
    refine hstore s p _ ?_
    rw [Prog.wp_bind]
    refine hload _ _ fun hq => ?_
    rw [Prog.wp_bind]
    exact hstore _ _ _ (hhas _ _ rfl hq)

/-- The allocator is not what it was: it has no list, or the process has shrunk below `b`, or is without the page of
`base`. -/
def Lost (base b : Nat) (t : Proc) : Prop := t.heap.freep = 0 ∨ t.heap.brk < b ∨ t.pages (base / 4096) = false

theorem toInt_neg {nunits : Nat} (hlo : 2 ^ 28 ≤ nunits) (hhi : nunits ≤ 2 ^ 29) : toInt (wrap (nunits * unit)) ≤ 0 := by
  unfold toInt wrap unit
  split
  · omega
  · omega

theorem morecore_lost (grant : Nat → Bool) {nunits b : Nat} (hlo : 2 ^ 28 ≤ nunits) (hhi : nunits ≤ 2 ^ 29)
    (hb : s.heap.brk ≤ b)
    (hbase : base < b) : wp (morecore grant nunits) (fun r t => t.heap.brk ≤ b ∧ (∀ p, t.pages p = true → s.pages p = true) ∧
      (r = 0 → Lost base b t)) (fun _ => True) s := by
  have hbig : ¬ nunits < 4096 := by omega
  unfold morecore
  rw [if_neg hbig, Prog.wp_bind]
  refine ((sbrk_shrink grant (toInt_neg hlo hhi)).imp fun a t ⟨hbrk, hpages, hfail⟩ => ?_)
  refine Prog.wp_ite (fun ha => ⟨hbrk.trans hb, hpages, fun _ => ?_⟩) fun _ => ?_
  · by_cases hlt : t.heap.brk < b
    · exact .inr (.inl hlt)
    · exact .inr (.inr (hfail ha base (by omega)))
  · -- the header is written behind the break, and freed
    have hquiet : Prog.Quiet (fun s => (s.heap.brk, s.pages)) (fun _ => False) (do
        let h ← load a.toNat
        store a.toNat ⟨h.ptr, nunits⟩
        free (wrap (a.toNat + unit))) :=
      (load_quiet _).bind fun h => (store_quiet _ _).bind fun _ => free_quiet _
    have hkeep := hquiet.keeps t
    simp only [Prog.wp_bind] at hkeep ⊢
    refine hkeep.imp fun h u hu => hu.imp fun _ v hv => hv.imp fun _ w hw => ?_
    obtain ⟨hwb, hwp⟩ := Prod.mk.inj hw
    exact ⟨hwb ▸ hbrk.trans hb, fun p hp => hpages p (hwp ▸ hp), fun h0 => .inl h0⟩

theorem search_lost (grant : Nat → Bool) {nunits b : Nat} (hlo : 2 ^ 28 ≤ nunits) (hhi : nunits ≤ 2 ^ 29)
    (hbase : base < b) :
    ∀ (k : Nat) (s : Proc) (prevp p : Nat), s.heap.brk ≤ b → (∀ p, s.pages p = true → p * 4096 < kernbase) →
      wp (search grant nunits k prevp p) (fun r t => r = 0 → Lost base b t) (fun _ => True) s
  | 0, _, _, _, _, _ => trivial
  | k + 1, s, prevp, p, hb, huser => by
    unfold search
    rw [Prog.wp_bind]
    refine ((load_quiet p).keeps s).imp fun h t ht => ?_
    obtain ⟨htb, htp⟩ := Prod.mk.inj ht
    have huser' : ∀ p, t.pages p = true → p * 4096 < kernbase := fun p hp => huser p (htp ▸ hp)
    refine Prog.wp_ite (fun _ => ?_) fun _ => ?_
    · exact (take_ne_zero huser').imp fun r u hr h0 => absurd h0 hr
    · rw [Prog.wp_bind, Prog.wp_read]
      refine Prog.wp_ite (fun _ => ?_) fun _ => search_lost grant hlo hhi hbase k t p _ (htb ▸ hb) huser'
      rw [Prog.wp_bind]
      refine (morecore_lost grant hlo hhi (htb ▸ hb) hbase).imp fun q u ⟨hub, hup, hq⟩ => ?_
      refine Prog.wp_ite (fun h0 _ => hq h0) fun _ => ?_
      rw [Prog.wp_bind]
      refine ((load_quiet q).keeps u).imp fun h v hv => ?_
      obtain ⟨hvb, hvp⟩ := Prod.mk.inj hv
      exact search_lost grant hlo hhi hbase k v q _ (hvb ▸ hub) fun p hp => huser' p (hup p (hvp ▸ hp))

/-! ## Every request -/

/-- The requests that are met: those that an `int` can hold with the header, and of the last seven of all, which wrap around
to one unit, those for which there is not even that. -/
def Met (grant : Nat → Bool) (ts : List Tile) (nbytes : Nat) (s : Proc) : Prop :=
  nbytes ≤ 2 ^ 31 - 16 ∨
    nbytes ≥ 2 ^ 32 - 7 ∧ freeTiles ts = [] ∧ ¬ (grant s.heap.brk = true ∧ s.heap.brk + 32768 < kernbase)

theorem Intact.shared (hs : Intact base start ts s) : Shared base start s.heap s.pages := ⟨hs.pages, hs.user⟩

/-- **A request of less than 2 ^ 28 units** gets them, or there are none. -/
theorem malloc_run (grant : Nat → Bool) (hpos : 0 < base) (hbase : base < start) (hstart : start % 4096 = 0) {nbytes : Nat}
    (hlt : units nbytes < 2 ^ 28) (hs : Intact base start ts s) : ∃ r t ts', malloc base grant nbytes s = ⟨.ok r, t, []⟩ ∧
      Intact base start ts' t ∧ s.heap.brk ≤ t.heap.brk ∧
      (r = 0 ∧ ts' = ts ∧ Malloc.Refused (granted grant (units nbytes)) base (units nbytes) s.heap ts ∨
        ∃ a, r = a + unit ∧ ¬ Malloc.Refused (granted grant (units nbytes)) base (units nbytes) s.heap ts ∧
          ∀ v : Tile, v.used = true → (v ∈ ts' ↔ v ∈ ts ∨ v = ⟨a, units nbytes, true⟩)) := by
  obtain ⟨r, h', ts', hrun, hv', hle, hk, hcase⟩ :=
    Malloc.malloc_run (granted grant (units nbytes)) hs.valid hpos hbase hs.below hlt.le
  obtain ⟨M', hsim, hback, huser⟩ := malloc_sim grant hpos hbase hstart hlt hs.valid hs.below hs.shared hrun
  exact ⟨r, ⟨h', M'⟩, ts', hsim, ⟨hv', hk, hback, huser⟩, hle, hcase.imp (fun ⟨h0, _, hts, href⟩ => ⟨h0, hts, href⟩) id⟩

theorem block_small (hbase : base + unit ≤ start) (hpos : 0 < base) (hs : Intact base start ts s) {v : Tile} (hv : v ∈ ts)
    (hn : n ≤ unit * (v.size - 1)) : n ≤ 2 ^ 31 - 16 := by
  have hb := hs.valid.tiles.bounds hv
  have hk := hs.below
  unfold unit at hb hn hbase
  unfold kernbase at hk
  omega

theorem refused_one (grant : Nat → Bool) (hs : Intact base start ts s) : Malloc.Refused (granted grant 1) base 1 s.heap ts ↔
    freeTiles ts = [] ∧ ¬ (grant s.heap.brk = true ∧ s.heap.brk + 32768 < kernbase) := by
  have hgrant : Malloc.Granted (granted grant 1) 1 s.heap ↔ grant s.heap.brk = true ∧ s.heap.brk + 32768 < kernbase := by
    unfold Malloc.Granted granted
    rw [Bool.and_eq_true, decide_eq_true_eq]
    exact ⟨fun hg => hg.1, fun hg => ⟨hg, hg.2.le⟩⟩
  unfold Malloc.Refused
  rw [hgrant]
  refine and_congr_left fun _ => ⟨fun hall => ?_, fun hnil y hy => ?_⟩
  · refine List.eq_nil_iff_forall_not_mem.2 fun y hy => ?_
    obtain ⟨v, hv, -, rfl⟩ := Tiles.mem_free.1 hy
    have hlt := hall v.addr (List.mem_cons_of_mem _ hy)
    rw [hs.valid.size v hv] at hlt
    exact Nat.not_lt_of_le (hs.valid.tiles.pos hv) hlt
  · rw [hnil] at hy
    rw [List.mem_singleton.1 hy, hs.valid.zero]
    exact Nat.one_pos

theorem malloc_lost (grant : Nat → Bool) (hpos : 0 < base) (hbase : base < start) {nbytes : Nat}
    (hlo : 2 ^ 28 ≤ units nbytes) (hhi : units nbytes ≤ 2 ^ 29) (hs : Intact base start ts s) :
    wp (malloc base grant nbytes) (fun r t => r = 0 → Lost base s.heap.brk t) (fun _ => True) s := by
  have hle := hs.valid.tiles.le
  have hfreep : s.heap.freep ≠ 0 := by
    rcases List.mem_cons.1 hs.valid.freep with he | he
    · omega
    · have := (hs.valid.tiles.free_bounds (by decide) he).1
      omega
  unfold malloc
  rw [Prog.wp_bind, Prog.wp_get, Prog.when_neg hfreep, Prog.wp_bind, Prog.wp_pure, Prog.wp_bind, Prog.wp_read, Prog.wp_bind]
  refine ((load_quiet s.heap.freep).keeps s).imp fun h t ht => ?_
  obtain ⟨htb, htp⟩ := Prod.mk.inj ht
  exact search_lost grant hlo hhi (by omega) _ t _ _ htb.le fun p hp => hs.user p (htp ▸ hp)

theorem Lost.not_intact {b : Nat} {t : Proc} (hl : Lost base b t) (hpos : 0 < base) (hbase : base < start)
    (hb : b ≤ t.heap.brk) (ht : Intact base start ts t) : False := by
  rcases hl with h0 | hlt | hp
  · rcases List.mem_cons.1 ht.valid.freep with he | he
    · omega
    · have := (ht.valid.tiles.free_bounds (by decide) he).1
      omega
  · omega
  · rw [ht.pages base (.inl (by unfold unit; omega))] at hp
    cases hp

theorem right_iff (grant : Nat → Bool) (hpos : 0 < base) (hbase : base + unit ≤ start) (hstart : start % 4096 = 0)
    {nbytes : Nat} (hn : nbytes < 2 ^ 32) (hs : Intact base start ts s) :
    Right base start ts nbytes s (malloc base grant nbytes s) ↔ Met grant ts nbytes s := by
  have hlt : base < start := Nat.lt_of_lt_of_le (Nat.lt_add_of_pos_right (by decide)) hbase
  have hsmall : ∀ {r t ts'}, malloc base grant nbytes s = ⟨.ok r, t, []⟩ → s.heap.brk ≤ t.heap.brk → r = 0 → ts' = ts →
      Intact base start ts' t → Right base start ts nbytes s (malloc base grant nbytes s) := by
    rintro r t ts' hrun hle rfl rfl ht
    rw [hrun]
    exact ⟨0, rfl, hle, .inl ⟨rfl, ht⟩⟩
  by_cases h1 : nbytes ≤ 2 ^ 31 - 16
  · -- the arithmetic is exact
    have hun : units nbytes < 2 ^ 28 ∧ nbytes ≤ unit * (units nbytes - 1) := by
      unfold units unit
      omega
    refine iff_of_true ?_ (.inl h1)
    obtain ⟨r, t, ts', hrun, ht, hle, ⟨h0, hts, -⟩ | ⟨a, rfl, -, hused⟩⟩ := malloc_run grant hpos hlt hstart hun.1 hs
    · exact hsmall hrun hle h0 hts ht
    · rw [hrun]
      exact ⟨a + unit, rfl, hle, .inr ⟨Nat.succ_ne_zero _, ts', ⟨a, units nbytes, true⟩, ht, hused, rfl, rfl, hun.2⟩⟩
  · have hzero : ∀ {r t}, malloc base grant nbytes s = ⟨.ok r, t, []⟩ →
        Right base start ts nbytes s (malloc base grant nbytes s) → r = 0 := by
      rintro r t hrun ⟨r', hr', -, ⟨h0, -⟩ | ⟨-, ts', v, ht, hused, hvu, -, hbig⟩⟩
      · rw [hrun] at hr'
        exact (Except.ok.inj hr').trans h0
      · exact absurd (block_small hbase hpos ht ((hused v hvu).2 (.inr rfl)) hbig) h1
    by_cases h2 : nbytes < 2 ^ 32 - 7
    · -- `sbrk` gets no positive `int`
      have hun : 2 ^ 28 ≤ units nbytes ∧ units nbytes ≤ 2 ^ 29 := by
        unfold units unit
        omega
      refine iff_of_false ?_ fun hm => ?_
      · rintro ⟨r, hr, hle, hcase⟩
        have hlost := (malloc_lost grant hpos hlt hun.1 hun.2 hs).ok hr
        rcases hcase with ⟨h0, ht⟩ | ⟨-, ts', v, ht, hused, hvu, -, hbig⟩
        · exact (hlost h0).not_intact hpos hlt hle ht
        · exact h1 (block_small hbase hpos ht ((hused v hvu).2 (.inr rfl)) hbig)
      · rcases hm with hm | ⟨hm, -⟩
        · exact h1 hm
        · omega
    · -- the rounding wraps around to one unit
      have hun : units nbytes = 1 := by
        unfold units unit
        omega
      have hmet : Met grant ts nbytes s ↔ Malloc.Refused (granted grant 1) base 1 s.heap ts := by
        rw [refused_one grant hs]
        exact ⟨fun hm => (hm.resolve_left h1).2, fun hm => .inr ⟨by omega, hm⟩⟩
      have hunits : units nbytes < 2 ^ 28 := by omega
      obtain ⟨r, t, ts', hrun, ht, hle, hcase⟩ := malloc_run grant hpos hlt hstart hunits hs
      rw [hun] at hcase
      rw [hmet]
      rcases hcase with ⟨h0, hts, href⟩ | ⟨a, rfl, href, -⟩
      · exact iff_of_true (hsmall hrun hle h0 hts ht) href
      · refine iff_of_false (fun hright => ?_) href
        exact Nat.succ_ne_zero _ (hzero hrun hright)

/-- **`malloc`'s size arithmetic**: in every state of the allocator, the requests that it meets. -/
theorem malloc_right (grant : Nat → Bool) (hpos : 0 < base) (hbase : base + unit ≤ start) (hstart : start % 4096 = 0)
    {nbytes : Nat} (hn : nbytes < 2 ^ 32) (hs : Intact base start ts s ∨ Fresh base start s ∧ ts = []) :
    Right base start ts nbytes s (malloc base grant nbytes s) ↔ Met grant ts nbytes s := by
  rcases hs with hs | ⟨hf, rfl⟩
  · exact right_iff grant hpos hbase hstart hn hs
  · obtain ⟨s₀, hrun, hs, hb⟩ := malloc_fresh grant hpos hf nbytes
    have h := right_iff grant hpos hbase hstart hn hs
    unfold Right Met at h ⊢
    rw [hrun, ← hb]
    exact h

/-- A process of four pages, all of the user's memory below its break. -/
def small : Proc := ⟨⟨fun _ => ⟨0, 0⟩, 0, 16384⟩, fun p => decide (p < 4)⟩

theorem small_fresh : Fresh 4096 16384 small := by
  refine ⟨rfl, rfl, by decide, fun a ha => ?_, fun p hp => ?_⟩
  · unfold unit at ha
    exact decide_eq_true (by omega)
  · have := of_decide_eq_true hp
    unfold kernbase
    omega

/-- The process after `malloc(100)`. -/
def hundred : Proc := (malloc 4096 (fun _ => true) 100 small).st

/-- A hundred bytes of the fresh process, and fifty more where these are handed out. -/
theorem small_hundred : Right 4096 16384 [] 100 small (malloc 4096 (fun _ => true) 100 small) ∧
    ∃ ts v, Intact 4096 16384 ts hundred ∧ v ∈ ts ∧ v.used = true ∧
      Right 4096 16384 ts 50 hundred (malloc 4096 (fun _ => true) 50 hundred) := by
  have hright : Right 4096 16384 [] 100 small (malloc 4096 (fun _ => true) 100 small) :=
    (malloc_right _ (by decide) (by decide) (by decide) (by decide) (.inr ⟨small_fresh, rfl⟩)).2 (.inl (by decide))
  have hsome : (malloc 4096 (fun _ => true) 100 small).res.toOption ≠ some 0 := by decide +kernel
  refine ⟨hright, ?_⟩
  obtain ⟨r, hr, -, ⟨h0, -⟩ | ⟨-, ts, v, hs, hused, hv, -⟩⟩ := hright
  · rw [hr, h0] at hsome
    exact absurd rfl hsome
  · exact ⟨ts, v, hs, (hused v hv).2 (.inr rfl), hv,
      (malloc_right _ (by decide) (by decide) (by decide) (by decide) (.inl hs)).2 (.inl (by decide))⟩

/-- The largest request there is gets a block of no bytes. -/
theorem small_wraps : ¬ Right 4096 16384 [] 0xFFFFFFFF small (malloc 4096 (fun _ => true) 0xFFFFFFFF small) := by
  obtain ⟨s₀, hrun, hs, hb⟩ := malloc_fresh (fun _ => true) (by decide) small_fresh 0xFFFFFFFF
  have hlarge : 0xFFFFFFFF < 2 ^ 32 := by decide
  have h := right_iff (fun _ => true) (by decide) (by decide) (by decide) hlarge hs
  have hbrk : s₀.heap.brk = 16384 := hb
  intro hright
  unfold Right at h hright
  rw [hrun, ← hb, h] at hright
  unfold Met at hright
  rw [hbrk] at hright
  revert hright
  decide

end Umalloc
end Xv6
