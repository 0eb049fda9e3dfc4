import Xv6.Io.Ftable
/-!
# Io.Refs — open files are released once

The references to a file are the descriptors that point to it and those that a call in progress holds.  They are as many
as the file's count says (`Inv.counted`), and what the last of them leaves to release is released (`Books`).
-/
namespace Xv6
namespace Ftable

/-! ## References -/

/-- The files that a process in a call refers to besides its descriptors. -/
def Pc.kept : Pc → Multiset (Fin nfile)
  | .piping f0                  => {f0}
  | .pipeKalloc f0 f1           => {f0, f1}
  | .pipeFds rf wf              => {rf, wf}
  | .closing f (.calls fs)      => f ::ₘ fs
  | .releasing _ _ (.calls fs)  => fs
  | _                           => 0

/-- The descriptor whose reference is not counted yet, or no more. -/
def Pc.uncounted : Pc → Option (Fin nofile)
  | .duping _ fd             => some fd
  | .releasing _ _ (.exit fd) => some fd
  | _                        => none

def Pc.counted (pc : Pc) (o : Fin nofile → Option (Fin nfile)) (fd : Fin nofile) : Option (Fin nfile) :=
  if pc.uncounted = some fd then none else o fd

def own (pc : Pc) (o : Fin nofile → Option (Fin nfile)) : Multiset (Fin nfile) := held (pc.counted o) + pc.kept

def State.own (s : State) (p : Fin nproc) : Multiset (Fin nfile) := Ftable.own (s.pc p) (s.ofile p)

def State.refs (s : State) : Multiset (Fin nfile) := ∑ p, s.own p

def Pc.child : Pc → Option (Fin nproc)
  | .forkCopy np  => some np
  | .forking np _ => some np
  | _             => none

/-! ## What is to be released -/

def File.resource (v : File) : Option Resource :=
  match v.type with
  | .none  => none
  | .pipe  => some (.pipe v.pipe v.writable)
  | .inode => some (.inode v.ip)

def Pc.due : Pc → Option (Fin nfile × Resource)
  | .releasing f ff _ => ff.resource.map (Prod.mk f)
  | _                 => none

def filesDue (file : Fin nfile → File) : Multiset (Fin nfile × Resource) := held fun f => (file f).resource.map (Prod.mk f)

def procsDue (pc : Fin nproc → Pc) : Multiset (Fin nfile × Resource) := held fun p => (pc p).due

def State.due (s : State) : Multiset (Fin nfile × Resource) := filesDue s.file + procsDue s.pc

def isOpen (v : Option Pipe) (writable : Bool) : Bool :=
  v.any fun v => if writable then v.writeopen else v.readopen

/-- A call `pipeclose(page, writable)`. -/
def Event.closes (page : Nat) (writable : Bool) : Event → Bool
  | .released _ r => decide (r = .pipe page writable)
  | _             => false

structure Books (due : Multiset (Fin nfile × Resource)) (pipe : Nat → Option Pipe) (past : List Event) : Prop where
  ledger : ∀ f r, past.count (.opened f r) = past.count (.released f r) + due.count (f, r)
  ends   : ∀ page w, (due.map Prod.snd).count (.pipe page w) = (isOpen (pipe page) w).toNat
  closes : ∀ page w, past.count (.kalloc page) = past.countP (Event.closes page w) + (isOpen (pipe page) w).toNat
  pages  : ∀ page, past.count (.kalloc page) = past.count (.kfree page) + (pipe page).isSome.toNat
  alive  : ∀ page, (pipe page).isSome = true → isOpen (pipe page) false = true ∨ isOpen (pipe page) true = true

/-! ## The invariant -/

def State.Blank (s : State) (f : Fin nfile) : Prop := (s.file f).ref = 1 ∧ (s.file f).type = .none

def State.Cleared (s : State) (p : Fin nproc) (n : Nat) : Prop := ∀ fd : Fin nofile, fd.val < n → s.ofile p fd = none

/-- The child has no descriptors from the `i`-th on. -/
def State.Empty (s : State) (np : Fin nproc) (i : Nat) : Prop :=
  s.state np = .embryo ∧ ∀ fd : Fin nofile, i ≤ fd.val → s.ofile np fd = none

def State.Fine (s : State) (p : Fin nproc) : Pc → Prop
  | .opened f _ _              => s.Blank f ∧ ∃ fd, s.ofile p fd = some f
  | .piping f0                 => s.Blank f0
  | .pipeKalloc f0 f1          => s.Blank f0 ∧ s.Blank f1
  | .duping f fd               => s.ofile p fd = some f ∧ ∃ fd', fd' ≠ fd ∧ s.ofile p fd' = some f
  | .closing f (.exit fd)      => s.ofile p fd = some f ∧ s.Cleared p fd
  | .releasing _ _ (.exit fd)  => (∃ f, s.ofile p fd = some f) ∧ s.Cleared p fd
  | .forkCopy np               => s.Empty np 0
  | .forking np i              => s.Empty np i
  | .exiting fd                => s.Cleared p fd
  | _                          => True

structure Inv (s : State) : Prop where
  counted : Counted (fun f => (s.file f).ref) s.refs
  closed  : ∀ f, (s.file f).ref = 0 → (s.file f).type = .none
  fine    : ∀ p, s.Fine p (s.pc p)
  live    : ∀ p, s.pc p ≠ .user → s.state p = .live
  dead    : ∀ p, s.state p = .unused ∨ s.state p = .zombie → ∀ fd, s.ofile p fd = none
  child   : ∀ p q np, (s.pc p).child = some np → (s.pc q).child = some np → p = q
  books   : Books s.due s.pipe s.past

/-! ## One process moves -/

/-- Only the processes of `l` have moved. -/
structure Moves (l : List (Fin nproc)) (s t : State) : Prop where
  pc    : ∀ q, q ∉ l → t.pc q = s.pc q
  ofile : ∀ q, q ∉ l → t.ofile q = s.ofile q
  state : ∀ q, q ∉ l → t.state q = s.state q

variable {s t : State} {l : List (Fin nproc)} {p q np : Fin nproc} {f : Fin nfile} {fd : Fin nofile} {pc pc' : Pc}

theorem ne_of_not_mem (hp : p ∈ l) (hq : q ∉ l) : q ≠ p := fun h => hq (h ▸ hp)

namespace Moves

theorem refl (l : List (Fin nproc)) (s : State) : Moves l s s := ⟨fun _ _ => rfl, fun _ _ => rfl, fun _ _ => rfl⟩

theorem setFile (m : Moves l s t) (f : Fin nfile) (v : File) : Moves l s (t.setFile f v) := ⟨m.pc, m.ofile, m.state⟩

theorem setPipe (m : Moves l s t) (page : Nat) (v : Option Pipe) : Moves l s (t.setPipe page v) := ⟨m.pc, m.ofile, m.state⟩

theorem emit (m : Moves l s t) (e : Event) : Moves l s (t.emit e) := ⟨m.pc, m.ofile, m.state⟩

theorem goto (m : Moves l s t) (hp : p ∈ l) (pc : Pc) : Moves l s (t.goto p pc) :=
  ⟨fun q hq => (Function.update_of_ne (ne_of_not_mem hp hq) _ _).trans (m.pc q hq), m.ofile, m.state⟩

theorem setOfile (m : Moves l s t) (hp : p ∈ l) (fd : Fin nofile) (v : Option (Fin nfile)) : Moves l s (t.setOfile p fd v) :=
  ⟨m.pc, fun q hq => (Function.update_of_ne (ne_of_not_mem hp hq) _ t.ofile).trans (m.ofile q hq), m.state⟩

theorem setState (m : Moves l s t) (hp : p ∈ l) (v : ProcState) : Moves l s (t.setState p v) :=
  ⟨m.pc, m.ofile, fun q hq => (Function.update_of_ne (ne_of_not_mem hp hq) _ _).trans (m.state q hq)⟩

theorem setPipeFile (m : Moves l s t) (f : Fin nfile) (page : Nat) (w : Bool) : Moves l s (t.setPipeFile f page w) :=
  ⟨m.pc, m.ofile, m.state⟩

theorem own (m : Moves l s t) (hq : q ∉ l) : t.own q = s.own q := by
  unfold State.own
  rw [m.pc q hq, m.ofile q hq]

end Moves

theorem counted_plain (h : pc.uncounted = none) (o : Fin nofile → Option (Fin nfile)) : pc.counted o = o := by
  funext fd
  unfold Pc.counted
  rw [h]
  exact if_neg nofun

theorem own_plain (h : pc.uncounted = none) (o : Fin nofile → Option (Fin nfile)) : own pc o = held o + pc.kept := by
  unfold own
  rw [counted_plain h]

theorem Inv.embryo (h : Inv s) (hc : (s.pc q).child = some np) : s.state np = .embryo := by
  have hfine := h.fine q
  cases hpc : s.pc q with
  | forkCopy c =>
    rw [hpc] at hfine hc
    obtain rfl : c = np := Option.some.inj hc
    exact hfine.1
  | forking c i =>
    rw [hpc] at hfine hc
    obtain rfl : c = np := Option.some.inj hc
    exact hfine.1
  | _ =>
    rw [hpc] at hc
    cases hc

theorem Inv.frame (h : Inv s) (m : Moves l s t) (hc : ∀ c, (s.pc q).child = some c → c ∉ l)
    (hfile : ∀ f, t.file f ≠ s.file f → (s.file f).ref = 0 ∨ ∃ p ∈ l, f ∈ s.own p) (hq : q ∉ l) : t.Fine q (t.pc q) := by
  have hofile := m.ofile q hq
  have hblank : ∀ f, f ∈ s.own q → s.Blank f → t.Blank f := by
    intro f hf hb
    have hsame : t.file f = s.file f := by
      by_contra hne
      rcases hfile f hne with h0 | ⟨p, hp, hm⟩
      · exact absurd (hb.1.symm.trans h0) (by decide)
      · exact h.counted.sum_only hb.1 hf (fun e => hq (e ▸ hp)) hm
    unfold State.Blank
    rw [hsame]
    exact hb
  have hclear : ∀ n, s.Cleared q n → t.Cleared q n := fun n hn fd hfd => by rw [hofile]; exact hn fd hfd
  have hempty : ∀ c i, (s.pc q).child = some c → s.Empty c i → t.Empty c i := by
    rintro c i hcc ⟨hs, hn⟩
    have hcl := hc c hcc
    exact ⟨(m.state c hcl).trans hs, fun fd hfd => by rw [m.ofile c hcl]; exact hn fd hfd⟩
  have hfine := h.fine q
  have hown : s.own q = own (s.pc q) (s.ofile q) := rfl
  rw [m.pc q hq]
  cases hpc : s.pc q with
  | user => trivial
  | opening ip omode => trivial
  | opened f ip omode =>
    rw [hpc] at hfine hown
    obtain ⟨hb, fd, hfd⟩ := hfine
    rw [own_plain rfl] at hown
    refine ⟨hblank f ?_ hb, fd, by rw [hofile]; exact hfd⟩
    rw [hown]
    exact Multiset.mem_add.2 (.inl (mem_held.2 ⟨fd, hfd⟩))
  | piping f0 =>
    rw [hpc] at hfine hown
    refine hblank f0 ?_ hfine
    rw [hown, own_plain rfl]
    exact Multiset.mem_add.2 (.inr (Multiset.mem_singleton_self f0))
  | pipeKalloc f0 f1 =>
    rw [hpc] at hfine hown
    rw [own_plain rfl] at hown
    refine ⟨hblank f0 ?_ hfine.1, hblank f1 ?_ hfine.2⟩
    · rw [hown]
      exact Multiset.mem_add.2 (.inr (Multiset.mem_cons_self f0 {f1}))
    · rw [hown]
      exact Multiset.mem_add.2 (.inr (Multiset.mem_cons_of_mem (Multiset.mem_singleton_self f1)))
  | pipeFds rf wf => trivial
  | duping f fd =>
    rw [hpc] at hfine
    change t.ofile q fd = some f ∧ ∃ fd', fd' ≠ fd ∧ t.ofile q fd' = some f
    rw [hofile]
    exact hfine
  | closing f k =>
    rw [hpc] at hfine
    cases k with
    | calls fs => trivial
    | exit fd => exact ⟨by rw [hofile]; exact hfine.1, hclear _ hfine.2⟩
  | releasing f ff k =>
    rw [hpc] at hfine
    cases k with
    | calls fs => trivial
    | exit fd => exact ⟨by rw [hofile]; exact hfine.1, hclear _ hfine.2⟩
  | forkCopy c =>
    rw [hpc] at hfine hempty
    exact hempty c 0 rfl hfine
  | forking c i =>
    rw [hpc] at hfine hempty
    exact hempty c i rfl hfine
  | exiting n =>
    rw [hpc] at hfine
    exact hclear n hfine

theorem Inv.moved (h : Inv s) (m : Moves [p] s t) (hp : s.state p ≠ .embryo)
    (hfile : ∀ f, t.file f ≠ s.file f → (s.file f).ref = 0 ∨ f ∈ s.own p)
    (hcounted : Counted (fun f => (t.file f).ref) t.refs) (hclosed : ∀ f, (t.file f).ref = 0 → (t.file f).type = .none)
    (hfine : t.Fine p (t.pc p)) (hchild : (t.pc p).child = none)
    (hstate : t.state p = .live ∨ t.pc p = .user ∧ ∀ fd, t.ofile p fd = none) (hbooks : Books t.due t.pipe t.past) :
    Inv t := by
  have hmem : ∀ q, q ≠ p → q ∉ [p] := fun q hq hm => hq (List.mem_singleton.1 hm)
  refine ⟨hcounted, hclosed, fun q => ?_, fun q hq => ?_, fun q hq fd => ?_, fun q r np hq hr => ?_, hbooks⟩
  · by_cases hqp : q = p
    · exact hqp ▸ hfine
    · refine h.frame m (fun c hc hm => ?_) (fun f hf => ?_) (hmem q hqp)
      · exact hp (List.mem_singleton.1 hm ▸ h.embryo hc)
      · exact (hfile f hf).imp id fun hm => ⟨p, List.mem_singleton_self p, hm⟩
  · by_cases hqp : q = p
    · rw [hqp] at hq ⊢
      exact hstate.resolve_right fun hu => hq hu.1
    · rw [m.pc q (hmem q hqp)] at hq
      rw [m.state q (hmem q hqp)]
      exact h.live q hq
  · by_cases hqp : q = p
    · rw [hqp] at hq ⊢
      rcases hstate with hl | ⟨-, hn⟩
      · rw [hl] at hq
        rcases hq with hq | hq <;> cases hq
      · exact hn fd
    · rw [m.state q (hmem q hqp)] at hq
      rw [m.ofile q (hmem q hqp)]
      exact h.dead q hq fd
  · have hne : ∀ q c, (t.pc q).child = some c → q ≠ p := by
      rintro q c hc rfl
      rw [hchild] at hc
      cases hc
    rw [m.pc q (hmem q (hne q np hq))] at hq
    rw [m.pc r (hmem r (hne r np hr))] at hr
    exact h.child q r np hq hr

theorem procsDue_same (m : Moves [p] s t) (hpc : s.pc p = pc) (hpc' : t.pc p = pc') (h : pc'.due = pc.due) :
    procsDue t.pc = procsDue s.pc := by
  refine congrArg held (funext fun q => ?_)
  by_cases hqp : q = p
  · rw [hqp, hpc, hpc', h]
  · rw [m.pc q fun hm => hqp (List.mem_singleton.1 hm)]

theorem own_eq (hpc : s.pc p = pc) : s.own p = own pc (s.ofile p) := by
  unfold State.own
  rw [hpc]

theorem refs_same (m : Moves [p] s t) (hpc : s.pc p = pc) (hpc' : t.pc p = pc')
    (h : own pc' (t.ofile p) = own pc (s.ofile p)) : t.refs = s.refs :=
  Counted.sum_same (by rw [own_eq hpc, own_eq hpc', h]) fun _ hq => m.own fun hm => hq (List.mem_singleton.1 hm)

theorem refs_cons (m : Moves [p] s t) (hpc : s.pc p = pc) (hpc' : t.pc p = pc')
    (h : own pc' (t.ofile p) = f ::ₘ own pc (s.ofile p)) : t.refs = f ::ₘ s.refs :=
  Counted.sum_cons (by rw [own_eq hpc, own_eq hpc', h]) fun _ hq => m.own fun hm => hq (List.mem_singleton.1 hm)

theorem refs_drop (m : Moves [p] s t) (hpc : s.pc p = pc) (hpc' : t.pc p = pc')
    (h : own pc (s.ofile p) = f ::ₘ own pc' (t.ofile p)) : s.refs = f ::ₘ t.refs :=
  Counted.sum_cons (by rw [own_eq hpc, own_eq hpc', h]) fun _ hq => (m.own fun hm => hq (List.mem_singleton.1 hm)).symm

theorem Inv.still (h : Inv s) (m : Moves [p] s t) (hpc : s.pc p = pc) (hpc' : t.pc p = pc') (hp : s.state p ≠ .embryo)
    (hfile : t.file = s.file) (hpipe : t.pipe = s.pipe) (hpast : t.past = s.past)
    (hown : own pc' (t.ofile p) = own pc (s.ofile p)) (hdue : pc'.due = pc.due) (hchild : pc'.child = none)
    (hfine : t.Fine p pc') (hstate : t.state p = .live ∨ pc' = .user ∧ ∀ fd, t.ofile p fd = none) : Inv t := by
  subst hpc'
  refine h.moved m hp (fun f hne => absurd (congrFun hfile f) hne) ?_ ?_ hfine hchild hstate ?_
  · rw [refs_same m hpc rfl hown, hfile]
    exact h.counted
  · rw [hfile]
    exact h.closed
  · unfold State.due
    rw [procsDue_same m hpc rfl hdue, hfile, hpipe, hpast]
    exact h.books

theorem filesDue_same {file : Fin nfile → File} {v : File} (h : v.resource = (file f).resource) :
    filesDue (Function.update file f v) = filesDue file := by
  refine congrArg held (funext fun g => ?_)
  by_cases hg : g = f
  · rw [hg, Function.update_self, h]
  · rw [Function.update_of_ne hg]

/-- **A file's count is changed**, by a process that refers to it if it is in use. -/
theorem Inv.counts (h : Inv s) (m : Moves [p] s t) (hpc : s.pc p = pc) (hpc' : t.pc p = pc') (hp : s.state p = .live)
    {n : Nat} (hn : n ≠ 0) (hfile : t.file = Function.update s.file f { s.file f with ref := n })
    (hpipe : t.pipe = s.pipe) (hpast : t.past = s.past)
    (hown : ((s.file f).ref = 0 ∨ f ∈ s.own p) ∧ Counted (fun g => (t.file g).ref) t.refs)
    (hdue : pc'.due = pc.due) (hchild : pc'.child = none) (hfine : t.Fine p pc') (hstate : t.state p = .live) : Inv t := by
  have hother : ∀ g, g ≠ f → t.file g = s.file g := fun g hg => by rw [hfile, Function.update_of_ne hg]
  subst hpc'
  refine h.moved m (by rw [hp]; nofun) (fun g hne => ?_) hown.2 (fun g hg => ?_) hfine hchild (.inl hstate) ?_
  · by_cases hgf : g = f
    · exact hgf ▸ hown.1
    · exact absurd (hother g hgf) hne
  · by_cases hgf : g = f
    · rw [hgf, hfile, Function.update_self] at hg
      exact absurd hg hn
    · rw [hother g hgf] at hg ⊢
      exact h.closed g hg
  · have hres : ({ s.file f with ref := n } : File).resource = (s.file f).resource := rfl
    unfold State.due
    rw [procsDue_same m hpc rfl hdue, hfile, filesDue_same hres, hpipe, hpast]
    exact h.books

theorem ref_update {file : Fin nfile → File} {v : File} {g : Fin nfile} (hg : g ≠ f) :
    (Function.update file f v g).ref = (file g).ref := by
  rw [Function.update_of_ne hg]

theorem Inv.takes (h : Inv s) (m : Moves [p] s t) (hpc : s.pc p = pc) (hpc' : t.pc p = pc') (hp : s.state p = .live)
    (h0 : (s.file f).ref = 0) (hfile : t.file = Function.update s.file f { s.file f with ref := 1 })
    (hpipe : t.pipe = s.pipe) (hpast : t.past = s.past) (hown : own pc' (t.ofile p) = f ::ₘ own pc (s.ofile p))
    (hdue : pc'.due = pc.due) (hchild : pc'.child = none) (hfine : t.Blank f → t.Fine p pc') (hstate : t.state p = .live) :
    Inv t := by
  have hblank : t.Blank f := by
    unfold State.Blank
    rw [hfile, Function.update_self]
    exact ⟨rfl, h.closed f h0⟩
  refine h.counts m hpc hpc' hp Nat.one_ne_zero hfile hpipe hpast ⟨.inl h0, ?_⟩ hdue hchild (hfine hblank) hstate
  rw [refs_cons m hpc hpc' hown, hfile]
  refine h.counted.add ?_ fun g hg => ref_update hg
  rw [Function.update_self, h0]

theorem Inv.dups (h : Inv s) (m : Moves [p] s t) (hpc : s.pc p = pc) (hpc' : t.pc p = pc') (hp : s.state p = .live)
    (hmem : f ∈ s.own p) (hfile : t.file = Function.update s.file f { s.file f with ref := (s.file f).ref + 1 })
    (hpipe : t.pipe = s.pipe) (hpast : t.past = s.past) (hown : own pc' (t.ofile p) = f ::ₘ own pc (s.ofile p))
    (hdue : pc'.due = pc.due) (hchild : pc'.child = none) (hfine : t.Fine p pc') (hstate : t.state p = .live) : Inv t := by
  refine h.counts m hpc hpc' hp (Nat.succ_ne_zero _) hfile hpipe hpast ⟨.inr hmem, ?_⟩ hdue hchild hfine hstate
  rw [refs_cons m hpc hpc' hown, hfile]
  refine h.counted.add ?_ fun g hg => ref_update hg
  rw [Function.update_self]

theorem Inv.drops (h : Inv s) (m : Moves [p] s t) (hpc : s.pc p = pc) (hpc' : t.pc p = pc') (hp : s.state p = .live)
    (hmany : 0 < (s.file f).ref - 1) (hfile : t.file = Function.update s.file f { s.file f with ref := (s.file f).ref - 1 })
    (hpipe : t.pipe = s.pipe) (hpast : t.past = s.past) (hown : own pc (s.ofile p) = f ::ₘ own pc' (t.ofile p))
    (hdue : pc'.due = pc.due) (hchild : pc'.child = none) (hfine : t.Fine p pc') (hstate : t.state p = .live) : Inv t := by
  have hmem : f ∈ s.own p := by
    rw [own_eq hpc, hown]
    exact Multiset.mem_cons_self f _
  refine h.counts m hpc hpc' hp (Nat.ne_of_gt hmany) hfile hpipe hpast ⟨.inr hmem, ?_⟩ hdue hchild hfine hstate
  have hcount := h.counted
  rw [refs_drop m hpc hpc' hown] at hcount
  rw [hfile]
  refine hcount.drop ?_ fun g hg => ref_update hg
  rw [Function.update_self]
  exact Nat.sub_add_cancel (by omega)

/-- **A file loses its last reference**, and the process owes what it stands for. -/
theorem Inv.last (h : Inv s) (m : Moves [p] s t) (hpc : s.pc p = pc) (hpc' : t.pc p = pc') (hp : s.state p = .live)
    (h1 : (s.file f).ref = 1) (hfile : t.file = Function.update s.file f { s.file f with ref := 0, type := .none })
    (hpipe : t.pipe = s.pipe) (hpast : t.past = s.past) (hown : own pc (s.ofile p) = f ::ₘ own pc' (t.ofile p))
    (hdue : pc.due = none) (hdue' : pc'.due = (s.file f).resource.map (Prod.mk f)) (hchild : pc'.child = none)
    (hfine : t.Fine p pc') (hstate : t.state p = .live) : Inv t := by
  have hother : ∀ g, g ≠ f → t.file g = s.file g := fun g hg => by rw [hfile, Function.update_of_ne hg]
  have hmem : f ∈ s.own p := by
    rw [own_eq hpc, hown]
    exact Multiset.mem_cons_self f _
  have hpcs : ∀ q, q ≠ p → t.pc q = s.pc q := fun q hq => m.pc q fun hm => hq (List.mem_singleton.1 hm)
  have hself : t.file f = { s.file f with ref := 0, type := .none } := by rw [hfile, Function.update_self]
  -- what the file stood for moves from the file to the process
  have hsum : t.due = s.due := by
    unfold State.due filesDue procsDue
    cases hr : (s.file f).resource with
    | none =>
      rw [hr] at hdue'
      refine congrArg₂ _ (congrArg held (funext fun g => ?_)) (congrArg held (funext fun q => ?_))
      · by_cases hg : g = f
        · rw [hg, hself, hr]
          rfl
        · rw [hother g hg]
      · by_cases hq : q = p
        · rw [hq, hpc, hpc', hdue, hdue']
          rfl
        · rw [hpcs q hq]
    | some r =>
      rw [hr] at hdue'
      have hfiles : held (fun g => (s.file g).resource.map (Prod.mk g)) =
          (f, r) ::ₘ held (fun g => (t.file g).resource.map (Prod.mk g)) :=
        held_clear (a := f) (by rw [hr]; rfl) (by rw [hself]; rfl) fun g hg => by rw [hother g hg]
      have hprocs : held (fun q => (t.pc q).due) = (f, r) ::ₘ held (fun q => (s.pc q).due) :=
        held_fill (a := p) (by rw [hpc, hdue]) (by rw [hpc', hdue']; rfl) fun q hq => by rw [hpcs q hq]
      rw [hfiles, hprocs, Multiset.cons_add, Multiset.add_cons]
  subst hpc'
  refine h.moved m (by rw [hp]; nofun) (fun g hne => ?_) ?_ (fun g hg => ?_) hfine hchild (.inl hstate) ?_
  · by_cases hgf : g = f
    · exact .inr (hgf ▸ hmem)
    · exact absurd (hother g hgf) hne
  · have hcount := h.counted
    rw [refs_drop m hpc rfl hown] at hcount
    refine hcount.drop ?_ fun g hg => congrArg File.ref (hother g hg)
    rw [hself, h1]
  · by_cases hgf : g = f
    · rw [hgf, hself]
    · rw [hother g hgf] at hg ⊢
      exact h.closed g hg
  · rw [hsum, hpipe, hpast]
    exact h.books

/-! ## The books -/

section Books

variable {due : Multiset (Fin nfile × Resource)} {pipe : Nat → Option Pipe} {past : List Event} {ip page : Nat} {w : Bool}

theorem count_opened (g : Fin nfile) (r x : Resource) :
    (Event.opened f x :: past).count (.opened g r) = past.count (.opened g r) + if (g, r) = (f, x) then 1 else 0 := by
  split_ifs with he
  · obtain ⟨rfl, rfl⟩ := Prod.mk.inj he
    exact List.count_cons_self
  · refine List.count_cons_of_ne fun e => he ?_
    injection e with hf hx
    rw [hf, hx]

theorem count_released (g : Fin nfile) (r x : Resource) :
    (Event.released f x :: past).count (.released g r) = past.count (.released g r) + if (g, r) = (f, x) then 1 else 0 := by
  split_ifs with he
  · obtain ⟨rfl, rfl⟩ := Prod.mk.inj he
    exact List.count_cons_self
  · refine List.count_cons_of_ne fun e => he ?_
    injection e with hf hx
    rw [hf, hx]

theorem Books.openInode (h : Books due pipe past) :
    Books ((f, .inode ip) ::ₘ due) pipe (.opened f (.inode ip) :: past) where
  ledger g r := by
    rw [count_opened, Multiset.count_cons, List.count_cons_of_ne (by nofun), h.ledger g r, Nat.add_assoc]
  ends page w := by
    rw [Multiset.map_cons, Multiset.count_cons_of_ne (by nofun)]
    exact h.ends page w
  closes page w := by
    rw [List.count_cons_of_ne (by nofun), List.countP_cons_of_neg (by nofun)]
    exact h.closes page w
  pages page := by
    rw [List.count_cons_of_ne (by nofun), List.count_cons_of_ne (by nofun)]
    exact h.pages page
  alive := h.alive

theorem Books.iput (h : Books ((f, .inode ip) ::ₘ due) pipe past) :
    Books due pipe (.released f (.inode ip) :: past) where
  ledger g r := by
    have hl := h.ledger g r
    rw [Multiset.count_cons] at hl
    rw [count_released, List.count_cons_of_ne (by nofun), hl]
    omega
  ends page w := by
    have he := h.ends page w
    rwa [Multiset.map_cons, Multiset.count_cons_of_ne (by nofun)] at he
  closes page w := by
    rw [List.count_cons_of_ne (by nofun), List.countP_cons_of_neg (by simp [Event.closes])]
    exact h.closes page w
  pages page := by
    rw [List.count_cons_of_ne (by nofun), List.count_cons_of_ne (by nofun)]
    exact h.pages page
  alive := h.alive

theorem Books.make (h : Books due pipe past) (hpage : pipe page = none) (f0 f1 : Fin nfile) :
    Books ((f1, .pipe page true) ::ₘ (f0, .pipe page false) ::ₘ due) (Function.update pipe page (some ⟨true, true⟩))
      (.opened f1 (.pipe page true) :: .opened f0 (.pipe page false) :: .kalloc page :: past) where
  ledger g r := by
    rw [count_opened, count_opened, Multiset.count_cons, Multiset.count_cons, List.count_cons_of_ne (by nofun),
      List.count_cons_of_ne (by nofun), List.count_cons_of_ne (by nofun), List.count_cons_of_ne (by nofun), h.ledger g r]
    omega
  ends p w := by
    have he := h.ends p w
    rw [Multiset.map_cons, Multiset.map_cons, Multiset.count_cons, Multiset.count_cons, he, Function.update_apply]
    by_cases hp : p = page
    · subst hp
      rw [if_pos rfl, hpage]
      cases w <;> simp [isOpen]
    · simp [hp]
  closes p w := by
    have hc := h.closes p w
    rw [List.count_cons_of_ne (by nofun), List.count_cons_of_ne (by nofun), List.countP_cons_of_neg (by nofun),
      List.countP_cons_of_neg (by nofun), List.countP_cons_of_neg (by nofun), List.count_cons, Function.update_apply]
    by_cases hp : p = page
    · subst hp
      rw [hpage] at hc
      rw [if_pos rfl, hc]
      cases w <;> simp [isOpen]
    · rw [if_neg hp, hc]
      simp [Ne.symm hp]
  pages p := by
    have hc := h.pages p
    rw [List.count_cons_of_ne (by nofun), List.count_cons_of_ne (by nofun), List.count_cons,
      List.count_cons_of_ne (by nofun), List.count_cons_of_ne (by nofun), List.count_cons_of_ne (by nofun),
      Function.update_apply]
    by_cases hp : p = page
    · subst hp
      rw [hpage] at hc
      rw [if_pos rfl, hc]
      simp
    · rw [if_neg hp, hc]
      simp [Ne.symm hp]
  alive p hp := by
    rw [Function.update_apply] at hp ⊢
    split_ifs at hp ⊢ with hpp
    · exact .inl rfl
    · exact h.alive p hp

theorem Books.isOpen (h : Books ((f, .pipe page w) ::ₘ due) pipe past) : isOpen (pipe page) w = true := by
  have he := h.ends page w
  rw [Multiset.map_cons, Multiset.count_cons_self] at he
  by_contra hno
  rw [Bool.not_eq_true] at hno
  rw [hno] at he
  cases he

theorem Books.close (h : Books ((f, .pipe page w) ::ₘ due) pipe past) {v : Option Pipe} {es : List Event}
    (hw : Ftable.isOpen v w = false) (hother : Ftable.isOpen v (!w) = Ftable.isOpen (pipe page) (!w))
    (hv : v.isSome = true ∧ Ftable.isOpen v (!w) = true ∧ es = [] ∨ v = none ∧ es = [.kfree page]) :
    Books due (Function.update pipe page v) (es ++ .released f (.pipe page w) :: past) := by
  have hopen := h.isOpen
  have hsome : (pipe page).isSome = true := by
    cases hp : pipe page with
    | none =>
      rw [hp] at hopen
      cases hopen
    | some v => rfl
  have hes : ∀ e : Event, (∀ p, e ≠ .kfree p) → es.count e = 0 := by
    intro e he
    rcases hv with ⟨-, -, rfl⟩ | ⟨-, rfl⟩
    · rfl
    · exact List.count_eq_zero.2 fun hm => he page (List.mem_singleton.1 hm)
  have hesP : ∀ p w, es.countP (Event.closes p w) = 0 := by
    intro p w
    rcases hv with ⟨-, -, rfl⟩ | ⟨-, rfl⟩ <;> rfl
  refine ⟨fun g r => ?_, fun p u => ?_, fun p u => ?_, fun p => ?_, fun p hp => ?_⟩
  · have hl := h.ledger g r
    rw [Multiset.count_cons] at hl
    rw [List.count_append, List.count_append, hes _ (by nofun), hes _ (by nofun), count_released,
      List.count_cons_of_ne (by nofun), hl]
    omega
  · have he := h.ends p u
    rw [Multiset.map_cons, Multiset.count_cons] at he
    rw [Function.update_apply]
    by_cases hp : p = page
    · subst hp
      rw [if_pos rfl]
      by_cases hu : u = w
      · subst hu
        rw [if_pos rfl, hopen] at he
        rw [hw]
        exact Nat.succ.inj he
      · obtain rfl : u = !w := Bool.eq_not_iff.2 hu
        rw [if_neg (by simp)] at he
        rw [hother]
        exact he
    · rw [if_neg hp]
      rwa [if_neg (by simp [hp])] at he
  · have hc := h.closes p u
    rw [List.count_append, hes _ (by nofun), List.countP_append, hesP, List.count_cons_of_ne (by nofun),
      Nat.zero_add, Nat.zero_add, List.countP_cons, Function.update_apply]
    by_cases hp : p = page
    · subst hp
      rw [if_pos rfl]
      by_cases hu : u = w
      · subst hu
        rw [hopen] at hc
        rw [hw, hc]
        simp [Event.closes]
      · obtain rfl : u = !w := Bool.eq_not_iff.2 hu
        rw [hother, hc]
        simp [Event.closes]
    · rw [if_neg hp, hc]
      simp [Event.closes, Ne.symm hp]
  · have hc := h.pages p
    rw [List.count_append, List.count_append, hes _ (by nofun), List.count_cons_of_ne (by nofun),
      List.count_cons_of_ne (by nofun), Nat.zero_add, Function.update_apply]
    by_cases hp : p = page
    · subst hp
      rw [hsome] at hc
      rw [if_pos rfl, hc]
      rcases hv with ⟨hs, -, rfl⟩ | ⟨rfl, rfl⟩
      · rw [hs]
        simp
      · simp [Nat.add_comm]
    · rw [if_neg hp, hc]
      rcases hv with ⟨hs, -, rfl⟩ | ⟨rfl, rfl⟩
      · simp
      · simp [Ne.symm hp]
  · rw [Function.update_apply] at hp ⊢
    by_cases hpp : p = page
    · rw [if_pos hpp] at hp ⊢
      rcases hv with ⟨-, ho, -⟩ | ⟨rfl, -⟩
      · cases w
        · exact .inr ho
        · exact .inl ho
      · cases hp
    · rw [if_neg hpp] at hp ⊢
      exact h.alive p hp

end Books

/-! ## Files and descriptors -/

@[simp] theorem goto_pc (s : State) (p : Fin nproc) (pc : Pc) : (s.goto p pc).pc p = pc := Function.update_self _ _ _

@[simp] theorem setOfile_self (s : State) (p : Fin nproc) (fd : Fin nofile) (v : Option (Fin nfile)) :
    (s.setOfile p fd v).ofile p = Function.update (s.ofile p) fd v := Function.update_self p _ s.ofile

theorem filealloc_some (h : filealloc s = some (f, t)) :
    (s.file f).ref = 0 ∧ t = s.setFile f { s.file f with ref := 1 } := by
  obtain ⟨g, hg, he⟩ := Option.map_eq_some_iff.1 h
  obtain ⟨rfl, rfl⟩ := Prod.mk.inj he
  exact ⟨by simpa using List.find?_some hg, rfl⟩

theorem fdalloc_some (h : fdalloc p f s = some (fd, t)) : s.ofile p fd = none ∧ t = s.setOfile p fd (some f) := by
  obtain ⟨e, he, heq⟩ := Option.map_eq_some_iff.1 h
  obtain ⟨rfl, rfl⟩ := Prod.mk.inj heq
  exact ⟨by simpa using List.find?_some he, rfl⟩

theorem argfd_some {n : Int} (h : argfd p n s = some (fd, f)) : s.ofile p fd = some f := by
  unfold argfd at h
  split_ifs at h
  obtain ⟨g, hg, he⟩ := Option.map_eq_some_iff.1 h
  obtain ⟨rfl, rfl⟩ := Prod.mk.inj he
  exact hg

theorem held_put {o : Fin nofile → Option (Fin nfile)} (h : o fd = none) :
    held (Function.update o fd (some f)) = f ::ₘ held o :=
  held_fill h (Function.update_self fd _ o) fun _ hx => Function.update_of_ne hx _ o

theorem held_take {o : Fin nofile → Option (Fin nfile)} (h : o fd = some f) :
    held o = f ::ₘ held (Function.update o fd none) :=
  held_clear h (Function.update_self fd _ o) fun _ hx => Function.update_of_ne hx _ o

theorem own_put {o : Fin nofile → Option (Fin nfile)} (h : o fd = none) (hu : pc.uncounted = none)
    (hu' : pc'.uncounted = none) (hk : pc'.kept = pc.kept) : own pc' (Function.update o fd (some f)) = f ::ₘ own pc o := by
  rw [own_plain hu, own_plain hu', held_put h, hk, Multiset.cons_add]

theorem own_keep (hu : pc.uncounted = none) (hu' : pc'.uncounted = none) (hk : pc'.kept = f ::ₘ pc.kept)
    (o : Fin nofile → Option (Fin nfile)) : own pc' o = f ::ₘ own pc o := by
  rw [own_plain hu, own_plain hu', hk, Multiset.add_cons]

theorem own_same (hu : pc.uncounted = none) (hu' : pc'.uncounted = none) (hk : pc'.kept = pc.kept)
    (o : Fin nofile → Option (Fin nfile)) : own pc' o = own pc o := by
  rw [own_plain hu, own_plain hu', hk]

theorem Inv.running (h : Inv s) (hpc : s.pc p = pc) (hne : pc ≠ .user) : s.state p = .live := h.live p (hpc ▸ hne)

theorem Inv.goto (h : Inv s) (hpc : s.pc p = pc) (hlive : s.state p = .live)
    (hown : own pc' (s.ofile p) = own pc (s.ofile p)) (hdue : pc'.due = pc.due) (hchild : pc'.child = none)
    (hfine : (s.goto p pc').Fine p pc') : Inv (s.goto p pc') :=
  h.still ((Moves.refl [p] s).goto (List.mem_singleton_self p) pc') hpc (goto_pc s p pc') (by rw [hlive]; nofun) rfl rfl rfl
    hown hdue hchild hfine (.inl hlive)

/-! ## `sys_open` -/

theorem Inv.openFile (h : Inv s) {ip : Nat} {omode : BitVec 32} (hpc : s.pc p = .opening ip omode) :
    Inv (openFile p ip omode s) := by
  have hlive := h.running hpc nofun
  have hp := List.mem_singleton_self p
  unfold Ftable.openFile
  cases ha : filealloc s with
  | none => exact h.goto hpc hlive (own_same rfl rfl rfl _) rfl rfl trivial
  | some x =>
    obtain ⟨f, t⟩ := x
    obtain ⟨h0, rfl⟩ := filealloc_some ha
    dsimp only
    have m := (Moves.refl [p] s).setFile f { s.file f with ref := 1 }
    cases hd : fdalloc p f (s.setFile f { s.file f with ref := 1 }) with
    | none =>
      exact h.takes (m.goto hp _) hpc (goto_pc _ p _) hlive h0 rfl rfl rfl (own_keep rfl rfl rfl _) rfl rfl
        (fun _ => trivial) hlive
    | some y =>
      obtain ⟨fd, u⟩ := y
      obtain ⟨hnone, rfl⟩ := fdalloc_some hd
      refine h.takes ((m.setOfile hp fd (some f)).goto hp _) hpc (goto_pc _ p _) hlive h0 rfl rfl rfl ?_ rfl rfl
        (fun hb => ⟨hb, fd, ?_⟩) hlive
      · change own _ ((s.setFile f _ |>.setOfile p fd (some f)).ofile p) = _
        rw [setOfile_self]
        exact own_put hnone rfl rfl rfl
      · change (s.setFile f _ |>.setOfile p fd (some f)).ofile p fd = _
        rw [setOfile_self, Function.update_self]

theorem filesDue_open {file : Fin nfile → File} {v : File} {r : Resource} (h : (file f).type = .none)
    (hr : v.resource = some r) : filesDue (Function.update file f v) = (f, r) ::ₘ filesDue file := by
  have hnone : (file f).resource = none := by
    unfold File.resource
    rw [h]
  refine held_fill (a := f) (by rw [hnone]; rfl) ?_ fun g hg => by rw [Function.update_of_ne hg]
  rw [Function.update_self, hr]
  rfl

theorem Inv.fills (h : Inv s) (m : Moves [p] s t) (hpc : s.pc p = pc) (hpc' : t.pc p = pc') (hp : s.state p = .live)
    (href : ∀ g, (t.file g).ref = (s.file g).ref) (hfile : ∀ g, t.file g ≠ s.file g → g ∈ s.own p)
    (hown : own pc' (t.ofile p) = own pc (s.ofile p)) (hdue : pc'.due = pc.due) (hchild : pc'.child = none)
    (hfine : t.Fine p pc') (hstate : t.state p = .live) (hbooks : Books (filesDue t.file + procsDue s.pc) t.pipe t.past) :
    Inv t := by
  subst hpc'
  refine h.moved m (by rw [hp]; nofun) (fun g hg => .inr (hfile g hg)) ?_ (fun g hg => ?_) hfine hchild (.inl hstate) ?_
  · rw [refs_same m hpc rfl hown]
    exact fun g => (href g).trans (h.counted g)
  · rw [href g] at hg
    have hsame : t.file g = s.file g := by
      by_contra hne
      exact absurd hg (Nat.ne_of_gt (h.counted.pos (Counted.mem_sum (hfile g hne))))
    rw [hsame]
    exact h.closed g hg
  · unfold State.due
    rw [procsDue_same m hpc rfl hdue]
    exact hbooks

theorem Inv.openSet (h : Inv s) {ip : Nat} {omode : BitVec 32} (hpc : s.pc p = .opened f ip omode) :
    Inv (openSet p f ip omode s) := by
  have hlive := h.running hpc nofun
  have hfine := h.fine p
  rw [hpc] at hfine
  obtain ⟨⟨-, hnone⟩, fd, hfd⟩ := hfine
  have hmem : f ∈ s.own p := by
    rw [own_eq hpc, own_plain rfl]
    exact Multiset.mem_add.2 (.inl (mem_held.2 ⟨fd, hfd⟩))
  have m : Moves [p] s (Ftable.openSet p f ip omode s) :=
    (((Moves.refl [p] s).setFile f _).emit _).goto (List.mem_singleton_self p) _
  refine h.fills m hpc (goto_pc _ p _) hlive (fun g => ?_) (fun g hne => ?_) (own_same rfl rfl rfl _) rfl rfl
    trivial hlive ?_
  · by_cases hg : g = f
    · rw [hg]
      change (Function.update s.file f _ f).ref = _
      rw [Function.update_self]
    · exact ref_update hg
  · by_cases hgf : g = f
    · exact hgf ▸ hmem
    · exact absurd (Function.update_of_ne hgf _ _) hne
  · change Books (filesDue (Function.update s.file f _) + procsDue s.pc) s.pipe (_ :: s.past)
    rw [filesDue_open hnone rfl, Multiset.cons_add]
    exact h.books.openInode

/-! ## `sys_pipe` -/

theorem Inv.pipeFirst (h : Inv s) (hpc : s.pc p = .user) (hlive : s.state p = .live) : Inv (pipeFirst p s) := by
  unfold Ftable.pipeFirst
  cases ha : filealloc s with
  | none => exact h
  | some x =>
    obtain ⟨f0, t⟩ := x
    obtain ⟨h0, rfl⟩ := filealloc_some ha
    exact h.takes (((Moves.refl [p] s).setFile f0 _).goto (List.mem_singleton_self p) _) hpc (goto_pc _ p _) hlive h0 rfl
      rfl rfl (own_keep rfl rfl rfl _) rfl rfl id hlive

theorem Inv.pipeSecond (h : Inv s) {f0 : Fin nfile} (hpc : s.pc p = .piping f0) : Inv (pipeSecond p f0 s) := by
  have hlive := h.running hpc nofun
  have hb : s.Blank f0 := by
    have hfine := h.fine p
    rwa [hpc] at hfine
  unfold Ftable.pipeSecond
  cases ha : filealloc s with
  | none => exact h.goto hpc hlive (own_same rfl rfl rfl _) rfl rfl trivial
  | some x =>
    obtain ⟨f1, t⟩ := x
    obtain ⟨h0, rfl⟩ := filealloc_some ha
    have hne : f0 ≠ f1 := by
      rintro rfl
      exact absurd (hb.1.symm.trans h0) (by decide)
    refine h.takes (((Moves.refl [p] s).setFile f1 _).goto (List.mem_singleton_self p) _) hpc (goto_pc _ p _) hlive h0 rfl
      rfl rfl (own_keep rfl rfl ?_ _) rfl rfl (fun hb1 => ⟨?_, hb1⟩) hlive
    · exact Multiset.cons_swap f0 f1 0
    · change (Function.update s.file f1 _ f0).ref = 1 ∧ (Function.update s.file f1 _ f0).type = .none
      rw [Function.update_of_ne hne]
      exact hb

theorem Inv.pipePage (h : Inv s) {f0 f1 : Fin nfile} (hpc : s.pc p = .pipeKalloc f0 f1) (mem : Option Nat) :
    Inv (pipePage p f0 f1 mem s) := by
  have hlive := h.running hpc nofun
  have hb : s.Blank f0 ∧ s.Blank f1 := by
    have hfine := h.fine p
    rwa [hpc] at hfine
  have hown : s.own p = held (s.ofile p) + {f0, f1} := by rw [own_eq hpc, own_plain rfl]; rfl
  have hmem0 : f0 ∈ s.own p := by
    rw [hown]
    exact Multiset.mem_add.2 (.inr (Multiset.mem_cons_self f0 {f1}))
  have hmem1 : f1 ∈ s.own p := by
    rw [hown]
    exact Multiset.mem_add.2 (.inr (Multiset.mem_cons_of_mem (Multiset.mem_singleton_self f1)))
  have hne : f1 ≠ f0 := by
    rintro rfl
    have hcount := h.counted f1
    have hle := Multiset.count_le_of_le f1 (Multiset.le_add_left {f1, f1} (held (s.ofile p)))
    rw [← hown] at hle
    dsimp only at hcount
    rw [hb.1.1, State.refs, Counted.split s.own p, Multiset.count_add] at hcount
    rw [show ({f1, f1} : Multiset (Fin nfile)).count f1 = 2 by simp] at hle
    omega
  unfold Ftable.pipePage
  cases hm : mem.filter fun page => (s.pipe page).isNone with
  | none => exact h.goto hpc hlive (own_same rfl rfl rfl _) rfl rfl trivial
  | some page =>
    have hpage : s.pipe page = none := Option.isNone_iff_eq_none.1 (Option.filter_eq_some_iff.1 hm).2
    have m := ((((Moves.refl [p] s).setPipe page (some ⟨true, true⟩)).emit (.kalloc page)).setPipeFile f0 page false
      |>.setPipeFile f1 page true).goto (List.mem_singleton_self p) (.pipeFds f0 f1)
    refine h.fills m hpc (goto_pc _ p _) hlive (fun g => ?_) (fun g hchange => ?_) (own_same rfl rfl rfl _) rfl rfl trivial
      hlive ?_
    · change (Function.update (Function.update s.file f0 _) f1 _ g).ref = _
      by_cases hg1 : g = f1
      · rw [hg1, Function.update_self]
        exact ref_update hne
      · rw [Function.update_of_ne hg1]
        by_cases hg0 : g = f0
        · rw [hg0, Function.update_self]
          rfl
        · exact ref_update hg0
    · by_cases hg1 : g = f1
      · exact hg1 ▸ hmem1
      · by_cases hg0 : g = f0
        · exact hg0 ▸ hmem0
        · exact absurd ((Function.update_of_ne hg1 _ _).trans (Function.update_of_ne hg0 _ _)) hchange
    · change Books (filesDue (Function.update (Function.update s.file f0 _) f1 _) + procsDue s.pc)
        (Function.update s.pipe page _) (_ :: _ :: _ :: s.past)
      rw [filesDue_open ((congrArg File.type (Function.update_of_ne hne _ _)).trans hb.2.2) rfl, filesDue_open hb.1.2 rfl,
        Multiset.cons_add, Multiset.cons_add]
      exact h.books.make hpage f0 f1

theorem Inv.pipeFds (h : Inv s) {rf wf : Fin nfile} (hpc : s.pc p = .pipeFds rf wf) : Inv (pipeFds p rf wf s) := by
  have hlive := h.running hpc nofun
  have hp := List.mem_singleton_self p
  have hne : s.state p ≠ .embryo := by
    rw [hlive]
    nofun
  unfold Ftable.pipeFds
  cases hd : fdalloc p rf s with
  | none => exact h.goto hpc hlive (own_same rfl rfl rfl _) rfl rfl trivial
  | some x =>
    obtain ⟨fd0, t⟩ := x
    obtain ⟨h0, rfl⟩ := fdalloc_some hd
    dsimp only
    have m := (Moves.refl [p] s).setOfile hp fd0 (some rf)
    cases hd' : fdalloc p wf (s.setOfile p fd0 (some rf)) with
    | none =>
      refine h.still ((m.setOfile hp fd0 none).goto hp _) hpc (goto_pc _ p _) hne rfl rfl rfl ?_ rfl rfl trivial (.inl hlive)
      change own _ (((s.setOfile p fd0 (some rf)).setOfile p fd0 none).ofile p) = _
      rw [setOfile_self, setOfile_self, Function.update_idem, ← h0, Function.update_eq_self]
      exact own_same rfl rfl rfl _
    | some y =>
      obtain ⟨fd1, u⟩ := y
      obtain ⟨h1, rfl⟩ := fdalloc_some hd'
      refine h.still ((m.setOfile hp fd1 (some wf)).goto hp _) hpc (goto_pc _ p _) hne rfl rfl rfl ?_ rfl rfl trivial
        (.inl hlive)
      change own _ (((s.setOfile p fd0 (some rf)).setOfile p fd1 (some wf)).ofile p) = _
      rw [setOfile_self] at h1 ⊢
      rw [setOfile_self, own_plain rfl, own_plain rfl, held_put h1, held_put h0]
      change wf ::ₘ rf ::ₘ held (s.ofile p) + 0 = held (s.ofile p) + (rf ::ₘ {wf})
      rw [add_zero, Multiset.add_cons, Multiset.add_comm, Multiset.singleton_add, Multiset.cons_swap]

/-! ## `sys_dup` and `sys_close` -/

theorem Inv.sysDup (h : Inv s) (hpc : s.pc p = .user) (hlive : s.state p = .live) (n : Int) : Inv (sysDup p n s) := by
  have hp := List.mem_singleton_self p
  unfold Ftable.sysDup
  cases ha : argfd p n s with
  | none => exact h
  | some x =>
    obtain ⟨fd, f⟩ := x
    have hfd := argfd_some ha
    dsimp only
    cases hd : fdalloc p f s with
    | none => exact h
    | some y =>
      obtain ⟨e, t⟩ := y
      obtain ⟨he, rfl⟩ := fdalloc_some hd
      have hne : fd ≠ e := by
        rintro rfl
        rw [hfd] at he
        cases he
      refine h.still (((Moves.refl [p] s).setOfile hp e (some f)).goto hp _) hpc (goto_pc _ p _) (by rw [hlive]; nofun) rfl
        rfl rfl ?_ rfl rfl ⟨?_, fd, hne, ?_⟩ (.inl hlive)
      · -- the new descriptor is not counted before `filedup`
        change own _ ((s.setOfile p e (some f)).ofile p) = _
        rw [setOfile_self]
        unfold own
        refine congrArg₂ _ (congrArg held (funext fun d => ?_)) rfl
        unfold Pc.counted
        by_cases hde : d = e
        · rw [hde, he]
          exact (if_pos rfl).trans (if_neg nofun).symm
        · rw [Function.update_of_ne hde]
          exact (if_neg fun hs => hde (Option.some.inj hs).symm).trans (if_neg nofun).symm
      · change (s.setOfile p e (some f)).ofile p e = _
        rw [setOfile_self, Function.update_self]
      · change (s.setOfile p e (some f)).ofile p fd = _
        rw [setOfile_self, Function.update_of_ne hne]
        exact hfd

theorem Inv.filedup (h : Inv s) (hpc : s.pc p = .duping f fd) : ∃ t, (filedup f s).map (·.goto p .user) = .ok t ∧ Inv t := by
  have hlive := h.running hpc nofun
  have hfine := h.fine p
  rw [hpc] at hfine
  obtain ⟨hfd, e, he, hfe⟩ := hfine
  have hcounted : ∀ d, d ≠ fd → Pc.counted (.duping f fd) (s.ofile p) d = s.ofile p d :=
    fun d hd => if_neg fun hs => hd (Option.some.inj hs).symm
  have hmem : f ∈ s.own p := by
    rw [own_eq hpc]
    exact Multiset.mem_add.2 (.inl (mem_held.2 ⟨e, (hcounted e he).trans hfe⟩))
  have hpos := h.counted.pos (Counted.mem_sum hmem)
  unfold Ftable.filedup
  rw [if_neg (by omega)]
  refine ⟨_, rfl, h.dups (((Moves.refl [p] s).setFile f _).goto (List.mem_singleton_self p) .user) hpc (goto_pc _ p _) hlive
    hmem rfl rfl rfl ?_ rfl rfl trivial hlive⟩
  change own .user (s.ofile p) = _
  rw [own_plain rfl]
  unfold own
  rw [← Multiset.cons_add]
  refine congrArg₂ _ (held_fill (a := fd) ?_ hfd fun d hd => (hcounted d hd).symm) rfl
  exact if_pos rfl

theorem Inv.sysClose (h : Inv s) (hpc : s.pc p = .user) (hlive : s.state p = .live) (n : Int) : Inv (sysClose p n s) := by
  have hp := List.mem_singleton_self p
  unfold Ftable.sysClose
  cases ha : argfd p n s with
  | none => exact h
  | some x =>
    obtain ⟨fd, f⟩ := x
    have hfd := argfd_some ha
    refine h.still (((Moves.refl [p] s).setOfile hp fd none).goto hp _) hpc (goto_pc _ p _)
      (by rw [hlive]; nofun) rfl rfl rfl
      ?_ rfl rfl trivial (.inl hlive)
    change own _ ((s.setOfile p fd none).ofile p) = _
    rw [setOfile_self, own_plain rfl, own_plain rfl, held_take hfd]
    change _ + (f ::ₘ 0) = _ + 0
    rw [Multiset.add_cons, Multiset.cons_add]

/-! ## `fileclose` -/

def After.point : After → Pc
  | .calls []        => .user
  | .calls (f :: fs) => .closing f (.calls fs)
  | .exit fd         => .exiting (fd + 1)

theorem resume_pc (k : After) (s : State) : (resume p k s).pc p = k.point := by
  rcases k with (_ | ⟨f, fs⟩) | fd <;> exact goto_pc _ p _

theorem Moves.resume (m : Moves [p] s t) (k : After) : Moves [p] s (resume p k t) := by
  have hp := List.mem_singleton_self p
  rcases k with (_ | ⟨f, fs⟩) | fd
  · exact m.goto hp _
  · exact m.goto hp _
  · exact (m.setOfile hp fd none).goto hp _

theorem resume_file (k : After) (s : State) : (resume p k s).file = s.file := by
  rcases k with (_ | ⟨f, fs⟩) | fd <;> rfl

theorem resume_pipe (k : After) (s : State) : (resume p k s).pipe = s.pipe := by
  rcases k with (_ | ⟨f, fs⟩) | fd <;> rfl

theorem resume_past (k : After) (s : State) : (resume p k s).past = s.past := by
  rcases k with (_ | ⟨f, fs⟩) | fd <;> rfl

theorem resume_state (k : After) (s : State) : (resume p k s).state = s.state := by
  rcases k with (_ | ⟨f, fs⟩) | fd <;> rfl

theorem after_due (k : After) : k.point.due = none := by
  rcases k with (_ | ⟨f, fs⟩) | fd <;> rfl

theorem after_child (k : After) : k.point.child = none := by
  rcases k with (_ | ⟨f, fs⟩) | fd <;> rfl

/-- The descriptors that `fileclose` leaves to `exit`. -/
def State.Left (s : State) (p : Fin nproc) : After → Prop
  | .calls _ => True
  | .exit fd => (∃ f, s.ofile p fd = some f) ∧ s.Cleared p fd

theorem cleared_succ (h : s.Cleared p fd) : (resume p (.exit fd) s).Cleared p (fd + 1) := by
  intro d hd
  change (s.setOfile p fd none).ofile p d = none
  rw [setOfile_self]
  by_cases hdf : d = fd
  · rw [hdf, Function.update_self]
  · rw [Function.update_of_ne hdf]
    exact h d (Nat.lt_of_le_of_ne (Nat.lt_succ_iff.1 hd) fun he => hdf (Fin.ext he))

theorem resume_fine (k : After) (h : s.Left p k) : (resume p k s).Fine p k.point := by
  rcases k with (_ | ⟨f, fs⟩) | fd
  · trivial
  · trivial
  · exact cleared_succ h.2

theorem counted_exit {g : Fin nfile} {v : File} (o : Fin nofile → Option (Fin nfile)) :
    Pc.counted (.releasing g v (.exit fd)) o = Function.update o fd none := by
  funext d
  rw [Function.update_apply]
  unfold Pc.counted
  by_cases hd : d = fd
  · rw [if_pos hd]
    exact if_pos (congrArg some hd.symm)
  · rw [if_neg hd]
    exact if_neg fun hs => hd (Option.some.inj hs).symm

theorem own_closing {g : Fin nfile} {v : File} (k : After) {o : Fin nofile → Option (Fin nfile)}
    (hk : ∀ fd, k = .exit fd → o fd = some f) : own (.closing f k) o = f ::ₘ own (.releasing g v k) o := by
  rcases k with fs | fd
  · exact own_keep rfl rfl rfl o
  · rw [own_plain rfl]
    unfold own
    rw [counted_exit, held_take (hk fd rfl), Multiset.cons_add]
    rfl

theorem own_resume {g : Fin nfile} {v : File} (k : After) (s : State) :
    own k.point ((resume p k s).ofile p) = own (.releasing g v k) (s.ofile p) := by
  rcases k with (_ | ⟨f, fs⟩) | fd
  · exact own_same rfl rfl rfl _
  · exact own_same rfl rfl rfl _
  · change own _ ((s.setOfile p fd none).ofile p) = _
    rw [setOfile_self, own_plain rfl]
    unfold own
    rw [counted_exit]
    rfl

theorem Inv.left (h : Inv s) {k : After} (hpc : s.pc p = .closing f k) :
    s.Left p k ∧ ∀ fd, k = .exit fd → s.ofile p fd = some f := by
  have hfine := h.fine p
  rw [hpc] at hfine
  rcases k with fs | fd
  · exact ⟨trivial, nofun⟩
  · refine ⟨⟨⟨f, hfine.1⟩, hfine.2⟩, fun e he => ?_⟩
    obtain rfl : fd = e := After.exit.inj he
    exact hfine.1

theorem Inv.fileclose (h : Inv s) {k : After} (hpc : s.pc p = .closing f k) : ∃ t, fileclose p f k s = .ok t ∧ Inv t := by
  have hlive := h.running hpc nofun
  obtain ⟨hleft, hk⟩ := h.left hpc
  have hown := own_closing (f := f) (g := f) (v := s.file f) k hk
  have hpos : 0 < (s.file f).ref := by
    refine h.counted.pos (Counted.mem_sum (a := p) ?_)
    rw [own_eq hpc, hown]
    exact Multiset.mem_cons_self f _
  unfold Ftable.fileclose
  dsimp only
  rw [if_neg (by omega)]
  split_ifs with hmany
  · refine ⟨_, rfl, h.drops (((Moves.refl [p] s).setFile f _).resume k) hpc (resume_pc k _) hlive hmany ?_ ?_ ?_ ?_
      (after_due k) (after_child k) (resume_fine k hleft) ?_⟩
    · exact resume_file k _
    · exact resume_pipe k _
    · exact resume_past k _
    · rw [own_resume (g := f) (v := s.file f) k]
      exact hown
    · rw [resume_state]
      exact hlive
  · refine ⟨_, rfl, h.last (((Moves.refl [p] s).setFile f _).goto (List.mem_singleton_self p) _) hpc (goto_pc _ p _) hlive
      (by omega) rfl rfl rfl hown rfl rfl rfl ?_ hlive⟩
    rcases k with fs | fd
    · trivial
    · exact hleft

theorem pipeclose_ok {due : Multiset (Fin nfile × Resource)} {page : Nat} {w : Bool}
    (hb : Books ((f, .pipe page w) ::ₘ due) s.pipe s.past) :
    ∃ t, pipeclose page w (s.emit (.released f (.pipe page w))) = .ok t ∧ t.file = s.file ∧ t.ofile = s.ofile ∧
      t.state = s.state ∧ t.pc = s.pc ∧ Books due t.pipe t.past := by
  have hopen := hb.isOpen
  have hpipe : (s.emit (.released f (.pipe page w))).pipe = s.pipe := rfl
  unfold pipeclose
  rw [hpipe]
  cases hv : s.pipe page with
  | none =>
    rw [hv] at hopen
    cases hopen
  | some v =>
    dsimp only
    generalize hv' : (if w = true then { v with writeopen := false } else { v with readopen := false }) = v'
    have hw : isOpen (some v') w = false := by
      subst hv'
      cases w <;> rfl
    have hother : isOpen (some v') (!w) = isOpen (some v) (!w) := by
      subst hv'
      cases w <;> rfl
    have hlast : v'.readopen = false ∧ v'.writeopen = false ↔ isOpen (some v') (!w) = false := by
      subst hv'
      cases w <;> simp [isOpen]
    split_ifs with hboth
    · refine ⟨_, rfl, rfl, rfl, rfl, rfl, hb.close (v := none) rfl ?_ (.inr ⟨rfl, rfl⟩)⟩
      rw [hv, ← hother, hlast.1 hboth]
      rfl
    · refine ⟨_, rfl, rfl, rfl, rfl, rfl, hb.close (v := some v') hw ?_ (.inl ⟨rfl, ?_, rfl⟩)⟩
      · rw [hv, hother]
      · exact Bool.eq_true_of_not_eq_false fun he => hboth (hlast.2 he)

theorem procsDue_drop (m : Moves [p] s t) {x : Option (Fin nfile × Resource)} (hx : (s.pc p).due = x)
    (ht : (t.pc p).due = none) : procsDue s.pc = x.elim 0 (fun a => {a}) + procsDue t.pc := by
  have hpcs : ∀ q, q ≠ p → (t.pc q).due = (s.pc q).due := fun q hq => by rw [m.pc q fun hm => hq (List.mem_singleton.1 hm)]
  cases x with
  | none =>
    refine (congrArg held (funext fun q => ?_)).trans (zero_add _).symm
    by_cases hq : q = p
    · rw [hq, hx, ht]
    · exact (hpcs q hq).symm
  | some a => exact held_clear (a := p) hx ht hpcs

theorem Inv.lastClose (h : Inv s) {v : File} {k : After} (hpc : s.pc p = .releasing f v k) :
    ∃ t, lastClose p f v k s = .ok t ∧ Inv t := by
  have hlive := h.running hpc nofun
  have hleft : s.Left p k := by
    have hfine := h.fine p
    rw [hpc] at hfine
    rcases k with fs | fd
    · trivial
    · exact hfine
  -- once the books are in order, what is left is to go on
  have hrest : ∀ u : State, u.file = s.file → u.ofile = s.ofile → u.state = s.state → u.pc = s.pc →
      (∀ due, s.due = v.resource.elim 0 (fun r => {(f, r)}) + due → Books due u.pipe u.past) → Inv (resume p k u) := by
    intro u hfile hofile hstate hpcs hbooks
    have m : Moves [p] s (resume p k u) :=
      Moves.resume ⟨fun _ _ => by rw [hpcs], fun _ _ => by rw [hofile], fun _ _ => by rw [hstate]⟩ k
    have hown := own_resume (p := p) (g := f) (v := v) k u
    rw [hofile] at hown
    have hleft' : u.Left p k := by
      rcases k with fs | fd
      · trivial
      · obtain ⟨⟨g, hg⟩, hc⟩ := hleft
        exact ⟨⟨g, by rw [hofile]; exact hg⟩, fun d hd => by rw [hofile]; exact hc d hd⟩
    have hpc' := resume_pc (p := p) k u
    refine h.moved m (by rw [hlive]; nofun) (fun g hne => ?_) ?_ ?_ ?_ ?_ (.inl ?_) ?_
    · rw [resume_file, hfile] at hne
      exact absurd rfl hne
    · rw [refs_same m hpc hpc' hown, resume_file, hfile]
      exact h.counted
    · rw [resume_file, hfile]
      exact h.closed
    · rw [hpc']
      exact resume_fine k hleft'
    · rw [hpc']
      exact after_child k
    · rw [resume_state, hstate]
      exact hlive
    · rw [resume_pipe, resume_past]
      refine hbooks _ ?_
      have hdrop := procsDue_drop m (x := v.resource.map (Prod.mk f)) (by rw [hpc]; rfl) (by rw [hpc']; exact after_due k)
      unfold State.due
      rw [hdrop, resume_file, hfile]
      cases v.resource with
      | none => rfl
      | some r => exact add_left_comm _ _ _
  unfold Ftable.lastClose
  cases hv : v.type with
  | none =>
    have hres : v.resource = none := by
      unfold File.resource
      rw [hv]
    refine ⟨_, rfl, hrest s rfl rfl rfl rfl fun due hdue => ?_⟩
    rw [hres] at hdue
    rw [← zero_add due]
    exact hdue ▸ h.books
  | inode =>
    have hres : v.resource = some (.inode v.ip) := by
      unfold File.resource
      rw [hv]
    refine ⟨_, rfl, hrest (s.emit _) rfl rfl rfl rfl fun due hdue => ?_⟩
    rw [hres] at hdue
    have hb := h.books
    rw [hdue] at hb
    exact hb.iput
  | pipe =>
    have hres : v.resource = some (.pipe v.pipe v.writable) := by
      unfold File.resource
      rw [hv]
    obtain ⟨due, hdue⟩ : ∃ due, s.due = (f, .pipe v.pipe v.writable) ::ₘ due := by
      refine Multiset.exists_cons_of_mem (Multiset.mem_add.2 (.inr (mem_held.2 ⟨p, ?_⟩)))
      rw [hpc]
      exact congrArg (Option.map (Prod.mk f)) hres
    have hb := h.books
    rw [hdue] at hb
    obtain ⟨u, hrun, hfile, hofile, hstate, hpcs, hbooks⟩ := pipeclose_ok hb
    dsimp only
    rw [hrun]
    refine ⟨_, rfl, hrest u hfile hofile hstate hpcs fun due' hdue' => ?_⟩
    rw [hres, hdue] at hdue'
    rw [← (Multiset.cons_inj_right _).1 hdue']
    exact hbooks

/-! ## `fork` -/

/-- What `fork` knows of the child it makes. -/
structure Child (s : State) (p np : Fin nproc) : Prop where
  ne     : np ≠ p
  idle   : s.pc np = .user
  others : ∀ q, q ≠ p → (s.pc q).child ≠ some np

theorem Inv.idle (h : Inv s) (hs : s.state q ≠ .live) : s.pc q = .user := by
  by_contra hne
  exact hs (h.live q hne)

theorem Inv.aChild (h : Inv s) (hpc : s.pc p = pc) (hlive : s.state p = .live) (hc : pc.child = some np) : Child s p np := by
  have hcp : (s.pc p).child = some np := by rw [hpc, hc]
  have hemb := h.embryo hcp
  refine ⟨?_, h.idle (by rw [hemb]; nofun), fun q hq hqc => hq (h.child q p np hqc hcp)⟩
  rintro rfl
  rw [hlive] at hemb
  cases hemb

theorem Inv.family (h : Inv s) (hc : Child s p np) (m : Moves [p, np] s t) (hlive : s.state p = .live)
    (hnp : t.pc np = s.pc np) (hfile : ∀ f, t.file f ≠ s.file f → f ∈ s.own p)
    (hcounted : Counted (fun f => (t.file f).ref) t.refs) (hclosed : ∀ f, (t.file f).ref = 0 → (t.file f).type = .none)
    (hfine : t.Fine p (t.pc p)) (hstate : t.state p = .live) (hchild : ∀ c, (t.pc p).child = some c → c = np)
    (hdead : t.state np = .unused ∨ t.state np = .zombie → ∀ fd, t.ofile np fd = none) (hbooks : Books t.due t.pipe t.past) :
    Inv t := by
  have hpcs : ∀ q, q ≠ p → t.pc q = s.pc q := by
    intro q hq
    by_cases hqn : q = np
    · rw [hqn, hnp]
    · exact m.pc q (by simp [hq, hqn])
  refine ⟨hcounted, hclosed, fun q => ?_, fun q hq => ?_, fun q hq fd => ?_, fun q r c hq hr => ?_, hbooks⟩
  · by_cases hqp : q = p
    · exact hqp ▸ hfine
    by_cases hqn : q = np
    · rw [hqn, hnp, hc.idle]
      trivial
    · refine h.frame m (fun c hqc hm => ?_) (fun f hf => .inr ⟨p, List.mem_cons_self, hfile f hf⟩) (by simp [hqp, hqn])
      rcases List.mem_cons.1 hm with rfl | hm
      · have hemb := h.embryo hqc
        rw [hlive] at hemb
        cases hemb
      · exact hc.others q hqp (List.mem_singleton.1 hm ▸ hqc)
  · by_cases hqp : q = p
    · rw [hqp, hstate]
    · rw [hpcs q hqp] at hq
      have hqn : q ≠ np := by
        rintro rfl
        exact hq hc.idle
      rw [m.state q (by simp [hqp, hqn])]
      exact h.live q hq
  · by_cases hqp : q = p
    · rw [hqp, hstate] at hq
      rcases hq with hq | hq <;> cases hq
    by_cases hqn : q = np
    · rw [hqn] at hq ⊢
      exact hdead hq fd
    · rw [m.state q (by simp [hqp, hqn])] at hq
      rw [m.ofile q (by simp [hqp, hqn])]
      exact h.dead q hq fd
  · by_cases hqp : q = p <;> by_cases hrp : r = p
    · rw [hqp, hrp]
    · rw [hqp] at hq
      rw [hpcs r hrp, hchild c hq] at hr
      exact absurd hr (hc.others r hrp)
    · rw [hrp] at hr
      rw [hpcs q hqp, hchild c hr] at hq
      exact absurd hq (hc.others q hqp)
    · rw [hpcs q hqp] at hq
      rw [hpcs r hrp] at hr
      exact h.child q r c hq hr

theorem procsDue_goto (hpc : s.pc p = pc) (h : pc'.due = pc.due) :
    procsDue (Function.update s.pc p pc') = procsDue s.pc := by
  refine congrArg held (funext fun q => ?_)
  by_cases hq : q = p
  · rw [hq, Function.update_self, hpc, h]
  · rw [Function.update_of_ne hq]

theorem refs_goto (hpc : s.pc p = pc) (hfile : t.ofile = s.ofile) (hpcs : t.pc = Function.update s.pc p pc')
    (h : own pc' (s.ofile p) = own pc (s.ofile p)) : t.refs = s.refs := by
  refine Finset.sum_congr rfl fun q _ => ?_
  unfold State.own
  rw [hfile, hpcs]
  by_cases hq : q = p
  · rw [hq, Function.update_self, hpc, h]
  · rw [Function.update_of_ne hq]

theorem Inv.childState (h : Inv s) (hc : Child s p np) (hlive : s.state p = .live) (hpc : s.pc p = pc) (v : ProcState)
    (hown : own pc' (s.ofile p) = own pc (s.ofile p)) (hdue : pc'.due = pc.due)
    (hfine : ((s.setState np v).goto p pc').Fine p pc') (hchild : ∀ c, pc'.child = some c → c = np)
    (hdead : v = .unused ∨ v = .zombie → ∀ fd, s.ofile np fd = none) : Inv ((s.setState np v).goto p pc') := by
  have m := ((Moves.refl [p, np] s).setState (List.mem_cons_of_mem p (List.mem_singleton_self np)) v).goto List.mem_cons_self
    pc'
  have hvp : ((s.setState np v).goto p pc').state p = .live := (Function.update_of_ne (Ne.symm hc.ne) _ _).trans hlive
  have hvn : ((s.setState np v).goto p pc').state np = v := Function.update_self _ _ _
  refine h.family hc m hlive (Function.update_of_ne hc.ne _ _) (fun f hf => absurd rfl hf) ?_ h.closed ?_ hvp ?_ ?_ ?_
  · rw [refs_goto (t := (s.setState np v).goto p pc') hpc rfl rfl hown]
    exact h.counted
  · rw [goto_pc]
    exact hfine
  · rw [goto_pc]
    exact hchild
  · rw [hvn]
    exact hdead
  · unfold State.due
    rw [show ((s.setState np v).goto p pc').pc = Function.update s.pc p pc' from rfl, procsDue_goto hpc hdue]
    exact h.books

theorem Inv.fork (h : Inv s) (hpc : s.pc p = .user) (hlive : s.state p = .live) : Inv (fork p s) := by
  unfold Ftable.fork
  cases hf : (List.finRange nproc).find? fun q => decide (s.state q = .unused) with
  | none => exact h
  | some np =>
    have hunused : s.state np = .unused := by simpa using List.find?_some hf
    have hnone := h.dead np (.inl hunused)
    have hc : Child s p np := by
      refine ⟨?_, h.idle (by rw [hunused]; nofun), fun q _ hqc => ?_⟩
      · rintro rfl
        rw [hlive] at hunused
        cases hunused
      · have hemb := h.embryo hqc
        rw [hunused] at hemb
        cases hemb
    refine h.childState hc hlive hpc .embryo (own_same rfl rfl rfl _) rfl ⟨?_, fun fd _ => hnone fd⟩ (fun c e => ?_)
      fun _ => hnone
    · exact Function.update_self np _ s.state
    · exact (Option.some.inj e).symm

theorem Inv.forkCopy (h : Inv s) (hpc : s.pc p = .forkCopy np) (ok : Bool) : Inv (forkCopy p np ok s) := by
  have hlive := h.running hpc nofun
  have hc := h.aChild hpc hlive rfl
  have hfine := h.fine p
  rw [hpc] at hfine
  obtain ⟨hemb, hnone⟩ := hfine
  unfold Ftable.forkCopy
  split_ifs
  · have hsame : s.setState np .embryo = s := by
      unfold State.setState
      rw [← hemb, Function.update_eq_self]
    have hnext : Inv ((s.setState np .embryo).goto p (.forking np 0)) :=
      h.childState hc hlive hpc .embryo (own_same rfl rfl rfl _) rfl ⟨Function.update_self np _ s.state, hnone⟩
        (fun c e => (Option.some.inj e).symm) nofun
    rwa [hsame] at hnext
  · exact h.childState hc hlive hpc .unused (own_same rfl rfl rfl _) rfl trivial nofun fun _ fd => hnone fd (Nat.zero_le _)

theorem Inv.forkNext (h : Inv s) {i : Nat} (hpc : s.pc p = .forking np i) : ∃ t, forkNext p np i s = .ok t ∧ Inv t := by
  have hlive := h.running hpc nofun
  have hc := h.aChild hpc hlive rfl
  have hfine := h.fine p
  rw [hpc] at hfine
  obtain ⟨hemb, hnone⟩ := hfine
  have hsame : s.setState np .embryo = s := by
    unfold State.setState
    rw [← hemb, Function.update_eq_self]
  unfold Ftable.forkNext
  split_ifs with hi
  · cases ho : s.ofile p ⟨i, hi⟩ with
    | none =>
      have hnext : Inv ((s.setState np .embryo).goto p (.forking np (i + 1))) :=
        h.childState hc hlive hpc .embryo (own_same rfl rfl rfl _) rfl
          ⟨Function.update_self np _ s.state, fun fd hfd => hnone fd (Nat.le_of_succ_le hfd)⟩
          (fun c e => (Option.some.inj e).symm) nofun
      rw [hsame] at hnext
      exact ⟨_, rfl, hnext⟩
    | some f =>
      have hmem : f ∈ s.own p := by
        rw [own_eq hpc, own_plain rfl]
        exact Multiset.mem_add.2 (.inl (mem_held.2 ⟨_, ho⟩))
      have hpos := h.counted.pos (Counted.mem_sum hmem)
      dsimp only
      unfold Ftable.filedup
      rw [if_neg (by omega)]
      refine ⟨_, rfl, ?_⟩
      have m := (((Moves.refl [p, np] s).setFile f { s.file f with ref := (s.file f).ref + 1 }).setOfile
        (List.mem_cons_of_mem p (List.mem_singleton_self np)) ⟨i, hi⟩ (some f)).goto List.mem_cons_self
        (.forking np (i + 1))
      refine h.family hc m hlive (Function.update_of_ne hc.ne _ _) (fun g hg => ?_) ?_ (fun g hg => ?_) ?_ hlive ?_
        (fun hd => ?_) ?_
      · by_cases hgf : g = f
        · exact hgf ▸ hmem
        · exact absurd (Function.update_of_ne hgf _ _) hg
      · -- the child has one reference more, all other processes as many as before
        have hrefs : (((s.setFile f { s.file f with ref := (s.file f).ref + 1 }).setOfile np ⟨i, hi⟩ (some f)).goto p
            (.forking np (i + 1))).refs = f ::ₘ s.refs := by
          refine Counted.sum_cons (a := np) ?_ fun q hq => ?_
          · change own (Function.update s.pc p _ np) (Function.update s.ofile np _ np) = f ::ₘ own (s.pc np) (s.ofile np)
            rw [Function.update_of_ne hc.ne, Function.update_self, hc.idle]
            exact own_put (hnone _ (Nat.le_refl i)) rfl rfl rfl
          · change own (Function.update s.pc p _ q) (Function.update s.ofile np _ q) = own (s.pc q) (s.ofile q)
            rw [Function.update_of_ne hq]
            by_cases hqp : q = p
            · rw [hqp, Function.update_self, hpc]
              exact own_same rfl rfl rfl _
            · rw [Function.update_of_ne hqp]
        rw [hrefs]
        refine h.counted.add ?_ fun g hg => ref_update hg
        change (Function.update s.file f _ f).ref = _
        rw [Function.update_self]
      · by_cases hgf : g = f
        · rw [hgf] at hg
          change (Function.update s.file f _ f).ref = 0 at hg
          rw [Function.update_self] at hg
          cases hg
        · change (Function.update s.file f _ g).ref = 0 at hg
          change (Function.update s.file f _ g).type = .none
          rw [Function.update_of_ne hgf] at hg ⊢
          exact h.closed g hg
      · rw [goto_pc]
        refine ⟨hemb, fun fd hfd => ?_⟩
        change Function.update s.ofile np _ np fd = none
        rw [Function.update_self, Function.update_of_ne]
        · exact hnone fd (Nat.le_of_succ_le hfd)
        · rintro rfl
          exact absurd hfd (Nat.not_succ_le_self i)
      · rw [goto_pc]
        exact fun c e => (Option.some.inj e).symm
      · change s.state np = .unused ∨ s.state np = .zombie at hd
        rw [hemb] at hd
        rcases hd with hd | hd <;> cases hd
      · have hres : ({ s.file f with ref := (s.file f).ref + 1 } : File).resource = (s.file f).resource := rfl
        have hdue : (Pc.forking np (i + 1)).due = (Pc.forking np i).due := rfl
        change Books (filesDue (Function.update s.file f _) + procsDue (Function.update s.pc p _)) s.pipe s.past
        rw [filesDue_same hres, procsDue_goto hpc hdue]
        exact h.books
  · refine ⟨_, rfl, h.childState hc hlive hpc .live (own_same rfl rfl rfl _) rfl trivial nofun ?_⟩
    rintro (hd | hd) <;> cases hd

/-! ## `exit` and `wait` -/

theorem Inv.exitNext (h : Inv s) {n : Nat} (hpc : s.pc p = .exiting n) : Inv (exitNext p n s) := by
  have hlive := h.running hpc nofun
  have hclear : s.Cleared p n := by
    have hfine := h.fine p
    rwa [hpc] at hfine
  unfold Ftable.exitNext
  split_ifs with hn
  · cases ho : s.ofile p ⟨n, hn⟩ with
    | none =>
      refine h.goto hpc hlive (own_same rfl rfl rfl _) rfl rfl fun fd hfd => ?_
      rcases Nat.lt_succ_iff_lt_or_eq.1 hfd with hlt | heq
      · exact hclear fd hlt
      · obtain rfl : fd = ⟨n, hn⟩ := Fin.ext heq
        exact ho
    | some f => exact h.goto hpc hlive (own_same rfl rfl rfl _) rfl rfl ⟨ho, hclear⟩
  · have hp := List.mem_singleton_self p
    exact h.still (((Moves.refl [p] s).setState hp .zombie).goto hp .user) hpc (goto_pc _ p _) (by rw [hlive]; nofun) rfl rfl
      rfl (own_same rfl rfl rfl _) rfl rfl trivial (.inr ⟨rfl, fun fd => hclear fd (by omega)⟩)

theorem Inv.reap (h : Inv s) (hs : s.state p = .zombie) : Inv (s.setState p .unused) := by
  have hpc := h.idle (by rw [hs]; nofun)
  exact h.still ((Moves.refl [p] s).setState (List.mem_singleton_self p) .unused) hpc hpc (by rw [hs]; nofun) rfl rfl rfl rfl
    rfl rfl trivial (.inr ⟨rfl, h.dead p (.inr hs)⟩)

/-! ## Steps and runs -/

theorem Inv.call (h : Inv s) (hpc : s.pc p = .user) (hlive : s.state p = .live) (c : Call) :
    (∃ t, s.call p c = .ok t ∧ Inv t) ∨ s.call p c = .error (.panic "init exiting") := by
  cases c with
  | opens found omode =>
    cases found with
    | none => exact .inl ⟨s, rfl, h⟩
    | some ip => exact .inl ⟨_, rfl, h.goto hpc hlive (own_same rfl rfl rfl _) rfl rfl trivial⟩
  | pipe => exact .inl ⟨_, rfl, h.pipeFirst hpc hlive⟩
  | dup fd => exact .inl ⟨_, rfl, h.sysDup hpc hlive fd⟩
  | close fd => exact .inl ⟨_, rfl, h.sysClose hpc hlive fd⟩
  | fork => exact .inl ⟨_, rfl, h.fork hpc hlive⟩
  | exit =>
    unfold State.call
    split_ifs
    · exact .inr rfl
    · exact .inl ⟨_, rfl, h.goto hpc hlive (own_same rfl rfl rfl _) rfl rfl fun fd hfd => absurd hfd (Nat.not_lt_zero _)⟩

theorem Inv.next (h : Inv s) (p : Fin nproc) (mem : Option Nat) : ∃ t, s.next p mem = .ok t ∧ Inv t := by
  unfold State.next
  cases hpc : s.pc p with
  | user => exact ⟨s, rfl, h⟩
  | opening ip omode => exact ⟨_, rfl, h.openFile hpc⟩
  | opened f ip omode => exact ⟨_, rfl, h.openSet hpc⟩
  | piping f0 => exact ⟨_, rfl, h.pipeSecond hpc⟩
  | pipeKalloc f0 f1 => exact ⟨_, rfl, h.pipePage hpc mem⟩
  | pipeFds rf wf => exact ⟨_, rfl, h.pipeFds hpc⟩
  | duping f fd => exact h.filedup hpc
  | closing f k => exact h.fileclose hpc
  | releasing f ff k => exact h.lastClose hpc
  | forkCopy np => exact ⟨_, rfl, h.forkCopy hpc mem.isSome⟩
  | forking np i => exact h.forkNext hpc
  | exiting fd => exact ⟨_, rfl, h.exitNext hpc⟩

theorem Inv.step (h : Inv s) (a : Act) : (∃ t, s.step a = .ok t ∧ Inv t) ∨ s.step a = .error (.panic "init exiting") := by
  cases a with
  | call p c =>
    unfold State.step
    dsimp only
    split_ifs with hc
    · have hpc : s.pc p = .user := by
        cases hpc : s.pc p with
        | user => rfl
        | _ =>
          rw [hpc] at hc
          cases hc.2
      exact h.call hpc hc.1 c
    · exact .inl ⟨s, rfl, h⟩
  | next p mem => exact .inl (h.next p mem)
  | reap p =>
    refine .inl ⟨_, rfl, ?_⟩
    split_ifs with hs
    · exact h.reap hs
    · exact h

theorem Inv.run : ∀ (as : List Act) (s : State), Inv s →
    (∃ t, State.run as s = .ok t ∧ Inv t) ∨ State.run as s = .error (.panic "init exiting")
  | [], s, h      => .inl ⟨s, rfl, h⟩
  | a :: as, s, h => by
    unfold State.run
    rcases h.step a with ⟨t, ht, hinv⟩ | herr
    · rw [ht]
      exact Inv.run as t hinv
    · rw [herr]
      exact .inr rfl

theorem Inv.init : Inv init := by
  have hown : ∀ p, Ftable.init.own p = 0 := by
    intro p
    unfold State.own
    rw [own_plain rfl]
    refine (add_zero _).trans (Multiset.eq_zero_of_forall_notMem fun f hf => ?_)
    obtain ⟨fd, hfd⟩ := mem_held.1 hf
    cases hfd
  have hdue : Ftable.init.due = 0 := by
    refine Multiset.eq_zero_of_forall_notMem fun x hx => ?_
    rcases Multiset.mem_add.1 hx with hx | hx
    · obtain ⟨f, hf⟩ := mem_held.1 hx
      cases hf
    · obtain ⟨p, hp⟩ := mem_held.1 hx
      cases hp
  refine ⟨fun f => ?_, fun f _ => rfl, fun p => trivial, fun p hp => absurd rfl hp, fun p _ fd => rfl, nofun, ?_⟩
  · rw [State.refs, Finset.sum_eq_zero fun p _ => hown p]
    rfl
  · rw [hdue]
    exact ⟨fun f r => rfl, fun page w => rfl, fun page w => rfl, fun page => rfl, nofun⟩

/-! ## What is released -/

/-- The descriptors of all processes that point to `f`. -/
def State.slots (s : State) (f : Fin nfile) : Nat :=
  (Finset.univ.filter fun x : Fin nproc × Fin nofile => s.ofile x.1 x.2 = some f).card

def State.Quiet (s : State) : Prop := ∀ p, s.pc p = .user

structure Released (s : State) : Prop where
  counts : s.Quiet → ∀ f, (s.file f).ref = s.slots f
  /-- What a file has stood for is released, but for what it stands for as long as a descriptor points to it. -/
  once   : s.Quiet → ∀ f r, s.past.count (.opened f r) =
    s.past.count (.released f r) + if (s.file f).resource = some r ∧ 0 < s.slots f then 1 else 0
  early  : ∀ f r, (s.file f).resource = some r → s.past.count (.released f r) < s.past.count (.opened f r)
  /-- A page that was a pipe has been freed, but for one that a descriptor still leads to. -/
  pages  : s.Quiet → ∀ page, s.past.count (.kalloc page) =
    s.past.count (.kfree page) + if ∃ f w, (s.file f).resource = some (.pipe page w) ∧ 0 < s.slots f then 1 else 0
  /-- It has been freed when both its ends were closed. -/
  ends   : ∀ page w, s.past.count (.kfree page) ≤ s.past.countP (Event.closes page w)

theorem count_filesDue (file : Fin nfile → File) (f : Fin nfile) (r : Resource) :
    (filesDue file).count (f, r) = if (file f).resource = some r then 1 else 0 := by
  have hone : ∀ g, (file g).resource.map (Prod.mk g) = some (f, r) ↔ g = f ∧ (file f).resource = some r := by
    intro g
    rw [Option.map_eq_some_iff]
    constructor
    · rintro ⟨r', hr', he⟩
      obtain ⟨rfl, rfl⟩ := Prod.mk.inj he
      exact ⟨rfl, hr'⟩
    · rintro ⟨rfl, hr⟩
      exact ⟨r, hr, rfl⟩
  unfold filesDue
  rw [Counted.count_held, Finset.filter_congr fun g _ => hone g]
  split_ifs with hr
  · exact Finset.card_eq_one.2 ⟨f, by ext g; simp [hr]⟩
  · exact Finset.card_eq_zero.2 (by simp [hr])

theorem Inv.quiet_counts (h : Inv s) (hq : s.Quiet) (f : Fin nfile) : (s.file f).ref = s.slots f := by
  have hown : ∀ p, (s.own p).count f = (Finset.univ.filter fun fd => s.ofile p fd = some f).card := by
    intro p
    rw [own_eq (hq p), own_plain rfl, Multiset.count_add, Counted.count_held]
    rfl
  refine (h.counted f).trans ?_
  rw [State.refs, Multiset.count_sum', Finset.sum_congr rfl fun p _ => hown p]
  have hsum : (∑ x : Fin nproc × Fin nofile, if s.ofile x.1 x.2 = some f then 1 else 0) =
      ∑ p, ∑ fd, if s.ofile p fd = some f then 1 else 0 := Fintype.sum_prod_type _
  unfold State.slots
  rw [Finset.card_filter, hsum]
  exact Finset.sum_congr rfl fun p _ => Finset.card_filter _ _

theorem quiet_due (hq : s.Quiet) : s.due = filesDue s.file := by
  refine (congrArg _ (Multiset.eq_zero_of_forall_notMem fun x hx => ?_)).trans (add_zero _)
  obtain ⟨p, hp⟩ := mem_held.1 hx
  rw [hq p] at hp
  cases hp

theorem Inv.quiet_open (h : Inv s) (hq : s.Quiet) (page : Nat) (w : Bool) :
    isOpen (s.pipe page) w = true ↔ ∃ f, (s.file f).resource = some (.pipe page w) := by
  have hends := h.books.ends page w
  rw [quiet_due hq] at hends
  have hmem : isOpen (s.pipe page) w = true ↔ Resource.pipe page w ∈ (filesDue s.file).map Prod.snd := by
    rw [← Multiset.count_pos, hends]
    cases isOpen (s.pipe page) w <;> simp
  rw [hmem, Multiset.mem_map]
  constructor
  · rintro ⟨x, hx, hxr⟩
    obtain ⟨f, hf⟩ := mem_held.1 hx
    obtain ⟨r, hr, rfl⟩ := Option.map_eq_some_iff.1 hf
    exact ⟨f, hxr ▸ hr⟩
  · rintro ⟨f, hf⟩
    exact ⟨(f, .pipe page w), mem_held.2 ⟨f, by rw [hf]; rfl⟩, rfl⟩

theorem Inv.quiet_pipe (h : Inv s) (hq : s.Quiet) (page : Nat) :
    (s.pipe page).isSome = true ↔ ∃ f w, (s.file f).resource = some (.pipe page w) := by
  constructor
  · intro hsome
    rcases h.books.alive page hsome with ho | ho
    · obtain ⟨f, hf⟩ := (h.quiet_open hq page false).1 ho
      exact ⟨f, false, hf⟩
    · obtain ⟨f, hf⟩ := (h.quiet_open hq page true).1 ho
      exact ⟨f, true, hf⟩
  · rintro ⟨f, w, hf⟩
    have ho := (h.quiet_open hq page w).2 ⟨f, hf⟩
    cases hv : s.pipe page with
    | none =>
      rw [hv] at ho
      cases ho
    | some v => rfl

theorem Inv.released (h : Inv s) : Released s := by
  have hposs : s.Quiet → ∀ f r, (s.file f).resource = some r → 0 < s.slots f := by
    intro hq f r hr
    rw [← h.quiet_counts hq f]
    refine Nat.pos_of_ne_zero fun h0 => ?_
    unfold File.resource at hr
    rw [h.closed f h0] at hr
    cases hr
  have hiff : s.Quiet → ∀ f r, ((s.file f).resource = some r ∧ 0 < s.slots f) ↔ (s.file f).resource = some r :=
    fun hq f r => ⟨And.left, fun hr => ⟨hr, hposs hq f r hr⟩⟩
  refine ⟨h.quiet_counts, fun hq f r => ?_, fun f r hr => ?_, fun hq page => ?_, fun page w => ?_⟩
  · rw [h.books.ledger f r, quiet_due hq, count_filesDue]
    simp only [hiff hq]
  · rw [h.books.ledger f r]
    unfold State.due
    rw [Multiset.count_add, count_filesDue, if_pos hr]
    omega
  · rw [h.books.pages page]
    simp only [hiff hq, ← h.quiet_pipe hq page]
    cases (s.pipe page).isSome <;> rfl
  · have hc := h.books.closes page w
    have hp := h.books.pages page
    have hle : (isOpen (s.pipe page) w).toNat ≤ (s.pipe page).isSome.toNat := by
      cases s.pipe page with
      | none => exact Nat.le_refl _
      | some v => exact Bool.toNat_le _
    omega

/-- **Open files are released once.** -/
theorem files_released (as : List Act) : (∃ s, State.run as init = .ok s ∧ Released s) ∨
    State.run as init = .error (.panic "init exiting") :=
  (Inv.run as init Inv.init).imp (fun ⟨s, hs, h⟩ => ⟨s, hs, h.released⟩) id

end Ftable
end Xv6
