import Xv6.Lib.Ring
import Xv6.Swap.Vm
/-!
# Swap.Lru — the LRU list as a ring

What `reclaim`, `append_lru` and the scan of `deallocuvm` do to a well-linked list.  They touch `pages`,
`page_lru_head` and `num_lru_pages` and nothing else (`LruOnly`), and leave the page directory and the address of the
entries that stay (`SameKeys`).
-/
namespace Xv6
namespace Swap

open Mem
open Prog (Triple)

/-- The entries `h :: l` are linked into a ring. -/
def OnRing (s : Kern) (h : Frame) (l : List Frame) : Prop :=
  IsRing (fun f => (s.pages f).next) (fun f => (s.pages f).prev) h l

def LruOnly (s s' : Kern) : Prop :=
  ∃ pages head num, s' = { s with pages := pages, pageLruHead := head, numLruPages := num }

/-- An entry has the page directory and the address it had. -/
def SameKey (s s' : Kern) (f : Frame) : Prop :=
  (s'.pages f).pgdir = (s.pages f).pgdir ∧ (s'.pages f).vaddr = (s.pages f).vaddr

def Matches (s : Kern) (pgdir : Frame) (a : Addr) (f : Frame) : Prop :=
  (s.pages f).vaddr = a ∧ (s.pages f).pgdir = some pgdir

instance (s : Kern) (pgdir : Frame) (a : Addr) (f : Frame) : Decidable (Matches s pgdir a f) :=
  inferInstanceAs (Decidable (_ ∧ _))

theorem LruOnly.refl (s : Kern) : LruOnly s s := ⟨s.pages, s.pageLruHead, s.numLruPages, rfl⟩

theorem LruOnly.trans {s s' s'' : Kern} (h : LruOnly s s') (h' : LruOnly s' s'') : LruOnly s s'' := by
  obtain ⟨p, hd, n, rfl⟩ := h
  obtain ⟨p', hd', n', rfl⟩ := h'
  exact ⟨p', hd', n', rfl⟩

theorem LruOnly.setInfo (s : Kern) (f : Frame) (i : PageInfo) : LruOnly s (s.setInfo f i) := ⟨_, _, _, rfl⟩

section Fields

variable (s : Kern) (f g : Frame) (n : Option Frame) (i : PageInfo)

@[simp] theorem setInfo_pages : (s.setInfo f i).pages g = if g = f then i else s.pages g := rfl
@[simp] theorem setInfo_head : (s.setInfo f i).pageLruHead = s.pageLruHead := rfl
@[simp] theorem setInfo_num : (s.setInfo f i).numLruPages = s.numLruPages := rfl
@[simp] theorem setNext_head : (s.setNext f n).pageLruHead = s.pageLruHead := rfl
@[simp] theorem setPrev_head : (s.setPrev f n).pageLruHead = s.pageLruHead := rfl

@[simp] theorem setNext_next : ((s.setNext f n).pages g).next = if g = f then n else (s.pages g).next := by
  unfold Kern.setNext; rw [setInfo_pages]; split <;> rfl

@[simp] theorem setNext_prev : ((s.setNext f n).pages g).prev = (s.pages g).prev := by
  unfold Kern.setNext; rw [setInfo_pages]; split <;> simp [*]

@[simp] theorem setPrev_prev : ((s.setPrev f n).pages g).prev = if g = f then n else (s.pages g).prev := by
  unfold Kern.setPrev; rw [setInfo_pages]; split <;> rfl

@[simp] theorem setPrev_next : ((s.setPrev f n).pages g).next = (s.pages g).next := by
  unfold Kern.setPrev; rw [setInfo_pages]; split <;> simp [*]

theorem setNext_sameKey : SameKey s (s.setNext f n) g := by
  unfold Kern.setNext SameKey; rw [setInfo_pages]; split <;> simp [*]

theorem setPrev_sameKey : SameKey s (s.setPrev f n) g := by
  unfold Kern.setPrev SameKey; rw [setInfo_pages]; split <;> simp [*]

end Fields

theorem SameKey.trans {s s' s'' : Kern} {f : Frame} (h : SameKey s s' f) (h' : SameKey s' s'' f) : SameKey s s'' f :=
  ⟨h'.1.trans h.1, h'.2.trans h.2⟩

theorem follow_run {α : Type} {p : Kern → Option α} {s : Kern} {a : α} (h : p s = some a) :
    follow p s = ⟨.ok a, s, []⟩ := by
  unfold follow
  rw [Prog.read_bind_run, h]
  rfl

theorem follow_error {α : Type} {p : Kern → Option α} {s : Kern} (h : p s = none) :
    follow p s = ⟨.error .wild, s, []⟩ := by
  unfold follow
  rw [Prog.read_bind_run, h]
  rfl

theorem follow_bind_run {α β : Type} {p : Kern → Option α} {f : α → K β} {s : Kern} {a : α} (h : p s = some a) :
    (follow p >>= f) s = f a s := by
  rw [Prog.bind_run_ok (follow_run h)]
  rfl

/-! ## An entry leaves -/

/-- Off the entry `gone`, `z` now leads to `y`, and nothing else of the list changed. -/
def Joins (s s' : Kern) (gone z y : Frame) : Prop := ∀ f, f ≠ gone →
  (s'.pages f).next = (if f = z then some y else (s.pages f).next) ∧
  (s'.pages f).prev = (if f = y then some z else (s.pages f).prev) ∧ SameKey s s' f

theorem Joins.unlink {s s' : Kern} {gone y z : Frame} {l : List Frame} (hj : Joins s s' gone z y)
    (hr : OnRing s gone (y :: l)) (hz : (y :: l).getLast? = some z) : OnRing s' y l := by
  have hnd := List.nodup_cons.1 hr.nodup
  have hne : ∀ f ∈ y :: l, f ≠ gone := fun f hf he => hnd.1 (he ▸ hf)
  have hzm : z ∈ y :: l := List.mem_of_getLast? hz
  refine IsRing.unlink hr hz (fun f hf hfz => ?_) (fun f hf => ?_) ⟨?_, ?_⟩
  · rw [(hj f (hne f hf)).1, if_neg hfz]
  · have hfy : f ≠ y := fun he => (List.nodup_cons.1 hnd.2).1 (he ▸ hf)
    rw [(hj f (hne f (List.mem_cons_of_mem y hf))).2.1, if_neg hfy]
  · exact (hj z (hne z hzm)).1.trans (if_pos rfl)
  · exact (hj y (hne y List.mem_cons_self)).2.1.trans (if_pos rfl)

theorem Joins.delete {s s' : Kern} {h gone y z : Frame} {l₁ l₂ : List Frame} (hj : Joins s s' gone z y)
    (hr : OnRing s h (l₁ ++ gone :: l₂)) (hy : (l₂ ++ h :: l₁).head? = some y)
    (hz : (l₂ ++ h :: l₁).getLast? = some z) : OnRing s' h (l₁ ++ l₂) := by
  have hrot : OnRing s gone (l₂ ++ h :: l₁) := hr.rotate
  cases l₂ with
  | nil =>
    obtain rfl : h = y := by simpa using hy
    rw [List.append_nil]
    exact hj.unlink hrot hz
  | cons y' l₂ =>
    obtain rfl : y' = y := by simpa using hy
    exact (hj.unlink (l := l₂ ++ h :: l₁) hrot hz).rotate

theorem setNext_setPrev_joins (s : Kern) (gone y z : Frame) :
    Joins s ((s.setNext z (some y)).setPrev y (some z)) gone z y :=
  fun f _ => ⟨by simp, by simp, (setNext_sameKey s z f _).trans (setPrev_sameKey _ y f _)⟩

theorem setPrev_setNext_joins (s : Kern) (gone y z : Frame) :
    Joins s ((s.setPrev y (some z)).setNext z (some y)) gone z y :=
  fun f _ => ⟨by simp, by simp, (setPrev_sameKey s y f _).trans (setNext_sameKey _ z f _)⟩

/-- **`reclaim` takes its target off the list**: the rest stays linked, or there is no rest and the head is null. -/
theorem unlinkHead_run {s : Kern} {h : Frame} {l : List Frame} (hr : OnRing s h l) :
    ∃ s', unlinkHead h s = ⟨.ok (), s', []⟩ ∧ LruOnly s s' ∧
      (∀ f, SameKey s s' f) ∧
      ((l = [] ∧ s'.pageLruHead = none) ∨ ∃ y l', l = y :: l' ∧ s'.pageLruHead = some y ∧ OnRing s' y l') := by
  obtain ⟨z, hz⟩ : ∃ z, (h :: l).getLast? = some z := ⟨_, List.getLast?_eq_some_getLast (List.cons_ne_nil h l)⟩
  obtain ⟨y, hy⟩ : ∃ y, (l ++ [h]).head? = some y := ⟨_, List.head?_eq_some_head (by simp)⟩
  have hprev : (s.pages h).prev = some z := (hr.link_last hz).2
  have hnext : (s.pages h).next = some y := by
    cases l with
    | nil => simpa using hy ▸ (hr.link_last rfl).1
    | cons y' l =>
      obtain rfl : y' = y := by simpa using hy
      exact hr.next_cons.1
  let s₁ : Kern := { s with pageLruHead := some y }
  let s₂ := (s₁.setPrev y (some z)).setNext z (some y)
  have hfst : unlinkHead h s = Prog.when (y = h) (Prog.modify (fun s => { s with pageLruHead := none })) s₂ := by
    unfold unlinkHead
    rw [Prog.modify_bind_run, hnext, follow_bind_run (a := y) rfl, Prog.modify_bind_run]
    have hp : ((s₁.setPrev y (s₁.pages h).prev).pages h).prev = some z := by
      rw [setPrev_prev]
      show (if h = y then (s.pages h).prev else (s.pages h).prev) = some z
      rw [hprev]
      exact ite_self _
    rw [follow_bind_run (a := z) hp, Prog.modify_bind_run]
    show _ = Prog.when (y = h) _ ((s₁.setPrev y (some z)).setNext z (some y))
    rw [← hprev]
  have hkey : ∀ f, SameKey s s₂ f := fun f => (setPrev_sameKey s₁ y f _).trans (setNext_sameKey _ z f _)
  cases l with
  | nil =>
    obtain rfl : h = y := by simpa using hy
    rw [hfst, Prog.when_pos rfl, Prog.modify_run]
    exact ⟨_, rfl, ⟨_, _, _, rfl⟩, hkey, .inl ⟨rfl, rfl⟩⟩
  | cons y' l =>
    obtain rfl : y' = y := by simpa using hy
    have hyh : y' ≠ h := fun he => (List.nodup_cons.1 hr.nodup).1 (by rw [← he]; exact List.mem_cons_self)
    have hj : Joins s s₂ h z y' := setPrev_setNext_joins s₁ h y' z
    rw [hfst, Prog.when_neg hyh, Prog.pure_run]
    rw [List.getLast?_cons_cons] at hz
    exact ⟨_, rfl, ⟨_, _, _, rfl⟩, hkey, .inr ⟨y', l, rfl, rfl, hj.unlink hr hz⟩⟩

/-- `f` is taken from between `z` and `y`, and left without links. -/
def unlinked (s : Kern) (f z y : Frame) : Kern :=
  ((s.setNext z (some y)).setPrev y (some z)).setInfo f ⟨none, none, none, 0⟩

theorem unlinkPage_run {s : Kern} {f y z : Frame} (hp : (s.pages f).prev = some z) (hn : (s.pages f).next = some y) :
    unlinkPage f s = ⟨.ok (), unlinked s f z y, []⟩ := by
  have hn' : ((s.setNext z (some y)).pages f).next = some y := by rw [setNext_next, hn, ite_self]
  unfold unlinkPage unlinked
  rw [follow_bind_run hp, Prog.modify_bind_run, hn, follow_bind_run hn', Prog.modify_bind_run, setNext_prev, hp,
    Prog.modify_run]

theorem popLru_head {s : Kern} {f : Frame} (hh : s.pageLruHead = some f) (hf : f.toNat < npages) :
    popLru f s = ⟨.ok (), { s with pageLruHead := none, numLruPages := s.numLruPages - 1 }, []⟩ := by
  unfold popLru unlinkLru
  rw [if_neg (Nat.not_le.2 hf)]
  simp only [Prog.bind_run, Prog.read_run, hh, if_true]
  rfl

theorem popLru_linked {s : Kern} {f y z : Frame} (hh : s.pageLruHead ≠ some f) (hf : f.toNat < npages)
    (hp : (s.pages f).prev = some z) (hn : (s.pages f).next = some y) :
    popLru f s = ⟨.ok (), { unlinked s f z y with numLruPages := s.numLruPages - 1 }, []⟩ := by
  have hun : unlinkLru f s = ⟨.ok (), unlinked s f z y, []⟩ := by
    unfold unlinkLru
    rw [Prog.read_bind_run, if_neg hh, unlinkPage_run hp hn]
  unfold popLru
  rw [if_neg (Nat.not_le.2 hf), Prog.bind_run_ok hun]
  rfl

/-- **`pop_lru` of an entry behind the head takes it off the ring**, counts it off and leaves it without links. -/
theorem popLru_run {s : Kern} {h f : Frame} {l₁ l₂ : List Frame} (hr : OnRing s h (l₁ ++ f :: l₂))
    (hh : s.pageLruHead = some h) (hf : f.toNat < npages) :
    ∃ s', popLru f s = ⟨.ok (), s', []⟩ ∧ LruOnly s s' ∧ s'.pageLruHead = some h ∧ OnRing s' h (l₁ ++ l₂) ∧
      s'.numLruPages = s.numLruPages - 1 ∧ (s'.pages f).next = none ∧ ∀ g, g ≠ f → SameKey s s' g := by
  have hrot : OnRing s f (l₂ ++ h :: l₁) := hr.rotate
  have hfh : h ≠ f := fun he => (List.nodup_cons.1 hr.nodup).1 (he ▸ List.mem_append_right l₁ List.mem_cons_self)
  have hhf : s.pageLruHead ≠ some f := by rw [hh]; exact fun he => hfh (Option.some.inj he)
  obtain ⟨y, w, hyw⟩ : ∃ y w, l₂ ++ h :: l₁ = y :: w := by
    cases l₂ with
    | nil => exact ⟨h, l₁, rfl⟩
    | cons y l₂ => exact ⟨y, l₂ ++ h :: l₁, rfl⟩
  obtain ⟨z, hz⟩ : ∃ z, (l₂ ++ h :: l₁).getLast? = some z := ⟨_, List.getLast?_eq_some_getLast (by simp)⟩
  have hzf : (f :: (l₂ ++ h :: l₁)).getLast? = some z := by
    rw [hyw] at hz ⊢; rw [List.getLast?_cons_cons]; exact hz
  have hprev : (s.pages f).prev = some z := (hrot.link_last hzf).2
  have hnext : (s.pages f).next = some y := by rw [hyw] at hrot; exact hrot.next_cons.1
  have hj : Joins s { unlinked s f z y with numLruPages := s.numLruPages - 1 } f z y := by
    intro g hg
    obtain ⟨h1, h2, h3⟩ := setNext_setPrev_joins s f y z g hg
    have he : (unlinked s f z y).pages g = ((s.setNext z (some y)).setPrev y (some z)).pages g := by
      unfold unlinked
      rw [setInfo_pages, if_neg hg]
    refine ⟨?_, ?_, ?_⟩
    · rw [← h1]; exact congrArg PageInfo.next he
    · rw [← h2]; exact congrArg PageInfo.prev he
    · exact ⟨(congrArg PageInfo.pgdir he).trans h3.1, (congrArg PageInfo.vaddr he).trans h3.2⟩
  refine ⟨_, popLru_linked hhf hf hprev hnext, ⟨_, _, _, rfl⟩, hh, hj.delete hr (by rw [hyw]; rfl) hz, rfl, ?_,
    fun g hg => (hj g hg).2.2⟩
  simp only [unlinked, setInfo_pages, if_true]

/-! ## An entry joins -/

/-- What `linkLast` leaves of a ring from `h` to `z`. -/
def linked (s : Kern) (f h z : Frame) : Kern :=
  (((s.setPrev f (some z)).setNext f (some h)).setNext z (some f)).setPrev h (some f)

theorem linkLast_run {s : Kern} {f h z : Frame} {l : List Frame} (hh : s.pageLruHead = some h) (hr : OnRing s h l)
    (hz : (h :: l).getLast? = some z) (hf : f ∉ h :: l) : linkLast f s = ⟨.ok (), linked s f h z, []⟩ := by
  have hhf : h ≠ f := fun he => hf (he ▸ List.mem_cons_self)
  have hprev : (s.pages h).prev = some z := (hr.link_last hz).2
  have hprev' : (((s.setPrev f (some z)).setNext f (some h)).pages h).prev = some z := by
    rw [setNext_prev, setPrev_prev, if_neg hhf, hprev]
  unfold linkLast linked
  rw [follow_bind_run hh, Prog.modify_bind_run, hprev, Prog.modify_bind_run, follow_bind_run hprev',
    Prog.modify_bind_run, Prog.modify_run]

theorem linked_sameKey (s : Kern) (f h z g : Frame) : SameKey s (linked s f h z) g :=
  (((setPrev_sameKey s f g _).trans (setNext_sameKey _ f g _)).trans (setNext_sameKey _ z g _)).trans
    (setPrev_sameKey _ h g _)

theorem linked_ring {s : Kern} {f h z : Frame} {l : List Frame} (hr : OnRing s h l) (hz : (h :: l).getLast? = some z)
    (hf : f ∉ h :: l) : OnRing (linked s f h z) h (l ++ [f]) := by
  have hne : ∀ g ∈ h :: l, g ≠ f := fun g hg he => hf (he ▸ hg)
  have hzf : z ≠ f := hne z (List.mem_of_getLast? hz)
  have hhf : h ≠ f := hne h List.mem_cons_self
  have hnh : ∀ g ∈ l, g ≠ h := fun g hg he => (List.nodup_cons.1 hr.nodup).1 (he ▸ hg)
  unfold OnRing linked
  refine IsRing.append hr hz hf (fun g hg hgz => ?_) (fun g hg => ?_) ⟨?_, ?_⟩ ⟨?_, ?_⟩
  · simp only [setPrev_next, setNext_next, if_neg hgz, if_neg (hne g hg)]
  · simp only [setPrev_prev, setNext_prev, if_neg (hnh g hg), if_neg (hne g (List.mem_cons_of_mem h hg))]
  · simp only [setPrev_next, setNext_next, if_true]
  · simp only [setPrev_prev, setNext_prev, if_neg (Ne.symm hhf), if_true]
  · simp only [setPrev_next, setNext_next, if_neg (Ne.symm hzf), if_true]
  · simp only [setPrev_prev, if_true]

/-- **`append_lru` adds its page behind the last**, or makes it the only entry where one page is counted; `W` is what is
known of the entries before. -/
theorem appendLru_ok {G R : Event → Prop} {W : Frame → List Frame → Prop} (s : Kern) (pgdir : Frame) (va : Addr)
    (f : Frame) (hr : ∀ h, s.pageLruHead = some h → ∃ l, OnRing s h l ∧ f ∉ h :: l ∧ W h l) :
    Triple G R (fun t => t = s) (appendLru pgdir va f) (fun _ s' => LruOnly s s' ∧ Matches s' pgdir va f ∧
      (∀ g, g ≠ f → SameKey s s' g) ∧ ((s'.pageLruHead = some f ∧ OnRing s' f []) ∨
        ∃ h l, W h l ∧ s'.pageLruHead = some h ∧ OnRing s' h (l ++ [f]))) := by
  let s₁ := s.setInfo f { s.pages f with vaddr := va, pgdir := some pgdir }
  have hkey : ∀ g, g ≠ f → s₁.pages g = s.pages g := fun g hg => if_neg hg
  have hlink : Triple G R (fun t => t = s₁) (linkLru f) (fun _ s' => LruOnly s₁ s' ∧ (∀ g, SameKey s₁ s' g) ∧
      ((s'.pageLruHead = some f ∧ OnRing s' f []) ∨
        ∃ h l, W h l ∧ s'.pageLruHead = some h ∧ OnRing s' h (l ++ [f]))) := by
    refine Triple.read_bind (fun t ht => Triple.ite (fun _ => ?_) (fun _ => ?_))
    · intro t' ht' _
      rw [ht', ht]
      refine ⟨fun e he => by simp [linkFirst] at he, fun _ _ => ⟨⟨_, _, _, rfl⟩, fun g => ?_, .inl ⟨rfl, ?_⟩⟩⟩
      · exact (setPrev_sameKey { s₁ with pageLruHead := some f } f g _).trans (setNext_sameKey _ f g _)
      · refine IsRing.singleton ⟨?_, ?_⟩
        · exact (setNext_next _ f f _).trans (if_pos rfl)
        · exact (setNext_prev _ f f _).trans ((setPrev_prev _ f f _).trans (if_pos rfl))
    · cases hh : s.pageLruHead with
      | none =>
        intro t' ht' _
        have hnone : linkLast f t' = ⟨.error .wild, t', []⟩ := by
          have hn : t'.pageLruHead = none := by rw [ht', ht]; exact hh
          unfold linkLast follow
          simp only [Prog.bind_run, Prog.read_run, hn]
          rfl
        rw [hnone]
        exact ⟨fun e he => by simp at he, fun _ he => by cases he⟩
      | some h =>
        obtain ⟨l, hring, hf, hW⟩ := hr h hh
        have hring₁ : OnRing s₁ h l := hring.congr (fun g hg => by rw [hkey g (fun he => hf (he ▸ hg))])
          (fun g hg => by rw [hkey g (fun he => hf (he ▸ hg))])
        have hh₁ : s₁.pageLruHead = some h := hh
        obtain ⟨z, hz⟩ : ∃ z, (h :: l).getLast? = some z := ⟨_, List.getLast?_eq_some_getLast (List.cons_ne_nil h l)⟩
        intro t' ht' _
        rw [ht', ht, linkLast_run hh₁ hring₁ hz hf]
        exact ⟨fun e he => by simp at he, fun _ _ => ⟨⟨_, _, _, rfl⟩, linked_sameKey s₁ f h z,
          .inr ⟨h, l, hW, hh, linked_ring hring₁ hz hf⟩⟩⟩
  refine Triple.bind (Q := fun _ t => t = s₁) (Triple.modify (fun t ht => by rw [ht])) (fun _ => ?_)
  refine Triple.bind hlink (fun _ => Triple.modify (fun t ht => ?_))
  obtain ⟨honly, hsame, hcases⟩ := ht
  refine ⟨((LruOnly.setInfo s f _).trans honly).trans ⟨_, _, _, rfl⟩, ⟨?_, ?_⟩, fun g hg => ?_, hcases⟩
  · exact (hsame f).2.trans (by simp [s₁])
  · exact (hsame f).1.trans (by simp [s₁])
  · exact ⟨(hsame g).1.trans (by rw [hkey g hg]), (hsame g).2.trans (by rw [hkey g hg])⟩

/-! ## The scan of `deallocuvm` -/

section Scan

variable {G R : Event → Prop}

theorem follow_ok {α : Type} {P : Kern → Prop} {Q : α → Kern → Prop} (p : Kern → Option α)
    (h : ∀ s a, P s → p s = some a → Q a s) : Triple G R P (follow p) Q := by
  refine Triple.read_bind (fun s hs => ?_)
  cases hp : p s with
  | none => exact Triple.stop _
  | some a => exact Triple.pure a (fun t ht => ht ▸ h s a hs hp)

theorem popLru_headless (s : Kern) (f : Frame) :
    Triple G R (fun t => LruOnly s t ∧ t.pageLruHead = none) (popLru f)
      (fun _ t => LruOnly s t ∧ t.pageLruHead = none) := by
  have hset : ∀ g (i : Kern → PageInfo), Triple G R (fun t => LruOnly s t ∧ t.pageLruHead = none)
      (Prog.modify (fun t => t.setInfo g (i t)) : K Unit) (fun _ t => LruOnly s t ∧ t.pageLruHead = none) :=
    fun g i => Triple.modify (fun t ht => ⟨ht.1.trans (LruOnly.setInfo t g _), ht.2⟩)
  have hfollow : ∀ {α : Type} (p : Kern → Option α), Triple G R (fun t => LruOnly s t ∧ t.pageLruHead = none)
      (follow p) (fun _ t => LruOnly s t ∧ t.pageLruHead = none) := fun p => follow_ok p (fun _ _ h _ => h)
  have hpage : Triple G R (fun t => LruOnly s t ∧ t.pageLruHead = none) (unlinkPage f)
      (fun _ t => LruOnly s t ∧ t.pageLruHead = none) :=
    Triple.bind (hfollow _) (fun p => Triple.bind (hset p _) (fun _ => Triple.bind (hfollow _) (fun n =>
      Triple.bind (hset n _) (fun _ => hset f _))))
  have hun : Triple G R (fun t => LruOnly s t ∧ t.pageLruHead = none) (unlinkLru f)
      (fun _ t => LruOnly s t ∧ t.pageLruHead = none) := by
    refine Triple.read_bind (fun t₀ ht₀ => ?_)
    rw [if_neg (by rw [ht₀.2]; exact fun he => by cases he)]
    exact hpage.weaken (fun t ht => ht ▸ ht₀)
  exact Triple.ite (fun _ => Triple.stop _) (fun _ => Triple.bind hun (fun _ => Triple.modify
    (fun t ht => ⟨ht.1.trans ⟨_, _, _, rfl⟩, ht.2⟩)))

theorem scanLru_headless (s : Kern) (pgdir : Frame) (a : Addr) (pa : Frame) (hR : ∀ f g, R (.popLru f g)) :
    ∀ (n : Nat) (t : Option Frame), Triple G R (fun t => LruOnly s t ∧ t.pageLruHead = none) (scanLru n pgdir a pa t)
      (fun _ t => LruOnly s t ∧ t.pageLruHead = none)
  | 0, _ => Triple.stop _
  | _ + 1, none => Triple.pure () (fun _ h => h)
  | n + 1, some target => by
    refine Triple.read_bind (fun t₀ ht₀ => ?_)
    refine Triple.bind (Q := fun _ t => LruOnly s t ∧ t.pageLruHead = none) ?_ (fun _ => ?_)
    · refine Triple.when (fun _ => ?_) (fun _ t ht => ht ▸ ht₀)
      exact Triple.bind (Triple.emit (fun _ _ _ => hR _ _) (fun t ht _ => ht ▸ ht₀)) (fun _ => popLru_headless s pa)
    · refine Triple.read_bind (fun t₁ ht₁ => Triple.read_bind (fun t₂ ht₂ => ?_))
      subst ht₂
      refine Triple.ite (fun _ => Triple.pure () (fun t ht => ht ▸ ht₁)) (fun _ => ?_)
      exact (scanLru_headless s pgdir a pa hR n _).weaken (fun t ht => ht ▸ ht₁)

/-- **The scan takes the entry of a page off the list**, when it pops the entry it finds; or the entry was the head,
and the list is lost. -/
theorem scanLru_ok (pgdir : Frame) (a : Addr) (pa : Frame) (hG : ∀ f g, G (.popLru f g) → f = g)
    (hR : ∀ f g, R (.popLru f g)) {s : Kern} {h : Frame} {l : List Frame} (hh : s.pageLruHead = some h)
    (hring : OnRing s h l) (hinj : ∀ f ∈ h :: l, ∀ g ∈ h :: l, Matches s pgdir a f → Matches s pgdir a g → f = g) :
    ∀ (n : Nat) (done : List Frame) (target : Frame) (rest : List Frame), h :: l = done ++ target :: rest →
      (∀ f ∈ done, ¬ Matches s pgdir a f) →
      Triple G R (fun t => t = s) (scanLru n pgdir a pa (some target)) (fun _ t => LruOnly s t ∧
        (t.pageLruHead = none ∨ ∃ h' l', t.pageLruHead = some h' ∧ OnRing t h' l' ∧
          ∀ f ∈ h' :: l', f ∈ h :: l ∧ SameKey s t f ∧ ¬ Matches s pgdir a f))
  | 0, _, _, _, _, _ => Triple.stop _
  | n + 1, done, target, rest, hl, hdone => by
    have htm : target ∈ h :: l := hl ▸ List.mem_append_right done List.mem_cons_self
    have hsame : ∀ f, SameKey s s f := fun _ => ⟨rfl, rfl⟩
    refine Triple.read_bind (fun t₀ ht₀ => ?_)
    subst ht₀
    by_cases hm : Matches t₀ pgdir a target
    · refine Triple.bind (Triple.when (Q := fun _ t => LruOnly t₀ t ∧ (t.pageLruHead = none ∨ (∃ l₁ l₂,
        l = l₁ ++ target :: l₂ ∧ t.pageLruHead = some h ∧ OnRing t h (l₁ ++ l₂) ∧ (t.pages target).next = none ∧
        ∀ g, g ≠ target → SameKey t₀ t g))) (fun _ => ?_) (fun hn => absurd hm hn)) (fun _ => ?_)
      · refine Triple.bind (Q := fun _ t => t = t₀ ∧ target = pa) (Triple.emit (fun _ _ _ => hR _ _)
          (fun t ht hg => ⟨ht, hG _ _ hg⟩)) (fun _ => ?_)
        rintro t ⟨rfl, rfl⟩ -
        by_cases hlt : target.toNat < npages
        · rcases List.mem_cons.1 htm with rfl | hin
          · rw [popLru_head hh hlt]
            exact ⟨fun e he => by simp at he, fun _ _ => ⟨⟨_, _, _, rfl⟩, .inl rfl⟩⟩
          · obtain ⟨l₁, l₂, rfl⟩ := List.append_of_mem hin
            obtain ⟨t', hpop, honly, hh', hr', -, hnone, hkeys⟩ := popLru_run hring hh hlt
            rw [hpop]
            exact ⟨fun e he => by simp at he, fun _ _ => ⟨honly, .inr ⟨l₁, l₂, rfl, hh', hr', hnone, hkeys⟩⟩⟩
        · have hpop : popLru target t = ⟨.error .wild, t, []⟩ := by
            unfold popLru
            rw [if_pos (Nat.not_lt.1 hlt)]
            rfl
          rw [hpop]
          exact ⟨fun e he => by simp at he, fun _ he => by cases he⟩
      · refine Triple.read_bind (fun t₁ ht₁ => Triple.read_bind (fun t₂ ht₂ => ?_))
        subst ht₂
        obtain ⟨honly, hnone | ⟨l₁, l₂, rfl, hh', hr', hnone, hkeys⟩⟩ := ht₁
        · refine Triple.ite (fun _ => Triple.pure () (fun t ht => ht ▸ ⟨honly, .inl hnone⟩)) (fun _ => ?_)
          exact (scanLru_headless t₀ pgdir a pa hR n _).conseq (fun t ht => ht ▸ ⟨honly, hnone⟩)
            (fun _ t ht => ⟨ht.1, .inl ht.2⟩)
        · rw [hnone, hh', if_neg (by simp)]
          -- an entry popped from behind the head has no next, so the scan ends here
          have hend : Triple G R (fun t => t = t₂) (scanLru n pgdir a pa none) (fun _ t => t = t₂) := by
            cases n with
            | zero => exact Triple.stop _
            | succ n => exact Triple.pure () (fun t ht => ht)
          refine hend.conseq (fun t ht => ht) (fun _ t ht => ?_)
          subst ht
          have hnd := List.nodup_cons.1 hring.rotate.nodup
          refine ⟨honly, .inr ⟨h, l₁ ++ l₂, hh', hr', fun f hf => ?_⟩⟩
          have hfm : f ∈ h :: (l₁ ++ target :: l₂) := by
            simp only [List.mem_cons, List.mem_append] at hf ⊢
            tauto
          have hft : f ≠ target := by
            rintro rfl
            refine hnd.1 ?_
            simp only [List.mem_cons, List.mem_append] at hf ⊢
            tauto
          exact ⟨hfm, hkeys f hft, fun hmf => hft (hinj f hfm target htm hmf hm)⟩
    · refine Triple.bind (Triple.when (Q := fun _ t => t = t₀) (fun hp => absurd hp hm) (fun _ t ht => ht)) (fun _ => ?_)
      refine Triple.read_bind (fun t₁ ht₁ => Triple.read_bind (fun t₂ ht₂ => ?_))
      subst ht₂; subst ht₁
      have hdone' : ∀ f ∈ done ++ [target], ¬ Matches t₂ pgdir a f := by
        intro f hf
        rcases List.mem_append.1 hf with hf | hf
        · exact hdone f hf
        · rw [List.mem_singleton.1 hf]; exact hm
      cases rest with
      | nil =>
        have hlast : (h :: l).getLast? = some target := by rw [hl]; simp
        have hnext : (t₂.pages target).next = some h := (hring.link_last hlast).1
        rw [hnext, hh, if_pos rfl]
        refine Triple.pure () (fun t ht => ?_)
        rw [ht]
        exact ⟨LruOnly.refl t₂, .inr ⟨h, l, hh, hring, fun f hf => ⟨hf, hsame f, hdone' f (hl ▸ hf)⟩⟩⟩
      | cons u rest =>
        have hnext : (t₂.pages target).next = some u := (hring.link_append hl).1
        have huh : u ≠ h := by
          rintro rfl
          have hnd := hring.nodup
          cases done with
          | nil =>
            obtain ⟨rfl, hl'⟩ := List.cons.inj hl
            exact (List.nodup_cons.1 hnd).1 (by rw [hl']; exact List.mem_cons_self)
          | cons d done =>
            obtain ⟨rfl, hl'⟩ := List.cons.inj hl
            exact (List.nodup_cons.1 hnd).1 (by rw [hl']; simp)
        rw [hnext, hh, if_neg (fun he => huh (Option.some.inj he))]
        exact scanLru_ok pgdir a pa hG hR hh hring hinj n (done ++ [target]) u rest (by rw [hl]; simp) hdone'

end Scan

end Swap
end Xv6
