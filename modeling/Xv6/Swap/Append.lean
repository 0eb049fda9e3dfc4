import Xv6.Lib.Wp
import Xv6.Swap.Lru
/-!
# Swap.Append — which lists `append_lru` appends to

`append_lru` takes its branch for the first page where one page is counted, not where none is.
-/
namespace Xv6
namespace Swap

open Mem
open Prog (wp)

/-- `l` is the LRU list, from its head on, and counted. -/
def LruList (s : Kern) : List Frame → Prop
  | []     => s.pageLruHead = none ∧ s.numLruPages = 0
  | h :: l => s.pageLruHead = some h ∧ OnRing s h l ∧ s.numLruPages = (h :: l).length

/-- `append_lru` follows no null pointer and leaves the list `l` with page `f` behind it. -/
def Appends (s : Kern) (l : List Frame) (pgdir : Frame) (va : Addr) (f : Frame) : Prop :=
  wp (appendLru pgdir va f) (fun _ t => LruList t (l ++ [f]) ∧ Matches t pgdir va f ∧ ∀ g ∈ l, SameKey s t g)
    (fun _ => False) s

variable {s : Kern} {pgdir f h : Frame} {va : Addr} {l : List Frame}

def keyed (s : Kern) (pgdir : Frame) (va : Addr) (f : Frame) : Kern :=
  s.setInfo f { s.pages f with vaddr := va, pgdir := some pgdir }

theorem keyed_of_ne (s : Kern) (pgdir : Frame) (va : Addr) {f g : Frame} (hg : g ≠ f) :
    (keyed s pgdir va f).pages g = s.pages g := if_neg hg

theorem keyed_matches (s : Kern) (pgdir : Frame) (va : Addr) (f : Frame) : Matches (keyed s pgdir va f) pgdir va f := by
  unfold keyed Matches
  rw [setInfo_pages, if_pos rfl]
  exact ⟨rfl, rfl⟩

theorem keyed_ring (hr : OnRing s h l) (hf : f ∉ h :: l) : OnRing (keyed s pgdir va f) h l := by
  have hne : ∀ g ∈ h :: l, (keyed s pgdir va f).pages g = s.pages g :=
    fun g hg => keyed_of_ne s pgdir va fun he => hf (he ▸ hg)
  exact hr.congr (fun g hg => by rw [hne g hg]) (fun g hg => by rw [hne g hg])

theorem appends_iff : Appends s l pgdir va f ↔ wp (linkLru f) (fun _ t =>
    LruList { t with numLruPages := t.numLruPages + 1 } (l ++ [f]) ∧ Matches t pgdir va f ∧ ∀ g ∈ l, SameKey s t g)
      (fun _ => False) (keyed s pgdir va f) := by
  unfold Appends appendLru
  rw [Prog.wp_bind, Prog.wp_modify, Prog.wp_bind]
  exact Iff.rfl

theorem appendLru_empty (hl : LruList s []) : ¬ Appends s [] pgdir va f := by
  intro happ
  have hnum : (keyed s pgdir va f).numLruPages ≠ 1 := by
    rw [show (keyed s pgdir va f).numLruPages = 0 from hl.2]
    decide
  have hlink : linkLru f (keyed s pgdir va f) = ⟨.error .wild, keyed s pgdir va f, []⟩ := by
    unfold linkLru linkLast
    rw [Prog.read_bind_run, if_neg hnum]
    exact Prog.bind_run_error (follow_error (p := Kern.pageLruHead) hl.1)
  exact (appends_iff.1 happ).error (congrArg Outcome.res hlink)

theorem appendLru_single (hl : LruList s [h]) (hf : f ∉ [h]) : ¬ Appends s [h] pgdir va f := by
  intro happ
  have hnum : (keyed s pgdir va f).numLruPages = 1 := hl.2.2
  have hlink := appends_iff.1 happ
  unfold linkLru at hlink
  rw [Prog.wp_bind, Prog.wp_read, if_pos hnum] at hlink
  have hhead : some f = some h := hlink.1.1
  rw [Option.some.inj hhead] at hf
  exact hf List.mem_cons_self

theorem appendLru_more (hl : LruList s (h :: l)) (hlen : l ≠ []) (hf : f ∉ h :: l) : Appends s (h :: l) pgdir va f := by
  obtain ⟨hhead, hring, hnum⟩ := hl
  have hhead' : (keyed s pgdir va f).pageLruHead = some h := hhead
  have hring' : OnRing (keyed s pgdir va f) h l := keyed_ring hring hf
  obtain ⟨z, hz⟩ : ∃ z, (h :: l).getLast? = some z := ⟨_, List.getLast?_eq_some_getLast (List.cons_ne_nil h l)⟩
  have hrun := linkLast_run hhead' hring' hz hf
  have hmany : (keyed s pgdir va f).numLruPages ≠ 1 := by
    have hpos := List.length_pos_iff.2 hlen
    rw [show (keyed s pgdir va f).numLruPages = _ from hnum, List.length_cons]
    omega
  have hkey := linked_sameKey (keyed s pgdir va f) f h z
  have hmatch := keyed_matches s pgdir va f
  refine appends_iff.2 ?_
  unfold linkLru
  rw [Prog.wp_bind, Prog.wp_read, if_neg hmany]
  refine Prog.wp_of_run hrun ?_
  refine ⟨⟨hhead, linked_ring hring' hz hf, ?_⟩, ⟨(hkey f).2.trans hmatch.1, (hkey f).1.trans hmatch.2⟩, fun g hg => ?_⟩
  · change s.numLruPages + 1 = _
    have hlen : (h :: (l ++ [f])).length = (h :: l).length + 1 := by simp
    rw [hnum]
    exact (congrArg Int.ofNat hlen).symm
  · have hgf : g ≠ f := fun he => hf (he ▸ hg)
    exact ⟨(hkey g).1.trans (by rw [keyed_of_ne s pgdir va hgf]), (hkey g).2.trans (by rw [keyed_of_ne s pgdir va hgf])⟩

/-- **`append_lru` appends to the lists of two pages or more, and to no other.** -/
theorem appendLru_appends (hl : LruList s l) (hf : f ∉ l) (pgdir : Frame) (va : Addr) :
    Appends s l pgdir va f ↔ 2 ≤ l.length := by
  match l with
  | []          => exact ⟨fun h => absurd h (appendLru_empty hl), fun h => absurd h (by decide)⟩
  | [h]         => exact ⟨fun h' => absurd h' (appendLru_single hl hf),
    fun h' => absurd h' (Nat.lt_irrefl 1 ∘ Nat.lt_of_succ_le)⟩
  | h :: g :: l =>
    refine ⟨fun _ => ?_, fun _ => appendLru_more hl (List.cons_ne_nil g l) hf⟩
    rw [List.length_cons, List.length_cons]
    omega

def bss : Kern where
  mem _ := zeroPage
  freelist := []
  pages _ := ⟨none, none, none, 0⟩
  pageLruHead := none
  numLruPages := 0
  bitmap _ := 0
  disk _ := fun _ => 0
  cur := 0
  kend := 0
  kdata := 0

theorem bss_first : LruList bss [] ∧ 2#20 ∉ ([] : List Frame) ∧ ¬ Appends bss [] 1#20 0#32 2#20 :=
  ⟨⟨rfl, rfl⟩, List.not_mem_nil, appendLru_empty ⟨rfl, rfl⟩⟩

def pair : Kern :=
  { bss with
    pages       := fun f => if f = 1#20 then ⟨some 2#20, some 2#20, none, 0⟩ else ⟨some 1#20, some 1#20, none, 0⟩
    pageLruHead := some 1#20
    numLruPages := 2 }

theorem pair_list : LruList pair [1#20, 2#20] := by
  refine ⟨rfl, ⟨by decide, ?_⟩, rfl⟩
  exact .cons_cons ⟨rfl, rfl⟩ (.cons_cons ⟨rfl, rfl⟩ (.singleton _))

/-- A third page goes behind the two. -/
theorem pair_appends : Appends pair [1#20, 2#20] 9#20 0x3000#32 3#20 :=
  (appendLru_appends pair_list (by decide) 9#20 0x3000#32).2 (Nat.le_refl 2)

end Swap
end Xv6
