import Mathlib.Data.List.Basic
import Mathlib.Logic.Function.Basic
import Mathlib.Order.Lattice
/-!
# Tables of slots

A table has slots, each free or with a key and a value, and is searched from its first slot on.  An entry goes into the first
free slot, or behind the last one.  Where no key is there twice, this is the update of a finite map.
-/

@[ext] structure Slots (κ ν : Type*) where
  size : Nat
  slot : Nat → Option (κ × ν)
  free : ∀ i, size ≤ i → slot i = none

namespace Slots

variable {κ ν : Type*} {T : Slots κ ν} {k k' : κ} {v w : ν} {i j : Nat}

def Distinct (T : Slots κ ν) : Prop := ∀ i j k v w, T.slot i = some (k, v) → T.slot j = some (k, w) → i = j

def hole (T : Slots κ ν) : Nat := ((List.range T.size).find? fun i => (T.slot i).isNone).getD T.size

def put (T : Slots κ ν) (k : κ) (v : ν) : Slots κ ν where
  size := max T.size (T.hole + 1)
  slot := Function.update T.slot T.hole (some (k, v))
  free i hi := by
    rw [Function.update_of_ne (by omega)]
    exact T.free i (by omega)

def find [DecidableEq κ] (T : Slots κ ν) (k : κ) : Option (ν × Nat) :=
  (List.range T.size).findSome? fun i => (T.slot i).bind fun e => if e.1 = k then some (e.2, i) else none

theorem lt_size (h : T.slot i = some (k, v)) : i < T.size := by
  by_contra hn
  rw [T.free i (Nat.not_lt.1 hn)] at h
  cases h

theorem find?_isNone (T : Slots κ ν) : (∃ i < T.size, T.slot i = none ∧ T.hole = i) ∨
    (∀ i < T.size, T.slot i ≠ none) ∧ T.hole = T.size := by
  unfold hole
  cases hf : (List.range T.size).find? fun i => (T.slot i).isNone with
  | none =>
    rw [List.find?_eq_none] at hf
    refine .inr ⟨fun i hi => ?_, rfl⟩
    have := hf i (List.mem_range.2 hi)
    simpa using this
  | some i =>
    have hnone := List.find?_some hf
    have hmem := List.mem_of_find?_eq_some hf
    exact .inl ⟨i, List.mem_range.1 hmem, by simpa using hnone, rfl⟩

theorem slot_hole (T : Slots κ ν) : T.slot T.hole = none := by
  rcases T.find?_isNone with ⟨i, -, hi, he⟩ | ⟨-, he⟩
  · rw [he, hi]
  · exact T.free _ he.ge

theorem hole_le (T : Slots κ ν) : T.hole ≤ T.size := by
  rcases T.find?_isNone with ⟨i, hi, -, he⟩ | ⟨-, he⟩
  · omega
  · omega

theorem put_size (T : Slots κ ν) (k : κ) (v : ν) :
    (T.put k v).size = if ∃ i < T.size, T.slot i = none then T.size else T.size + 1 := by
  show max T.size (T.hole + 1) = _
  rcases T.find?_isNone with ⟨i, hi, hnone, he⟩ | ⟨hall, he⟩
  · rw [if_pos ⟨i, hi, hnone⟩]
    omega
  · rw [if_neg fun ⟨i, hi, hnone⟩ => hall i hi hnone]
    omega

theorem put_slot_self (T : Slots κ ν) (k : κ) (v : ν) : (T.put k v).slot T.hole = some (k, v) := Function.update_self _ _ _

theorem put_slot_of_ne (h : i ≠ T.hole) (k : κ) (v : ν) : (T.put k v).slot i = T.slot i := Function.update_of_ne h _ _

theorem put_slot_eq_some : (T.put k v).slot i = some (k', w) ↔ (i = T.hole ∧ k = k' ∧ v = w) ∨ T.slot i = some (k', w) := by
  by_cases hi : i = T.hole
  · simp [hi, put_slot_self, slot_hole]
  · simp [hi, put_slot_of_ne]

theorem Distinct.put (h : T.Distinct) (hk : ∀ i w, T.slot i ≠ some (k, w)) (v : ν) : (T.put k v).Distinct := by
  intro i j a x y hi hj
  rw [put_slot_eq_some] at hi hj
  rcases hi with ⟨rfl, rfl, rfl⟩ | hi <;> rcases hj with ⟨rfl, hak, rfl⟩ | hj
  · rfl
  · exact absurd hj (hk j y)
  · exact absurd (hak ▸ hi) (hk i x)
  · exact h i j a x y hi hj

/-! ## Tables without a free slot -/

def ofList (l : List (κ × ν)) : Slots κ ν where
  size := l.length
  slot i := l[i]?
  free _ hi := List.getElem?_eq_none hi

variable {l : List (κ × ν)}

theorem hole_ofList (l : List (κ × ν)) : (ofList l).hole = l.length := by
  rcases (ofList l).find?_isNone with ⟨i, hi, hnone, -⟩ | ⟨-, he⟩
  · exact absurd hi (Nat.not_lt.2 (List.getElem?_eq_none_iff.1 hnone))
  · exact he

theorem put_ofList (l : List (κ × ν)) (k : κ) (v : ν) : (ofList l).put k v = ofList (l ++ [(k, v)]) := by
  have hhole := hole_ofList l
  refine Slots.ext ?_ (funext fun i => ?_)
  · show max l.length ((ofList l).hole + 1) = (l ++ [(k, v)]).length
    rw [hhole, List.length_append, List.length_singleton]
    omega
  · by_cases hi : i = l.length
    · rw [hi, ← hhole, put_slot_self, hhole]
      exact (List.getElem?_concat_length).symm
    · rw [put_slot_of_ne (hhole ▸ hi)]
      show l[i]? = (l ++ [(k, v)])[i]?
      rw [List.getElem?_append, List.getElem?_singleton]
      split
      · rfl
      · rw [if_neg (by omega)]
        exact List.getElem?_eq_none (by omega)

theorem slot_ofList_iff : (∃ i, (ofList l).slot i = some (k, v)) ↔ (k, v) ∈ l := List.mem_iff_getElem?.symm

theorem distinct_ofList (h : (l.map Prod.fst).Nodup) : (ofList l).Distinct := by
  intro i j k v w hi hj
  have hi : l[i]? = some (k, v) := hi
  have hj : l[j]? = some (k, w) := hj
  refine (List.getElem?_inj (l := l.map Prod.fst) ?_ h).1 ?_
  · rw [List.length_map]
    exact (List.getElem?_eq_some_iff.1 hi).1
  · rw [List.getElem?_map, List.getElem?_map, hi, hj]
    rfl

section Find

variable [DecidableEq κ]

theorem find_eq_none : T.find k = none ↔ ∀ i v, T.slot i ≠ some (k, v) := by
  unfold find
  rw [List.findSome?_eq_none_iff]
  constructor
  · intro h i v hi
    have := h i (List.mem_range.2 (lt_size hi))
    simp [hi] at this
  · intro h i _
    cases hi : T.slot i with
    | none => rfl
    | some e =>
      obtain ⟨a, x⟩ := e
      have hne : a ≠ k := fun ha => h i x (ha ▸ hi)
      simp [hne]

theorem slot_of_find (h : T.find k = some (v, i)) : T.slot i = some (k, v) := by
  unfold find at h
  obtain ⟨j, -, hj⟩ := List.exists_of_findSome?_eq_some h
  cases hs : T.slot j with
  | none => simp [hs] at hj
  | some e =>
    obtain ⟨a, x⟩ := e
    simp only [hs, Option.bind_some] at hj
    split at hj
    · rename_i ha
      cases hj
      rw [hs, ← ha]
    · cases hj

theorem Distinct.find (h : T.Distinct) : T.find k = some (v, i) ↔ T.slot i = some (k, v) := by
  refine ⟨slot_of_find, fun hi => ?_⟩
  cases hf : T.find k with
  | none => exact absurd hi (find_eq_none.1 hf i v)
  | some e =>
    obtain ⟨w, j⟩ := e
    have hj := slot_of_find hf
    obtain rfl := h i j k v w hi hj
    rw [hi] at hj
    cases hj
    rfl

theorem Distinct.find_put_self (h : T.Distinct) (hk : T.find k = none) (v : ν) : (T.put k v).find k = some (v, T.hole) :=
  (h.put (find_eq_none.1 hk) v).find.2 (put_slot_self T k v)

theorem Distinct.find_put_of_ne (h : T.Distinct) (hk : T.find k = none) (v : ν) (hne : k' ≠ k) :
    (T.put k v).find k' = T.find k' := by
  refine Option.ext fun e => ?_
  obtain ⟨w, i⟩ := e
  have hput := (h.put (find_eq_none.1 hk) v).find (k := k') (v := w) (i := i)
  rw [hput, h.find, put_slot_eq_some]
  exact ⟨fun hi => hi.resolve_left fun hi => hne hi.2.1.symm, .inr⟩

theorem find_ofList_eq_none : (ofList l).find k = none ↔ k ∉ l.map Prod.fst := by
  rw [find_eq_none]
  constructor
  · intro h hk
    obtain ⟨⟨k', v⟩, hmem, rfl⟩ := List.mem_map.1 hk
    obtain ⟨i, hi⟩ := slot_ofList_iff.2 hmem
    exact h i v hi
  · intro h i v hi
    exact h (List.mem_map.2 ⟨(k, v), slot_ofList_iff.1 ⟨i, hi⟩, rfl⟩)

end Find
end Slots
