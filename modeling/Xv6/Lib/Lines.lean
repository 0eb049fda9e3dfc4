import Mathlib.Data.List.Basic
/-!
# The lines of a list

A line is what a separator ends; what comes after the last separator is no line yet.
-/
namespace List

variable {α : Type*} [DecidableEq α] {a : α} {l m : List α}

def lines (a : α) (l : List α) : List (List α) := (l.splitOn a).dropLast

def unended (a : α) (l : List α) : List α := (l.splitOn a).getLast (splitOn_ne_nil a l)

theorem lines_of_notMem (h : a ∉ l) : lines a l = [] := by
  unfold lines
  rw [splitOn_eq_singleton h]
  rfl

theorem unended_of_notMem (h : a ∉ l) : unended a l = l := by
  unfold unended
  simp [splitOn_eq_singleton h]

@[simp] theorem lines_append_cons (h : a ∉ l) (m : List α) : lines a (l ++ a :: m) = l :: lines a m := by
  unfold lines
  rw [splitOn_append_cons_self, splitOn_eq_singleton h]
  exact dropLast_cons_of_ne_nil (splitOn_ne_nil a m)

@[simp] theorem unended_append_cons (h : a ∉ l) (m : List α) : unended a (l ++ a :: m) = unended a m := by
  unfold unended
  simp [splitOn_append_cons_self, splitOn_eq_singleton h, getLast_cons (splitOn_ne_nil a m)]

theorem lines_induction {P : List α → Prop} (a : α) (hnone : ∀ l, a ∉ l → P l)
    (hline : ∀ l m, a ∉ l → P m → P (l ++ a :: m)) (l : List α) : P l := by
  induction hn : l.length using Nat.strongRecOn generalizing l with
  | ind n ih =>
    by_cases h : a ∈ l
    · obtain ⟨x, y, rfl, hx⟩ := eq_append_cons_of_mem h
      refine hline x y hx (ih y.length ?_ y rfl)
      simp only [length_append, length_cons] at hn
      omega
    · exact hnone l h

/-- **More behind a list**: its lines, and those that what it leaves unended begins. -/
theorem lines_append (a : α) (m l : List α) : lines a (l ++ m) = lines a l ++ lines a (unended a l ++ m) := by
  induction l using lines_induction a with
  | hnone l h => rw [lines_of_notMem h, unended_of_notMem h, nil_append]
  | hline l k h ih => rw [append_assoc, cons_append, lines_append_cons h, lines_append_cons h, unended_append_cons h, ih,
      cons_append]

theorem notMem_unended (a : α) (l : List α) : a ∉ unended a l := by
  induction l using lines_induction a with
  | hnone l h => rwa [unended_of_notMem h]
  | hline l k h ih => rwa [unended_append_cons h]

theorem unended_suffix (a : α) (l : List α) : ∃ k, l = k ++ unended a l := by
  induction l using lines_induction a with
  | hnone l h => exact ⟨[], by rw [unended_of_notMem h, nil_append]⟩
  | hline l m h ih =>
    obtain ⟨k, hk⟩ := ih
    refine ⟨l ++ a :: k, ?_⟩
    rw [unended_append_cons h, append_assoc, cons_append, ← hk]

theorem length_unended_le (a : α) (l : List α) : (unended a l).length ≤ l.length := by
  obtain ⟨k, hk⟩ := unended_suffix a l
  have := congrArg length hk
  rw [length_append] at this
  omega

theorem length_unended_lt (h : a ∈ l) : (unended a l).length < l.length := by
  obtain ⟨x, y, rfl, hx⟩ := eq_append_cons_of_mem h
  have := length_unended_le a y
  rw [unended_append_cons hx, length_append, length_cons]
  omega

theorem length_line_lt : ∀ {x : List α}, x ∈ lines a l → x.length < l.length := by
  induction l using lines_induction a with
  | hnone l h => simp [lines_of_notMem h]
  | hline l m h ih =>
    intro x hx
    rw [lines_append_cons h, mem_cons] at hx
    simp only [length_append, length_cons]
    rcases hx with rfl | hx
    · omega
    · have := ih hx
      omega

end List
