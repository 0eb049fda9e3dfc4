import Mathlib.Data.List.TakeWhile
/-!
# The fields of a list

What stands between the separators of a list, where empty fields do not count.  A scanner that skips separators, takes a
field and skips separators again reads the fields in order.
-/
namespace List

variable {α : Type*} [DecidableEq α] {a : α}

/-- The nonempty parts between the separators `a`. -/
def fields (a : α) (l : List α) : List (List α) := (l.splitOn a).filter fun p => p ≠ []

@[simp] theorem fields_nil (a : α) : fields a [] = [] := rfl

/-- **The fields before and after a separator.** -/
@[simp] theorem fields_append_cons (a : α) (l m : List α) : fields a (l ++ a :: m) = fields a l ++ fields a m := by
  unfold fields
  rw [splitOn_append_cons_self, filter_append]

@[simp] theorem fields_cons_self (a : α) (l : List α) : fields a (a :: l) = fields a l := fields_append_cons a [] l

theorem fields_of_notMem {l : List α} (h : a ∉ l) (hl : l ≠ []) : fields a l = [l] := by
  unfold fields
  rw [splitOn_eq_singleton h, filter_cons_of_pos (by simpa using hl), filter_nil]

theorem fields_dropWhile (a : α) : ∀ l : List α, fields a (l.dropWhile fun b => b = a) = fields a l
  | []     => rfl
  | b :: l => by
    by_cases hb : b = a
    · subst hb
      rw [dropWhile_cons_of_pos (by simp), fields_cons_self, fields_dropWhile b l]
    · rw [dropWhile_cons_of_neg (by simpa using hb)]

theorem fields_cons {b : α} (hb : b ≠ a) (l : List α) : fields a (b :: l) =
    ((b :: l).takeWhile fun x => x ≠ a) :: fields a ((b :: l).dropWhile fun x => x ≠ a) := by
  have hsplit := takeWhile_append_dropWhile (p := fun x => decide (x ≠ a)) (l := b :: l)
  have hmem : a ∉ (b :: l).takeWhile fun x => x ≠ a := fun h => by simpa using mem_takeWhile_imp h
  have hne : ((b :: l).takeWhile fun x => x ≠ a) ≠ [] := by simp [hb]
  have hhead := head?_dropWhile_not (fun x => decide (x ≠ a)) (b :: l)
  generalize (b :: l).takeWhile (fun x => decide (x ≠ a)) = e at *
  generalize (b :: l).dropWhile (fun x => decide (x ≠ a)) = d at *
  rw [← hsplit]
  cases d with
  | nil => rw [append_nil, fields_nil, fields_of_notMem hmem hne]
  | cons c m =>
    obtain rfl : c = a := by simpa using hhead
    rw [fields_append_cons, fields_cons_self, fields_of_notMem hmem hne]
    rfl

end List
