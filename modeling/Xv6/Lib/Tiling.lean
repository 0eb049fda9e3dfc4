import Mathlib
/-!
# Tilings of a region

A region of memory is cut into tiles, each used or free, that follow each other without a gap; sizes count units of `u`
addresses.  Two free tiles may be kept from being neighbours.
-/

structure Tile where
  addr : Nat
  size : Nat
  used : Bool
deriving DecidableEq

/-- The tiles lie one after the other from `a` to `b`. -/
def Tiles (u : Nat) : Nat → List Tile → Nat → Prop
  | a, [], b     => a = b
  | a, t :: l, b => t.addr = a ∧ 0 < t.size ∧ Tiles u (a + u * t.size) l b

def Apart (l : List Tile) : Prop := l.IsChain (fun t v => t.used = true ∨ v.used = true)

def freeTiles (l : List Tile) : List Nat := (l.filter (fun t => !t.used)).map Tile.addr

namespace Tiles

variable {u a b c : Nat} {l m : List Tile} {t v : Tile}

theorem append : ∀ {a : Nat} {l : List Tile}, Tiles u a (l ++ m) b ↔ ∃ c, Tiles u a l c ∧ Tiles u c m b
  | a, [] => ⟨fun h => ⟨a, rfl, h⟩, fun ⟨_, he, h⟩ => by cases he; exact h⟩
  | a, t :: l => by
    refine Iff.trans (and_congr_right fun _ => and_congr_right fun _ => append) ?_
    exact ⟨fun ⟨ht, hp, c, hl, hm⟩ => ⟨c, ⟨ht, hp, hl⟩, hm⟩, fun ⟨c, ⟨ht, hp, hl⟩, hm⟩ => ⟨ht, hp, c, hl, hm⟩⟩

theorem le : ∀ {a : Nat} {l : List Tile}, Tiles u a l b → a ≤ b
  | _, [], h => Nat.le_of_eq h
  | _, _ :: _, ⟨_, _, h⟩ => Nat.le_trans (Nat.le_add_right _ _) (le h)

theorem bounds (h : Tiles u a l b) (ht : t ∈ l) : a ≤ t.addr ∧ t.addr + u * t.size ≤ b := by
  obtain ⟨l₁, l₂, rfl⟩ := List.append_of_mem ht
  obtain ⟨c, h₁, hc, -, h₂⟩ := append.1 h
  exact ⟨hc ▸ h₁.le, hc ▸ h₂.le⟩

theorem pos (h : Tiles u a l b) (ht : t ∈ l) : 0 < t.size := by
  obtain ⟨l₁, l₂, rfl⟩ := List.append_of_mem ht
  obtain ⟨c, -, -, hp, -⟩ := append.1 h
  exact hp

theorem lt (hu : 0 < u) (h : Tiles u a l b) (ht : t ∈ l) : t.addr < b := by
  have hp := Nat.mul_pos hu (h.pos ht)
  have := (h.bounds ht).2
  omega

theorem pairwise : ∀ {a : Nat} {l : List Tile}, Tiles u a l b → l.Pairwise (fun t v => t.addr + u * t.size ≤ v.addr)
  | _, [], _ => .nil
  | _, t :: l, ⟨ht, _, h⟩ => by
    refine .cons (fun v hv => ?_) (pairwise h)
    rw [ht]
    exact (h.bounds hv).1

theorem dvd : ∀ {a : Nat} {l : List Tile}, u ∣ a → Tiles u a l b → ∀ t ∈ l, u ∣ t.addr
  | _, _ :: _, ha, ⟨ht, _, h⟩, v, hv => by
    rcases List.mem_cons.1 hv with rfl | hv
    · exact ht ▸ ha
    · exact dvd (Nat.dvd_add ha (Nat.dvd_mul_right _ _)) h v hv

theorem length_le (hu : 0 < u) : ∀ {a : Nat} {l : List Tile}, Tiles u a l b → a + l.length ≤ b
  | _, [], h => Nat.le_of_eq h
  | a, t :: l, ⟨_, hp, h⟩ => by
    have hl := length_le hu h
    have := Nat.mul_pos hu hp
    rw [List.length_cons]
    omega

theorem eq_of_addr (hu : 0 < u) (h : Tiles u a l b) (ht : t ∈ l) (hv : v ∈ l) (he : t.addr = v.addr) : t = v := by
  obtain ⟨l₁, l₂, rfl⟩ := List.append_of_mem ht
  obtain ⟨c, h₁, hc, hp, h₂⟩ := append.1 h
  have hup := Nat.mul_pos hu hp
  rcases List.mem_append.1 hv with hv | hv
  · have := h₁.lt hu hv
    omega
  · rcases List.mem_cons.1 hv with rfl | hv
    · rfl
    · have := (h₂.bounds hv).1
      omega

theorem disjoint (h : Tiles u a l b) (ht : t ∈ l) (hv : v ∈ l) (hne : t ≠ v) :
    t.addr + u * t.size ≤ v.addr ∨ v.addr + u * v.size ≤ t.addr := by
  obtain ⟨l₁, l₂, rfl⟩ := List.append_of_mem ht
  obtain ⟨c, h₁, hc, -, h₂⟩ := append.1 h
  subst hc
  rcases List.mem_append.1 hv with hv | hv
  · exact .inr (h₁.bounds hv).2
  · exact .inl (h₂.bounds ((List.mem_cons.1 hv).resolve_left (Ne.symm hne))).1

theorem mem_free {x : Nat} : x ∈ freeTiles l ↔ ∃ t ∈ l, t.used = false ∧ t.addr = x := by
  unfold freeTiles
  rw [List.mem_map]
  constructor
  · rintro ⟨t, ht, rfl⟩
    obtain ⟨ht, hu⟩ := List.mem_filter.1 ht
    exact ⟨t, ht, by simpa using hu, rfl⟩
  · rintro ⟨t, ht, hu, rfl⟩
    exact ⟨t, List.mem_filter.2 ⟨ht, by simpa using hu⟩, rfl⟩

theorem free_bounds (hu : 0 < u) (h : Tiles u a l b) {x : Nat} (hx : x ∈ freeTiles l) : a ≤ x ∧ x < b := by
  obtain ⟨t, ht, -, rfl⟩ := mem_free.1 hx
  exact ⟨(h.bounds ht).1, h.lt hu ht⟩

theorem free_sorted (hu : 0 < u) (h : Tiles u a l b) : (freeTiles l).Pairwise (· < ·) := by
  unfold freeTiles
  rw [List.pairwise_map]
  refine (h.pairwise.sublist List.filter_sublist).imp_of_mem fun {t v} ht _ htv => ?_
  have := Nat.mul_pos hu (h.pos (List.mem_filter.1 ht).1)
  omega

end Tiles

theorem freeTiles_append (l m : List Tile) : freeTiles (l ++ m) = freeTiles l ++ freeTiles m := by
  unfold freeTiles
  rw [List.filter_append, List.map_append]

theorem freeTiles_length (l : List Tile) : (freeTiles l).length ≤ l.length := by
  unfold freeTiles
  rw [List.length_map]
  exact List.length_filter_le _ _

theorem freeTiles_used (a n : Nat) (l : List Tile) : freeTiles (⟨a, n, true⟩ :: l) = freeTiles l := rfl

theorem freeTiles_free (a n : Nat) (l : List Tile) : freeTiles (⟨a, n, false⟩ :: l) = a :: freeTiles l := rfl

namespace Apart

variable {l m : List Tile} {t v : Tile}

theorem left (h : Apart (l ++ m)) : Apart l := List.IsChain.left_of_append h
theorem right (h : Apart (l ++ m)) : Apart m := List.IsChain.right_of_append h

theorem around (h : Apart (l ++ t :: m)) (ht : t.used = false) :
    (∀ v ∈ l.getLast?, v.used = true) ∧ ∀ v ∈ m.head?, v.used = true := by
  obtain ⟨-, hm, hl⟩ := List.isChain_append.1 h
  refine ⟨fun v hv => (hl v hv t rfl).resolve_right ?_, fun v hv => ((List.isChain_cons.1 hm).1 v hv).resolve_left ?_⟩
  all_goals exact fun hu => Bool.false_ne_true (ht.symm.trans hu)

theorem mid (hl : Apart l) (hm : Apart m) (hl' : ∀ v ∈ l.getLast?, v.used = true) (hm' : ∀ v ∈ m.head?, v.used = true) :
    Apart (l ++ t :: m) := by
  refine List.isChain_append.2 ⟨hl, List.isChain_cons.2 ⟨fun v hv => .inr (hm' v hv), hm⟩, fun v hv _ _ => .inl (hl' v hv)⟩

theorem mid_used (hl : Apart l) (hm : Apart m) (ht : t.used = true) : Apart (l ++ t :: m) := by
  refine List.isChain_append.2 ⟨hl, List.isChain_cons.2 ⟨fun _ _ => .inl ht, hm⟩, fun _ _ w hw => .inr ?_⟩
  cases hw
  exact ht

end Apart
