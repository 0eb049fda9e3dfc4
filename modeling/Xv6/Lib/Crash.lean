import Xv6.Lib.Wp
/-!
# Stopping in the middle

The events of a program are writes to a store that outlives the program's memory; `act` is what a write does to the
store and `π` the store in a state.  `Durable act π I c Q s`: run from `s`, the program leaves a store that meets `I`
wherever it is stopped between two writes, its state shows the store that its writes have made, and it ends with `Q`.
-/
namespace Prog

variable {ε σ τ α β δ : Type}

/-- The store after the first `k` writes. -/
def stopAt (act : δ → τ → δ) (π : σ → δ) (c : Prog ε σ τ α) (k : Nat) (s : σ) : δ := ((c s).tr.take k).foldl act (π s)

structure Durable (act : δ → τ → δ) (π : σ → δ) (I : δ → Prop) (c : Prog ε σ τ α) (Q : α → σ → Prop) (s : σ) :
    Prop where
  stops : ∀ k, I (stopAt act π c k s)
  store : π (c s).st = (c s).tr.foldl act (π s)
  ends  : wp c Q (fun _ => False) s

namespace Durable

variable {act : δ → τ → δ} {π : σ → δ} {I : δ → Prop} {Q : α → σ → Prop} {s : σ}

theorem imp {c : Prog ε σ τ α} {Q' : α → σ → Prop} (h : Durable act π I c Q s) (hQ : ∀ a t, Q a t → Q' a t) :
    Durable act π I c Q' s := ⟨h.stops, h.store, h.ends.imp hQ⟩

theorem mono {c : Prog ε σ τ α} {I' : δ → Prop} (h : Durable act π I c Q s) (hI : ∀ d, I d → I' d) :
    Durable act π I' c Q s := ⟨fun k => hI _ (h.stops k), h.store, h.ends⟩

protected theorem pure {a : α} (hI : I (π s)) (hQ : Q a s) : Durable act π I (pure a : Prog ε σ τ α) Q s where
  stops k := by
    unfold stopAt
    rw [pure_run, List.take_nil]
    exact hI
  store := rfl
  ends  := hQ

protected theorem read {g : σ → β} {f : β → Prog ε σ τ α} (h : Durable act π I (f (g s)) Q s) :
    Durable act π I (read g >>= f) Q s := by
  have hrun : ((read g : Prog ε σ τ β) >>= f) s = f (g s) s := read_bind_run g f s
  refine ⟨fun k => ?_, ?_, ?_⟩
  · unfold stopAt
    rw [hrun]
    exact h.stops k
  · rw [hrun]
    exact h.store
  · exact wp_bind.2 h.ends

protected theorem modify {g : σ → σ} {Q : Unit → σ → Prop} (hg : π (g s) = π s) (hI : I (π s)) (hQ : Q () (g s)) :
    Durable act π I (modify g : Prog ε σ τ Unit) Q s where
  stops k := by
    unfold stopAt
    rw [modify_run, List.take_nil]
    exact hI
  store := hg
  ends  := hQ

theorem write {c : Prog ε σ τ α} {a : α} {s' : σ} {e : τ} (hrun : c s = ⟨.ok a, s', [e]⟩)
    (hs' : π s' = act (π s) e) (hI : I (π s)) (hI' : I (act (π s) e)) (hQ : Q a s') : Durable act π I c Q s where
  stops k := by
    unfold stopAt
    rw [hrun]
    cases k with
    | zero => exact hI
    | succ k =>
      rw [List.take_succ_cons, List.take_nil]
      exact hI'
  store := by
    rw [hrun]
    exact hs'
  ends := wp_of_run hrun hQ

/-- **Sequencing**: a stop is a stop in the first part, or one in the second after all the writes of the first. -/
protected theorem bind {c : Prog ε σ τ β} {f : β → Prog ε σ τ α} {Q' : β → σ → Prop} (hc : Durable act π I c Q' s)
    (hf : ∀ b t, Q' b t → Durable act π I (f b) Q t) : Durable act π I (c >>= f) Q s := by
  obtain ⟨b, hb, hq⟩ := hc.ends.returns
  have hrun := bind_run_ok (f := f) (show c s = ⟨.ok b, (c s).st, (c s).tr⟩ by rw [← hb])
  have hrest := hf b _ hq
  refine ⟨fun k => ?_, ?_, wp_bind.2 (hc.ends.imp fun b t h => (hf b t h).ends)⟩
  · unfold stopAt
    rw [hrun, List.take_append, List.foldl_append]
    by_cases hk : k ≤ (c s).tr.length
    · rw [Nat.sub_eq_zero_of_le hk, List.take_zero]
      exact hc.stops k
    · rw [List.take_of_length_le (by omega), ← hc.store]
      exact hrest.stops _
  · rw [hrun, List.foldl_append, ← hc.store]
    exact hrest.store

theorem when {b : Prop} [Decidable b] {c : Prog ε σ τ Unit} {Q : Unit → σ → Prop} (hc : b → Durable act π I c Q s)
    (hn : ¬ b → I (π s) ∧ Q () s) : Durable act π I (Prog.when b c) Q s := by
  by_cases hb : b
  · rw [when_pos hb]
    exact hc hb
  · rw [when_neg hb]
    exact Durable.pure (hn hb).1 (hn hb).2

/-- **A loop over a numbered list**: the invariant of the number is that of the store too. -/
theorem forEach_zipIdx {body : β × Nat → Prog ε σ τ Unit} {J : Nat → σ → Prop} (hJ : ∀ k t, J k t → I (π t)) :
    ∀ (l : List β) (k : Nat) (s : σ), J k s →
      (∀ i x, l[i]? = some x → ∀ t, J (k + i) t → Durable act π I (body (x, k + i)) (fun _ => J (k + i + 1)) t) →
      Durable act π I (forEach (l.zipIdx k) body) (fun _ => J (k + l.length)) s
  | [], k, s, hs, _     => Durable.pure (hJ k s hs) hs
  | x :: l, k, s, hs, h => by
    rw [List.zipIdx_cons, forEach_cons]
    refine (h 0 x rfl s hs).bind fun _ t ht => ?_
    refine (forEach_zipIdx hJ l (k + 1) t ht fun i y hi u hu => ?_).imp fun _ u hu => ?_
    · have := h (i + 1) y hi u (by rwa [show k + (i + 1) = k + 1 + i by omega])
      rwa [show k + (i + 1) = k + 1 + i by omega] at this
    · rwa [List.length_cons, show k + (l.length + 1) = k + 1 + l.length by omega]

end Durable

end Prog
