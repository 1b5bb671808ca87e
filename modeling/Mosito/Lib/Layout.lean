import Mathlib.Order.Monotone.Basic
import Mathlib.Data.Nat.Init

/-! Ranges that lie one after the other, and the running total that places them. -/
namespace Layout

/-- The ranges between the values of a function that grows from zero cover all below the last. -/
theorem lt_iff_exists_range {f : ℕ → ℕ} (hf : Monotone f) (hzero : f 0 = 0) {n b : ℕ} :
    b < f n ↔ ∃ i < n, f i ≤ b ∧ b < f (i + 1) := by
  constructor
  · intro hb
    induction n with
    | zero =>
      rw [hzero] at hb
      exact absurd hb (Nat.not_lt_zero b)
    | succ n ih =>
      by_cases hlt : b < f n
      · obtain ⟨i, hi, hrange⟩ := ih hlt
        exact ⟨i, Nat.lt_succ_of_lt hi, hrange⟩
      · exact ⟨n, Nat.lt_succ_self n, Nat.le_of_not_lt hlt, hb⟩
  · rintro ⟨i, hi, -, hb⟩
    exact hb.trans_le (hf hi)

variable {σ ε : Type} {f : σ → ε → σ} {m : σ → ℕ} {bound : ℕ}

/-- If the total never shrinks, it stays below a bound all along exactly if it ends below it. -/
theorem foldlM_bounded (hm : ∀ s e, m s ≤ m (f s e)) {s : σ} (hs : m s < bound) (es : List ε) :
    es.foldlM (fun s e => if m (f s e) < bound then some (f s e) else none) s =
      if m (es.foldl f s) < bound then some (es.foldl f s) else none := by
  have hgrow (t : σ) (es : List ε) : m t ≤ m (es.foldl f t) := by
    induction es generalizing t with
    | nil => exact le_rfl
    | cons e es ih => exact (hm t e).trans (ih (f t e))
  induction es generalizing s with
  | nil =>
    rw [List.foldl_nil, if_pos hs]
    rfl
  | cons e es ih =>
    rw [List.foldlM_cons, List.foldl_cons]
    by_cases he : m (f s e) < bound
    · rw [if_pos he]
      exact ih he
    · rw [if_neg he, if_neg fun hend => he ((hgrow (f s e) es).trans_lt hend)]
      rfl

end Layout
