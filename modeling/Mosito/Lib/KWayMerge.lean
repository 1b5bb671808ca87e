import Mathlib.Data.Finset.Card
import Mathlib.Data.Finset.Range
import Mathlib.Data.List.Range
import Mathlib.Data.List.Perm.Basic
import Mathlib.Logic.Function.Basic
import Mathlib.Order.Defs.LinearOrder

/-! Merging `n` sorted columns by repeatedly taking a least head. -/
namespace KWayMerge
variable {α κ : Type} [LinearOrder κ] (f : α → κ) (n : ℕ)

/-- Take a least head `x` of the columns. -/
structure Pick (cols : ℕ → List α) (x : α) (cols' : ℕ → List α) : Prop where
  taken : ∃ i < n, ∃ l, cols i = x :: l ∧ cols' = Function.update cols i l
  least : ∀ j < n, ∀ y ∈ (cols j).head?, f x ≤ f y

/-- Take least heads one after the other, in the order of `out`. -/
inductive Picks : (ℕ → List α) → List α → (ℕ → List α) → Prop where
  | nil (cols : ℕ → List α) : Picks cols [] cols
  | cons {cols cols' cols'' : ℕ → List α} {x : α} {out : List α} :
      Pick f n cols x cols' → Picks cols' out cols'' → Picks cols (x :: out) cols''

/-- Every column is sorted. -/
def Sorted (cols : ℕ → List α) : Prop := ∀ j < n, (cols j).Pairwise fun x y => f x ≤ f y

/-- The elements of all columns. -/
def total (cols : ℕ → List α) : List α := (List.range n).flatMap cols

/-- The number of exhausted columns. -/
def exhausted (cols : ℕ → List α) : ℕ := ((Finset.range n).filter fun j => cols j = []).card

variable {f n} {cols cols' cols'' : ℕ → List α} {x : α} {out out' : List α}

theorem mem_total {y : α} : y ∈ total n cols ↔ ∃ j < n, y ∈ cols j := by simp [total]

theorem total_eq_nil_iff : total n cols = [] ↔ ∀ j < n, cols j = [] := by simp [total]

theorem exhausted_eq_zero (h : ∀ j < n, cols j ≠ []) : exhausted n cols = 0 := by
  rw [exhausted, Finset.card_eq_zero, Finset.filter_eq_empty_iff]
  exact fun j hj => h j (Finset.mem_range.mp hj)

theorem ne_nil_of_exhausted (h : exhausted n cols = 0) {j : ℕ} (hj : j < n) : cols j ≠ [] := by
  rw [exhausted, Finset.card_eq_zero, Finset.filter_eq_empty_iff] at h
  exact h (Finset.mem_range.mpr hj)

theorem exhausted_le (n : ℕ) (cols : ℕ → List α) : exhausted n cols ≤ n := by
  simpa [exhausted] using Finset.card_filter_le (Finset.range n) fun j => cols j = []

theorem exhausted_eq_iff : exhausted n cols = n ↔ total n cols = [] := by
  have h := Finset.card_filter_eq_iff (s := Finset.range n) (p := fun j => cols j = [])
  simpa [exhausted, total_eq_nil_iff] using h

/-- Only a column that gives its last element is newly exhausted. -/
theorem exhausted_update {i : ℕ} (hi : i < n) (hne : cols i ≠ []) (l : List α) :
    exhausted n (Function.update cols i l) = exhausted n cols + if l = [] then 1 else 0 := by
  unfold exhausted
  by_cases hl : l = []
  · have hins : (Finset.range n).filter (fun j => Function.update cols i l j = []) =
        insert i ((Finset.range n).filter fun j => cols j = []) := by
      ext j
      rcases eq_or_ne j i with rfl | hj
      · simp [hi, hl]
      · simp [hj]
    rw [hins, Finset.card_insert_of_notMem (by simp [hne]), if_pos hl]
  · rw [if_neg hl, Nat.add_zero]
    congr 1
    ext j
    rcases eq_or_ne j i with rfl | hj
    · simp [hl, hne]
    · simp [hj]

theorem Picks.append (h : Picks f n cols out cols') (h' : Picks f n cols' out' cols'') :
    Picks f n cols (out ++ out') cols'' := by
  induction h with
  | nil => exact h'
  | cons hp _ ih => exact .cons hp (ih h')

private theorem flatMap_take_perm {i : ℕ} {l : List α} (hi : cols i = x :: l) {is : List ℕ}
    (hn : is.Nodup) (hm : i ∈ is) :
    (is.flatMap cols).Perm (x :: is.flatMap (Function.update cols i l)) := by
  induction is with
  | nil => simp at hm
  | cons j is ih =>
    obtain ⟨hj, hn⟩ := List.nodup_cons.mp hn
    rw [List.flatMap_cons, List.flatMap_cons]
    rcases List.mem_cons.mp hm with rfl | hm
    · have hsame : is.flatMap (Function.update cols i l) = is.flatMap cols := by
        apply List.flatMap_congr
        intro k hk
        exact Function.update_of_ne (ne_of_mem_of_not_mem hk hj) _ _
      rw [hsame, Function.update_self, hi]
      exact List.Perm.refl _
    · rw [Function.update_of_ne (ne_of_mem_of_not_mem hm hj).symm]
      exact ((ih hn hm).append_left _).trans List.perm_middle

/-- A pick moves one element out of the columns. -/
theorem Pick.total_perm (h : Pick f n cols x cols') :
    (total n cols).Perm (x :: total n cols') := by
  obtain ⟨i, hi, l, hl, rfl⟩ := h.taken
  exact flatMap_take_perm hl List.nodup_range (List.mem_range.mpr hi)

theorem Picks.total_perm (h : Picks f n cols out cols') :
    (total n cols).Perm (out ++ total n cols') := by
  induction h with
  | nil => exact List.Perm.refl _
  | cons hp _ ih => exact hp.total_perm.trans (ih.cons _)

theorem Pick.sorted (h : Pick f n cols x cols') (hs : Sorted f n cols) : Sorted f n cols' := by
  obtain ⟨i, hi, l, hl, rfl⟩ := h.taken
  intro j hj
  rcases eq_or_ne j i with rfl | hne
  · have hc := hs j hj
    rw [hl] at hc
    rw [Function.update_self]
    exact hc.of_cons
  · rw [Function.update_of_ne hne]
    exact hs j hj

/-- In sorted columns a least head is a least element. -/
theorem Pick.le_total (h : Pick f n cols x cols') (hs : Sorted f n cols) {y : α}
    (hy : y ∈ total n cols) : f x ≤ f y := by
  obtain ⟨j, hj, hy⟩ := mem_total.mp hy
  have hc := hs j hj
  have hl := h.least j hj
  cases hcol : cols j with
  | nil => simp [hcol] at hy
  | cons z l =>
    rw [hcol] at hy hc hl
    have hz : f x ≤ f z := hl z rfl
    rcases List.mem_cons.mp hy with rfl | hy
    · exact hz
    · exact hz.trans (List.rel_of_pairwise_cons hc hy)

/-- The picked elements come in order. -/
theorem Picks.pairwise (h : Picks f n cols out cols') (hs : Sorted f n cols) :
    out.Pairwise fun x y => f x ≤ f y := by
  induction h with
  | nil => exact List.Pairwise.nil
  | cons hp hps ih =>
    refine List.Pairwise.cons (fun y hy => ?_) (ih (hp.sorted hs))
    apply hp.le_total hs
    rw [hp.total_perm.mem_iff]
    apply List.mem_cons_of_mem
    rw [hps.total_perm.mem_iff]
    exact List.mem_append_left _ hy

end KWayMerge
