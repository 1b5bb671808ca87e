import Mosito.Common.Heap

/-! How a heap is built: the loops of `heap_again` and `heap_sort`, with the tests that end them. -/
namespace Mosito
open BinaryHeap
namespace Heap
variable (le : Tuple → Tuple → Bool)

/-- `while(child<len)`, if it ends within `fuel` tests. -/
def againLoop (len : ℕ) : ℕ → ℕ → ℕ → (ℕ → Tuple) → Option (ℕ → Tuple)
  | 0, _, _, _ => none
  | fuel + 1, i, child, array =>
      if child < len then
        let child :=
          if child + 1 < len ∧ le (array child) (array (child + 1)) = false then child + 1
          else child
        if le (array i) (array child) then some array
        else againLoop len fuel child (child * 2 + 1) (exchange i child array)
      else some array

/-- `array_` after `heap_again(i, len)`. -/
def heapAgainLoop (i len : ℕ) (h : Heap) : Option (ℕ → Tuple) :=
  againLoop le len (len + 1) i (2 * i + 1) h.array

/-- `for(;i>=0;i--) heap_again(i,waterline_)`, if it ends within `fuel` tests. -/
def sortLoop (waterline : ℕ) : ℕ → ℤ → (ℕ → Tuple) → Option (ℕ → Tuple)
  | 0, _, _ => none
  | fuel + 1, i, array =>
      if 0 ≤ i then
        (againLoop le waterline (waterline + 1) i.toNat (2 * i.toNat + 1) array).bind
          (sortLoop waterline fuel (i - 1))
      else some array

/-- `array_` after `heap_sort()`. The division rounds towards zero: -1 for an empty heap, 0 for a
heap of one. -/
def heapSortLoop (h : Heap) : Option (ℕ → Tuple) :=
  sortLoop le h.waterline (h.waterline + 1) (((h.waterline : ℤ) - 2).tdiv 2) h.array

variable {le} {len fuel i k : ℕ} {a : ℕ → Tuple} {h : Heap}

/-- The element goes down in at most as many rounds as there are places behind `i`. -/
theorem againLoop_eq (hfuel : len ≤ i + fuel) :
    againLoop le len (fuel + 1) i (2 * i + 1) a = some (siftDown le len fuel i a) := by
  induction fuel generalizing i a with
  | zero =>
    rw [againLoop, if_neg (by omega)]
    rfl
  | succ fuel ih =>
    rw [againLoop, siftDown]
    by_cases hlt : 2 * i + 1 < len
    · rw [if_pos hlt, if_pos hlt]
      change (if le (a i) (a (smallerChild le len i a)) then some a else
        againLoop le len (fuel + 1) (smallerChild le len i a) (smallerChild le len i a * 2 + 1)
          (exchange i (smallerChild le len i a) a)) = _
      by_cases hle : le (a i) (a (smallerChild le len i a)) = true
      · rw [if_pos hle, if_pos hle]
      · have hchild := smallerChild_child le len i a
        unfold Child at hchild
        rw [if_neg hle, if_neg hle, Nat.mul_comm]
        exact ih (by omega)
    · rw [if_neg hlt, if_neg hlt]

theorem heapAgainLoop_eq (i len : ℕ) (h : Heap) :
    h.heapAgainLoop le i len = some (h.heapAgain le i len).array :=
  againLoop_eq (Nat.le_add_left len i)

theorem sortLoop_eq (hfuel : k < fuel) :
    sortLoop le len fuel ((k : ℤ) - 1) a = some (heapify le len k a) := by
  induction fuel generalizing k a with
  | zero => omega
  | succ fuel ih =>
    cases k with
    | zero =>
      rw [sortLoop, if_neg (by omega)]
      rfl
    | succ k =>
      have hi : ((k + 1 : ℕ) : ℤ) - 1 = k := by omega
      rw [sortLoop, hi, if_pos (by omega), Int.toNat_natCast, againLoop_eq (Nat.le_add_left len k),
        Option.bind_some]
      exact ih (by omega)

/-- With no tuple the loop has no round, which is what a round on no places does. -/
theorem heapSortLoop_eq (h : Heap) : h.heapSortLoop le = some (h.heapSort le).array := by
  unfold heapSortLoop heapSort
  dsimp only
  rcases Nat.eq_zero_or_pos h.waterline with hw | hw
  · rw [hw]
    rfl
  · have hstart : ((h.waterline : ℤ) - 2).tdiv 2 = (((h.waterline - 2) / 2 + 1 : ℕ) : ℤ) - 1 := by
      rcases Nat.lt_or_ge h.waterline 2 with hlt | hge
      · rw [show h.waterline = 1 by omega]
        rfl
      · rw [Int.tdiv_eq_ediv_of_nonneg (by omega)]
        omega
    rw [hstart, sortLoop_eq (by omega)]

/-- Where the subtrees below `i` are heaps, `heap_again` returns, permutes only entries of the
subtree of `i` and makes it a heap; so `heap_sort` makes a heap of the entries it has. -/
theorem heapSort_builds (ho : TotalPreorder le) (h : Heap) :
    (∀ i len, (∀ c, Child i c → OrderedIn le len (Below c) h.array) →
      ∃ σ : Equiv.Perm ℕ, h.heapAgainLoop le i len = some (h.array ∘ σ) ∧
        (∀ j, σ j ≠ j → Below i j ∧ j < len) ∧ OrderedIn le len (Below i) (h.array ∘ σ)) ∧
    ∃ a, h.heapSortLoop le = some a ∧ (elems h.waterline a).Perm (elems h.waterline h.array) ∧
      (∀ j, h.waterline ≤ j → a j = h.array j) ∧ OrderedFrom le h.waterline 0 a := by
  constructor
  · intro i len hchildren
    have hheap := siftDown_subtree ho hchildren (Nat.le_add_left len i)
    obtain ⟨σ, hσ, hmoves⟩ := siftDown_moves le len len i h.array
    rw [hσ] at hheap
    refine ⟨σ, ?_, hmoves, hheap⟩
    rw [heapAgainLoop_eq, heapAgain, hσ]
  · refine ⟨_, heapSortLoop_eq h, heapify_perm le_rfl, fun j hj => ?_, ?_⟩
    · obtain ⟨σ, hσ, hmoves⟩ := heapify_moves le h.waterline ((h.waterline - 2) / 2 + 1) h.array
      change heapify le h.waterline ((h.waterline - 2) / 2 + 1) h.array j = h.array j
      rw [hσ, Function.comp_apply, not_not.mp (mt (hmoves j) (by omega))]
    · refine heapify_ordered ho fun p c hp hc hlen => ?_
      unfold Child at hc
      omega

/-- The keys 3, 1, 2: both operations build a heap of them. -/
theorem heapSort_builds_three :
    let three : Heap :=
      { sevens with waterline := 3, array := fun k => longTuple ([3, 1, 2].getD k 0) }
    (∃ a, three.heapAgainLoop leKey 0 3 = some a ∧ OrderedIn leKey 3 (Below 0) a) ∧
      ∃ a, three.heapSortLoop leKey = some a ∧
        (elems 3 a).Perm [longTuple 3, longTuple 1, longTuple 2] ∧ OrderedFrom leKey 3 0 a := by
  intro three
  obtain ⟨hagain, a, hloop, hperm, -, hheap⟩ := heapSort_builds leKey_totalPreorder three
  obtain ⟨σ, hσ, -, hordered⟩ := hagain 0 3 fun c hc p d hp hd hlen => by
    have hle := below_le hp
    unfold Child at hc hd
    omega
  exact ⟨⟨_, hσ, hordered⟩, a, hloop, hperm, hheap⟩

end Heap
end Mosito
