import Mosito.Lib.KWayMerge
import Mosito.Physical.ParallelSort

/-! The merge of sorted ranges by `heap_out`, whose key ranges may overlap: each call takes a tuple
with a least key from the backs of the ranges. -/
namespace Mosito.PhysicalSort
open KWayMerge

section HeapOut
variable {α : Type} (key : α → ℕ)

/-- `Sort::compare`; `key` reads the `unsigned long` behind a pointer. -/
def compare (left right : α) : Bool := if key left < key right then false else true

/-- The first loop: the back of the first range from `i` on that is not empty, and its number. -/
def firstBack (ranges : ℕ → List α) : ℕ → ℕ → Option (α × ℕ)
  | 0, _ => none
  | rounds + 1, i =>
      match (ranges i).getLast? with
      | some most => some (most, i)
      | none => firstBack ranges rounds (i + 1)

/-- The second loop with `most` and `most_cur`. -/
def leastBack (ranges : ℕ → List α) : ℕ → ℕ → α × ℕ → α × ℕ
  | 0, _, most => most
  | rounds + 1, i, most =>
      leastBack ranges rounds (i + 1)
        (match (ranges i).getLast? with
        | some back => if compare key most.1 back then (back, i) else most
        | none => most)

/-- The returned tuple and the ranges after the call. Without a tuple, `pop_back` is called on an
empty range, which has no result. -/
def heapOut (ranges : ℕ → List α) : Option (α × (ℕ → List α)) :=
  (firstBack ranges cpuCore 0).map fun first =>
    let most := leastBack key ranges (cpuCore - (first.2 + 1)) (first.2 + 1) first
    (most.1, Function.update ranges most.2 (ranges most.2).dropLast)

/-- `n` calls, with the tuples they return. -/
def heapOuts : ℕ → (ℕ → List α) → Option (List α × (ℕ → List α))
  | 0, ranges => some ([], ranges)
  | n + 1, ranges =>
      (heapOut key ranges).bind fun r => (heapOuts n r.2).map fun c => (r.1 :: c.1, c.2)

/-- The tuples of a range in the order in which they are taken. -/
def queues (ranges : ℕ → List α) (i : ℕ) : List α := (ranges i).reverse

/-- `most` is the back of range `most_cur`, and none of the first `k` ranges has a smaller one. -/
structure Least (ranges : ℕ → List α) (k : ℕ) (most : α × ℕ) : Prop where
  lt : most.2 < k
  back : (ranges most.2).getLast? = some most.1
  least : ∀ j < k, ∀ y ∈ (ranges j).getLast?, key most.1 ≤ key y

variable {key} {ranges ranges' : ℕ → List α} {most : α × ℕ} {i rounds n : ℕ}

theorem firstBack_least (key : α → ℕ) (hempty : ∀ j < i, ranges j = [])
    (h : firstBack ranges rounds i = some most) :
    Least key ranges (most.2 + 1) most ∧ most.2 < i + rounds := by
  induction rounds generalizing i with
  | zero => cases h
  | succ rounds ih =>
    rw [firstBack] at h
    split at h
    · next x hback =>
      cases h
      refine ⟨⟨Nat.lt_succ_self i, hback, fun j hj y hy => ?_⟩, by dsimp only; omega⟩
      rcases Nat.lt_succ_iff_lt_or_eq.mp hj with hlt | rfl
      · simp [hempty j hlt] at hy
      · rw [Option.mem_def.mp hy] at hback
        cases hback
        exact le_rfl
    · next hback =>
      have hempty' : ∀ j < i + 1, ranges j = [] := by
        intro j hj
        rcases Nat.lt_succ_iff_lt_or_eq.mp hj with hlt | rfl
        · exact hempty j hlt
        · exact List.getLast?_eq_none_iff.mp hback
      obtain ⟨hleast, hlt⟩ := ih hempty' h
      exact ⟨hleast, by omega⟩

theorem firstBack_isSome {j : ℕ} (hi : i ≤ j) (hj : j < i + rounds) (hne : ranges j ≠ []) :
    (firstBack ranges rounds i).isSome := by
  induction rounds generalizing i with
  | zero => omega
  | succ rounds ih =>
    rw [firstBack]
    split
    · rfl
    · next hback =>
      have hij : i ≠ j := by
        rintro rfl
        exact hne (List.getLast?_eq_none_iff.mp hback)
      exact ih (by omega) (by omega)

/-- One round of the second loop. -/
theorem Least.round (h : Least key ranges i most) :
    Least key ranges (i + 1)
      (match (ranges i).getLast? with
      | some back => if compare key most.1 back then (back, i) else most
      | none => most) := by
  obtain ⟨hlt, hback, hleast⟩ := h
  split
  · next x hx =>
    by_cases hkey : key most.1 < key x
    · simp only [compare, hkey, ↓reduceIte, Bool.false_eq_true]
      refine ⟨by omega, hback, fun j hj y hy => ?_⟩
      rcases Nat.lt_succ_iff_lt_or_eq.mp hj with hlt | rfl
      · exact hleast j hlt y hy
      · rw [Option.mem_def.mp hy] at hx
        cases hx
        exact hkey.le
    · simp only [compare, hkey, ↓reduceIte]
      refine ⟨Nat.lt_succ_self i, hx, fun j hj y hy => ?_⟩
      rcases Nat.lt_succ_iff_lt_or_eq.mp hj with hlt | rfl
      · exact (not_lt.mp hkey).trans (hleast j hlt y hy)
      · rw [Option.mem_def.mp hy] at hx
        cases hx
        exact le_rfl
  · next hx =>
    refine ⟨by omega, hback, fun j hj y hy => ?_⟩
    rcases Nat.lt_succ_iff_lt_or_eq.mp hj with hlt | rfl
    · exact hleast j hlt y hy
    · rw [Option.mem_def.mp hy] at hx
      cases hx

theorem leastBack_least (rounds : ℕ) (h : Least key ranges i most) :
    Least key ranges (i + rounds) (leastBack key ranges rounds i most) := by
  induction rounds generalizing i most with
  | zero => exact h
  | succ rounds ih =>
    rw [leastBack, Nat.add_comm rounds 1, ← Nat.add_assoc]
    exact ih h.round

/-- Taking the back of a range is taking the head of its queue. -/
theorem Least.pick (h : Least key ranges cpuCore most) :
    Pick key cpuCore (queues ranges) most.1
      (queues (Function.update ranges most.2 (ranges most.2).dropLast)) := by
  constructor
  · refine ⟨most.2, h.lt, (ranges most.2).dropLast.reverse, ?_, ?_⟩
    · have hsplit := List.dropLast_append_getLast? most.1 h.back
      rw [queues]
      nth_rewrite 1 [← hsplit]
      rw [List.reverse_append]
      rfl
    · funext j
      unfold queues
      rcases eq_or_ne j most.2 with rfl | hj
      · rw [Function.update_self, Function.update_self]
      · rw [Function.update_of_ne hj, Function.update_of_ne hj]
  · intro j hj y hy
    rw [queues, List.head?_reverse] at hy
    exact h.least j hj y hy

/-- A call takes a tuple with a least key. -/
theorem heapOut_pick {x : α} (h : heapOut key ranges = some (x, ranges')) :
    Pick key cpuCore (queues ranges) x (queues ranges') := by
  obtain ⟨first, hfirst, hmost⟩ := Option.map_eq_some_iff.mp h
  obtain ⟨hleast, hlt⟩ := firstBack_least key (by simp) hfirst
  have hall := leastBack_least (cpuCore - (first.2 + 1)) hleast
  rw [show first.2 + 1 + (cpuCore - (first.2 + 1)) = cpuCore by omega] at hall
  cases hmost
  exact hall.pick

/-- As long as there is a tuple, a call returns. -/
theorem heapOut_isSome (key : α → ℕ) (h : total cpuCore (queues ranges) ≠ []) :
    ∃ x ranges', heapOut key ranges = some (x, ranges') := by
  obtain ⟨j, hj, hne⟩ : ∃ j < cpuCore, queues ranges j ≠ [] := by
    by_contra hnone
    push Not at hnone
    exact h (total_eq_nil_iff.mpr hnone)
  have hsome := firstBack_isSome (Nat.zero_le j) (show j < 0 + cpuCore by omega)
    (List.reverse_ne_nil_iff.mp hne)
  obtain ⟨first, hfirst⟩ := Option.isSome_iff_exists.mp hsome
  exact ⟨_, _, by rw [heapOut, hfirst]; rfl⟩

/-- Calls take least tuples one after the other. -/
theorem heapOuts_picks (key : α → ℕ) (h : n ≤ (total cpuCore (queues ranges)).length) :
    ∃ out ranges', heapOuts key n ranges = some (out, ranges') ∧ out.length = n ∧
      Picks key cpuCore (queues ranges) out (queues ranges') := by
  induction n generalizing ranges with
  | zero => exact ⟨[], ranges, rfl, rfl, .nil _⟩
  | succ n ih =>
    have hne : total cpuCore (queues ranges) ≠ [] := by
      intro hnil
      simp [hnil] at h
    obtain ⟨x, ranges₁, hx⟩ := heapOut_isSome key hne
    have hpick := heapOut_pick hx
    have hlen := hpick.total_perm.length_eq
    rw [List.length_cons] at hlen
    have hcount : n ≤ (total cpuCore (queues ranges₁)).length := by omega
    obtain ⟨out, ranges', hout, hn, hpicks⟩ := ih hcount
    refine ⟨x :: out, ranges', ?_, congrArg Nat.succ hn, .cons hpick hpicks⟩
    rw [heapOuts, hx, Option.bind_some, hout]
    rfl

theorem total_queues_perm (ranges : ℕ → List α) :
    (total cpuCore (queues ranges)).Perm ((List.range cpuCore).flatMap ranges) :=
  List.Perm.flatMap_left _ fun i _ => List.reverse_perm (ranges i)

/-- As many calls as there are tuples return each of them once and in key order, and leave every
range empty. -/
theorem heapOuts_merges
    (hsorted : ∀ i < cpuCore, (ranges i).Pairwise fun x y => key y ≤ key x) :
    ∃ out ranges', heapOuts key ((List.range cpuCore).flatMap ranges).length ranges =
        some (out, ranges') ∧
      out.Perm ((List.range cpuCore).flatMap ranges) ∧
      (out.Pairwise fun x y => key x ≤ key y) ∧ ∀ i < cpuCore, ranges' i = [] := by
  have hall := total_queues_perm ranges
  obtain ⟨out, ranges', hout, hlen, hpicks⟩ := heapOuts_picks key hall.length_eq.symm.le
  have hperm := hpicks.total_perm
  have hrest : total cpuCore (queues ranges') = [] := by
    have hcount := hperm.length_eq.symm.trans hall.length_eq
    rw [List.length_append, hlen] at hcount
    exact List.length_eq_zero_iff.mp (by omega)
  rw [hrest, List.append_nil] at hperm
  refine ⟨out, ranges', hout, hperm.symm.trans hall, hpicks.pairwise fun i hi => ?_, fun i hi => ?_⟩
  · exact List.pairwise_reverse.mpr (hsorted i hi)
  · exact List.reverse_eq_nil_iff.mp (total_eq_nil_iff.mp hrest i hi)

end HeapOut

/-- Two ranges with overlapping keys, between empty ones. -/
theorem heapOuts_merges_overlapping :
    ∃ out ranges', heapOuts id 5 ([[], [9, 4, 4], [], [7, 4]].getD · []) = some (out, ranges') ∧
      out = [4, 4, 4, 7, 9] ∧ ∀ i < cpuCore, ranges' i = [] := by
  have hsorted : ∀ i < cpuCore,
      ([[], [9, 4, 4], [], [7, 4]].getD i []).Pairwise fun x y => id y ≤ id x := by decide
  obtain ⟨out, ranges', hout, hperm, hpair, hempty⟩ := heapOuts_merges hsorted
  refine ⟨out, ranges', hout, ?_, hempty⟩
  refine List.Perm.eq_of_pairwise (fun a b _ _ hab hba => le_antisymm hab hba) hpair (by decide) ?_
  exact hperm.trans (by decide)

/-! The ranges of the sort phase. -/

theorem length_foldlM_push {dist : List ℕ} {ts : List Tuple} {ranges ranges' : List (List Tuple)}
    (h : ts.foldlM (push dist) ranges = some ranges') : ranges'.length = ranges.length := by
  induction ts generalizing ranges with
  | nil =>
    cases h
    rfl
  | cons x ts ih =>
    rw [List.foldlM_cons] at h
    obtain ⟨ranges₁, hpush, hrest⟩ := Option.bind_eq_some_iff.mp h
    obtain ⟨r, -, hr⟩ := Option.bind_eq_some_iff.mp hpush
    rw [ih hrest]
    split at hr
    · cases hr
      exact List.length_modify _ _ _
    · cases hr

theorem flatMap_getD (l : List (List Tuple)) :
    (List.range l.length).flatMap (l.getD · []) = l.flatten := by
  rw [List.flatMap_def]
  congr 1
  apply List.ext_getElem (by simp)
  intro i hi hl
  simp [List.getElem?_eq_getElem hl]

/-- After the sort phase, `heap_out` returns the tuples of the child in key order, whatever the
bounds of the ranges are. -/
theorem sortPhase_heapOuts {stableSort : List Tuple → List Tuple} (hperm : ∀ l, (stableSort l).Perm l)
    (hsort : ∀ l, (stableSort l).Pairwise fun x y => key y ≤ key x) {dist : List ℕ}
    {junk : ByteStore.Memory} {t : ℕ} {child : List Image} {s : PhysicalSort}
    (h : sortPhase stableSort dist junk t child = some s) :
    ∃ out ranges', heapOuts key s.tempCur (s.ranges.getD · []) = some (out, ranges') ∧
      out.Perm (childTuples junk t child) ∧ out.Pairwise fun x y => key x ≤ key y := by
  obtain ⟨hpending, hc, -⟩ := sortPhase_perm hperm h
  obtain ⟨ranges, hr, rfl⟩ := Option.map_eq_some_iff.mp h
  have hlen : (ranges.map stableSort).length = cpuCore := by
    rw [List.length_map, length_foldlM_push hr]
    rfl
  have hsorted : ∀ i < cpuCore,
      ((ranges.map stableSort).getD i []).Pairwise fun x y => key y ≤ key x := by
    intro i hi
    rw [List.getD_eq_getElem _ _ (hlen.symm ▸ hi), List.getElem_map]
    exact hsort _
  obtain ⟨out, ranges', hout, hp, hpair, -⟩ := heapOuts_merges hsorted
  have hflat : ((List.range cpuCore).flatMap ((ranges.map stableSort).getD · [])).Perm
      (childTuples junk t child) := by
    rw [← hlen, flatMap_getD]
    refine List.Perm.trans ?_ hpending
    rw [pending, List.drop_zero, ← List.flatMap_id']
    exact List.Perm.flatMap_left _ fun l _ => (List.reverse_perm l).symm
  refine ⟨out, ranges', ?_, hp.trans hflat, hpair⟩
  rw [← hout, hflat.length_eq]

end Mosito.PhysicalSort
