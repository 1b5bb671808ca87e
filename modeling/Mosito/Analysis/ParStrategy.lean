import Mosito.Lib.Layers
import Mosito.Lib.Runs
import Mathlib

/-! The partition of a row of loads into contiguous parts of least variance. Integers are exact
here. The arrays `state` and `new_state` are declared with `N` rows of `P` integers and indexed up
to `[N][P]`, so they are kept as the integers from the first one of `state` to the end of the
object. There is no result once an index leaves the object. -/
namespace Mosito
open Layers Runs

structure ParStrategy where
  N : ℕ
  P : ℕ
  aArray : ℕ → ℤ
  bArray : ℕ → ℤ
  aExpect : ℤ
  bExpect : ℤ
  /-- `state` and `new_state`. -/
  cells : List ℤ
  /-- The table of `eval`. -/
  matrix : ℕ → ℕ → ℤ
  /-- The sums of `eval` so far, each with the place in `matrix` that it reads. -/
  sums : List (ℕ × ℕ × ℤ)

namespace ParStrategy

/-- `INT_MAX`. -/
def intMax : ℤ := 2147483647

def write (s : ParStrategy) (place : ℕ) (v : ℤ) : Option ParStrategy :=
  if place < s.cells.length then some { s with cells := s.cells.set place v } else none

/-- `state[j][k]=v` -/
def setState (s : ParStrategy) (j k : ℕ) (v : ℤ) : Option ParStrategy := s.write (j * s.P + k) v

/-- `new_state[j][k]=v` -/
def setNewState (s : ParStrategy) (j k : ℕ) (v : ℤ) : Option ParStrategy :=
  s.write (s.N * s.P + (j * s.P + k)) v

/-- `new_state[j][k]` -/
def newState (s : ParStrategy) (j k : ℕ) : Option ℤ := s.cells[s.N * s.P + (j * s.P + k)]?

/-- `matrix[j][k]=v` -/
def setMatrix (s : ParStrategy) (j k : ℕ) (v : ℤ) : ParStrategy :=
  { s with matrix := Function.update s.matrix j (Function.update (s.matrix j) k v) }

def clearCell (i : ℕ) (s : ParStrategy) (j : ℕ) : Option ParStrategy :=
  (s.setState i j intMax).bind fun s => s.setNewState i j 0

def clearRow (s : ParStrategy) (i : ℕ) : Option ParStrategy :=
  run (clearCell i) s (List.range (s.P + 1))

/-- The loops of the constructor. -/
def clear (s : ParStrategy) : Option ParStrategy := run clearRow s (List.range (s.N + 1))

def variance (s : ParStrategy) (m n : ℕ) : ℤ :=
  let r := (List.range' m (n - m)).foldl
    (fun r i => (r.1 + s.aArray i, r.2 + s.bArray i)) ((0 : ℤ), (0 : ℤ))
  (r.1 - s.aExpect) * (r.1 - s.aExpect) + (r.2 - s.bExpect) * (r.2 - s.bExpect)

/-- `matrix[l][k-1]+variance(l,j)` -/
def sum (s : ParStrategy) (k j l : ℕ) : ℤ := s.matrix l (k - 1) + s.variance l j

/-- One round of the loop over `l`, with `min`. -/
def candidate (k j : ℕ) (r : ParStrategy × ℤ) (l : ℕ) : Option (ParStrategy × ℤ) :=
  let s := { r.1 with sums := r.1.sums ++ [(l, k - 1, r.1.sum k j l)] }
  if r.1.sum k j l < r.2 then (s.setNewState j k l).map fun s => (s, r.1.sum k j l)
  else some (s, r.2)

/-- The loop over `l` from `k - 1` to `j`. -/
def candidates (s : ParStrategy) (k j : ℕ) : Option (ParStrategy × ℤ) :=
  run (candidate k j) (s, intMax) (List.range' (k - 1) (j - (k - 1)))

/-- One round of the loop over `j`. -/
def cell (k : ℕ) (s : ParStrategy) (j : ℕ) : Option ParStrategy :=
  (s.candidates k j).bind fun r => (r.1.setMatrix j k r.2).setState j k r.2

def layer (s : ParStrategy) (k : ℕ) : Option ParStrategy :=
  run (cell k) s (List.range' 2 (s.N - 1))

/-- One round of the first loop. -/
def firstCell (s : ParStrategy) (i : ℕ) : Option ParStrategy :=
  let s := s.setMatrix i 1 (s.variance 0 i)
  s.setState i 1 (s.matrix i 1)

/-- The table loops of `eval`. -/
def eval (s : ParStrategy) : Option ParStrategy :=
  (run firstCell { s with matrix := fun _ _ => 0, sums := [] } (List.range' 1 s.N)).bind fun s =>
    run layer s (List.range' 2 (s.P - 1))

section Frame
variable {s s' s'' : ParStrategy} {j j' k k' place : ℕ} {v : ℤ}

/-- All places that are indexed belong to the object. -/
def Roomy (s : ParStrategy) : Prop := 2 * (s.N * s.P) + s.P < s.cells.length

theorem write_spec (h : s.write place v = some s') :
    place < s.cells.length ∧ s' = { s with cells := s.cells.set place v } := by
  unfold write at h
  split_ifs at h with hlt
  cases h
  exact ⟨hlt, rfl⟩

theorem Roomy.setState (h : s.Roomy) (hj : j ≤ s.N) (hk : k ≤ s.P) :
    ∃ s', s.setState j k v = some s' := by
  have hle := Nat.mul_le_mul_right s.P hj
  unfold Roomy at h
  exact ⟨_, if_pos (by omega)⟩

theorem Roomy.setNewState (h : s.Roomy) (hj : j ≤ s.N) (hk : k ≤ s.P) :
    ∃ s', s.setNewState j k v = some s' := by
  have hle := Nat.mul_le_mul_right s.P hj
  unfold Roomy at h
  exact ⟨_, if_pos (by omega)⟩

/-- `state` does not reach the used part of `new_state`. -/
theorem newState_setState (h : s.setState j k v = some s') (hj : j ≤ s.N) (hk : k ≤ s.P)
    (hj' : 1 ≤ j') (hk' : 1 ≤ k') : s'.newState j' k' = s.newState j' k' := by
  obtain ⟨-, rfl⟩ := write_spec h
  have hle := Nat.mul_le_mul_right s.P hj
  have hle' := Nat.mul_le_mul_right s.P hj'
  have hne : j * s.P + k ≠ s.N * s.P + (j' * s.P + k') := by omega
  exact List.getElem?_set_ne hne

theorem newState_setNewState_self (h : s.setNewState j k v = some s') :
    s'.newState j k = some v := by
  obtain ⟨hlt, rfl⟩ := write_spec h
  exact List.getElem?_set_self hlt

/-- The rows of `new_state` overlap, but not where it is used. -/
theorem newState_setNewState (h : s.setNewState j k v = some s') (hk : 1 ≤ k) (hkP : k ≤ s.P)
    (hk' : 1 ≤ k') (hkP' : k' ≤ s.P) (hne : ¬ (j' = j ∧ k' = k)) :
    s'.newState j' k' = s.newState j' k' := by
  obtain ⟨-, rfl⟩ := write_spec h
  suffices hneq : s.N * s.P + (j * s.P + k) ≠ s.N * s.P + (j' * s.P + k') from
    List.getElem?_set_ne hneq
  refine fun he => hne ?_
  rcases Nat.lt_trichotomy j' j with hlt | rfl | hlt
  · have hle := Nat.mul_le_mul_right s.P (Nat.succ_le_of_lt hlt)
    rw [Nat.succ_mul] at hle
    omega
  · exact ⟨rfl, by omega⟩
  · have hle := Nat.mul_le_mul_right s.P (Nat.succ_le_of_lt hlt)
    rw [Nat.succ_mul] at hle
    omega

/-- Only the cells at `[j][k]` are written, and sums are added. -/
structure Frame (j k : ℕ) (s s' : ParStrategy) : Prop where
  fixed : s' = { s with cells := s'.cells, matrix := s'.matrix, sums := s'.sums }
  length : s'.cells.length = s.cells.length
  matrix : ∀ j' k', ¬ (j' = j ∧ k' = k) → s'.matrix j' k' = s.matrix j' k'
  newState : ∀ j' k', 1 ≤ j' → 1 ≤ k' → k' ≤ s.P → ¬ (j' = j ∧ k' = k) →
    s'.newState j' k' = s.newState j' k'
  sums : s.sums ⊆ s'.sums

theorem Frame.variance (h : Frame j k s s') : s'.variance = s.variance := by
  rw [h.fixed]
  rfl

theorem Frame.N (h : Frame j k s s') : s'.N = s.N := by rw [h.fixed]

theorem Frame.P (h : Frame j k s s') : s'.P = s.P := by rw [h.fixed]

theorem Frame.roomy (h : Frame j k s s') (hroom : s.Roomy) : s'.Roomy := by
  rw [Roomy, h.N, h.P, h.length]
  exact hroom

theorem Frame.refl : Frame j k s s :=
  ⟨rfl, rfl, fun _ _ _ => rfl, fun _ _ _ _ _ _ => rfl, fun _ => id⟩

theorem Frame.trans (h : Frame j k s s') (h' : Frame j k s' s'') : Frame j k s s'' := by
  refine ⟨?_, h'.length.trans h.length,
    fun j' k' hne => (h'.matrix j' k' hne).trans (h.matrix j' k' hne),
    fun j' k' hj hk hP hne => ?_, fun e he => h'.sums (h.sums he)⟩
  · rw [h'.fixed, h.fixed]
  · exact (h'.newState j' k' hj hk (by rwa [h.P]) hne).trans (h.newState j' k' hj hk hP hne)

theorem Frame.setState (h : s.setState j k v = some s') (hj : j ≤ s.N) (hk : k ≤ s.P) :
    Frame j k s s' := by
  have hnew (j' k' : ℕ) (hj' : 1 ≤ j') (hk' : 1 ≤ k') := newState_setState h hj hk hj' hk'
  obtain ⟨-, rfl⟩ := write_spec h
  exact ⟨rfl, List.length_set, fun _ _ _ => rfl, fun j' k' hj' hk' _ _ => hnew j' k' hj' hk',
    fun _ => id⟩

theorem Frame.setNewState (h : s.setNewState j k v = some s') (hk : 1 ≤ k) (hkP : k ≤ s.P) :
    Frame j k s s' := by
  have hnew (j' k' : ℕ) (hk' : 1 ≤ k') (hkP' : k' ≤ s.P) (hne : ¬ (j' = j ∧ k' = k)) :
      s'.newState j' k' = s.newState j' k' := newState_setNewState h hk hkP hk' hkP' hne
  obtain ⟨-, rfl⟩ := write_spec h
  exact ⟨rfl, List.length_set, fun _ _ _ => rfl, fun j' k' _ => hnew j' k', fun _ => id⟩

theorem matrix_setMatrix_self : (s.setMatrix j k v).matrix j k = v := by
  simp [setMatrix]

theorem matrix_setMatrix (hne : ¬ (j' = j ∧ k' = k)) :
    (s.setMatrix j k v).matrix j' k' = s.matrix j' k' := by
  change Function.update s.matrix j (Function.update (s.matrix j) k v) j' k' = _
  rcases eq_or_ne j' j with rfl | hj
  · rw [Function.update_self]
    exact Function.update_of_ne (fun hk => hne ⟨rfl, hk⟩) _ _
  · rw [Function.update_of_ne hj]

theorem Frame.setMatrix : Frame j k s (s.setMatrix j k v) :=
  ⟨rfl, rfl, fun _ _ => matrix_setMatrix, fun _ _ _ _ _ _ => rfl, fun _ => id⟩

/-- The writes at the end of a round. -/
theorem Roomy.setMatrix_setState (h : s.Roomy) (hj : j ≤ s.N) (hk : k ≤ s.P) (v : ℤ) :
    ∃ s', (s.setMatrix j k v).setState j k v = some s' ∧ Frame j k s s' ∧ s'.matrix j k = v ∧
      s'.sums = s.sums ∧ ∀ j' k', 1 ≤ j' → 1 ≤ k' → s'.newState j' k' = s.newState j' k' := by
  obtain ⟨s', hs'⟩ := Roomy.setState (s := s.setMatrix j k v) (v := v) h hj hk
  refine ⟨s', hs', Frame.setMatrix.trans (Frame.setState hs' hj hk), ?_, ?_, fun j' k' hj' hk' =>
    newState_setState (s := s.setMatrix j k v) hs' hj hk hj' hk'⟩
  · obtain ⟨-, rfl⟩ := write_spec hs'
    exact matrix_setMatrix_self
  · obtain ⟨-, rfl⟩ := write_spec hs'
    rfl

end Frame

section Cells
variable {s s' : ParStrategy} {i j j' k k' l : ℕ} {m : ℤ} {ls js : List ℕ}

/-- The loop over `l`: `min` ends as the least sum, and `new_state` says where it was met. -/
theorem candidates_spec (ls : List ℕ) (hroom : s.Roomy) (hj : j ≤ s.N) (hk : 1 ≤ k)
    (hkP : k ≤ s.P) : ∃ r, run (candidate k j) (s, m) ls = some r ∧
      Frame j k s r.1 ∧
      r.1.sums = s.sums ++ ls.map (fun l => (l, k - 1, s.sum k j l)) ∧ r.2 ≤ m ∧
      (∀ l ∈ ls, r.2 ≤ s.sum k j l) ∧
      (r.2 = m ∧ r.1.newState j k = s.newState j k ∨
        ∃ l ∈ ls, r.2 = s.sum k j l ∧ r.1.newState j k = some (l : ℤ)) := by
  induction ls generalizing s m with
  | nil => exact ⟨(s, m), rfl, by simp [Frame.refl]⟩
  | cons l ls ih =>
    let s₁ : ParStrategy := { s with sums := s.sums ++ [(l, k - 1, s.sum k j l)] }
    have hframe₁ : Frame j k s s₁ :=
      ⟨rfl, rfl, fun _ _ _ => rfl, fun _ _ _ _ _ _ => rfl, fun _ => List.mem_append_left _⟩
    by_cases hlt : s.sum k j l < m
    · obtain ⟨s₂, hs₂⟩ := Roomy.setNewState (s := s₁) (v := l) hroom hj hkP
      have hstep : candidate k j (s, m) l = some (s₂, s.sum k j l) := by
        rw [candidate, if_pos hlt]
        exact congrArg _ hs₂
      have hfirst := hframe₁.trans (Frame.setNewState hs₂ hk hkP)
      have hself := newState_setNewState_self hs₂
      obtain ⟨-, rfl⟩ := write_spec hs₂
      obtain ⟨r, hr, hframe, hsums, hle, hall, hsome⟩ :=
        ih (m := s.sum k j l) (hfirst.roomy hroom) hj hkP
      refine ⟨r, run_cons.mpr ⟨_, hstep, hr⟩, hfirst.trans hframe, ?_, hle.trans hlt.le, ?_,
        Or.inr ?_⟩
      · rw [hsums, List.map_cons]
        exact List.append_assoc ..
      · rw [List.forall_mem_cons]
        exact ⟨hle, hall⟩
      · rcases hsome with ⟨he, hnew⟩ | ⟨l', hl', he, hnew⟩
        · exact ⟨l, List.mem_cons_self, he, hnew.trans hself⟩
        · exact ⟨l', List.mem_cons_of_mem _ hl', he, hnew⟩
    · have hstep : candidate k j (s, m) l = some (s₁, m) := if_neg hlt
      obtain ⟨r, hr, hframe, hsums, hle, hall, hsome⟩ := ih (s := s₁) (m := m) hroom hj hkP
      refine ⟨r, run_cons.mpr ⟨_, hstep, hr⟩, hframe₁.trans hframe, ?_, hle, ?_,
        hsome.imp_right ?_⟩
      · rw [hsums, List.map_cons]
        exact List.append_assoc ..
      · rw [List.forall_mem_cons]
        exact ⟨hle.trans (not_lt.mp hlt), hall⟩
      · rintro ⟨l', hl', he⟩
        exact ⟨l', List.mem_cons_of_mem _ hl', he⟩

/-- All sums are below `INT_MAX`. -/
def Small (s : ParStrategy) : Prop := ∀ e ∈ s.sums, e.2.2 < intMax

/-- Each sum reads a place that was given a least cost. -/
def Used (s : ParStrategy) : Prop := ∀ e ∈ s.sums, 1 ≤ e.2.1 ∧ e.2.1 ≤ e.1

/-- The places of layer `k` that hold a least cost. -/
def Valid (s : ParStrategy) (k j : ℕ) : Prop := k ≤ j ∧ j ≤ s.N ∧ (k = 0 → j = 0)

/-- The cell `[j][k + 1]` is right, and its parent is in layer `k`. -/
def Right (s : ParStrategy) (k j : ℕ) : Prop :=
  IsBest s.variance (· < ·) 0 (k + 1) j (s.matrix j (k + 1)) ∧
    ∃ l : ℕ, s.newState j (k + 1) = some (l : ℤ) ∧ s.Valid k l ∧ l < j ∧
      s.matrix j (k + 1) = s.matrix l k + s.variance l j

theorem Right.frame (h : s.Right k' j') (hf : Frame j k s s') (hk : k' ≠ k) (hkP : k' + 1 ≤ s.P)
    (hj : 1 ≤ j') (hne : ¬ (j' = j ∧ k' + 1 = k)) : s'.Right k' j' := by
  obtain ⟨hbest, l, hnew, hvalid, hlt, he⟩ := h
  have hold (i : ℕ) : s'.matrix i k' = s.matrix i k' := hf.matrix i k' fun hi => hk hi.2
  refine ⟨?_, l, ?_, ?_, hlt, ?_⟩
  · rw [hf.variance, hf.matrix j' (k' + 1) hne]
    exact hbest
  · rw [hf.newState j' (k' + 1) hj (by omega) hkP hne]
    exact hnew
  · rw [Valid, hf.N]
    exact hvalid
  · rw [hf.variance, hf.matrix j' (k' + 1) hne, hold]
    exact he

/-- What the loops have done: the layers up to `k`, and of layer `k + 1` the cells `js`. -/
structure Progress (s₀ : ParStrategy) (k : ℕ) (js : List ℕ) (s : ParStrategy) : Prop where
  fixed : s = { s₀ with cells := s.cells, matrix := s.matrix, sums := s.sums }
  roomy : s.Roomy
  corner : s.matrix 0 0 = 0
  used : s.Used
  layers : s.Small → ∀ k' < k, ∀ j, k' + 1 ≤ j → j ≤ s.N → s.Right k' j
  cells : s.Small → ∀ j ∈ js, k + 1 ≤ j → s.Right k j

/-- A round that makes one more cell right. -/
theorem Progress.round {s₀ : ParStrategy} (h : Progress s₀ k js s) (hk : k + 1 ≤ s.P)
    (hpos : ∀ i ∈ js, 1 ≤ i) (hj : j ∉ js) (hf : Frame j (k + 1) s s') (hused : s'.Used)
    (hright : s'.Small → k + 1 ≤ j → s'.Right k j) : Progress s₀ k (j :: js) s' := by
  have hsmall (hs : s'.Small) : s.Small := fun e he => hs e (hf.sums he)
  refine ⟨?_, hf.roomy h.roomy, ?_, hused, fun hs k' hk' i hi hiN => ?_, fun hs i hi hki => ?_⟩
  · rw [hf.fixed, h.fixed]
  · rw [hf.matrix 0 0 (by omega)]
    exact h.corner
  · rw [hf.N] at hiN
    exact (h.layers (hsmall hs) k' hk' i hi hiN).frame hf (by omega) (by omega) (by omega)
      (by omega)
  · rcases List.mem_cons.mp hi with rfl | hi
    · exact hright hs hki
    · have hne : i ≠ j := fun he => hj (he ▸ hi)
      exact (h.cells (hsmall hs) i hi hki).frame hf (by omega) hk (hpos i hi) fun he => hne he.1

/-- The cell `[j][k + 2]`. -/
theorem Progress.cell {s₀ : ParStrategy} (h : Progress s₀ (k + 1) js s) (hk : k + 2 ≤ s.P)
    (hpos : ∀ i ∈ js, 1 ≤ i) (hj : j ∉ js) (hj1 : 1 ≤ j) (hjN : j ≤ s.N) :
    ∃ s', cell (k + 2) s j = some s' ∧ Progress s₀ (k + 1) (j :: js) s' := by
  obtain ⟨r, hr, hframe, hsums, -, hall, hsome⟩ := candidates_spec (m := intMax)
    (List.range' (k + 1) (j - (k + 1))) h.roomy hjN (show 1 ≤ k + 2 by omega) hk
  obtain ⟨s', hs', hframe', hself, hsums', hnew⟩ := (hframe.roomy h.roomy).setMatrix_setState
    (hframe.N.symm ▸ hjN) (hframe.P.symm ▸ hk) r.2
  have hf : Frame j (k + 2) s s' := hframe.trans hframe'
  replace hsums := hsums'.trans hsums
  refine ⟨s', ?_, h.round hk hpos hj hf (fun e he => ?_) fun hsmall hkj => ?_⟩
  · rw [ParStrategy.cell, candidates]
    exact Option.bind_eq_some_iff.mpr ⟨r, hr, hs'⟩
  · rw [hsums, List.mem_append, List.mem_map] at he
    rcases he with he | ⟨l, hl, rfl⟩
    · exact h.used e he
    · exact ⟨by simp, (List.mem_range'_1.mp hl).1⟩
  · have hmem (l : ℕ) (hl : k + 1 ≤ l) (hlj : l < j) : l ∈ List.range' (k + 1) (j - (k + 1)) :=
      List.mem_range'_1.mpr ⟨hl, by omega⟩
    have hlt (l : ℕ) (hl : k + 1 ≤ l) (hlj : l < j) : s.sum (k + 2) j l < intMax := by
      refine hsmall (l, k + 1, s.sum (k + 2) j l) ?_
      rw [hsums]
      exact List.mem_append_right _ (List.mem_map_of_mem (hmem l hl hlj))
    have hold (i : ℕ) : s'.matrix i (k + 1) = s.matrix i (k + 1) := hf.matrix i (k + 1) (by omega)
    rcases hsome with ⟨he, -⟩ | ⟨l, hl, he, hl'⟩
    · have hle := hall (k + 1) (hmem (k + 1) le_rfl (by omega))
      have hbig := hlt (k + 1) le_rfl (by omega)
      rw [he] at hle
      omega
    · obtain ⟨hkl, hlj⟩ := List.mem_range'_1.mp hl
      refine ⟨?_, l, (hnew j (k + 2) hj1 (by omega)).trans hl', ⟨hkl, ?_, by omega⟩, by omega, ?_⟩
      · rw [hself, hf.variance]
        have hsmall' : s.Small := fun e he => hsmall e (hf.sums he)
        refine IsBest.next (S := { l | k + 1 ≤ l ∧ l < j }) (f := fun l => s.matrix l (k + 1))
          (fun l hl => hl.2) (fun l c hc hlj => ⟨hc.le, hlj⟩) (fun l hl => ?_) ⟨?_, ?_⟩
        · exact (h.layers hsmall' k k.lt_succ_self l hl.1 (by have := hl.2; omega)).1
        · exact ⟨l, ⟨hkl, by omega⟩, he.symm⟩
        · rintro t ⟨l', ⟨hl', hlj'⟩, rfl⟩
          exact hall l' (hmem l' hl' hlj')
      · rw [hf.N]
        omega
      · rw [hself, hold, hf.variance]
        exact he

/-- The cell `[j][1]`. -/
theorem Progress.firstCell {s₀ : ParStrategy} (h : Progress s₀ 0 js s) (hP : 1 ≤ s.P)
    (hpos : ∀ i ∈ js, 1 ≤ i) (hj : j ∉ js) (hj1 : 1 ≤ j) (hjN : j ≤ s.N)
    (hzero : s.newState j 1 = some 0) : ∃ s', firstCell s j = some s' ∧
      Progress s₀ 0 (j :: js) s' ∧
      ∀ j' k', 1 ≤ j' → 1 ≤ k' → s'.newState j' k' = s.newState j' k' := by
  obtain ⟨s', hs', hf, hself, hsums, hnew⟩ := h.roomy.setMatrix_setState hjN hP (s.variance 0 j)
  have hused : s'.Used := by
    unfold Used
    rw [hsums]
    exact h.used
  refine ⟨s', ?_, h.round hP hpos hj hf hused fun _ _ => ⟨?_, 0, ?_,
    ⟨le_rfl, Nat.zero_le _, fun _ => rfl⟩, hj1, ?_⟩, hnew⟩
  · unfold ParStrategy.firstCell
    dsimp only
    rw [matrix_setMatrix_self]
    exact hs'
  · rw [hself, hf.variance]
    refine IsBest.next (S := {0}) (f := fun _ => 0) ?_ ?_ ?_ ⟨⟨0, rfl, zero_add _⟩, ?_⟩
    · rintro l rfl
      exact hj1
    · exact fun l c hc _ => hc.last.symm.trans hc.first
    · rintro l rfl
      exact IsBest.zero
    · rintro t ⟨l, rfl, rfl⟩
      exact (zero_add _).ge
  · exact (hnew j 1 hj1 le_rfl).trans hzero
  · rw [hself, hf.variance, hf.matrix 0 0 (by omega), h.corner, zero_add]

end Cells

section Loops
variable {s s₀ : ParStrategy} {k : ℕ} {js : List ℕ}

/-- A loop over cells, with an invariant `I` of its own. -/
theorem Progress.loop {f : ParStrategy → ℕ → Option ParStrategy} {I : ParStrategy → Prop}
    (is : List ℕ)
    (hround : ∀ s js j, I s → Progress s₀ k js s → (∀ i ∈ js, 1 ≤ i) → j ∉ js → 1 ≤ j →
      j ≤ s₀.N → ∃ s', f s j = some s' ∧ I s' ∧ Progress s₀ k (j :: js) s')
    (hI : I s) (h : Progress s₀ k js s) (hpos : ∀ i ∈ js, 1 ≤ i) (hnd : (is ++ js).Nodup)
    (his : ∀ i ∈ is, 1 ≤ i ∧ i ≤ s₀.N) :
    ∃ s' js', run f s is = some s' ∧ (∀ j ∈ is, j ∈ js') ∧ Progress s₀ k js' s' := by
  suffices hsup : ∃ s' js', run f s is = some s' ∧ (∀ j, j ∈ is ∨ j ∈ js → j ∈ js') ∧
      Progress s₀ k js' s' by
    obtain ⟨s', js', hrun, hmem, h'⟩ := hsup
    exact ⟨s', js', hrun, fun j hj => hmem j (Or.inl hj), h'⟩
  induction is generalizing s js with
  | nil => exact ⟨s, js, rfl, fun j hj => hj.resolve_left (by simp), h⟩
  | cons i is ih =>
    have hi := his i (by simp)
    have hnew : i ∉ js := fun hmem => (List.nodup_cons.mp hnd).1 (List.mem_append_right _ hmem)
    obtain ⟨s₁, hs₁, hI₁, h₁⟩ := hround s js i hI h hpos hnew hi.1 hi.2
    have hperm : (i :: (is ++ js)).Perm (is ++ i :: js) := List.perm_middle.symm
    obtain ⟨s', js', hrun, hmem, h'⟩ := ih hI₁ h₁
      (fun l hl => (List.mem_cons.mp hl).elim (fun he => he ▸ hi.1) (hpos l))
      (hperm.nodup_iff.mp hnd) fun l hl => his l (by simp [hl])
    refine ⟨s', js', run_cons.mpr ⟨s₁, hs₁, hrun⟩, fun j hj => hmem j ?_, h'⟩
    rw [List.mem_cons] at hj ⊢
    tauto

theorem Progress.N (h : Progress s₀ k js s) : s.N = s₀.N := by rw [h.fixed]

theorem Progress.P (h : Progress s₀ k js s) : s.P = s₀.P := by rw [h.fixed]

/-- A loop over all cells of a layer completes it. -/
theorem Progress.complete (h : Progress s₀ k js s) (hall : ∀ j, k + 1 ≤ j → j ≤ s₀.N → j ∈ js) :
    Progress s₀ (k + 1) [] s := by
  refine ⟨h.fixed, h.roomy, h.corner, h.used, fun hs k' hk' j hj hjN => ?_, by simp⟩
  rcases Nat.lt_succ_iff_lt_or_eq.mp hk' with hlt | rfl
  · exact h.layers hs k' hlt j hj hjN
  · exact h.cells hs j (hall j hj (h.N ▸ hjN)) hj

theorem Progress.layer (h : Progress s₀ (k + 1) [] s) (hk : k + 2 ≤ s₀.P) :
    ∃ s', layer s (k + 2) = some s' ∧ Progress s₀ (k + 2) [] s' := by
  obtain ⟨s', js, hrun, hmem, h'⟩ := h.loop (I := fun _ => True) (f := ParStrategy.cell (k + 2))
    (List.range' 2 (s.N - 1)) (fun t js j _ ht hpos hj hj1 hjN => by
      obtain ⟨t', ht', hprog⟩ := ht.cell (ht.P ▸ hk) hpos hj hj1 (ht.N ▸ hjN)
      exact ⟨t', ht', trivial, hprog⟩)
    trivial (by simp) (by rw [List.append_nil]; exact List.nodup_range') fun i hi => by
      have hlt := List.mem_range'_1.mp hi
      rw [h.N] at hlt
      omega
  refine ⟨s', hrun, h'.complete fun j hj hjN => hmem j (List.mem_range'_1.mpr ?_)⟩
  rw [h.N]
  omega

theorem Progress.first (h : Progress s₀ 0 [] s) (hP : 1 ≤ s₀.P)
    (hzero : ∀ j, 1 ≤ j → j ≤ s₀.N → s.newState j 1 = some 0) :
    ∃ s', run ParStrategy.firstCell s (List.range' 1 s.N) = some s' ∧ Progress s₀ 1 [] s' := by
  have hround (t : ParStrategy) (js : List ℕ) (j : ℕ)
      (hI : ∀ j, 1 ≤ j → j ≤ s₀.N → t.newState j 1 = some 0) (ht : Progress s₀ 0 js t)
      (hpos : ∀ i ∈ js, 1 ≤ i) (hj : j ∉ js) (hj1 : 1 ≤ j) (hjN : j ≤ s₀.N) :
      ∃ t', ParStrategy.firstCell t j = some t' ∧
        (∀ i, 1 ≤ i → i ≤ s₀.N → t'.newState i 1 = some 0) ∧ Progress s₀ 0 (j :: js) t' := by
    obtain ⟨t', ht', hprog, hnew⟩ :=
      ht.firstCell (ht.P ▸ hP) hpos hj hj1 (ht.N ▸ hjN) (hI j hj1 hjN)
    exact ⟨t', ht', fun i hi hiN => (hnew i 1 hi le_rfl).trans (hI i hi hiN), hprog⟩
  obtain ⟨s', js, hrun, hmem, h'⟩ := h.loop (List.range' 1 s.N) hround hzero (by simp)
    (by rw [List.append_nil]; exact List.nodup_range') fun i hi => by
      have hlt := List.mem_range'_1.mp hi
      rw [h.N] at hlt
      omega
  refine ⟨s', hrun, h'.complete fun j hj hjN => hmem j (List.mem_range'_1.mpr ?_)⟩
  rw [h.N]
  omega

theorem Progress.layers_upto (h : Progress s₀ 1 [] s) {m : ℕ} (hm : m + 1 ≤ s₀.P) :
    ∃ s', run ParStrategy.layer s (List.range' 2 m) = some s' ∧ Progress s₀ (m + 1) [] s' := by
  induction m with
  | zero => exact ⟨s, rfl, h⟩
  | succ m ih =>
    obtain ⟨t, ht, hprog⟩ := ih (by omega)
    obtain ⟨s', hs', hprog'⟩ := hprog.layer hm
    refine ⟨s', ?_, hprog'⟩
    rw [List.range'_1_concat, run_append, ht, Option.bind_some, Nat.add_comm 2 m]
    exact run_cons.mpr ⟨s', hs', rfl⟩

end Loops

section Clear
variable {s s' s'' : ParStrategy} {i j k m : ℕ}

/-- Only the tables are written. -/
structure SameLoads (s s' : ParStrategy) : Prop where
  fixed : s' = { s with cells := s'.cells }
  length : s'.cells.length = s.cells.length

theorem SameLoads.N (h : SameLoads s s') : s'.N = s.N := by rw [h.fixed]

theorem SameLoads.P (h : SameLoads s s') : s'.P = s.P := by rw [h.fixed]

theorem SameLoads.roomy (h : SameLoads s s') : s'.Roomy ↔ s.Roomy := by
  rw [Roomy, h.N, h.P, h.length, Roomy]

theorem SameLoads.refl : SameLoads s s := ⟨rfl, rfl⟩

theorem SameLoads.trans (h : SameLoads s s') (h' : SameLoads s' s'') : SameLoads s s'' := by
  refine ⟨?_, h'.length.trans h.length⟩
  rw [h'.fixed, h.fixed]

theorem sameLoads_write {place : ℕ} {v : ℤ} (h : s.write place v = some s') : SameLoads s s' := by
  obtain ⟨-, rfl⟩ := write_spec h
  exact ⟨rfl, List.length_set⟩

theorem sameLoads_clearCell (h : clearCell i s j = some s') : SameLoads s s' := by
  obtain ⟨t, ht, ht'⟩ := Option.bind_eq_some_iff.mp h
  exact (sameLoads_write ht).trans (sameLoads_write ht')

theorem sameLoads_clearRow (h : clearRow s i = some s') : SameLoads s s' :=
  inv (I := SameLoads s) (fun _ _ _ hs ht => hs.trans (sameLoads_clearCell ht)) h .refl

theorem sameLoads_clear (h : s.clear = some s') : SameLoads s s' :=
  inv (I := SameLoads s) (fun _ _ _ hs ht => hs.trans (sameLoads_clearRow ht)) h .refl

/-- The zeros of `new_state` that are used stay. -/
def KeepsZeros (s s' : ParStrategy) : Prop :=
  ∀ j k, 1 ≤ j → 1 ≤ k → s.newState j k = some 0 → s'.newState j k = some 0

theorem Roomy.clearCell (h : s.Roomy) (hi : i ≤ s.N) (hj : j ≤ s.P) :
    ∃ s', clearCell i s j = some s' ∧ KeepsZeros s s' ∧ s'.newState i j = some 0 := by
  obtain ⟨t, ht⟩ := h.setState (v := intMax) hi hj
  have hsame := sameLoads_write ht
  obtain ⟨s', hs'⟩ := Roomy.setNewState (s := t) (j := i) (k := j) (v := 0) (hsame.roomy.mpr h)
    (hsame.N.symm ▸ hi) (hsame.P.symm ▸ hj)
  have hself := newState_setNewState_self hs'
  refine ⟨s', Option.bind_eq_some_iff.mpr ⟨t, ht, hs'⟩, fun j' k' hj' hk' hzero => ?_, hself⟩
  have hkeep := (newState_setState ht hi hj hj' hk').trans hzero
  obtain ⟨-, rfl⟩ := write_spec hs'
  by_cases he : t.N * t.P + (i * t.P + j) = t.N * t.P + (j' * t.P + k')
  · unfold newState at hself ⊢
    dsimp only at hself ⊢
    rwa [← he]
  · exact (List.getElem?_set_ne he).trans hkeep

/-- The first cells of a row. -/
theorem Roomy.clearCells (h : s.Roomy) (hi : i ≤ s.N) (hm : m ≤ s.P + 1) :
    ∃ s', run (ParStrategy.clearCell i) s (List.range m) = some s' ∧ SameLoads s s' ∧
      KeepsZeros s s' ∧ (1 ≤ i → ∀ k < m, 1 ≤ k → s'.newState i k = some 0) := by
  induction m with
  | zero => exact ⟨s, rfl, .refl, fun _ _ _ _ => id, fun _ k hk => by omega⟩
  | succ m ih =>
    obtain ⟨t, ht, hsame, hkeep, hzero⟩ := ih (by omega)
    obtain ⟨s', hs', hkeep', hself⟩ := (hsame.roomy.mpr h).clearCell (hsame.N.symm ▸ hi)
      (show m ≤ t.P by rw [hsame.P]; omega)
    refine ⟨s', ?_, hsame.trans (sameLoads_clearCell hs'),
      fun j k hj hk h0 => hkeep' j k hj hk (hkeep j k hj hk h0), fun hi1 k hk hk1 => ?_⟩
    · rw [List.range_succ, run_append, ht]
      exact run_cons.mpr ⟨s', hs', rfl⟩
    · rcases Nat.lt_succ_iff_lt_or_eq.mp hk with hlt | rfl
      · exact hkeep' i k hi1 hk1 (hzero hi1 k hlt hk1)
      · exact hself

/-- Where it is used, `new_state` is 0 at first. -/
theorem Roomy.clearRows (h : s.Roomy) (hm : m ≤ s.N + 1) :
    ∃ s', run clearRow s (List.range m) = some s' ∧
      ∀ j < m, 1 ≤ j → ∀ k, 1 ≤ k → k ≤ s.P → s'.newState j k = some 0 := by
  induction m with
  | zero => exact ⟨s, rfl, fun j hj => by omega⟩
  | succ m ih =>
    obtain ⟨t, ht, hzero⟩ := ih (by omega)
    have hsame : SameLoads s t :=
      inv (I := SameLoads s) (fun _ _ _ hs ht => hs.trans (sameLoads_clearRow ht)) ht .refl
    obtain ⟨s', hs', -, hkeep, hrow⟩ := (hsame.roomy.mpr h).clearCells
      (show m ≤ t.N by rw [hsame.N]; omega) le_rfl
    refine ⟨s', ?_, fun j hj hj1 k hk hkP => ?_⟩
    · rw [List.range_succ, run_append, ht]
      exact run_cons.mpr ⟨s', hs', rfl⟩
    · rcases Nat.lt_succ_iff_lt_or_eq.mp hj with hlt | rfl
      · exact hkeep j k hj1 hk (hzero j hlt hj1 k hk hkP)
      · exact hrow hj1 k (by rw [hsame.P]; omega) hk

/-- The constructor leaves the object unless it has more integers than the two arrays. -/
theorem roomy_of_clear (h : s.clear = some s') : s.Roomy := by
  rw [clear, List.range_succ, run_append] at h
  obtain ⟨t, ht, hrow⟩ := Option.bind_eq_some_iff.mp h
  have hsame : SameLoads s t :=
    inv (I := SameLoads s) (fun _ _ _ hs ht => hs.trans (sameLoads_clearRow ht)) ht .refl
  obtain ⟨u, hu, -⟩ := run_cons.mp hrow
  rw [clearRow, List.range_succ, run_append] at hu
  obtain ⟨v, hv, hcell⟩ := Option.bind_eq_some_iff.mp hu
  have hsame' : SameLoads s v :=
    inv (I := SameLoads s) (fun _ _ _ hs ht => hs.trans (sameLoads_clearCell ht)) hv hsame
  obtain ⟨w, hw, -⟩ := run_cons.mp hcell
  obtain ⟨x, hx, hx'⟩ := Option.bind_eq_some_iff.mp hw
  have hsame'' := hsame'.trans (sameLoads_write hx)
  obtain ⟨hlt, -⟩ := write_spec hx'
  rw [hsame''.N, hsame''.P, hsame''.length, hsame.P] at hlt
  unfold Roomy
  omega

end Clear

section Eval
variable {s : ParStrategy}

/-- The parent of `[j][k]`. -/
def parent (t : ParStrategy) (k j : ℕ) : ℕ := ((t.newState j k).getD 0).toNat

/-- What the table `t` of the loads is to be: it has the least costs of all partitions, no sum read
a place without one, and the way back through `new_state` stays inside of it and is a partition of
least cost. -/
structure Optimal (s t : ParStrategy) : Prop where
  best : ∀ k j, 1 ≤ k → k ≤ s.P → k ≤ j → j ≤ s.N →
    IsBest s.variance (· < ·) 0 k j (t.matrix j k)
  used : ∀ e ∈ t.sums, 1 ≤ e.2.1 ∧ e.2.1 ≤ e.1
  inside : ∀ k, 1 ≤ k → k ≤ s.P → (t.newState (back t.parent s.P s.N k) k).isSome
  chain : IsChain (· < ·) 0 s.P s.N (back t.parent s.P s.N)
  cost : total s.variance s.P (back t.parent s.P s.N) = t.matrix s.N s.P

/-- The constructor and the table loops of `eval` have a result, and it is optimal if all its sums
are small. -/
def EvalOptimal (s : ParStrategy) : Prop :=
  ∃ s' t, s.clear = some s' ∧ s'.eval = some t ∧ (t.Small → Optimal s t)
/-- With enough room behind the arrays the loops do what they are for. -/
theorem Roomy.evalOptimal (h : s.Roomy) (hP : 1 ≤ s.P) (hN : s.P ≤ s.N) : s.EvalOptimal := by
  obtain ⟨s', hclear, hzero⟩ := h.clearRows le_rfl
  have hsame := sameLoads_clear hclear
  let s₀ : ParStrategy := { s' with matrix := fun _ _ => 0, sums := [] }
  have hN₀ : s'.N = s.N := hsame.N
  have hP₀ : s'.P = s.P := hsame.P
  have hpos : 1 ≤ s₀.P := hP₀ ▸ hP
  have hvar : s₀.variance = s.variance := by
    change s'.variance = s.variance
    rw [hsame.fixed]
    rfl
  have h₀ : Progress s₀ 0 [] s₀ :=
    ⟨rfl, hsame.roomy.mpr h, rfl, by simp [s₀, Used], fun _ k hk => by omega, by simp⟩
  obtain ⟨t₁, hfirst, h₁⟩ := h₀.first hpos fun j hj hjN =>
    hzero j (Nat.lt_succ_of_le (hN₀ ▸ hjN)) hj 1 le_rfl hP
  obtain ⟨t, hlayers, ht⟩ := h₁.layers_upto (m := s₀.P - 1) (by omega)
  rw [Nat.sub_add_cancel hpos, show s₀.P = s.P from hP₀] at ht
  have htN : t.N = s.N := ht.N.trans hN₀
  have htP : t.P = s.P := ht.P.trans hP₀
  have htvar : t.variance = s.variance := by
    rw [ht.fixed]
    exact hvar
  refine ⟨s', t, hclear, ?_, fun hsmall => ?_⟩
  · rw [eval]
    refine Option.bind_eq_some_iff.mpr ⟨t₁, hfirst, ?_⟩
    rw [h₁.P]
    exact hlayers
  · have hright (k j : ℕ) (hk : k + 1 ≤ s.P) (hj : k + 1 ≤ j) (hjN : j ≤ s.N) : t.Right k j :=
      ht.layers hsmall k (by omega) j hj (htN ▸ hjN)
    obtain ⟨hchain, hcost⟩ : IsChain (· < ·) 0 s.P s.N (back t.parent s.P s.N) ∧
        total s.variance s.P (back t.parent s.P s.N) = t.matrix s.N s.P := back_chain
      (f := fun k j => t.matrix j k) (V := fun k j => k ≤ s.P ∧ t.Valid k j)
      (fun j hV => by
        obtain ⟨-, -, -, hj⟩ := hV
        rw [hj rfl]
        exact ⟨rfl, ht.corner⟩)
      (fun k j hV => by
        obtain ⟨hkP, hj, hjN, -⟩ := hV
        obtain ⟨-, l, hnew, hvalid, hlt, he⟩ := hright k j hkP hj (htN ▸ hjN)
        rw [parent, hnew, Option.getD_some, Int.toNat_natCast, ← htvar]
        exact ⟨⟨by omega, hvalid⟩, hlt, he⟩)
      (show s.P ≤ s.P ∧ t.Valid s.P s.N from ⟨le_rfl, hN, htN.ge, by omega⟩)
    refine ⟨fun k j hk hkP hj hjN => ?_, ht.used, fun k hk hkP => ?_, hchain, hcost⟩
    · obtain ⟨k, rfl⟩ := Nat.exists_eq_add_of_le' hk
      rw [← htvar]
      exact (hright k j hkP hj hjN).1
    · have hle := Nat.mul_le_mul_right s.P (hchain.le_last hkP)
      have hroom := ht.roomy
      rw [Roomy, htN, htP] at hroom
      rw [newState, htN, htP, isSome_getElem?]
      omega

/-- The loops are right if and only if more integers belong to the object than its two arrays have,
so they never are: an index leaves the object, whatever the loads are. -/
theorem evalOptimal_iff (hP : 1 ≤ s.P) (hN : s.P ≤ s.N) :
    (s.EvalOptimal ↔ 2 * (s.N * s.P) + s.P < s.cells.length) ∧
      (s.cells.length = 2 * (s.N * s.P) → ¬ s.EvalOptimal) := by
  have hiff : s.EvalOptimal ↔ s.Roomy := by
    constructor
    · rintro ⟨s', t, hclear, -⟩
      exact roomy_of_clear hclear
    · exact fun h => h.evalOptimal hP hN
  refine ⟨hiff, fun hobject h => ?_⟩
  have hroom := hiff.mp h
  rw [Roomy, hobject] at hroom
  omega

/-- The loads of the constructor, in an object with its two arrays. -/
def tenLoads : ParStrategy where
  N := 10
  P := 3
  aArray := fun i => [42, 42, 34, 28, 16, 8, 16, 10, 8, 12].getD i 0
  bArray := fun i => [6, 12, 8, 6, 12, 6, 22, 16, 20, 24].getD i 0
  aExpect := 72
  bExpect := 44
  cells := List.replicate 60 0
  matrix := fun _ _ => 0
  sums := []

theorem evalOptimal_iff_tenLoads : ¬ tenLoads.EvalOptimal :=
  (evalOptimal_iff (by decide) (by decide)).2 rfl

theorem not_evalOptimal_tenLoads : ¬ ∀ s : ParStrategy, 1 ≤ s.P → s.P ≤ s.N →
    s.cells.length = 2 * (s.N * s.P) → s.EvalOptimal := by
  intro h
  obtain ⟨s', -, hclear, -⟩ := h tenLoads (by decide) (by decide) rfl
  have hroom := roomy_of_clear hclear
  revert hroom
  unfold Roomy
  decide

end Eval
end ParStrategy
end Mosito
