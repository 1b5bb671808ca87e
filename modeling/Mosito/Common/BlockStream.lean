import Mosito.Common.Buffer
import Mathlib.Algebra.BigOperators.Group.Finset.Basic
import Mathlib.Algebra.Order.BigOperators.Group.Finset

/-! The blocks that one lower sends: data blocks, and one without tuples at the end. -/
namespace Mosito

/-- Data blocks, and one empty block. -/
def Closed (blocks : List Image) : Prop :=
  ∃ data z, blocks = data ++ [z] ∧ z.count = 0 ∧ ∀ b ∈ data, b.count ≠ 0

/-- The number of empty blocks. -/
def zeros (blocks : List Image) : ℕ := blocks.countP fun b => b.count = 0

@[simp] theorem zeros_nil : zeros [] = 0 := rfl

theorem zeros_append (l l' : List Image) : zeros (l ++ l') = zeros l + zeros l' :=
  List.countP_append

theorem zeros_singleton (b : Image) : zeros [b] = if b.count = 0 then 1 else 0 := by
  simp [zeros, List.countP_cons]

/-- Of the first blocks of a closed stream only all of them hold the empty one. -/
theorem zeros_of_isPrefix {l blocks : List Image} (hc : Closed blocks) (hp : l <+: blocks) :
    zeros l ≤ 1 ∧ (zeros l = 1 → l = blocks) := by
  obtain ⟨data, z, rfl, hz, hd⟩ := hc
  have hdata : zeros data = 0 := by simpa [zeros, List.countP_eq_zero] using hd
  rcases List.prefix_concat_iff.mp hp with rfl | hp
  · refine ⟨?_, fun _ => rfl⟩
    rw [zeros_append, hdata, zeros_singleton, if_pos hz]
  · have hle : zeros l ≤ zeros data := hp.sublist.countP_le
    exact ⟨by omega, fun h1 => by omega⟩

variable {n : ℕ} {taken stream : ℕ → List Image}

/-- A sum over all columns changes by what one of them contributes. -/
theorem sum_update {α : Type} {i : ℕ} (hi : i < n) (g : ℕ → α → ℕ) (c : ℕ → α) (v : α) :
    ∑ j ∈ Finset.range n, g j (Function.update c i v j) + g i (c i) =
      ∑ j ∈ Finset.range n, g j (c j) + g i v := by
  have hmem := Finset.mem_range.mpr hi
  have hrest : ∑ j ∈ (Finset.range n).erase i, g j (Function.update c i v j) =
      ∑ j ∈ (Finset.range n).erase i, g j (c j) := by
    apply Finset.sum_congr rfl
    intro j hj
    rw [Function.update_of_ne (Finset.ne_of_mem_erase hj)]
  rw [← Finset.add_sum_erase _ _ hmem, ← Finset.add_sum_erase _ (fun j => g j (c j)) hmem, hrest,
    Function.update_self]
  omega

theorem sum_zeros_update {i : ℕ} (hi : i < n) (b : Image) :
    ∑ j ∈ Finset.range n, zeros (Function.update taken i (taken i ++ [b]) j) =
      (∑ j ∈ Finset.range n, zeros (taken j)) + zeros [b] := by
  have h := sum_update hi (fun _ => zeros) taken (taken i ++ [b])
  rw [zeros_append] at h
  omega

/-- Whoever met as many empty blocks as there are streams has all streams. -/
theorem taken_all (hclosed : ∀ i < n, Closed (stream i)) (htaken : ∀ i < n, taken i <+: stream i)
    (hmet : ∑ i ∈ Finset.range n, zeros (taken i) = n) {i : ℕ} (hi : i < n) :
    taken i = stream i := by
  have hle (j : ℕ) (hj : j ∈ Finset.range n) : zeros (taken j) ≤ 1 :=
    (zeros_of_isPrefix (hclosed j (Finset.mem_range.mp hj)) (htaken j (Finset.mem_range.mp hj))).1
  have hsum : ∑ j ∈ Finset.range n, zeros (taken j) = ∑ j ∈ Finset.range n, 1 := by
    rw [hmet, Finset.sum_const, Finset.card_range, smul_eq_mul, mul_one]
  have hone := (Finset.sum_eq_sum_iff_of_le hle).mp hsum i (Finset.mem_range.mpr hi)
  exact (zeros_of_isPrefix (hclosed i hi) (htaken i hi)).2 hone

end Mosito
