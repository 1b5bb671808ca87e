import Mosito.Lib.History
import Mathlib.Data.List.Range
import Mathlib.Data.Nat.ModEq

/-! Numbers shared out among parties in turns. -/
namespace Strided
open History
variable {n k i : ℕ}

/-- The numbers below `n` from `i` on, in steps of `k`. -/
def indices (n k i : ℕ) : List ℕ := (List.range n).filter fun j => i ≤ j ∧ j % k = i % k

theorem mem_indices {j : ℕ} : j ∈ indices n k i ↔ j < n ∧ i ≤ j ∧ j % k = i % k := by
  simp [indices]

theorem indices_of_le (h : n ≤ i) : indices n k i = [] := by
  apply List.filter_eq_nil_iff.mpr
  intro j hj
  have hlt : j < n := List.mem_range.mp hj
  simp only [decide_eq_true_eq]
  omega

theorem indices_of_lt (h : i < n) (hk : 0 < k) :
    indices n k i = i :: indices n k (i + k) := by
  have hsorted (l : ℕ) : (indices n k l).Pairwise (· < ·) := List.pairwise_lt_range.filter _
  have hcons : (i :: indices n k (i + k)).Pairwise (· < ·) := by
    apply List.Pairwise.cons _ (hsorted _)
    intro j hj
    have hle := (mem_indices.mp hj).2.1
    omega
  apply List.Perm.eq_of_pairwise _ (hsorted i) hcons
  · apply (List.perm_ext_iff_of_nodup (hsorted i).nodup hcons.nodup).mpr
    intro j
    rw [List.mem_cons, mem_indices, mem_indices, Nat.add_mod_right]
    constructor
    · rintro ⟨hj, hle, hmod⟩
      rcases hle.eq_or_lt with rfl | hlt
      · exact Or.inl rfl
      · have hdvd : k ∣ j - i := (Nat.modEq_iff_dvd' hle).mp hmod.symm
        have hstep := Nat.le_of_dvd (by omega) hdvd
        exact Or.inr ⟨hj, by omega, hmod⟩
    · rintro (rfl | ⟨hj, hle, hmod⟩)
      · exact ⟨h, le_rfl, rfl⟩
      · exact ⟨hj, by omega, hmod⟩
  · intro a b _ _ hab hba
    omega

/-- The parties' numbers are all of the numbers. -/
theorem indices_perm (n k : ℕ) (hk : 0 < k) :
    ((List.finRange k).flatMap fun t : Fin k => indices n k t).Perm (List.range n) := by
  have hall : ((List.range k).flatMap fun i => (List.range n).filter fun j => j % k = i).Perm
      (List.range n) := Buckets.perm_of_lt fun j _ => Nat.mod_lt j hk
  have heq : (List.range k).flatMap (indices n k) =
      (List.range k).flatMap fun i => (List.range n).filter fun j => j % k = i := by
    apply List.flatMap_congr
    intro i hi
    have hlt : i < k := List.mem_range.mp hi
    apply List.filter_congr
    intro j _
    rw [decide_eq_decide, Nat.mod_eq_of_lt hlt]
    constructor
    · exact And.right
    · rintro rfl
      exact ⟨Nat.mod_le j k, rfl⟩
  rw [finRange_flatMap, heq]
  exact hall

theorem range_flatMap {α β : Type*} (l : List α) (f : α → List β) :
    ((List.range l.length).flatMap fun j => (l[j]?.map f).getD []) = l.flatMap f := by
  induction l with
  | nil => rfl
  | cons x l ih =>
    rw [List.length_cons, List.range_succ_eq_map, List.flatMap_cons, List.flatMap_map,
      List.flatMap_cons]
    apply congrArg (f x ++ ·)
    simpa using ih

/-- What the parties make of their elements of a list is what all elements give. -/
theorem flatMap_indices_perm {α β : Type*} (l : List α) (f : α → List β) (k : ℕ) (hk : 0 < k) :
    ((List.finRange k).flatMap fun t : Fin k => (indices l.length k t).flatMap fun j =>
      (l[j]?.map f).getD []).Perm (l.flatMap f) := by
  have hall := (indices_perm l.length k hk).flatMap_right fun j => (l[j]?.map f).getD []
  rwa [range_flatMap, List.flatMap_assoc] at hall

end Strided
