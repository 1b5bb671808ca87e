import Mathlib.Data.List.Basic

/-! Distributing a list over numbered buckets loses nothing. -/
namespace Buckets
variable {α : Type*} 

/-- The first `n` buckets hold what is numbered below `n`. -/
theorem perm (f : α → ℕ) (ts : List α) (n : ℕ) :
    ((List.range n).flatMap fun i => ts.filter fun x => f x = i).Perm
      (ts.filter fun x => f x < n) := by
  induction n with
  | zero => simp
  | succ n ih =>
    have hlow : ts.filter (fun x => f x < n) =
        (ts.filter fun x => f x < n + 1).filter fun x => f x < n := by
      rw [List.filter_filter]
      apply List.filter_congr
      intro x _
      simp only [← Bool.decide_and, decide_eq_decide]
      omega
    have hlast : ts.filter (fun x => f x = n) =
        (ts.filter fun x => f x < n + 1).filter fun x => !decide (f x < n) := by
      rw [List.filter_filter]
      apply List.filter_congr
      intro x _
      simp only [← decide_not, ← Bool.decide_and, decide_eq_decide]
      omega
    rw [List.range_succ, List.flatMap_append, List.flatMap_singleton]
    apply (ih.append_right _).trans
    rw [hlow, hlast]
    exact List.filter_append_perm _ _

theorem perm_of_lt {f : α → ℕ} {ts : List α} {n : ℕ} (hlt : ∀ x ∈ ts, f x < n) :
    ((List.range n).flatMap fun i => ts.filter fun x => f x = i).Perm ts := by
  have hall : ts.filter (fun x => f x < n) = ts := by
    rw [List.filter_eq_self]
    simpa using hlt
  have h := perm f ts n
  rwa [hall] at h

end Buckets
