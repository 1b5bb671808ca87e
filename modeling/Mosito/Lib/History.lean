import Mosito.Lib.Buckets
import Mathlib.Data.List.FinRange

/-! A common history of several parties and what each of them did. -/
namespace History
variable {ι α : Type*} [DecidableEq ι] {k : ℕ}

/-- What `t` did in a common history. -/
def part (t : ι) (l : List (ι × α)) : List α := (l.filter fun p => p.1 = t).map Prod.snd

@[simp] theorem part_nil (t : ι) : part t ([] : List (ι × α)) = [] := rfl

theorem part_cons_self (t : ι) (x : α) (l : List (ι × α)) :
    part t ((t, x) :: l) = x :: part t l := by simp [part]

theorem part_cons_of_ne {t u : ι} (h : u ≠ t) (x : α) (l : List (ι × α)) :
    part u ((t, x) :: l) = part u l := by simp [part, h.symm]

/-- Where each party keeps a state of its own, an entry changes that of its party. -/
theorem foldl_part_cons {β : Type*} (f : β → α → β) (g : ι → β) (t u : ι) (x : α)
    (l : List (ι × α)) : (part u ((t, x) :: l)).foldl f (g u) =
      (part u l).foldl f (Function.update g t (f (g t) x) u) := by
  rcases eq_or_ne u t with rfl | hne
  · rw [part_cons_self, Function.update_self]
    rfl
  · rw [part_cons_of_ne hne, Function.update_of_ne hne]

theorem mem_part {t : ι} {l : List (ι × α)} {x : α} : x ∈ part t l ↔ (t, x) ∈ l := by
  simp [part]

theorem part_append_self (t : ι) (l : List (ι × α)) (xs : List α) :
    part t (l ++ xs.map (Prod.mk t)) = part t l ++ xs := by
  simp [part, List.filter_map, Function.comp_def]

theorem part_append_of_ne {t u : ι} (h : u ≠ t) (l : List (ι × α)) (xs : List α) :
    part u (l ++ xs.map (Prod.mk t)) = part u l := by
  simp [part, List.filter_map, Function.comp_def, h.symm]

theorem finRange_flatMap (k : ℕ) (f : ℕ → List α) :
    ((List.finRange k).flatMap fun t : Fin k => f t) = (List.range k).flatMap f := by
  rw [← List.map_coe_finRange_eq_range, List.flatMap_map]

/-- The parts are all of the history. -/
theorem part_perm (l : List (Fin k × α)) :
    ((List.finRange k).flatMap fun t => part t l).Perm (l.map Prod.snd) := by
  have hall : ((List.range k).flatMap fun i => l.filter fun p => p.1.val = i).Perm l :=
    Buckets.perm_of_lt fun p _ => p.1.isLt
  rw [← finRange_flatMap] at hall
  have hmap := hall.map Prod.snd
  rw [List.map_flatMap] at hmap
  simpa [part, Fin.ext_iff] using hmap

end History
