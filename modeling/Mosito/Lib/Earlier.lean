import Mathlib.Data.List.Count
import Mathlib.Data.List.Induction
import Mathlib.Data.List.Nodup

/-! Every element of a list paired with those that stand before it. -/
namespace Earlier
variable {α : Type*} {a b x : α} {seen xs : List α}

/-- The pairs of an element of `xs` with one that came before it, in `seen` or in `xs`. -/
def earlier : List α → List α → List (α × α)
  | _, [] => []
  | seen, x :: xs => seen.map (fun y => (x, y)) ++ earlier (seen ++ [x]) xs

theorem earlier_append (x : α) :
    earlier seen (xs ++ [x]) = earlier seen xs ++ (seen ++ xs).map fun y => (x, y) := by
  induction xs generalizing seen with
  | nil => simp [earlier]
  | cons y xs ih =>
    rw [List.cons_append, earlier, ih, earlier, List.append_assoc, List.append_assoc]
    rfl

theorem mem_of_mem_earlier (h : (a, b) ∈ earlier seen xs) : a ∈ xs ∧ b ∈ seen ++ xs := by
  induction xs generalizing seen with
  | nil => cases h
  | cons x xs ih =>
    rcases List.mem_append.mp h with h | h
    · obtain ⟨y, hy, heq⟩ := List.mem_map.mp h
      cases heq
      exact ⟨List.mem_cons_self, List.mem_append_left _ hy⟩
    · obtain ⟨ha, hb⟩ := ih h
      rw [List.append_assoc] at hb
      exact ⟨List.mem_cons_of_mem _ ha, hb⟩

/-- No element is paired with itself. -/
theorem not_mem_earlier_self (hnd : (seen ++ xs).Nodup) : (a, a) ∉ earlier seen xs := by
  induction xs generalizing seen with
  | nil => exact List.not_mem_nil
  | cons x xs ih =>
    intro h
    rcases List.mem_append.mp h with h | h
    · obtain ⟨y, hy, heq⟩ := List.mem_map.mp h
      cases heq
      exact (List.nodup_append.mp hnd).2.2 a hy a List.mem_cons_self rfl
    · rw [← List.singleton_append, ← List.append_assoc] at hnd
      exact ih hnd h

variable [DecidableEq α]

theorem count_map_pair (x : α) (l : List α) :
    (l.map fun y => (x, y)).count (a, b) = if x = a then l.count b else 0 := by
  split_ifs with hx
  · subst hx
    exact List.count_map_of_injective l _ (fun _ _ h => (Prod.mk.inj h).2) b
  · rw [List.count_eq_zero]
    intro h
    obtain ⟨y, -, heq⟩ := List.mem_map.mp h
    exact hx (Prod.mk.inj heq).1

/-- Two different elements are paired once, one way or the other. -/
theorem count_earlier (hnd : xs.Nodup) (hne : a ≠ b) (ha : a ∈ xs) (hb : b ∈ xs) :
    (earlier [] xs).count (a, b) + (earlier [] xs).count (b, a) = 1 := by
  induction xs using List.reverseRecOn with
  | nil => cases ha
  | append_singleton xs x ih =>
    obtain ⟨hxs, -, hdisj⟩ := List.nodup_append.mp hnd
    have hx : x ∉ xs := fun h => hdisj x h x (List.mem_singleton_self x) rfl
    have hmem {y : α} (hy : y ∈ xs ++ [x]) (hyx : y ≠ x) : y ∈ xs := by simpa [hyx] using hy
    have hnone {y : α} : (earlier [] xs).count (x, y) = 0 :=
      List.count_eq_zero.mpr fun h => hx (mem_of_mem_earlier h).1
    have hnone' {y : α} : (earlier [] xs).count (y, x) = 0 :=
      List.count_eq_zero.mpr fun h => hx (by simpa using (mem_of_mem_earlier h).2)
    simp only [earlier_append, List.count_append, List.nil_append, count_map_pair]
    -- The new element is paired with each of the others, and they were paired before.
    rcases eq_or_ne a x with rfl | hax
    · have hbx := hmem hb (Ne.symm hne)
      rw [hnone, hnone', if_pos rfl, if_neg hne, List.count_eq_one_of_mem hxs hbx]
    · have hax' := hmem ha hax
      rcases eq_or_ne b x with rfl | hbx
      · rw [hnone, hnone', if_neg (Ne.symm hne), if_pos rfl, List.count_eq_one_of_mem hxs hax']
      · rw [if_neg (Ne.symm hax), if_neg (Ne.symm hbx)]
        exact ih hxs hax' (hmem hb hbx)

theorem count_earlier_le (hnd : xs.Nodup) (a b : α) :
    (earlier [] xs).count (a, b) + (earlier [] xs).count (b, a) ≤ 1 := by
  by_cases hne : a = b
  · subst hne
    rw [List.count_eq_zero.mpr (not_mem_earlier_self (by simpa using hnd))]
    exact Nat.zero_le 1
  · by_cases hab : a ∈ xs ∧ b ∈ xs
    · exact Nat.le_of_eq (count_earlier hnd hne hab.1 hab.2)
    · have hnone {x y : α} (h : ¬ (x ∈ xs ∧ y ∈ xs)) : (earlier [] xs).count (x, y) = 0 :=
        List.count_eq_zero.mpr fun hm => h (by simpa using mem_of_mem_earlier hm)
      rw [hnone hab, hnone fun h => hab h.symm]
      exact Nat.zero_le 1

end Earlier
