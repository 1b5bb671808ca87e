import Mathlib.Algebra.BigOperators.Group.Finset.Basic
import Mathlib.Algebra.Order.BigOperators.Group.Finset
import Mathlib.Data.Finset.Lattice.Basic
import Mathlib.Data.List.Nodup
import Mathlib.Data.Set.Function

/-! Assignments of maximum weight. Labels that cover every weight bound every assignment, and a
matching grows by one element along an augmenting path. -/
namespace Assignment
variable {α β : Type}

section Duality
variable {A : Finset α} {B : Finset β} {w : α → β → ℤ} {u : α → ℤ} {v : β → ℤ} {p : β → α}

theorem sum_labels (hp : Set.BijOn p B A) : ∑ b ∈ B, u (p b) = ∑ a ∈ A, u a :=
  Finset.sum_nbij p hp.mapsTo hp.injOn hp.surjOn fun _ _ => rfl

/-- No assignment has more weight than the labels together. -/
theorem sum_le_labels (hcover : ∀ a ∈ A, ∀ b ∈ B, w a b ≤ u a + v b) (hp : Set.BijOn p B A) :
    ∑ b ∈ B, w (p b) b ≤ ∑ a ∈ A, u a + ∑ b ∈ B, v b := by
  rw [← sum_labels hp, ← Finset.sum_add_distrib]
  exact Finset.sum_le_sum fun b hb => hcover _ (hp.mapsTo hb) b hb

/-- An assignment along tight pairs has the weight of the labels. -/
theorem sum_eq_labels (htight : ∀ b ∈ B, w (p b) b = u (p b) + v b) (hp : Set.BijOn p B A) :
    ∑ b ∈ B, w (p b) b = ∑ a ∈ A, u a + ∑ b ∈ B, v b := by
  rw [← sum_labels hp, ← Finset.sum_add_distrib]
  exact Finset.sum_congr rfl htight

end Duality

section Extreme
variable {r : β → β → Prop} {best : β → α → β} {p : α → Prop} {f : α → β}

/-- A loop that keeps the best of the values met is below all of them, for the order `r`, and ends
with the first bound or with one of the values. -/
theorem foldl_best (hrefl : ∀ d, r d d) (htrans : ∀ {a b c}, r a b → r b c → r a c)
    (hbest : ∀ d i, r (best d i) d ∧ (p i → r (best d i) (f i)))
    (hatt : ∀ d i, best d i = d ∨ p i ∧ best d i = f i) (is : List α) (d : β) :
    r (is.foldl best d) d ∧ (∀ i ∈ is, p i → r (is.foldl best d) (f i)) ∧
      (is.foldl best d = d ∨ ∃ i ∈ is, p i ∧ is.foldl best d = f i) := by
  induction is generalizing d with
  | nil => exact ⟨hrefl d, by simp, Or.inl rfl⟩
  | cons i is ih =>
    obtain ⟨hle, hall, hsome⟩ := ih (best d i)
    rw [List.foldl_cons]
    refine ⟨htrans hle (hbest d i).1, fun j hj hp => ?_, ?_⟩
    · rcases List.mem_cons.mp hj with rfl | hj
      · exact htrans hle ((hbest d j).2 hp)
      · exact hall j hj hp
    · rcases hsome with he | ⟨j, hj, hp, he⟩
      · rw [he]
        rcases hatt d i with hd | ⟨hp, hf⟩
        · exact Or.inl hd
        · exact Or.inr ⟨i, by simp, hp, hf⟩
      · exact Or.inr ⟨j, by simp [hj], hp, he⟩

/-- A lower bound of the least value met is one of the first value and of all others. -/
theorem le_foldl_min {γ : Type*} [LinearOrder γ] {a c : γ} {l : List γ} :
    c ≤ l.foldl min a ↔ c ≤ a ∧ ∀ x ∈ l, c ≤ x := by
  induction l generalizing a with
  | nil => simp
  | cons x l ih =>
    rw [List.foldl_cons, ih, le_min_iff, List.forall_mem_cons, and_assoc]

theorem foldl_max_le {γ : Type*} [LinearOrder γ] {a c : γ} {l : List γ} :
    l.foldl max a ≤ c ↔ a ≤ c ∧ ∀ x ∈ l, x ≤ c :=
  le_foldl_min (γ := γᵒᵈ)

theorem foldl_min_eq_self {γ : Type*} [LinearOrder γ] {a : γ} {l : List γ} :
    l.foldl min a = a ↔ ∀ x ∈ l, a ≤ x := by
  constructor
  · exact fun h => (le_foldl_min.mp h.ge).2
  · intro h
    apply le_antisymm
    · exact (le_foldl_min.mp le_rfl).1
    · exact le_foldl_min.mpr ⟨le_rfl, h⟩

theorem foldl_max_eq_self {γ : Type*} [LinearOrder γ] {a : γ} {l : List γ} :
    l.foldl max a = a ↔ ∀ x ∈ l, x ≤ a :=
  foldl_min_eq_self (γ := γᵒᵈ)

end Extreme

section Mates

/-- The matched elements. -/
def mates (ys : List β) (link : β → Option α) : List α := ys.filterMap link

variable {ys : List β} {link : β → Option α} {x x' : α} {y : β}

theorem mem_mates : x ∈ mates ys link ↔ ∃ y ∈ ys, link y = some x := List.mem_filterMap

section Update
variable [DecidableEq β]

theorem mates_split (link : β → Option α) {l l' : List β} (hnd : (l ++ y :: l').Nodup) (o : Option α) :
    mates (l ++ y :: l') (Function.update link y o) = mates l link ++ o.toList ++ mates l' link := by
  have hne {k : List β} (hy : y ∉ k) : mates k (Function.update link y o) = mates k link :=
    List.filterMap_congr fun z hz => Function.update_of_ne (ne_of_mem_of_not_mem hz hy) _ _
  obtain ⟨-, hnd', hdis⟩ := List.nodup_append.mp hnd
  have hl : y ∉ l := fun hy => hdis y hy y (by simp) rfl
  have hl' : y ∉ l' := (List.nodup_cons.mp hnd').1
  rw [mates, List.filterMap_append, List.filterMap_cons, Function.update_self]
  change mates l _ ++ _ = _
  rw [hne hl, List.append_assoc]
  cases o with
  | none => exact congrArg _ (hne hl')
  | some z => exact congrArg (fun k => mates l link ++ z :: k) (hne hl')

/-- A free element is matched. -/
theorem mates_of_none (hnd : ys.Nodup) (hy : y ∈ ys) (hfree : link y = none) :
    (mates ys (Function.update link y (some x))).Perm (x :: mates ys link) := by
  obtain ⟨l, l', rfl⟩ := List.append_of_mem hy
  have hold := mates_split link hnd none
  rw [← hfree, Function.update_eq_self, hfree] at hold
  rw [mates_split _ hnd, hold]
  simp

/-- A matched element changes its mate. -/
theorem mates_of_some (hnd : ys.Nodup) (hy : y ∈ ys) (hold : link y = some x') :
    (x' :: mates ys (Function.update link y (some x))).Perm (x :: mates ys link) := by
  obtain ⟨l, l', rfl⟩ := List.append_of_mem hy
  have hsplit := mates_split link hnd (some x')
  rw [← hold, Function.update_eq_self, hold] at hsplit
  rw [mates_split _ hnd, hsplit]
  simp only [Option.toList_some, List.append_assoc, List.singleton_append]
  refine (List.Perm.cons x' List.perm_middle).trans ?_
  exact (List.Perm.swap x x' _).trans (List.Perm.cons x List.perm_middle.symm)

end Update

/-- Two elements with one mate are one. -/
theorem eq_of_mates_nodup {y' : β} (hnd : (mates ys link).Nodup) (hy : y ∈ ys) (hy' : y' ∈ ys)
    (h : link y = some x) (h' : link y' = some x) : y = y' := by
  by_contra hne
  obtain ⟨l, l', rfl⟩ := List.append_of_mem hy
  have hother : x ∈ mates l link ∨ x ∈ mates l' link := by
    rcases List.mem_append.mp hy' with hm | hm
    · exact Or.inl (mem_mates.mpr ⟨y', hm, h'⟩)
    · exact Or.inr (mem_mates.mpr ⟨y', List.mem_of_ne_of_mem (Ne.symm hne) hm, h'⟩)
  rw [mates, List.filterMap_append, List.filterMap_cons, h, List.nodup_append] at hnd
  obtain ⟨-, hnd', hdis⟩ := hnd
  rcases hother with hm | hm
  · exact hdis x hm x (by simp) rfl
  · exact (List.nodup_cons.mp hnd').1 hm

/-- A matching of as many elements as there are is an assignment. -/
theorem bijOn_of_mates {σ : β → α} {xs : List α} (hperm : (mates ys link).Perm xs) (hxs : xs.Nodup)
    (hlen : xs.length = ys.length)
    (hσ : ∀ y x, link y = some x → σ y = x) :
    (∀ y ∈ ys, link y = some (σ y)) ∧ Set.BijOn σ { y | y ∈ ys } { x | x ∈ xs } := by
  have hall : ∀ y ∈ ys, (link y).isSome = true :=
    List.filterMap_length_eq_length.mp (hperm.length_eq.trans hlen)
  have hlink : ∀ y ∈ ys, link y = some (σ y) := by
    intro y hy
    obtain ⟨x, hx⟩ := Option.isSome_iff_exists.mp (hall y hy)
    rw [hσ y x hx, hx]
  refine ⟨hlink, fun y hy => ?_, fun y hy y' hy' he => ?_, fun x hx => ?_⟩
  · exact hperm.mem_iff.mp (mem_mates.mpr ⟨y, hy, hlink y hy⟩)
  · refine eq_of_mates_nodup (hperm.nodup_iff.mpr hxs) hy hy' (hlink y hy) ?_
    rw [hlink y' hy', he]
  · obtain ⟨y, hy, hyx⟩ := mem_mates.mp (hperm.mem_iff.mpr hx)
    exact ⟨y, hy, hσ y x hyx⟩

end Mates
end Assignment
