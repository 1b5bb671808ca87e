import Mathlib.Data.List.Nodup
import Mathlib.Data.List.Range
import Mathlib.Logic.Equiv.Basic
import Mathlib.Logic.Relation

/-! Minimum heaps in the first places of an array. The order is a Boolean test that is total and
transitive; two elements may be equivalent. -/
namespace BinaryHeap
variable {α : Type} (le : α → α → Bool)

/-- Any two elements are ordered by the test, and the order is transitive. -/
structure TotalPreorder : Prop where
  total : ∀ x y, le x y = true ∨ le y x = true
  trans : ∀ x y z, le x y = true → le y z = true → le x z = true

/-- The elements of the first `n` places. -/
def elems (n : ℕ) (a : ℕ → α) : List α := (List.range n).map a

/-- Two places exchange their elements. -/
def exchange (i j : ℕ) (a : ℕ → α) : ℕ → α := Function.update (Function.update a i (a j)) j (a i)

/-- The child of place `i` with the smaller element, the left one if they are equivalent. -/
def smallerChild (len i : ℕ) (a : ℕ → α) : ℕ :=
  if 2 * i + 1 + 1 < len ∧ le (a (2 * i + 1)) (a (2 * i + 1 + 1)) = false then 2 * i + 1 + 1
  else 2 * i + 1

/-- The element at place `i` goes down as long as it is not below its smaller child. -/
def siftDown (len : ℕ) : ℕ → ℕ → (ℕ → α) → ℕ → α
  | 0, _, a => a
  | fuel + 1, i, a =>
      if 2 * i + 1 < len then
        if le (a i) (a (smallerChild le len i a)) then a
        else siftDown len fuel (smallerChild le len i a) (exchange i (smallerChild le len i a) a)
      else a

/-- The elements of the first `k` places go down, the last of them first. -/
def heapify (len : ℕ) : ℕ → (ℕ → α) → ℕ → α
  | 0, a => a
  | k + 1, a => heapify len k (siftDown le len len k a)

/-- Place `c` is a child of place `p`. -/
def Child (p c : ℕ) : Prop := c = 2 * p + 1 ∨ c = 2 * p + 2

/-- Every parent from place `lo` on is at most its children. -/
def OrderedFrom (len lo : ℕ) (a : ℕ → α) : Prop :=
  ∀ p c, lo ≤ p → Child p c → c < len → le (a p) (a c) = true

/-- Only the element at place `i` may be larger than its children, and its own parent is not. -/
structure Hole (len lo i : ℕ) (a : ℕ → α) : Prop where
  others : ∀ p c, lo ≤ p → p ≠ i → Child p c → c < len → le (a p) (a c) = true
  above : ∀ p c, lo ≤ p → Child p i → Child i c → c < len → le (a p) (a c) = true

/-- Place `j` is in the subtree of place `i`. -/
def Below : ℕ → ℕ → Prop := Relation.ReflTransGen Child

/-- Every parent in `D` is at most its children. -/
def OrderedIn (len : ℕ) (D : ℕ → Prop) (a : ℕ → α) : Prop :=
  ∀ p c, D p → Child p c → c < len → le (a p) (a c) = true

/-- Of the parents in `D`, only the one at place `i` may be larger than its children, and its own
parent is not. -/
structure HoleIn (len : ℕ) (D : ℕ → Prop) (i : ℕ) (a : ℕ → α) : Prop where
  others : ∀ p c, D p → p ≠ i → Child p c → c < len → le (a p) (a c) = true
  above : ∀ p c, D p → Child p i → Child i c → c < len → le (a p) (a c) = true

variable {le} {len lo i j n k fuel : ℕ} {a : ℕ → α} {D : ℕ → Prop}

theorem below_le (h : Below i j) : i ≤ j := by
  induction h with
  | refl => exact le_rfl
  | tail _ hc ih =>
    unfold Child at hc
    omega

/-- A place in a subtree is its root or in the subtree of one of its children. -/
theorem below_cases (h : Below i j) : j = i ∨ ∃ c, Child i c ∧ Below c j :=
  Relation.ReflTransGen.cases_head_iff.mp h |>.imp_left Eq.symm

theorem exchange_left (h : i ≠ j) : exchange i j a i = a j := by
  simp [exchange, h]

@[simp] theorem exchange_right : exchange i j a j = a i := by
  simp [exchange]

theorem exchange_of_ne {k : ℕ} (hi : k ≠ i) (hj : k ≠ j) : exchange i j a k = a k := by
  simp [exchange, hi, hj]

theorem exchange_eq_comp (i j : ℕ) (a : ℕ → α) : exchange i j a = a ∘ Equiv.swap i j := by
  funext k
  rcases eq_or_ne k j with rfl | hkj
  · simp
  rcases eq_or_ne k i with rfl | hki
  · simp [exchange_left hkj]
  · simp [exchange_of_ne hki hkj, Equiv.swap_apply_of_ne_of_ne hki hkj]

/-- A permutation of the first `n` places leaves their elements. -/
theorem elems_comp_perm {σ : Equiv.Perm ℕ} (hσ : ∀ j, σ j ≠ j → j < n) :
    (elems n (a ∘ σ)).Perm (elems n a) := by
  have hmem (τ : Equiv.Perm ℕ) (hτ : ∀ j, τ j ≠ j → j < n) {k : ℕ} (hk : k < n) : τ k < n := by
    by_contra hge
    have hfix : τ (τ k) = τ k := not_not.mp (mt (hτ _) hge)
    exact hge ((τ.injective hfix).symm ▸ hk)
  have hinv : ∀ j, σ.symm j ≠ j → j < n := fun j hj => hσ j fun he => hj (by
    rw [Equiv.symm_apply_eq, he])
  have hrange : ((List.range n).map σ).Perm (List.range n) := by
    refine (List.perm_ext_iff_of_nodup (List.nodup_range.map σ.injective) List.nodup_range).mpr
      fun k => ?_
    simp only [List.mem_map, List.mem_range]
    constructor
    · rintro ⟨m, hm, rfl⟩
      exact hmem σ hσ hm
    · exact fun hk => ⟨σ.symm k, hmem σ.symm hinv hk, σ.apply_symm_apply k⟩
  rw [elems, ← List.map_map]
  exact hrange.map a

/-- One element is taken out of its place and another one put there. -/
theorem update_perm (hi : i < n) (x : α) :
    (a i :: elems n (Function.update a i x)).Perm (x :: elems n a) := by
  obtain ⟨d, rfl⟩ := Nat.exists_eq_add_of_lt hi
  have hsplit (b : ℕ → α) : elems (i + d + 1) b =
      elems i b ++ b i :: (List.range d).map fun k => b (i + 1 + k) := by
    rw [elems, Nat.add_assoc, List.range_add, Nat.add_comm d 1, List.range_add, List.map_append]
    simp [elems, Function.comp_def, Nat.add_assoc]
  have hfront : elems i (Function.update a i x) = elems i a :=
    List.map_congr_left fun k hk => Function.update_of_ne (List.mem_range.mp hk).ne _ _
  have hback : (List.range d).map (fun k => Function.update a i x (i + 1 + k)) =
      (List.range d).map fun k => a (i + 1 + k) :=
    List.map_congr_left fun k _ => Function.update_of_ne (by omega) _ _
  rw [hsplit, hsplit, hfront, hback, Function.update_self]
  refine (List.Perm.cons _ List.perm_middle).trans ?_
  refine (List.Perm.swap _ _ _).trans (List.Perm.cons _ ?_)
  exact List.perm_middle.symm

theorem smallerChild_child (le : α → α → Bool) (len i : ℕ) (a : ℕ → α) :
    Child i (smallerChild le len i a) := by
  unfold smallerChild Child
  split <;> omega

theorem smallerChild_lt (le : α → α → Bool) (a : ℕ → α) (h : 2 * i + 1 < len) :
    smallerChild le len i a < len := by
  unfold smallerChild
  split <;> omega

theorem smallerChild_le (ho : TotalPreorder le) {c : ℕ} (hc : Child i c) (hlen : c < len) :
    le (a (smallerChild le len i a)) (a c) = true := by
  have hrefl (x : α) : le x x = true := (ho.total x x).elim id id
  unfold smallerChild
  split
  · next hright =>
    rcases hc with rfl | rfl
    · refine (ho.total _ _).resolve_right ?_
      rw [hright.2]
      exact Bool.false_ne_true
    · exact hrefl _
  · next hleft =>
    rcases hc with rfl | rfl
    · exact hrefl _
    · by_contra hnot
      exact hleft ⟨hlen, by simpa using hnot⟩

/-- Moving down one level moves the hole. -/
theorem HoleIn.exchange (ho : TotalPreorder le) (h : HoleIn le len D i a)
    (hD : ∀ c, Child i c → D c) (hlt : 2 * i + 1 < len)
    (hgt : le (a i) (a (smallerChild le len i a)) = false) :
    HoleIn le len D (smallerChild le len i a) (exchange i (smallerChild le len i a) a) := by
  have hchild := smallerChild_child le len i a
  have hmin {c : ℕ} (hc : Child i c) (hlen : c < len) := smallerChild_le (a := a) ho hc hlen
  have hmlen := smallerChild_lt le a hlt
  generalize smallerChild le len i a = m at *
  have him : i ≠ m := by unfold Child at hchild; omega
  have hup : le (a m) (a i) = true := by
    refine (ho.total _ _).resolve_left ?_
    rw [hgt]
    exact Bool.false_ne_true
  constructor
  · intro p c hp hpm hc hlen
    rcases eq_or_ne p i with rfl | hpi
    · rw [exchange_left him]
      rcases eq_or_ne c m with rfl | hcm
      · rwa [exchange_right]
      · have hcp : c ≠ p := by unfold Child at hc; omega
        rw [exchange_of_ne hcp hcm]
        exact hmin hc hlen
    · rw [exchange_of_ne hpi hpm]
      have hcm : c ≠ m := by unfold Child at hc hchild; omega
      rcases eq_or_ne c i with rfl | hci
      · rw [exchange_left him]
        exact h.above p m hp hc hchild hmlen
      · rw [exchange_of_ne hci hcm]
        exact h.others p c hp hpi hc hlen
  · intro p c hp hpm hc hlen
    have hpi : p = i := by unfold Child at hpm hchild; omega
    have hci : c ≠ i := by unfold Child at hc hchild; omega
    have hcm : c ≠ m := by unfold Child at hc; omega
    rw [hpi, exchange_left him, exchange_of_ne hci hcm]
    exact h.others m c (hD m hchild) him.symm hc hlen

/-- When the element has gone down, the parents in `D` are ordered. -/
theorem siftDown_orderedIn (ho : TotalPreorder le) (hD : ∀ p c, D p → Child p c → D c)
    (h : HoleIn le len D i a) (hi : D i) (hfuel : len ≤ i + fuel) :
    OrderedIn le len D (siftDown le len fuel i a) := by
  induction fuel generalizing i a with
  | zero =>
    intro p c hp hc hlen
    exact h.others p c hp (by unfold Child at hc; omega) hc hlen
  | succ fuel ih =>
    rw [siftDown]
    split_ifs with hlt hle
    · intro p c hp hc hlen
      rcases eq_or_ne p i with rfl | hpi
      · exact ho.trans _ _ _ hle (smallerChild_le ho hc hlen)
      · exact h.others p c hp hpi hc hlen
    · have hchild := smallerChild_child le len i a
      refine ih (h.exchange ho (fun c => hD i c hi) hlt (by simpa using hle)) (hD i _ hi hchild) ?_
      unfold Child at hchild
      omega
    · intro p c hp hc hlen
      exact h.others p c hp (by unfold Child at hc; omega) hc hlen

theorem siftDown_ordered (ho : TotalPreorder le) (h : Hole le len lo i a) (hlo : lo ≤ i)
    (hfuel : len ≤ i + fuel) : OrderedFrom le len lo (siftDown le len fuel i a) := by
  refine siftDown_orderedIn (D := (lo ≤ ·)) ho (fun p c hp hc => ?_) ⟨h.others, h.above⟩ hlo hfuel
  unfold Child at hc
  omega

/-- If the subtrees of its children are ordered, a place has an ordered subtree when its element
has gone down. -/
theorem siftDown_subtree (ho : TotalPreorder le)
    (h : ∀ c, Child i c → OrderedIn le len (Below c) a) (hfuel : len ≤ i + fuel) :
    OrderedIn le len (Below i) (siftDown le len fuel i a) := by
  refine siftDown_orderedIn ho (fun p c hp hc => hp.tail hc) ⟨?_, ?_⟩ .refl hfuel
  · intro p c hp hpi hc hlen
    obtain hp | ⟨d, hd, hp⟩ := below_cases hp
    · exact absurd hp hpi
    · exact h d hd p c hp hc hlen
  · intro p c hp hpi
    have hle := below_le hp
    unfold Child at hpi
    omega

/-- Only places in the subtree are touched, and their elements are permuted. -/
theorem siftDown_moves (le : α → α → Bool) (len fuel i : ℕ) (a : ℕ → α) :
    ∃ σ : Equiv.Perm ℕ, siftDown le len fuel i a = a ∘ σ ∧ ∀ j, σ j ≠ j → Below i j ∧ j < len := by
  induction fuel generalizing i a with
  | zero => exact ⟨Equiv.refl ℕ, rfl, fun j hj => absurd rfl hj⟩
  | succ fuel ih =>
    rw [siftDown]
    split_ifs with hlt hle
    · exact ⟨Equiv.refl ℕ, rfl, fun j hj => absurd rfl hj⟩
    · have hchild := smallerChild_child le len i a
      have hm := smallerChild_lt le a hlt
      generalize smallerChild le len i a = m at *
      obtain ⟨σ, hσ, hmoves⟩ := ih m (exchange i m a)
      refine ⟨σ.trans (Equiv.swap i m), ?_, fun j hj => ?_⟩
      · rw [hσ, exchange_eq_comp]
        rfl
      · by_cases hj' : σ j = j
        · rw [Equiv.trans_apply, hj'] at hj
          obtain rfl | rfl : j = i ∨ j = m := by
            by_contra hne
            push Not at hne
            exact hj (Equiv.swap_apply_of_ne_of_ne hne.1 hne.2)
          · exact ⟨.refl, by omega⟩
          · exact ⟨.single hchild, hm⟩
        · exact ⟨.head hchild (hmoves j hj').1, (hmoves j hj').2⟩
    · exact ⟨Equiv.refl ℕ, rfl, fun j hj => absurd rfl hj⟩

/-- The places behind the heap are not touched. -/
theorem siftDown_of_ge (hj : len ≤ j) : siftDown le len fuel i a j = a j := by
  obtain ⟨σ, hσ, hmoves⟩ := siftDown_moves le len fuel i a
  rw [hσ, Function.comp_apply, not_not.mp (mt (hmoves j) (by omega))]

theorem siftDown_perm (hn : len ≤ n) : (elems n (siftDown le len fuel i a)).Perm (elems n a) := by
  obtain ⟨σ, hσ, hmoves⟩ := siftDown_moves le len fuel i a
  rw [hσ]
  exact elems_comp_perm fun j hj => (hmoves j hj).2.trans_le hn

theorem heapify_ordered (ho : TotalPreorder le) (h : OrderedFrom le len k a) :
    OrderedFrom le len 0 (heapify le len k a) := by
  induction k generalizing a with
  | zero => exact h
  | succ k ih =>
    refine ih (siftDown_ordered ho ⟨fun p c hp hpk hc hlen => ?_, fun p c hp hc => ?_⟩ le_rfl
      (by omega))
    · exact h p c (by omega) hc hlen
    · unfold Child at hc
      omega

/-- The elements of the first `len` places are permuted. -/
theorem heapify_moves (le : α → α → Bool) (len k : ℕ) (a : ℕ → α) :
    ∃ σ : Equiv.Perm ℕ, heapify le len k a = a ∘ σ ∧ ∀ j, σ j ≠ j → j < len := by
  induction k generalizing a with
  | zero => exact ⟨Equiv.refl ℕ, rfl, fun j hj => absurd rfl hj⟩
  | succ k ih =>
    obtain ⟨σ, hσ, hmoves⟩ := siftDown_moves le len len k a
    obtain ⟨τ, hτ, hmoves'⟩ := ih (siftDown le len len k a)
    refine ⟨τ.trans σ, ?_, fun j hj => ?_⟩
    · rw [heapify, hτ, hσ]
      rfl
    · by_cases hj' : τ j = j
      · rw [Equiv.trans_apply, hj'] at hj
        exact (hmoves j hj).2
      · exact hmoves' j hj'

theorem heapify_perm (hn : len ≤ n) : (elems n (heapify le len k a)).Perm (elems n a) := by
  obtain ⟨σ, hσ, hmoves⟩ := heapify_moves le len k a
  rw [hσ]
  exact elems_comp_perm fun j hj => (hmoves j hj).trans_le hn

/-- The element at the root is the smallest. -/
theorem OrderedFrom.root_le (ho : TotalPreorder le) (h : OrderedFrom le len 0 a) (hj : j < len) :
    le (a 0) (a j) = true := by
  induction j using Nat.strong_induction_on with
  | _ j ih =>
    rcases Nat.eq_zero_or_pos j with rfl | hpos
    · exact (ho.total _ _).elim id id
    · have hparent := ih ((j - 1) / 2) (by omega) (by omega)
      refine ho.trans _ _ _ hparent (h _ _ (Nat.zero_le _) ?_ hj)
      unfold Child
      omega

end BinaryHeap
