import Mathlib.Algebra.BigOperators.Group.Finset.Basic
import Mathlib.Algebra.Order.Monoid.Defs
import Mathlib.Order.Bounds.Image

/-! Chains of a given number of steps, and the least cost of one. A table of least costs grows by
a layer, and its parents lead back along a chain of least cost. -/
namespace Layers
variable {α R : Type} {r : α → α → Prop} {o j : α} {k : ℕ} {c : ℕ → α}

/-- `k` steps lead from `o` to `j`. -/
structure IsChain (r : α → α → Prop) (o : α) (k : ℕ) (j : α) (c : ℕ → α) : Prop where
  first : c 0 = o
  last : c k = j
  step : ∀ i < k, r (c i) (c (i + 1))

theorem IsChain.init (h : IsChain r o (k + 1) j c) : IsChain r o k (c k) c :=
  ⟨h.first, rfl, fun i hi => h.step i (by omega)⟩

/-- A chain and one step more. -/
theorem IsChain.snoc {l : α} (h : IsChain r o k l c) (hl : r l j) :
    IsChain r o (k + 1) j (Function.update c (k + 1) j) := by
  have hold (i : ℕ) (hi : i ≤ k) : Function.update c (k + 1) j i = c i :=
    Function.update_of_ne (by omega) _ _
  refine ⟨(hold 0 (by omega)).trans h.first, Function.update_self _ _ _, fun i hi => ?_⟩
  rw [hold i (by omega)]
  rcases Nat.lt_succ_iff_lt_or_eq.mp hi with hlt | rfl
  · rw [hold (i + 1) (by omega)]
    exact h.step i hlt
  · rw [Function.update_self, h.last]
    exact hl

/-- A chain that rises is at `k` or above after `k` steps. -/
theorem IsChain.le {j : ℕ} {c : ℕ → ℕ} (h : IsChain (· < ·) 0 k j c) : k ≤ j := by
  have hle (i : ℕ) (hi : i ≤ k) : i ≤ c i := by
    induction i with
    | zero => exact Nat.zero_le _
    | succ i ih => exact Nat.succ_le_of_lt ((ih (by omega)).trans_lt (h.step i (by omega)))
  exact (hle k le_rfl).trans h.last.le

theorem IsChain.le_last {o j i : ℕ} {c : ℕ → ℕ} (h : IsChain (· < ·) o k j c) (hi : i ≤ k) :
    c i ≤ j := by
  induction k generalizing j with
  | zero => exact (Nat.le_zero.mp hi ▸ h.last).le
  | succ k ih =>
    rcases Nat.le_succ_iff.mp hi with hle | rfl
    · have hlt := h.step k k.lt_succ_self
      rw [h.last] at hlt
      exact (ih h.init hle).trans hlt.le
    · exact h.last.le

section Cost
variable [AddCommMonoid R] {cost : α → α → R}

def total (cost : α → α → R) (k : ℕ) (c : ℕ → α) : R :=
  ∑ i ∈ Finset.range k, cost (c i) (c (i + 1))

theorem total_succ (cost : α → α → R) (k : ℕ) (c : ℕ → α) :
    total cost (k + 1) c = total cost k c + cost (c k) (c (k + 1)) := Finset.sum_range_succ _ _

theorem total_snoc (cost : α → α → R) (k : ℕ) (c : ℕ → α) (j : α) :
    total cost (k + 1) (Function.update c (k + 1) j) = total cost k c + cost (c k) j := by
  have hold (i : ℕ) (hi : i ≤ k) : Function.update c (k + 1) j i = c i :=
    Function.update_of_ne (by omega) _ _
  rw [total_succ, Function.update_self, hold k le_rfl]
  congr 1
  refine Finset.sum_congr rfl fun i hi => ?_
  have hlt := Finset.mem_range.mp hi
  rw [hold i (by omega), hold (i + 1) (by omega)]

/-- The way back from `j` in layer `k`, where `p k j` is the parent. -/
def back (p : ℕ → α → α) : ℕ → α → ℕ → α
  | 0, j => fun _ => j
  | k + 1, j => Function.update (back p k (p (k + 1) j)) (k + 1) j

/-- Parents that account for all costs lead back along a chain with that total. -/
theorem back_chain {p : ℕ → α → α} {f : ℕ → α → R} {V : ℕ → α → Prop}
    (hzero : ∀ j, V 0 j → j = o ∧ f 0 j = 0)
    (hparent : ∀ k j, V (k + 1) j → V k (p (k + 1) j) ∧ r (p (k + 1) j) j ∧
      f (k + 1) j = f k (p (k + 1) j) + cost (p (k + 1) j) j) (hV : V k j) :
    IsChain r o k j (back p k j) ∧ total cost k (back p k j) = f k j := by
  induction k generalizing j with
  | zero =>
    obtain ⟨rfl, hf⟩ := hzero j hV
    exact ⟨⟨rfl, rfl, fun i hi => by omega⟩, hf.symm⟩
  | succ k ih =>
    obtain ⟨hV', hr, hf⟩ := hparent k j hV
    obtain ⟨hchain, htotal⟩ := ih hV'
    refine ⟨hchain.snoc hr, ?_⟩
    rw [back, total_snoc, hchain.last, htotal, hf]

variable [PartialOrder R]

/-- `m` is the least cost of `k` steps from `o` to `j`. -/
def IsBest (cost : α → α → R) (r : α → α → Prop) (o : α) (k : ℕ) (j : α) (m : R) : Prop :=
  IsLeast { t | ∃ c, IsChain r o k j c ∧ total cost k c = t } m

theorem IsBest.zero : IsBest cost r o 0 o 0 := by
  refine ⟨⟨fun _ => o, ⟨rfl, rfl, fun i hi => by omega⟩, rfl⟩, ?_⟩
  rintro t ⟨c, -, rfl⟩
  exact le_rfl

/-- The next layer: `S` has the points before `j` that are reached in `k` steps. -/
theorem IsBest.next [IsOrderedAddMonoid R] {S : Set α} {f : α → R} {m : R} (hstep : ∀ l ∈ S, r l j)
    (hS : ∀ l c, IsChain r o k l c → r l j → l ∈ S)
    (hbest : ∀ l ∈ S, IsBest cost r o k l (f l))
    (hm : IsLeast ((fun l => f l + cost l j) '' S) m) : IsBest cost r o (k + 1) j m := by
  obtain ⟨⟨l, hl, rfl⟩, hle⟩ := hm
  constructor
  · obtain ⟨c, hchain, htotal⟩ := (hbest l hl).1
    exact ⟨_, hchain.snoc (hstep l hl), by rw [total_snoc, hchain.last, htotal]⟩
  · rintro t ⟨c, hchain, rfl⟩
    have hlast : r (c k) j := hchain.last ▸ hchain.step k k.lt_succ_self
    have hmem := hS (c k) c hchain.init hlast
    refine (hle ⟨c k, hmem, rfl⟩).trans ?_
    rw [total_succ, hchain.last]
    exact add_le_add_left ((hbest (c k) hmem).2 ⟨c, hchain.init, rfl⟩) _

end Cost
end Layers
