import Mathlib.Data.Nat.ModEq
import Mathlib.Data.Set.Basic
import Mathlib.Logic.Function.Basic

/-! Rings of linked cells, and queues in consecutive cells of a ring. A ring of `n` cells is seen
as an endless sequence of cells that comes around after `n` of them. -/
namespace LinkedRing
variable {α β : Type} {n h k : ℕ} {σ : ℕ → α}

/-- `σ` comes around after `n` cells, and not before. -/
def Around (n : ℕ) (σ : ℕ → α) : Prop := ∀ i j, σ i = σ j ↔ i ≡ j [MOD n]

/-- Among `n` cells in a row no two are one. -/
theorem Around.eq_iff (hσ : Around n σ) {i j : ℕ} (hi : i < n) (hj : j < n) :
    σ (h + i) = σ (h + j) ↔ i = j := by
  rw [hσ, Nat.ModEq.add_iff_left rfl]
  exact ⟨fun he => Nat.ModEq.eq_of_lt_of_lt he hi hj, fun he => he ▸ rfl⟩

theorem Around.around (hσ : Around n σ) : σ (h + n) = σ h := by
  rw [hσ, Nat.ModEq, Nat.add_mod_right]

section Links
variable {next : α → Option α}

/-- `k` links from `p` on. -/
def walk (next : α → Option α) (p : Option α) : ℕ → Option α
  | 0 => p
  | k + 1 => (walk next p k).bind next

theorem walk_eq (hnext : ∀ i, next (σ i) = some (σ (i + 1))) :
    walk next (some (σ h)) k = some (σ (h + k)) := by
  induction k with
  | zero => rfl
  | succ k ih =>
    rw [walk, ih]
    exact hnext (h + k)

/-- What is reached from `p`. -/
def reached (next : α → Option α) (p : Option α) : Set α := { a | ∃ k, walk next p k = some a }

/-- The links from `p` form a ring of exactly `n` cells. -/
structure IsRing (next : α → Option α) (n : ℕ) (p : Option α) : Prop where
  linked : ∀ k, (walk next p k).isSome
  closed : walk next p n = p
  distinct : ∀ i < n, ∀ j < n, walk next p i = walk next p j → i = j

theorem Around.isRing (hσ : Around n σ) (hnext : ∀ i, next (σ i) = some (σ (i + 1))) :
    IsRing next n (some (σ h)) := by
  refine ⟨fun k => ?_, ?_, fun i hi j hj he => ?_⟩
  · rw [walk_eq hnext]
    rfl
  · rw [walk_eq hnext, hσ.around]
  · rw [walk_eq hnext, walk_eq hnext, Option.some.injEq] at he
    exact (hσ.eq_iff hi hj).mp he

/-- From each cell all are reached. -/
theorem Around.reached_eq (hσ : Around n σ) (hn : 0 < n)
    (hnext : ∀ i, next (σ i) = some (σ (i + 1))) : reached next (some (σ h)) = Set.range σ := by
  ext a
  constructor
  · rintro ⟨k, hk⟩
    rw [walk_eq hnext, Option.some.injEq] at hk
    exact ⟨_, hk⟩
  · rintro ⟨i, rfl⟩
    -- some multiple of `n` brings `i` behind `h`
    refine ⟨i + h * n - h, ?_⟩
    have hle : h ≤ h * n := Nat.le_mul_of_pos_right h hn
    rw [walk_eq hnext, show h + (i + h * n - h) = i + h * n by omega]
    refine congrArg some ((hσ _ _).mpr ?_)
    rw [Nat.ModEq, Nat.add_mul_mod_self_right]

end Links

section Values
variable {cell : α → Option β} {x : β} {xs : List β}

/-- The cells from `h` on hold `xs`. -/
def Holds (σ : ℕ → α) (cell : α → Option β) (h : ℕ) (xs : List β) : Prop :=
  ∀ i x, xs[i]? = some x → cell (σ (h + i)) = some x

theorem Holds.head (hs : Holds σ cell h (x :: xs)) : cell (σ h) = some x := hs 0 x rfl

theorem Holds.tail (hs : Holds σ cell h (x :: xs)) : Holds σ cell (h + 1) xs := by
  intro i y hy
  rw [Nat.add_assoc, Nat.add_comm 1 i]
  exact hs (i + 1) y hy

/-- A free cell takes one more. -/
theorem Holds.snoc {cell' : α → Option β} (hσ : Around n σ) (hs : Holds σ cell h xs)
    (hlen : xs.length < n) (hnew : cell' (σ (h + xs.length)) = some x)
    (hold : ∀ p, p ≠ σ (h + xs.length) → cell' p = cell p) : Holds σ cell' h (xs ++ [x]) := by
  intro i y hy
  rcases Nat.lt_trichotomy i xs.length with hlt | rfl | hgt
  · rw [List.getElem?_append_left hlt] at hy
    rw [hold _ fun he => hlt.ne ((hσ.eq_iff (by omega) hlen).mp he)]
    exact hs i y hy
  · rw [List.getElem?_append_right le_rfl, Nat.sub_self] at hy
    cases hy
    exact hnew
  · rw [List.getElem?_eq_none (by simp; omega)] at hy
    cases hy

end Values
section Release
variable [DecidableEq α] {next : α → Option α} {k n : ℕ}

/-- `n` cells are released, each after its link was read. There is no result when a pointer is null
or leads to a cell that was released before. -/
def release (next : α → Option α) : ℕ → Option α → List α → Option (List α)
  | 0, _, released => some released
  | n + 1, p, released => p.bind fun a =>
      if a ∈ released then none else release next n (next a) (released ++ [a])

/-- A row of different cells is released from its first to its last one. -/
theorem release_row (hnext : ∀ i, i + 1 < n → next (σ i) = some (σ (i + 1)))
    (hdistinct : ∀ i < n, ∀ j < n, σ i = σ j → i = j) (hk : k < n) :
    release next (n - k) (some (σ k)) ((List.range k).map σ) = some ((List.range n).map σ) := by
  have hfresh {k : ℕ} (hk : k < n) : σ k ∉ (List.range k).map σ := by
    intro hmem
    obtain ⟨i, hi, he⟩ := List.mem_map.mp hmem
    have hi := List.mem_range.mp hi
    have hsame := hdistinct i (hi.trans hk) k hk he
    omega
  induction hm : n - k generalizing k with
  | zero => omega
  | succ m ih =>
    have hrest : (List.range k).map σ ++ [σ k] = (List.range (k + 1)).map σ := by
      rw [List.range_succ, List.map_append]
      rfl
    rw [release, Option.bind_some, if_neg (hfresh hk), hrest]
    cases m with
    | zero =>
      rw [release, show n = k + 1 by omega]
    | succ m =>
      rw [hnext k (by omega)]
      exact ih (by omega) (by omega)

end Release

end LinkedRing
