import Mathlib.Data.Nat.Find
import Mathlib.Order.Lattice
import Mathlib.Tactic.Common

/-! Runs without end of a system that takes one event after the other, and what they reach if some
events come again and again. -/
namespace Fairness
variable {σ ε : Type*}

/-- The states of the run with the events `ev`. -/
def trace (next : σ → ε → σ) (s : σ) (ev : ℕ → ε) : ℕ → σ
  | 0 => s
  | k + 1 => next (trace next s ev k) (ev k)

/-- At every time `p` holds later on. -/
def Recurs (p : ℕ → Prop) : Prop := ∀ k, ∃ m ≥ k, p m

section Trace
variable {next : σ → ε → σ} {s : σ} {ev : ℕ → ε} {p : ε → Prop} {P Q : σ → Prop} {k : ℕ}

/-- What every step keeps holds from then on. -/
theorem keeps (hstep : ∀ s e, P s → P (next s e)) (hk : P (trace next s ev k)) {m : ℕ}
    (hm : k ≤ m) : P (trace next s ev m) := by
  induction m, hm using Nat.le_induction with
  | base => exact hk
  | succ m _ ih => exact hstep _ _ ih

/-- A property that only the steps to `Q` end is kept until `Q`. -/
theorem keeps_unless (hstep : ∀ s e, P s → Q (next s e) ∨ P (next s e))
    (hk : P (trace next s ev k)) (hq : ∀ m ≥ k, ¬Q (trace next s ev m)) {m : ℕ} (hm : k ≤ m) :
    P (trace next s ev m) := by
  induction m, hm using Nat.le_induction with
  | base => exact hk
  | succ m hm ih => exact (hstep _ _ ih).resolve_left (hq (m + 1) (by omega))

/-- `Q` is reached, or what only the steps to `Q` end holds for ever. -/
theorem reaches_or_keeps (hstep : ∀ s e, P s → Q (next s e) ∨ P (next s e))
    (hk : P (trace next s ev k)) :
    (∃ m ≥ k, Q (trace next s ev m)) ∨ ∀ m ≥ k, P (trace next s ev m) := by
  by_cases hreach : ∃ m ≥ k, Q (trace next s ev m)
  · exact Or.inl hreach
  · exact Or.inr fun m hm => keeps_unless hstep hk (fun j hj hq => hreach ⟨j, hj, hq⟩) hm

/-- The next event `p` finds what the other events keep. -/
theorem exists_next (hfair : Recurs fun m => p (ev m)) (hkeep : ∀ s e, ¬p e → P s → P (next s e))
    (hk : P (trace next s ev k)) : ∃ m ≥ k, p (ev m) ∧ P (trace next s ev m) := by
  classical
  have hex := hfair k
  obtain ⟨hge, hp⟩ := Nat.find_spec hex
  have hbefore : ∀ m ≥ k, m ≤ Nat.find hex → P (trace next s ev m) := by
    intro m hm
    induction m, hm using Nat.le_induction with
    | base => exact fun _ => hk
    | succ m hm ih =>
      intro hlt
      exact hkeep _ _ (fun he => Nat.find_min hex hlt ⟨hm, he⟩) (ih (by omega))
  exact ⟨Nat.find hex, hge, hp, hbefore _ hge le_rfl⟩

/-- A rank that no step raises and the events `p` lower runs out. -/
theorem leadsTo_of_rank (rank : σ → ℕ) (hfair : Recurs fun m => p (ev m))
    (hstep : ∀ s e, P s → Q (next s e) ∨ P (next s e) ∧ rank (next s e) ≤ rank s ∧
      (p e → rank (next s e) < rank s))
    (hk : P (trace next s ev k)) : ∃ m ≥ k, Q (trace next s ev m) := by
  induction hr : rank (trace next s ev k) using Nat.strong_induction_on generalizing k with
  | h r ih =>
    by_contra! hnever
    have hkept : ∀ m ≥ k, P (trace next s ev m) ∧ rank (trace next s ev m) ≤ r := by
      intro m hm
      refine keeps_unless (P := fun s => P s ∧ rank s ≤ r) (fun s e h => ?_) ⟨hk, hr.le⟩ hnever hm
      exact (hstep s e h.1).imp_right fun h' => ⟨h'.1, h'.2.1.trans h.2⟩
    obtain ⟨m, hm, hp⟩ := hfair k
    obtain ⟨hP, hle⟩ := hkept m hm
    have hnext : P (trace next s ev (m + 1)) ∧
        rank (trace next s ev (m + 1)) ≤ rank (trace next s ev m) ∧
        (p (ev m) → rank (trace next s ev (m + 1)) < rank (trace next s ev m)) :=
      (hstep _ (ev m) hP).resolve_left (hnever (m + 1) (by omega))
    obtain ⟨m', hm', hQ⟩ := ih _ ((hnext.2.2 hp).trans_le hle) hnext.1 rfl
    exact hnever m' (by omega) hQ

end Trace
end Fairness
