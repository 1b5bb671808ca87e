import Mosito.Physical.ShuffleAdvance
import Mosito.Common.BlockCircleQueue
import Mosito.Lib.Fairness

/-! The sorting lower end of the shuffle with its columns. Its `put`s push into bounded columns,
which are popped from at any time. -/
namespace Mosito
open ByteStore Fairness

/-- `data` are the columns, `seconds` counts the refused attempts of the `put` that is going on. -/
structure ShuffleSender where
  lower : ShuffleLower
  data : ℕ → BlockCircleQueue
  seconds : ℕ

namespace ShuffleSender
open ShuffleLower

/-- `execute` goes on, or a block is popped from a column. -/
inductive Event where
  | execute
  | pop (i : ℕ)
  deriving DecidableEq

/-- What the `put` of the next step returns after its next attempt, `none` if it tries again;
without a `put` it does not matter. -/
def outcome (s : ShuffleSender) : Option Bool :=
  match s.lower.offered with
  | none => some false
  | some (i, img) =>
      if ((s.data i).push img).1 then some true
      else if s.seconds = 10 then some false
      else none

def execute (s : ShuffleSender) : ShuffleSender where
  lower := s.outcome.elim s.lower s.lower.advance
  data := s.lower.offered.elim s.data fun o =>
    Function.update s.data o.1 ((s.data o.1).push o.2).2
  seconds := s.outcome.elim (s.seconds + 1) fun _ => 0

def next (s : ShuffleSender) : Event → ShuffleSender
  | .execute => s.execute
  | .pop i => { s with data := Function.update s.data i (s.data i).pop.2 }

/-- `execute` enters its loop, and the columns are new. -/
def start (sort : List Tuple → List Tuple) (n t : ℕ) (junk : ℕ → Memory) (store : ℕ → ℕ → Block)
    (child : List Image) : ShuffleSender where
  lower := ShuffleLower.prelude sort n t junk child
  data i := BlockCircleQueue.make (store i) columnCon
  seconds := 0

/-- `execute` goes on again and again, and so do the pops from every column. -/
structure Fair (n : ℕ) (ev : ℕ → Event) : Prop where
  executes : Recurs fun k => ev k = .execute
  drains : ∀ i < n, Recurs fun k => ev k = .pop i

/-- In the flush, buffer `i` still holds tuples. -/
def Holds (s : ShuffleSender) (i : ℕ) : Prop :=
  s.lower.pc.stage = 1 ∧ (s.lower.buffers i).empty = false

/-- The flush calls `put` for buffer `i`, and its last attempt meets a full column. -/
def Refused (s : ShuffleSender) (i : ℕ) : Prop :=
  s.lower.pc = .flush i ∧ (s.lower.buffers i).empty = false ∧ s.seconds = 10 ∧
    (s.data i).contents.length = columnCon

section Step
variable {n t e : ℕ} {s : ShuffleSender} {i : ℕ}

/-- A pop leaves `execute` where it is, and so does a `put` that tries again. -/
theorem next_cases (s : ShuffleSender) (a : Event) :
    (a ≠ .execute ∧ (s.next a).lower = s.lower ∧ (s.next a).seconds = s.seconds) ∨
      (a = .execute ∧ s.outcome = none ∧ (s.next a).lower = s.lower ∧
        (s.next a).seconds = s.seconds + 1) ∨
      ∃ accepted, a = .execute ∧ s.outcome = some accepted ∧
        (s.next a).lower = s.lower.advance accepted ∧ (s.next a).seconds = 0 := by
  cases a with
  | pop i => exact Or.inl ⟨by simp, rfl, rfl⟩
  | execute =>
    cases ho : s.outcome with
    | none =>
      exact Or.inr (Or.inl ⟨rfl, rfl, by simp [next, execute, ho], by simp [next, execute, ho]⟩)
    | some accepted =>
      exact Or.inr (Or.inr ⟨accepted, rfl, rfl, by simp [next, execute, ho],
        by simp [next, execute, ho]⟩)

/-- `execute` is left where it is, or goes on. -/
theorem next_lower (s : ShuffleSender) (a : Event) : (s.next a).lower = s.lower ∨
    ∃ accepted, a = .execute ∧ s.outcome = some accepted ∧
      (s.next a).lower = s.lower.advance accepted := by
  rcases s.next_cases a with ⟨-, hl, -⟩ | ⟨-, -, hl, -⟩ | ⟨accepted, ha, ho, hl, -⟩
  · exact Or.inl hl
  · exact Or.inl hl
  · exact Or.inr ⟨accepted, ha, ho, hl⟩

theorem execute_lower {accepted : Bool} (h : s.outcome = some accepted) :
    (s.next .execute).lower = s.lower.advance accepted := by
  simp [next, execute, h]

theorem seconds_ne_of_outcome (h : s.outcome = none) : s.seconds ≠ 10 := by
  intro hten
  unfold outcome at h
  split at h
  · cases h
  · split_ifs at h

/-- The next step calls `put` for destination `i`. -/
def Offers (s : ShuffleSender) (i : ℕ) : Prop := ∃ img, s.lower.offered = some (i, img)

/-- A `put` into column `i` is accepted. -/
def Accepts (s : ShuffleSender) (a : Event) (i : ℕ) : Prop :=
  a = .execute ∧ s.Offers i ∧ s.outcome = some true

structure Inv (n t e : ℕ) (s : ShuffleSender) : Prop where
  phase : Phase n t e s.lower
  seconds : s.seconds ≤ 10
  capacity : ∀ i, (s.data i).queueCapacity = columnCon

theorem Inv.next (h : Inv n t e s) (a : Event) : Inv n t e (s.next a) := by
  refine ⟨?_, ?_, fun i => ?_⟩
  · rcases s.next_lower a with hl | ⟨accepted, -, -, hl⟩
    · exact hl ▸ h.phase
    · exact hl ▸ h.phase.advance
  · have hle := h.seconds
    rcases s.next_cases a with ⟨-, -, hs⟩ | ⟨-, ho, -, hs⟩ | ⟨accepted, -, -, -, hs⟩
    · omega
    · have hne := seconds_ne_of_outcome ho
      omega
    · omega
  · cases a with
    | pop j =>
      rcases eq_or_ne i j with rfl | hne
      · simpa [ShuffleSender.next, (s.data i).pop_eq.2.1] using h.capacity i
      · simpa [ShuffleSender.next, hne] using h.capacity i
    | execute =>
      change ((s.lower.offered.elim s.data _ : ℕ → BlockCircleQueue) i).queueCapacity = _
      cases s.lower.offered with
      | none => exact h.capacity i
      | some o =>
        rcases eq_or_ne i o.1 with rfl | hne
        · simpa [((s.data o.1).push_eq o.2).2.1] using h.capacity o.1
        · simpa [hne] using h.capacity i

theorem Inv.length_le (h : Inv n t e s) (i : ℕ) : (s.data i).contents.length ≤ columnCon := by
  have hlen := (s.data i).emptys_length
  rw [h.capacity] at hlen
  omega

theorem Inv.stage_next (h : Inv n t e s) (a : Event) :
    s.lower.pc.stage ≤ (s.next a).lower.pc.stage := by
  rcases s.next_lower a with hl | ⟨accepted, -, -, hl⟩
  · rw [hl]
  · rw [hl]
    exact h.phase.advance_stage accepted

theorem oks_next (h : s.lower.oks i = true) (a : Event) : (s.next a).lower.oks i = true := by
  rcases s.next_lower a with hl | ⟨accepted, -, -, hl⟩
  · rwa [hl]
  · rw [hl]
    exact advance_oks_mono h

/-- A column with room accepts. -/
theorem Inv.outcome_of_room (h : Inv n t e s) (ho : s.Offers i)
    (hroom : (s.data i).contents.length < columnCon) : s.outcome = some true := by
  obtain ⟨img, himg⟩ := ho
  have hpush := ((s.data i).push_eq img).1.mpr (by rwa [h.capacity])
  simp [outcome, himg, hpush]

/-- Only an accepted `put` makes a column longer. -/
theorem length_next_le {a : Event} (h : ¬s.Accepts a i) :
    ((s.next a).data i).contents.length ≤ (s.data i).contents.length := by
  cases a with
  | pop j =>
    rcases eq_or_ne i j with rfl | hne
    · simp [next, (s.data i).pop_eq.2.2]
    · simp [next, hne]
  | execute =>
    change (((s.lower.offered.elim s.data _ : ℕ → BlockCircleQueue) i).contents).length ≤ _
    cases ho : s.lower.offered with
    | none => exact le_rfl
    | some o =>
      rcases eq_or_ne i o.1 with rfl | hne
      · have hrefused : ((s.data o.1).push o.2).1 = false := by
          by_contra htrue
          refine h ⟨rfl, ⟨o.2, ho⟩, ?_⟩
          simp [outcome, ho, Bool.eq_true_of_not_eq_false htrue]
        simp [((s.data o.1).push_eq o.2).2.2, hrefused]
      · simp [hne]

theorem length_execute_le (s : ShuffleSender) (i : ℕ) :
    ((s.next .execute).data i).contents.length ≤ (s.data i).contents.length + 1 := by
  change (((s.lower.offered.elim s.data _ : ℕ → BlockCircleQueue) i).contents).length ≤ _
  cases s.lower.offered with
  | none => exact Nat.le_succ _
  | some o =>
    rcases eq_or_ne i o.1 with rfl | hne
    · simp only [Option.elim_some, Function.update_self, ((s.data o.1).push_eq o.2).2.2]
      split_ifs <;> simp
    · simp [hne]

theorem Inv.length_pop (h : Inv n t e s) (i : ℕ) :
    ((s.next (.pop i)).data i).contents.length < columnCon := by
  have hle := h.length_le i
  have hpos : 0 < columnCon := by decide
  simp only [ShuffleSender.next, Function.update_self, (s.data i).pop_eq.2.2, List.length_tail]
  omega

end Step

end ShuffleSender
end Mosito
