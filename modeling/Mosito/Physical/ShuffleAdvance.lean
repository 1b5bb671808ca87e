import Mosito.Physical.OrderedShuffle

/-! How the sorting lower end of the shuffle goes on: its stages, the ranges that are used up, and
the buffers that are done with. -/
namespace Mosito
open KWayMerge

namespace ShufflePc

/-- Gather and send, then the flush, then the empty blocks. -/
@[simp] def stage : ShufflePc → ℕ
  | gather | send _ => 0
  | check | flush _ => 1
  | close _ | returned => 2

/-- The place in a round of the first two stages. -/
@[simp] def position : ShufflePc → ℕ
  | send i | flush i => i + 1
  | _ => 0

variable {pc : ShufflePc} {i : ℕ}

theorem eq_gather (hstage : pc.stage = 0) (hpos : pc.position = 0) : pc = gather := by
  cases pc <;> simp_all

theorem eq_send (hstage : pc.stage = 0) (hpos : pc.position = i + 1) : pc = send i := by
  cases pc <;> simp_all

theorem eq_check (hstage : pc.stage = 1) (hpos : pc.position = 0) : pc = check := by
  cases pc <;> simp_all

theorem eq_flush (hstage : pc.stage = 1) (hpos : pc.position = i + 1) : pc = flush i := by
  cases pc <;> simp_all

end ShufflePc

namespace ShuffleLower

/-- After the return nothing happens any more. -/
def advance (s : ShuffleLower) (accepted : Bool) : ShuffleLower := (s.step accepted).getD s

/-- The destination and the block of the `put` that the next step calls. -/
def offered (s : ShuffleLower) : Option (ℕ × Image) :=
  match s.pc with
  | .send i | .flush i =>
      if s.n ≤ i ∨ (s.buffers i).empty = true then none
      else some (i, ((s.assemble i).buffers i).image)
  | .close i => if s.n ≤ i then none else some (i, ((s.buffers i).build blockSize 0).image)
  | _ => none

section Advance
variable {n t e : ℕ} {s : ShuffleLower} {accepted : Bool} {i k : ℕ}

/-- What the gather phase for destination `i` makes of a buffer and a range. -/
def refill (b : Block) (rest : List Tuple) : Block × List Tuple :=
  if b.empty = true ∧ rest ≠ [] then ((b.fill rest).1, rest.drop (b.fill rest).2) else (b, rest)

theorem gather_lane (s : ShuffleLower) (k i : ℕ) :
    ((s.gather k).buffers i, (s.gather k).newRanges i) =
      if i < k then refill (s.buffers i) (s.newRanges i) else (s.buffers i, s.newRanges i) := by
  obtain ⟨hbuf, hrange⟩ := gather_at s k i
  rw [hbuf, hrange]
  unfold refill
  by_cases hik : i < k
  · simp only [hik, true_and, if_true]
    split_ifs <;> rfl
  · simp only [hik, false_and, if_false]

/-- A refill takes from the range if the buffer is empty, and else changes nothing. -/
theorem refill_spec {b : Block} {rest : List Tuple} (hroom : b.tupleSize ≤ b.size) :
    (refill b rest).2.length ≤ rest.length ∧
      (b.empty = true → rest ≠ [] → (refill b rest).2.length < rest.length) ∧
      (b.empty = false → refill b rest = (b, rest)) := by
  unfold refill
  split_ifs with h
  · have hpos : 0 < (b.fill rest).2 := by
      obtain ⟨x, xs, rfl⟩ := List.exists_cons_of_ne_nil h.2
      have hfree : b.free = 0 := by simpa [Block.empty] using h.1
      have halloc : b.allocateTuple = some b.free := by
        rw [Block.allocateTuple, if_pos (by omega)]
      rw [Block.fill_of_some halloc]
      exact Nat.succ_pos _
    have hlen := List.length_pos_iff.mpr h.2
    rw [List.length_drop]
    refine ⟨by omega, fun _ _ => by omega, fun hne => ?_⟩
    simp [h.1] at hne
  · refine ⟨le_rfl, fun he hr => absurd ⟨he, hr⟩ h, fun _ => rfl⟩

/-- What a range is used up by has tuples. -/
theorem refill_full {b : Block} {rest : List Tuple} (ht : 0 < b.tupleSize) (hne : rest ≠ [])
    (hnil : (refill b rest).2 = []) : (refill b rest).1.empty = false := by
  unfold refill at hnil ⊢
  split_ifs at hnil ⊢ with hfill
  · have hlen := List.length_pos_iff.mpr hne
    have htaken : 0 < (b.fill rest).2 := hlen.trans_le (List.drop_eq_nil_iff.mp hnil)
    have hfree : 0 < (b.fill rest).1.free := by
      rw [Block.fill_free]
      exact Nat.add_pos_right _ (Nat.mul_pos htaken ht)
    exact decide_eq_false hfree.ne'
  · exact absurd hnil hne

/-- How many ranges are used up; `e` of them were empty from the start. -/
structure Counted (n t e : ℕ) (s : ShuffleLower) : Prop where
  n_eq : s.n = n
  size : ∀ i, (s.buffers i).size = blockSize ∧ (s.buffers i).tupleSize = t
  emptied : s.emptys + e = exhausted n s.newRanges
  one : s.oneEmpty = true ↔ s.emptys = n

theorem Counted.gatherOne (h : Counted n t e s) (hi : i < n) : Counted n t e (s.gatherOne i) := by
  unfold ShuffleLower.gatherOne
  split_ifs with hfill
  swap
  · exact h
  have hcard := exhausted_update hi hfill.2
    ((s.newRanges i).drop ((s.buffers i).fill (s.newRanges i)).2)
  have hlt : s.emptys < n := by
    have hle := exhausted_le n s.newRanges
    rw [← h.emptied] at hle
    refine lt_of_le_of_ne (by omega) fun heq => hfill.2 ?_
    have hall : exhausted n s.newRanges = n := by
      have := h.emptied
      omega
    exact total_eq_nil_iff.mp (exhausted_eq_iff.mp hall) i hi
  have hone : s.oneEmpty = false := by
    rw [← Bool.not_eq_true, h.one]
    exact hlt.ne
  refine ⟨h.n_eq, fun j => ?_, ?_, ?_⟩
  · rcases eq_or_ne j i with rfl | hne
    · simpa using h.size j
    · simpa [hne] using h.size j
  · dsimp only
    rw [hcard, ← h.emptied]
    split_ifs <;> omega
  · simp only [hone, Bool.false_or, Bool.and_eq_true, decide_eq_true_eq, h.n_eq]
    split_ifs with hrest
    · simp [hrest]
    · simp [hrest, hlt.ne]

theorem Counted.gather (h : Counted n t e s) (hk : k ≤ n) : Counted n t e (s.gather k) := by
  induction k with
  | zero => exact h
  | succ k ih => exact (ih (by omega)).gatherOne hk

theorem advance_gather (hpc : s.pc = .gather) (accepted : Bool) : s.advance accepted =
    (s.gather s.n).goto (if (s.gather s.n).oneEmpty then .check else .send 0) := by
  simp [advance, step, hpc]

theorem advance_check (hpc : s.pc = .check) (accepted : Bool) : s.advance accepted =
    s.goto (if 0 < s.n ∧ ∀ i < s.n, s.oks i = true then .close 0 else .flush 0) := by
  simp only [advance, step, hpc]
  split_ifs <;> rfl

/-- A send empties the buffer whose block is accepted. -/
theorem advance_send (hpc : s.pc = .send k) (accepted : Bool) :
    (s.advance accepted).pc = (if s.n ≤ k then .gather else .send (k + 1)) ∧
      (s.advance accepted).newRanges = s.newRanges ∧ (s.advance accepted).oks = s.oks ∧
      ∀ i, ((s.advance accepted).buffers i).empty =
        ((s.buffers i).empty || (decide (i = k ∧ k < s.n) && accepted)) := by
  simp only [advance, step, hpc]
  split_ifs with hk hempty hacc
  · exact ⟨rfl, rfl, rfl, fun i => by simp [goto, Nat.not_lt.mpr hk]⟩
  · refine ⟨rfl, rfl, rfl, fun i => ?_⟩
    rcases eq_or_ne i k with rfl | hne
    · simp [goto, hempty]
    · simp [goto, hne]
  · refine ⟨rfl, rfl, rfl, fun i => ?_⟩
    rcases eq_or_ne i k with rfl | hne
    · simp [goto, setBuffer, assemble, enqueue, Nat.lt_of_not_le hk, hacc, Block.empty, Block.reset]
    · simp [goto, setBuffer, assemble, enqueue, hne]
  · refine ⟨rfl, rfl, rfl, fun i => ?_⟩
    rcases eq_or_ne i k with rfl | hne
    · simp [goto, setBuffer, assemble, hacc, Block.empty, Block.assembling]
    · simp [goto, setBuffer, assemble, hne]

/-- A flush empties the buffer whose block is refused, and is done with an empty one. -/
theorem advance_flush (hpc : s.pc = .flush k) (accepted : Bool) :
    (s.advance accepted).pc = (if s.n ≤ k then .check else .flush (k + 1)) ∧
      (s.advance accepted).newRanges = s.newRanges ∧
      (∀ i, (s.advance accepted).oks i =
        (s.oks i || (decide (i = k ∧ k < s.n) && ((s.buffers i).empty || !accepted)))) ∧
      ∀ i, ((s.advance accepted).buffers i).empty =
        ((s.buffers i).empty || (decide (i = k ∧ k < s.n) && !accepted)) := by
  simp only [advance, step, hpc]
  split_ifs with hk hempty hacc
  · exact ⟨rfl, rfl, fun i => by simp [goto, Nat.not_lt.mpr hk],
      fun i => by simp [goto, Nat.not_lt.mpr hk]⟩
  · refine ⟨rfl, rfl, fun i => ?_, fun i => ?_⟩ <;> rcases eq_or_ne i k with rfl | hne
    · simp [goto, setOk, hempty, Nat.lt_of_not_le hk]
    · simp [goto, setOk, hne]
    · simp [goto, setOk, hempty]
    · simp [goto, setOk, hne]
  · refine ⟨rfl, rfl, fun i => ?_, fun i => ?_⟩ <;> rcases eq_or_ne i k with rfl | hne
    · simp [goto, setBuffer, assemble, enqueue, hacc, hempty]
    · simp [goto, setBuffer, assemble, enqueue, hne]
    · simp [goto, setBuffer, assemble, enqueue, hacc, Block.empty, Block.assembling]
    · simp [goto, setBuffer, assemble, enqueue, hne]
  · refine ⟨rfl, rfl, fun i => ?_, fun i => ?_⟩ <;> rcases eq_or_ne i k with rfl | hne
    · simp [goto, setBuffer, setOk, assemble, hacc, Nat.lt_of_not_le hk]
    · simp [goto, setBuffer, setOk, assemble, hne]
    · simp [goto, setBuffer, setOk, assemble, hacc, Nat.lt_of_not_le hk, Block.empty, Block.reset]
    · simp [goto, setBuffer, setOk, assemble, hne]

/-- The empty block of a destination is put until it is accepted. -/
theorem advance_close (hpc : s.pc = .close k) (accepted : Bool) :
    (s.advance accepted).pc = (if s.n ≤ k then .returned
      else if accepted then .close (k + 1) else .close k) ∧
      (s.advance accepted).newRanges = s.newRanges ∧ (s.advance accepted).oks = s.oks ∧
      ∀ i, ((s.advance accepted).buffers i).empty = (s.buffers i).empty := by
  simp only [advance, step, hpc]
  split_ifs with hk hacc
  · exact ⟨rfl, rfl, rfl, fun i => rfl⟩
  · refine ⟨rfl, rfl, rfl, fun i => ?_⟩
    rcases eq_or_ne i k with rfl | hne
    · simp [goto, setBuffer, enqueue, empty_build]
    · simp [goto, setBuffer, enqueue, hne]
  · refine ⟨by simp [setBuffer, hpc], rfl, rfl, fun i => ?_⟩
    rcases eq_or_ne i k with rfl | hne
    · simp [setBuffer, empty_build]
    · simp [setBuffer, hne]

theorem advance_returned (hpc : s.pc = .returned) (accepted : Bool) : s.advance accepted = s := by
  simp [advance, step, hpc]

theorem Counted.move {s' : ShuffleLower} (h : Counted n t e s) (hn : s'.n = s.n)
    (hempty : s'.emptys = s.emptys) (hone : s'.oneEmpty = s.oneEmpty)
    (hranges : s'.newRanges = s.newRanges)
    (hsize : ∀ i, (s'.buffers i).size = blockSize ∧ (s'.buffers i).tupleSize = t) :
    Counted n t e s' := by
  refine ⟨hn.trans h.n_eq, hsize, ?_, ?_⟩
  · rw [hempty, hranges, h.emptied]
  · rw [hone, hempty, h.one]

theorem Counted.size_setBuffer (h : Counted n t e s) {b : Block}
    (hb : b.size = blockSize ∧ b.tupleSize = t) (j : ℕ) :
    ((s.setBuffer i b).buffers j).size = blockSize ∧
      ((s.setBuffer i b).buffers j).tupleSize = t := by
  rcases eq_or_ne j i with rfl | hne
  · simpa [setBuffer] using hb
  · simpa [setBuffer, hne] using h.size j

theorem Counted.setBuffer (h : Counted n t e s) {b : Block}
    (hb : b.size = blockSize ∧ b.tupleSize = t) : Counted n t e (s.setBuffer i b) :=
  h.move rfl rfl rfl rfl (h.size_setBuffer hb)

theorem Counted.advance (h : Counted n t e s) : Counted n t e (s.advance accepted) := by
  have hasm (k : ℕ) : Counted n t e (s.assemble k) := h.setBuffer ⟨rfl, (h.size k).2⟩
  have hreset (k : ℕ) :
      Counted n t e ((s.assemble k).setBuffer k ((s.assemble k).buffers k).reset) :=
    (hasm k).setBuffer ((hasm k).size k)
  cases hpc : s.pc with
  | gather =>
    rw [advance_gather hpc, h.n_eq]
    exact (h.gather le_rfl).move rfl rfl rfl rfl (h.gather le_rfl).size
  | send k =>
    simp only [ShuffleLower.advance, step, hpc]
    split_ifs
    · exact h.move rfl rfl rfl rfl h.size
    · exact h.move rfl rfl rfl rfl h.size
    · exact (hreset k).move rfl rfl rfl rfl (hreset k).size
    · exact (hasm k).move rfl rfl rfl rfl (hasm k).size
  | check =>
    rw [advance_check hpc]
    exact h.move rfl rfl rfl rfl h.size
  | flush k =>
    simp only [ShuffleLower.advance, step, hpc]
    split_ifs
    · exact h.move rfl rfl rfl rfl h.size
    · exact h.move rfl rfl rfl rfl h.size
    · exact (hasm k).move rfl rfl rfl rfl (hasm k).size
    · exact (hreset k).move rfl rfl rfl rfl (hreset k).size
  | close k =>
    have hbuild := h.setBuffer (i := k) (b := (s.buffers k).build blockSize 0) (h.size k)
    simp only [ShuffleLower.advance, step, hpc]
    split_ifs
    · exact h.move rfl rfl rfl rfl h.size
    · exact hbuild.move rfl rfl rfl rfl hbuild.size
    · exact hbuild
  | returned => rwa [advance_returned hpc]

/-- Where `execute` is, and which buffers are done with. -/
structure Phase (n t e : ℕ) (s : ShuffleLower) : Prop extends Counted n t e s where
  flushing : s.oneEmpty = true ↔ 1 ≤ s.pc.stage
  bound : s.pc.position ≤ n + 1
  closed : ∀ i, s.pc = .close i → i ≤ n
  oks : ∀ i, s.oks i = true → 1 ≤ s.pc.stage ∧ (s.buffers i).empty = true

/-- A round goes on with the next place, or the next stage begins. -/
theorem Phase.advance_position (h : Phase n t e s) (hstage : s.pc.stage ≤ 1) (accepted : Bool) :
    s.pc.stage < (s.advance accepted).pc.stage ∨
      (s.advance accepted).pc.stage = s.pc.stage ∧ (s.advance accepted).pc.position =
        if s.pc.position = n + 1 then 0 else s.pc.position + 1 := by
  have hbound := h.bound
  cases hpc : s.pc with
  | gather =>
    rw [advance_gather hpc, goto]
    split_ifs <;> simp_all
  | send k =>
    rw [(advance_send hpc _).1, h.n_eq]
    rw [hpc, ShufflePc.position] at hbound
    right
    split_ifs <;> simp_all
    omega
  | check =>
    rw [advance_check hpc, goto]
    split_ifs <;> simp_all
  | flush k =>
    rw [(advance_flush hpc _).1, h.n_eq]
    rw [hpc, ShufflePc.position] at hbound
    right
    split_ifs <;> simp_all
    omega
  | close k => simp [hpc] at hstage
  | returned => simp [hpc] at hstage

theorem Phase.advance_stage (h : Phase n t e s) (accepted : Bool) :
    s.pc.stage ≤ (s.advance accepted).pc.stage := by
  cases hpc : s.pc with
  | close k =>
    rw [(advance_close hpc accepted).1]
    split_ifs <;> simp
  | returned => rw [advance_returned hpc, hpc]
  | _ =>
    rw [← hpc]
    rcases h.advance_position (by simp [hpc]) accepted with hlt | heq
    · exact hlt.le
    · exact heq.1.ge

theorem advance_oneEmpty (hpc : s.pc ≠ .gather) : (s.advance accepted).oneEmpty = s.oneEmpty := by
  unfold advance step
  split
  case h_1 heq => exact absurd heq hpc
  case h_6 => rfl
  all_goals split_ifs <;> rfl

theorem Phase.advance_flushing (h : Phase n t e s) :
    (s.advance accepted).oneEmpty = true ↔ 1 ≤ (s.advance accepted).pc.stage := by
  by_cases hgather : s.pc = .gather
  · rw [advance_gather hgather]
    change (s.gather s.n).oneEmpty = true ↔ 1 ≤ (ite _ _ _ : ShufflePc).stage
    split_ifs with hdone <;> simp [hdone]
  rw [advance_oneEmpty hgather, h.flushing]
  cases hpc : s.pc with
  | gather => exact absurd hpc hgather
  | send k =>
    rw [(advance_send hpc accepted).1]
    split_ifs <;> simp
  | check =>
    rw [advance_check hpc, goto]
    split_ifs <;> simp
  | flush k =>
    rw [(advance_flush hpc accepted).1]
    split_ifs <;> simp
  | close k =>
    rw [(advance_close hpc accepted).1]
    split_ifs <;> simp
  | returned => rw [advance_returned hpc, hpc]

theorem Phase.advance_bound (h : Phase n t e s) : (s.advance accepted).pc.position ≤ n + 1 := by
  have hbound := h.bound
  cases hpc : s.pc with
  | gather =>
    rw [advance_gather hpc, goto]
    split_ifs <;> simp
  | send k =>
    rw [(advance_send hpc accepted).1, h.n_eq]
    rw [hpc, ShufflePc.position] at hbound
    split_ifs <;> simp
    omega
  | check =>
    rw [advance_check hpc, goto]
    split_ifs <;> simp
  | flush k =>
    rw [(advance_flush hpc accepted).1, h.n_eq]
    rw [hpc, ShufflePc.position] at hbound
    split_ifs <;> simp
    omega
  | close k =>
    rw [(advance_close hpc accepted).1]
    split_ifs <;> simp
  | returned => rwa [advance_returned hpc]

theorem Phase.advance_closed (h : Phase n t e s) (hi : (s.advance accepted).pc = .close i) :
    i ≤ n := by
  cases hpc : s.pc with
  | gather =>
    rw [advance_gather hpc, goto] at hi
    split_ifs at hi
  | send k =>
    rw [(advance_send hpc accepted).1] at hi
    split_ifs at hi
  | check =>
    rw [advance_check hpc, goto] at hi
    split_ifs at hi
    cases hi
    exact Nat.zero_le n
  | flush k =>
    rw [(advance_flush hpc accepted).1] at hi
    split_ifs at hi
  | close k =>
    have hk : k ≤ n := h.closed k hpc
    rw [(advance_close hpc accepted).1, h.n_eq] at hi
    split_ifs at hi <;> cases hi <;> omega
  | returned =>
    rw [advance_returned hpc, hpc] at hi
    cases hi

/-- A destination is done with only from the flush on, and then its buffer is empty. -/
theorem Phase.advance_oks (h : Phase n t e s) (hi : (s.advance accepted).oks i = true) :
    1 ≤ (s.advance accepted).pc.stage ∧ ((s.advance accepted).buffers i).empty = true := by
  have hmono := h.advance_stage accepted
  cases hpc : s.pc with
  | gather =>
    rw [advance_gather hpc] at hi
    change (s.gather s.n).oks i = true at hi
    rw [gather_oks] at hi
    have hstage := (h.oks i hi).1
    simp [hpc] at hstage
  | send k =>
    rw [(advance_send hpc accepted).2.2.1] at hi
    have hstage := (h.oks i hi).1
    simp [hpc] at hstage
  | check =>
    rw [advance_check hpc] at hi hmono ⊢
    have hok := h.oks i hi
    exact ⟨hok.1.trans hmono, hok.2⟩
  | flush k =>
    obtain ⟨-, -, hoks, hempty⟩ := advance_flush hpc accepted
    rw [hpc, ShufflePc.stage] at hmono
    refine ⟨hmono, ?_⟩
    rw [hoks, Bool.or_eq_true] at hi
    rw [hempty]
    rcases hi with hi | hi
    · simp [(h.oks i hi).2]
    · rw [Bool.and_eq_true, Bool.or_eq_true] at hi
      rcases hi.2 with hi' | hi' <;> simp_all
  | close k =>
    obtain ⟨-, -, hoks, hempty⟩ := advance_close hpc accepted
    have hok := h.oks i (hoks ▸ hi)
    exact ⟨hok.1.trans hmono, (hempty i).trans hok.2⟩
  | returned =>
    rw [advance_returned hpc] at hi ⊢
    exact h.oks i hi

theorem Phase.advance (h : Phase n t e s) : Phase n t e (s.advance accepted) :=
  ⟨h.toCounted.advance, h.advance_flushing, h.advance_bound, fun _ => h.advance_closed,
    fun _ => h.advance_oks⟩

/-- Before the flush a range only shrinks, and the gather takes from it if its buffer is empty. -/
theorem Phase.advance_range (h : Phase n t e s) (hstage : s.pc.stage = 0) (hroom : t ≤ blockSize)
    (hi : i < n) (accepted : Bool) :
    ((s.advance accepted).newRanges i).length ≤ (s.newRanges i).length ∧
      ((s.buffers i).empty = true → s.newRanges i ≠ [] →
        ((s.advance accepted).newRanges i).length < (s.newRanges i).length ∨
          s.pc ≠ .gather ∧ ((s.advance accepted).buffers i).empty = true) := by
  cases hpc : s.pc with
  | gather =>
    have hlane := gather_lane s s.n i
    rw [h.n_eq, if_pos hi, Prod.ext_iff] at hlane
    have hfits : (s.buffers i).tupleSize ≤ (s.buffers i).size := by
      rw [(h.size i).1, (h.size i).2]
      exact hroom
    have hspec : (refill (s.buffers i) (s.newRanges i)).2.length ≤ (s.newRanges i).length ∧ _ :=
      refill_spec hfits
    have hrange : (s.advance accepted).newRanges i = (refill (s.buffers i) (s.newRanges i)).2 := by
      rw [advance_gather hpc, h.n_eq]
      exact hlane.2
    rw [hrange]
    exact ⟨hspec.1, fun hempty hne => Or.inl (hspec.2.1 hempty hne)⟩
  | send k =>
    obtain ⟨-, hranges, -, hempty⟩ := advance_send hpc accepted
    rw [hranges]
    refine ⟨le_rfl, fun he _ => Or.inr ⟨by simp, ?_⟩⟩
    simp [hempty, he]
  | check => simp [hpc] at hstage
  | flush k => simp [hpc] at hstage
  | close k => simp [hpc] at hstage
  | returned => simp [hpc] at hstage

/-- The gather that uses up the last range leaves a buffer with tuples. -/
theorem Phase.exists_full (h : Phase n t e s) (ht : 0 < t) (hpc : s.pc = .gather)
    (hflush : 0 < (s.advance accepted).pc.stage) :
    (s.advance accepted).pc.stage = 1 ∧
      ∃ i < n, ((s.advance accepted).buffers i).empty = false := by
  have hcounted := h.toCounted.gather le_rfl
  have hone : (s.gather n).oneEmpty = true := by
    by_contra hone
    simp [advance_gather hpc, h.n_eq, hone, goto] at hflush
  have hnot : s.emptys ≠ n := fun heq => by
    have hstage := h.flushing.mp (h.one.mpr heq)
    simp [hpc] at hstage
  have hle := exhausted_le n (s.gather n).newRanges
  have hsum := hcounted.emptied
  rw [hcounted.one.mp hone] at hsum
  have hall : ∀ i < n, (s.gather n).newRanges i = [] :=
    total_eq_nil_iff.mp (exhausted_eq_iff.mp (by omega))
  obtain ⟨i, hi, hne⟩ : ∃ i < n, s.newRanges i ≠ [] := by
    by_contra! hnil
    have hempty := h.emptied
    rw [exhausted_eq_iff.mpr (total_eq_nil_iff.mpr hnil)] at hempty
    omega
  have hlane := gather_lane s n i
  rw [if_pos hi, hall i hi] at hlane
  have hbuffer : (s.gather n).buffers i = (refill (s.buffers i) (s.newRanges i)).1 :=
    congrArg Prod.fst hlane
  refine ⟨by simp [advance_gather hpc, h.n_eq, hone, goto], i, hi, ?_⟩
  rw [advance_gather hpc, h.n_eq]
  change ((s.gather n).buffers i).empty = false
  rw [hbuffer]
  exact refill_full (by rwa [(h.size i).2]) hne (congrArg Prod.snd hlane).symm

theorem advance_oks_mono (h : s.oks i = true) : (s.advance accepted).oks i = true := by
  cases hpc : s.pc with
  | gather =>
    rw [advance_gather hpc]
    change (s.gather s.n).oks i = true
    rwa [gather_oks]
  | send k => rwa [(advance_send hpc accepted).2.2.1]
  | check => rwa [advance_check hpc]
  | flush k => simp [(advance_flush hpc accepted).2.2.1, h]
  | close k => rwa [(advance_close hpc accepted).2.2.1]
  | returned => rwa [advance_returned hpc]

end Advance
end ShuffleLower

end Mosito
