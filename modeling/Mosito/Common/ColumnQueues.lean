import Mosito.Common.BlockCircleQueue
import Mosito.Lib.Runs

/-! The columns of a producer-consumer buffer under concurrent calls of `put` and `get`. An attempt
to push or pop is one step; the threads take their steps in any order, and a caller's block can be
overwritten between any two of them. -/
namespace Mosito
open Runs

namespace BlockCircleQueue

/-- A refused push leaves the queue as it is. -/
theorem push_refused {q : BlockCircleQueue} {img : Image} (h : (q.push img).1 = false) :
    (q.push img).2 = q := by
  unfold push at h ⊢
  split
  · rfl
  · next bk emptys he =>
    split at h
    · next hnil => simp [hnil] at he
    · cases h

/-- So does a pop from an empty one. -/
theorem pop_refused {q : BlockCircleQueue} (h : q.pop.1 = none) : q.pop.2 = q := by
  unfold pop at h ⊢
  split
  · rfl
  · next bk blocks he =>
    split at h
    · next hnil => simp [hnil] at he
    · cases h

end BlockCircleQueue

/-- `put(block, column)` or `get(block, column)`. -/
structure ColumnCall (B : Type) where
  put : Bool
  block : B
  column : ℕ

/-- Where a thread is: outside, in a call after `seconds` refused attempts, or back from it. -/
inductive ColumnStatus (B : Type) where
  | idle
  | running (c : ColumnCall B) (seconds : ℕ)
  | returned (c : ColumnCall B) (ok : Bool)

/-- `data` are the columns and `blocks` the callers' blocks. The histories are what was pushed into
each column, what the blocks of the successful calls of `get` hold, and the outcomes of the
attempts of each thread's last call. -/
structure ColumnQueues (T B : Type) where
  data : ℕ → BlockCircleQueue
  blocks : B → Block
  status : T → ColumnStatus B
  pushed : ℕ → List Image
  got : ℕ → List Image
  attempts : T → List Bool

namespace ColumnQueues
variable {T B : Type} [DecidableEq T] [DecidableEq B]

/-- A thread calls, a thread in a call makes an attempt, or a caller's block is overwritten. -/
inductive Event (T B : Type) where
  | call (t : T) (c : ColumnCall B)
  | attempt (t : T)
  | write (b : B) (content : Block)

/-- The result of an attempt. -/
def conclude (s : ColumnQueues T B) (t : T) (c : ColumnCall B) (seconds : ℕ) (ok : Bool) :
    ColumnQueues T B :=
  { s with
    status := Function.update s.status t
      (if ok then .returned c true else if seconds = 10 then .returned c false
        else .running c (seconds + 1))
    attempts := Function.update s.attempts t (s.attempts t ++ [ok]) }

/-- `data_[column]->push(block)` -/
def push (s : ColumnQueues T B) (c : ColumnCall B) : Bool × ColumnQueues T B :=
  let r := (s.data c.column).push (s.blocks c.block).image
  (r.1, { s with
    data := Function.update s.data c.column r.2
    pushed := if r.1 then
        Function.update s.pushed c.column (s.pushed c.column ++ [(s.blocks c.block).image])
      else s.pushed })

/-- `data_[column]->pop(block)` -/
def pop (s : ColumnQueues T B) (c : ColumnCall B) : Bool × ColumnQueues T B :=
  let r := (s.data c.column).pop
  let s := { s with data := Function.update s.data c.column r.2 }
  match r.1 with
  | none => (false, s)
  | some img =>
      let b := (s.blocks c.block).storeBlock img.mem blockSize
      (true, { s with
        blocks := Function.update s.blocks c.block b
        got := Function.update s.got c.column (s.got c.column ++ [b.image]) })

/-- One attempt of `put` or `get`. -/
def tryOnce (s : ColumnQueues T B) (c : ColumnCall B) : Bool × ColumnQueues T B :=
  if c.put then s.push c else s.pop c

def attempt (s : ColumnQueues T B) (t : T) : Option (ColumnQueues T B) :=
  match s.status t with
  | .running c seconds =>
      let r := s.tryOnce c
      some (r.2.conclude t c seconds r.1)
  | _ => none

/-- A call begins on one of the `row` columns. -/
def call (row : ℕ) (s : ColumnQueues T B) (t : T) (c : ColumnCall B) : Option (ColumnQueues T B) :=
  match s.status t with
  | .running _ _ => none
  | _ =>
      if c.column < row then
        some { s with
          status := Function.update s.status t (.running c 0)
          attempts := Function.update s.attempts t [] }
      else none

def step (row : ℕ) (s : ColumnQueues T B) : Event T B → Option (ColumnQueues T B)
  | .call t c => s.call row t c
  | .attempt t => s.attempt t
  | .write b content => some { s with blocks := Function.update s.blocks b content }

/-- New columns; the blocks hold what `malloc` returned. -/
def start (store : ℕ → ℕ → Block) (blocks : B → Block) : ColumnQueues T B where
  data i := BlockCircleQueue.make (store i) columnCon
  blocks := blocks
  status _ := .idle
  pushed _ := []
  got _ := []
  attempts _ := []

/-- The column of the event. -/
def Event.column (s : ColumnQueues T B) : Event T B → Option ℕ
  | .call _ c => some c.column
  | .attempt t =>
      match s.status t with
      | .running c _ => some c.column
      | _ => none
  | .write _ _ => none

section Attempts
variable {s s' : ColumnQueues T B} {t : T} {c : ColumnCall B}

/-- What the columns hold: what was pushed and not yet popped. -/
structure Fifo (s : ColumnQueues T B) : Prop where
  capacity : ∀ i, (s.data i).queueCapacity = columnCon
  order : ∀ i, s.got i ++ (s.data i).contents = s.pushed i

/-- An attempt changes its column only, and nothing at all when it is refused. -/
structure Tried (c : ColumnCall B) (s : ColumnQueues T B) (r : Bool × ColumnQueues T B) : Prop where
  fifo : s.Fifo → r.2.Fifo
  status : r.2.status = s.status
  attempts : r.2.attempts = s.attempts
  others : ∀ j, j ≠ c.column →
    r.2.data j = s.data j ∧ r.2.pushed j = s.pushed j ∧ r.2.got j = s.got j
  refused : r.1 = false → r.2 = s

omit [DecidableEq T] [DecidableEq B] in
theorem Tried.refl (c : ColumnCall B) (s : ColumnQueues T B) : Tried c s (false, s) :=
  ⟨id, rfl, rfl, fun _ _ => ⟨rfl, rfl, rfl⟩, fun _ => rfl⟩

omit [DecidableEq T] [DecidableEq B] in
/-- An attempt that was not refused. -/
theorem Tried.accepted (hstatus : s'.status = s.status) (hattempts : s'.attempts = s.attempts)
    (hcap : (s'.data c.column).queueCapacity = (s.data c.column).queueCapacity)
    (horder : s.got c.column ++ (s.data c.column).contents = s.pushed c.column →
      s'.got c.column ++ (s'.data c.column).contents = s'.pushed c.column)
    (hothers : ∀ j, j ≠ c.column →
      s'.data j = s.data j ∧ s'.pushed j = s.pushed j ∧ s'.got j = s.got j) :
    Tried c s (true, s') := by
  refine ⟨fun h => ⟨fun i => ?_, fun i => ?_⟩, hstatus, hattempts, hothers, fun hf => by cases hf⟩
  · rcases eq_or_ne i c.column with rfl | hne
    · exact hcap.trans (h.capacity _)
    · rw [(hothers i hne).1]
      exact h.capacity i
  · rcases eq_or_ne i c.column with rfl | hne
    · exact horder (h.order _)
    · obtain ⟨hdata, hpushed, hgot⟩ := hothers i hne
      rw [hdata, hpushed, hgot]
      exact h.order i

omit [DecidableEq T] [DecidableEq B] in
theorem push_tried (s : ColumnQueues T B) (c : ColumnCall B) : Tried c s (s.push c) := by
  obtain ⟨-, hcap, hcon⟩ := (s.data c.column).push_eq (s.blocks c.block).image
  cases hr : ((s.data c.column).push (s.blocks c.block).image).1 with
  | false =>
    have he : s.push c = (false, s) := by
      simp [push, hr, BlockCircleQueue.push_refused hr]
    rw [he]
    exact .refl c s
  | true =>
    rw [hr, if_pos rfl] at hcon
    rw [push, hr]
    refine .accepted rfl rfl ?_ (fun h => ?_) fun j hj => ⟨?_, ?_, rfl⟩
    · simpa using hcap
    · simp only [Function.update_self, hcon, if_pos]
      rw [← List.append_assoc, h]
    · exact Function.update_of_ne hj _ _
    · exact Function.update_of_ne hj _ _

omit [DecidableEq T] in
theorem pop_tried (s : ColumnQueues T B) (c : ColumnCall B) : Tried c s (s.pop c) := by
  obtain ⟨hhead, hcap, hcon⟩ := (s.data c.column).pop_eq
  cases hr : (s.data c.column).pop.1 with
  | none =>
    have he : s.pop c = (false, s) := by
      simp [pop, hr, BlockCircleQueue.pop_refused hr]
    rw [he]
    exact .refl c s
  | some img =>
    rw [hr] at hhead
    obtain ⟨rest, hrest⟩ := List.head?_eq_some_iff.mp hhead.symm
    simp only [pop, hr]
    refine .accepted rfl rfl ?_ (fun h => ?_) fun j hj => ⟨?_, rfl, ?_⟩
    · simpa using hcap
    · simp only [Function.update_self, Block.image_storeBlock, hcon, hrest, List.tail_cons]
      rw [List.append_assoc, List.singleton_append, ← hrest]
      exact h
    · exact Function.update_of_ne hj _ _
    · exact Function.update_of_ne hj _ _

omit [DecidableEq T] in
theorem tryOnce_tried (s : ColumnQueues T B) (c : ColumnCall B) : Tried c s (s.tryOnce c) := by
  rw [tryOnce]
  split_ifs
  · exact push_tried s c
  · exact pop_tried s c

/-- The outcomes of a call's attempts so far. -/
def Outcomes : ColumnStatus B → List Bool → Prop
  | .idle, _ => True
  | .running _ seconds, os => seconds ≤ 10 ∧ os = List.replicate seconds false
  | .returned _ false, os => os = List.replicate 11 false
  | .returned _ true, os => ∃ k ≤ 10, os = List.replicate k false ++ [true]

/-- What holds in every state. -/
structure Inv (s : ColumnQueues T B) : Prop where
  fifo : s.Fifo
  outcomes : ∀ t, Outcomes (s.status t) (s.attempts t)

omit [DecidableEq T] [DecidableEq B] in
theorem inv_start (store : ℕ → ℕ → Block) (blocks : B → Block) :
    (start store blocks : ColumnQueues T B).Inv :=
  ⟨⟨fun _ => rfl, fun _ => rfl⟩, fun _ => trivial⟩

omit [DecidableEq B] in
/-- The status and the outcomes change together. -/
theorem Inv.update (hf : s'.Fifo) (h : s.Inv) {st : ColumnStatus B} {os : List Bool}
    (hstatus : s'.status = Function.update s.status t st)
    (hattempts : s'.attempts = Function.update s.attempts t os) (hout : Outcomes st os) :
    s'.Inv := by
  refine ⟨hf, fun u => ?_⟩
  rw [hstatus, hattempts]
  rcases eq_or_ne u t with rfl | hne
  · rw [Function.update_self, Function.update_self]
    exact hout
  · rw [Function.update_of_ne hne, Function.update_of_ne hne]
    exact h.outcomes u

theorem attempt_eq_some {r : ColumnQueues T B} (h : s.attempt t = some r) :
    ∃ c seconds, s.status t = .running c seconds ∧
      r = (s.tryOnce c).2.conclude t c seconds (s.tryOnce c).1 := by
  unfold attempt at h
  split at h
  · next c seconds hs => exact ⟨c, seconds, hs, (Option.some.inj h).symm⟩
  · cases h

theorem Inv.attempt (h : s.Inv) (ha : s.attempt t = some s') : s'.Inv := by
  obtain ⟨c, seconds, hs, rfl⟩ := attempt_eq_some ha
  have htried := tryOnce_tried s c
  have hout := h.outcomes t
  rw [hs] at hout
  obtain ⟨hle, hos⟩ := hout
  have hfifo := htried.fifo h.fifo
  have hstatus := congrArg (Function.update · t
    (if (s.tryOnce c).1 then .returned c true else if seconds = 10 then .returned c false
      else .running c (seconds + 1))) htried.status
  have hattempts := congrArg (fun a => Function.update a t (a t ++ [(s.tryOnce c).1]))
    htried.attempts
  refine Inv.update (t := t) (s := s) ⟨hfifo.capacity, hfifo.order⟩ h hstatus hattempts ?_
  rw [hos]
  cases (s.tryOnce c).1 with
  | true => exact ⟨seconds, hle, rfl⟩
  | false =>
    rw [if_neg Bool.false_ne_true]
    split_ifs with hten
    · rw [hten]
      rfl
    · exact ⟨by omega, (List.replicate_succ' ..).symm⟩

omit [DecidableEq B] in
theorem Inv.call {row : ℕ} (h : s.Inv) (hc : s.call row t c = some s') : s'.Inv := by
  unfold ColumnQueues.call at hc
  split at hc
  · cases hc
  · split_ifs at hc
    cases hc
    exact Inv.update (t := t) (s := s) ⟨h.fifo.capacity, h.fifo.order⟩ h rfl rfl
      ⟨Nat.zero_le _, rfl⟩

theorem Inv.step {row : ℕ} {e : Event T B} (h : s.Inv) (hs : s.step row e = some s') : s'.Inv := by
  cases e with
  | call t c => exact h.call hs
  | attempt t => exact h.attempt hs
  | write b content =>
    cases hs
    exact ⟨⟨h.fifo.capacity, h.fifo.order⟩, h.outcomes⟩

/-- What a step leaves alone: all columns but its own, and all that is shared when it is an attempt
that is refused. -/
theorem step_frame {row : ℕ} {e : Event T B} (hs : s.step row e = some s') :
    (∀ t, e = .attempt t → s'.attempts t = s.attempts t ++ [false] →
      s'.data = s.data ∧ s'.blocks = s.blocks ∧ s'.pushed = s.pushed ∧ s'.got = s.got) ∧
    ∀ j, e.column s ≠ some j →
      s'.data j = s.data j ∧ s'.pushed j = s.pushed j ∧ s'.got j = s.got j := by
  cases e with
  | call t c =>
    refine ⟨fun t ht => (by cases ht), fun j _ => ?_⟩
    simp only [ColumnQueues.step, ColumnQueues.call] at hs
    split at hs
    · cases hs
    · split_ifs at hs
      cases hs
      exact ⟨rfl, rfl, rfl⟩
  | attempt t =>
    obtain ⟨c, seconds, hstatus, rfl⟩ := attempt_eq_some hs
    have htried := tryOnce_tried s c
    constructor
    · intro t' ht hfalse
      cases ht
      have hlast : s.attempts t ++ [(s.tryOnce c).1] = s.attempts t ++ [false] := by
        rw [← hfalse, ← htried.attempts]
        exact (Function.update_self (β := fun _ => List Bool) ..).symm
      have hrefused := htried.refused (by simpa using hlast)
      simp only [conclude, hrefused, and_self]
    · intro j hj
      simp only [Event.column, hstatus, ne_eq, Option.some.injEq] at hj
      exact htried.others j fun he => hj he.symm
  | write b content =>
    cases hs
    exact ⟨fun t ht => (by cases ht), fun _ _ => ⟨rfl, rfl, rfl⟩⟩

/-- In every state that is reached each block object of a column is once in `emptys_` or in
`blocks_`; what the calls of `get` returned and then what is queued is what was pushed, in order;
a call that returned false had only refused attempts, and these change nothing; and a step on one
column leaves the others alone. -/
theorem run_columns {row : ℕ} (store : ℕ → ℕ → Block) (blocks : B → Block)
    (es : List (Event T B)) (hr : run (step row) (start store blocks) es = some s) :
    (∀ i, ((s.data i).emptys ++ (s.data i).blocks).Perm (List.range columnCon)) ∧
    (∀ i, s.got i ++ (s.data i).contents = s.pushed i) ∧
    (∀ t c, s.status t = .returned c false → s.attempts t = List.replicate 11 false) ∧
    ∀ e s', s.step row e = some s' →
      (∀ t, e = .attempt t → s'.attempts t = s.attempts t ++ [false] →
        s'.data = s.data ∧ s'.blocks = s.blocks ∧ s'.pushed = s.pushed ∧ s'.got = s.got) ∧
      ∀ j, e.column s ≠ some j →
        s'.data j = s.data j ∧ s'.pushed j = s.pushed j ∧ s'.got j = s.got j := by
  have hinv : s.Inv := Runs.inv (fun _ _ _ => Inv.step) hr (inv_start store blocks)
  refine ⟨fun i => ?_, hinv.fifo.order, fun t c ht => ?_, fun e s' => step_frame⟩
  · rw [← hinv.fifo.capacity i]
    exact (s.data i).distinct
  · have hout := hinv.outcomes t
    rw [ht] at hout
    exact hout

/-- Blocks of zeros. -/
def zeroBlock : Block := Block.make (fun _ => 0) blockSize 8

/-- Thread 1 puts block 0 into column 0 and overwrites it while thread 2 gets block 1. -/
def handOver : List (Event ℕ ℕ) :=
  [.call 1 ⟨true, 0, 0⟩, .call 2 ⟨false, 1, 0⟩, .attempt 2, .attempt 1, .write 0 zeroBlock,
    .attempt 2]

theorem run_columns_handOver : ∃ s,
    run (step 1) (start (fun _ _ => zeroBlock) fun _ => zeroBlock) handOver = some s ∧
      (s.got 0).length = 1 ∧ s.got 0 ++ (s.data 0).contents = s.pushed 0 := by
  have hlen : (run (step 1) (start (fun _ _ => zeroBlock) fun _ => zeroBlock) handOver).map
      (fun s => (s.got 0).length) = some 1 := rfl
  obtain ⟨s, hs, hone⟩ := Option.map_eq_some_iff.mp hlen
  exact ⟨s, hs, hone, (run_columns _ _ _ hs).2.1 0⟩

end Attempts
end ColumnQueues
end Mosito
