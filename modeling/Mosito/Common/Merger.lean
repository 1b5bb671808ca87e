import Mosito.Common.BlockCircleQueue
import Mosito.Common.BlockStream
import Mosito.Lib.Runs

/-! The receive thread of a shuffle: blocks that arrive on the connections of the lowers are
put into the columns of the producer-consumer buffer, while its consumer pops them. -/
namespace Mosito
open Runs

/-- Where `m_receive_select` is: in `select`, in the loop over the connections, in `put` after
`seconds` refused pushes, or returned. -/
inductive Receiving where
  | select
  | scan (fds : List ℕ) (i : ℕ)
  | put (fds : List ℕ) (i seconds : ℕ)
  | returned
  deriving DecidableEq

/-- `carried` is on its way on the connections, `arrived` waits in the sockets; `received` and
`popped` are the histories of `recv` and of the consumer. -/
structure Merger where
  ctrl : Receiving
  block : Image
  meetZero : ℕ
  data : ℕ → BlockCircleQueue
  carried : ℕ → List Image
  arrived : ℕ → List Image
  received : ℕ → List Image
  popped : ℕ → List Image

namespace Merger

/-- What can happen next: a block arrives, the consumer tries to pop, `select` returns with
some readable connections, or the receiver goes on. -/
inductive Event where
  | arrive (i : ℕ)
  | pop (i : ℕ)
  | select (fds : List ℕ)
  | receive

/-- The rest of a round after `put`, whatever it returned. -/
def afterPut (n : ℕ) (fds : List ℕ) (i : ℕ) (s : Merger) : Merger :=
  if s.block.count = 0 then
    if s.meetZero + 1 = n then { s with meetZero := s.meetZero + 1, ctrl := .returned }
    else { s with meetZero := s.meetZero + 1, ctrl := .scan fds (i + 1) }
  else { s with ctrl := .scan fds (i + 1) }

/-- A step of `m_receive_select`; `none` while it waits. -/
def receive (n : ℕ) (s : Merger) : Option Merger :=
  match s.ctrl with
  | .scan fds i =>
      if i < n then
        if i ∈ fds then
          match s.arrived i with
          | b :: rest => some { s with
              arrived := Function.update s.arrived i rest
              received := Function.update s.received i (s.received i ++ [b])
              block := b
              ctrl := .put fds i 0 }
          -- a closed connection is readable, and recv returns 0
          | [] => if s.carried i = [] then some { s with ctrl := .select } else none
        else some { s with ctrl := .scan fds (i + 1) }
      else some { s with ctrl := .select }
  | .put fds i seconds =>
      let r := (s.data i).push s.block
      if r.1 then some (afterPut n fds i { s with data := Function.update s.data i r.2 })
      else if seconds = 10 then some (afterPut n fds i s)
      else some { s with ctrl := .put fds i (seconds + 1) }
  | .select => none
  | .returned => none

def step (n : ℕ) (s : Merger) : Event → Option Merger
  | .arrive i =>
      match s.carried i with
      | [] => none
      | b :: rest => some { s with
          carried := Function.update s.carried i rest
          arrived := Function.update s.arrived i (s.arrived i ++ [b]) }
  | .pop i =>
      let r := (s.data i).pop
      some { s with
        data := Function.update s.data i r.2
        popped := Function.update s.popped i (s.popped i ++ r.1.toList) }
  | .select fds =>
      match s.ctrl with
      | .select => some { s with ctrl := .scan fds 0 }
      | _ => none
  | .receive => s.receive n

/-- The connections carry `stream`, and the columns are empty. -/
def start (store : ℕ → ℕ → Block) (stream : ℕ → List Image) (block : Image) : Merger where
  ctrl := .select
  block := block
  meetZero := 0
  data i := BlockCircleQueue.make (store i) columnCon
  carried := stream
  arrived _ := []
  received _ := []
  popped _ := []

/-- The blocks that were put into column `i`, those already popped included. -/
def enqueued (s : Merger) (i : ℕ) : List Image := s.popped i ++ (s.data i).contents

/-- The block of connection `i` that is still in `put`. -/
def hand (s : Merger) (i : ℕ) : List Image :=
  match s.ctrl with
  | .put _ j _ => if j = i then [s.block] else []
  | _ => []

/-- A push that is the last one `put` tries finds a free block. -/
def Patient (s : Merger) (e : Event) : Prop :=
  ∀ fds i, e = .receive → s.ctrl = .put fds i 10 →
    (s.data i).contents.length < (s.data i).queueCapacity

section Step
variable {n : ℕ} {s s' : Merger} {e : Event}

/-- What a step can do: nothing to the histories, receive a block, or finish with it. -/
inductive Effect (n : ℕ) (s : Merger) (e : Event) (s' : Merger) : Prop where
  | quiet (received : s'.received = s.received)
      (pending : ∀ i, s'.arrived i ++ s'.carried i = s.arrived i ++ s.carried i)
      (enqueued : ∀ i, s'.enqueued i = s.enqueued i) (hand : ∀ i, s'.hand i = s.hand i)
      (meetZero : s'.meetZero = s.meetZero)
      (column : ∀ fds i k, s'.ctrl = .put fds i k → ∃ k', s.ctrl = .put fds i k')
      (ctrl : s'.ctrl = .returned → s.ctrl = .returned) (patient : Patient s e)
  | recv (fds : List ℕ) (i : ℕ) (b : Image) (lt : i < n) (ctrl : s.ctrl = .scan fds i)
      (rest : ∀ j, s.arrived j = (if j = i then [b] else []) ++ s'.arrived j)
      (eq : s' = { s with
        arrived := s'.arrived
        received := Function.update s.received i (s.received i ++ [b])
        block := b
        ctrl := .put fds i 0 })
  | settle (fds : List ℕ) (i k : ℕ) (ctrl : s.ctrl = .put fds i k) (receive : e = .receive)
      (received : s'.received = s.received) (arrived : s'.arrived = s.arrived)
      (carried : s'.carried = s.carried) (hand : ∀ j, s'.hand j = [])
      (others : ∀ j ≠ i, s'.enqueued j = s.enqueued j)
      (enqueued : s'.enqueued i = s.enqueued i ++ [s.block] ∨ (s'.enqueued i = s.enqueued i ∧
        k = 10 ∧ ¬ (s.data i).contents.length < (s.data i).queueCapacity))
      (patient : s'.enqueued i = s.enqueued i ++ [s.block] → Patient s e)
      (meetZero : s'.meetZero = s.meetZero + zeros [s.block])
      (ctrl' : (∃ j, s'.ctrl = .scan fds j) ∨ (s'.ctrl = .returned ∧ s'.meetZero = n))

/-- `afterPut` counts an empty block and leaves the histories. -/
theorem afterPut_effect (n : ℕ) (fds : List ℕ) (i : ℕ) (t : Merger) :
    (afterPut n fds i t).received = t.received ∧ (afterPut n fds i t).arrived = t.arrived ∧
      (afterPut n fds i t).carried = t.carried ∧ (afterPut n fds i t).popped = t.popped ∧
      (afterPut n fds i t).data = t.data ∧
      (afterPut n fds i t).meetZero = t.meetZero + zeros [t.block] ∧
      ((∃ j, (afterPut n fds i t).ctrl = .scan fds j) ∨
        ((afterPut n fds i t).ctrl = .returned ∧ (afterPut n fds i t).meetZero = n)) := by
  rw [zeros_singleton]
  unfold afterPut
  split
  · split
    · next hn => simp [hn]
    · simp
  · simp

theorem hand_of_ne {s : Merger} (h : ∀ fds i k, s.ctrl ≠ .put fds i k) (j : ℕ) : s.hand j = [] := by
  unfold hand
  split
  · next hc => exact absurd hc (h _ _ _)
  · rfl

theorem hand_put {fds : List ℕ} {i k : ℕ} (h : s.ctrl = .put fds i k) (j : ℕ) :
    s.hand j = if i = j then [s.block] else [] := by
  simp [hand, h]

/-- `put` is over, with its block in the queue or, after eleven refused pushes, without. -/
theorem afterPut_settle {t : Merger} {fds : List ℕ} {i k : ℕ} (hc : s.ctrl = .put fds i k)
    (hrec : t.received = s.received) (harr : t.arrived = s.arrived) (hcar : t.carried = s.carried)
    (hblock : t.block = s.block) (hmet : t.meetZero = s.meetZero)
    (hothers : ∀ j ≠ i, t.enqueued j = s.enqueued j)
    (henq : ((s.data i).contents.length < (s.data i).queueCapacity ∧
        t.enqueued i = s.enqueued i ++ [s.block]) ∨
      (¬ (s.data i).contents.length < (s.data i).queueCapacity ∧ k = 10 ∧
        t.enqueued i = s.enqueued i)) :
    Effect n s .receive (afterPut n fds i t) := by
  obtain ⟨h1, h2, h3, h4, h5, h6, h7⟩ := afterPut_effect n fds i t
  have hsame (j : ℕ) : (afterPut n fds i t).enqueued j = t.enqueued j := by
    rw [enqueued, enqueued, h4, h5]
  refine .settle fds i k hc rfl (h1.trans hrec) (h2.trans harr) (h3.trans hcar) ?_
    (fun j hj => (hsame j).trans (hothers j hj)) ?_ ?_ (by rw [h6, hmet, hblock]) h7
  · apply hand_of_ne
    intro fds' i' k' hp
    rcases h7 with ⟨j, hj⟩ | ⟨hj, -⟩ <;> rw [hj] at hp <;> cases hp
  · rw [hsame]
    rcases henq with ⟨-, he⟩ | ⟨hfull, hk, he⟩
    · exact Or.inl he
    · exact Or.inr ⟨he, hk, hfull⟩
  · intro he fds' i' _ hp
    rw [hc] at hp
    cases hp
    rcases henq with ⟨hroom, -⟩ | ⟨-, -, hsame'⟩
    · exact hroom
    · rw [hsame, hsame'] at he
      simp at he

theorem receive_effect (h : s.receive n = some s') : Effect n s .receive s' := by
  unfold receive at h
  cases hc : s.ctrl with
  | select => simp [hc] at h
  | returned => simp [hc] at h
  | scan fds i =>
    have hpat : Patient s .receive := fun _ _ _ hp => by simp [hc] at hp
    have hhand (t : Merger) (ht : ∀ fds i k, t.ctrl ≠ .put fds i k) (j : ℕ) :
        t.hand j = s.hand j := by
      rw [hand_of_ne ht, hand_of_ne (by simp [hc])]
    simp only [hc] at h
    split at h
    · next hi =>
      split at h
      · split at h
        · next b rest harr =>
          cases h
          refine .recv fds i b hi hc (fun j => ?_) rfl
          by_cases hj : j = i
          · subst hj
            simp [harr]
          · simp [hj]
        · split at h
          · cases h
            exact .quiet rfl (fun _ => rfl) (fun _ => rfl) (hhand _ (by simp)) rfl (by simp)
              (by simp) hpat
          · cases h
      · cases h
        exact .quiet rfl (fun _ => rfl) (fun _ => rfl) (hhand _ (by simp)) rfl (by simp) (by simp)
          hpat
    · cases h
      exact .quiet rfl (fun _ => rfl) (fun _ => rfl) (hhand _ (by simp)) rfl (by simp) (by simp)
        hpat
  | put fds i k =>
    obtain ⟨hacc, -, hcont⟩ := (s.data i).push_eq s.block
    simp only [hc] at h
    split at h
    · next hpush =>
      rw [if_pos hpush] at hcont
      cases h
      refine afterPut_settle hc rfl rfl rfl rfl rfl (fun j hj => ?_) (Or.inl ⟨hacc.mp hpush, ?_⟩)
      · simp [enqueued, hj]
      · simp [enqueued, hcont]
    · next hpush =>
      split at h
      · next hk =>
        cases h
        exact afterPut_settle hc rfl rfl rfl rfl rfl (fun _ _ => rfl)
          (Or.inr ⟨fun hroom => hpush (hacc.mpr hroom), hk, rfl⟩)
      · next hk =>
        cases h
        refine .quiet rfl (fun _ => rfl) (fun _ => rfl) (fun j => ?_) rfl ?_ (by simp) ?_
        · rw [hand_put hc, hand_put rfl]
        · intro fds' i' k' hp
          cases hp
          exact ⟨k, hc⟩
        · intro fds' i' _ hp
          rw [hc] at hp
          cases hp
          exact absurd rfl hk

/-- Everything a step can do. -/
theorem step_effect (h : step n s e = some s') : Effect n s e s' := by
  cases e with
  | receive => exact receive_effect h
  | arrive i =>
    have hpat : Patient s (.arrive i) := fun _ _ he => by cases he
    rw [step] at h
    split at h
    · cases h
    · next b rest hcar =>
      cases h
      refine .quiet rfl (fun j => ?_) (fun _ => rfl) (fun _ => rfl) rfl
        (fun _ _ k hp => ⟨k, hp⟩) id hpat
      by_cases hj : j = i
      · subst hj
        simp [hcar]
      · simp [hj]
  | pop i =>
    have hpat : Patient s (.pop i) := fun _ _ he => by cases he
    obtain ⟨hp, -, hcont⟩ := (s.data i).pop_eq
    cases h
    refine .quiet rfl (fun _ => rfl) (fun j => ?_) (fun _ => rfl) rfl
      (fun _ _ k hp => ⟨k, hp⟩) id hpat
    by_cases hj : j = i
    · subst hj
      simp only [enqueued, Function.update_self, hp, hcont]
      cases (s.data j).contents <;> simp
    · simp [enqueued, hj]
  | select fds =>
    have hpat : Patient s (.select fds) := fun _ _ he => by cases he
    rw [step] at h
    split at h
    · next hc =>
      cases h
      refine .quiet rfl (fun _ => rfl) (fun _ => rfl) (fun j => ?_) rfl (by simp) (by simp) hpat
      rw [hand_of_ne (by simp), hand_of_ne (by simp [hc])]
    · cases h

end Step

/-- `settled` are the received blocks that `put` is done with. -/
structure Inv (n : ℕ) (stream : ℕ → List Image) (s : Merger) (settled : ℕ → List Image) : Prop where
  flow : ∀ i, stream i = s.received i ++ (s.arrived i ++ s.carried i)
  split : ∀ i, s.received i = settled i ++ s.hand i
  kept : ∀ i, (s.enqueued i).Sublist (settled i)
  met : s.meetZero = ∑ i ∈ Finset.range n, zeros (settled i)
  column : ∀ fds i k, s.ctrl = .put fds i k → i < n
  final : s.ctrl = .returned → s.meetZero = n

section Run
variable {n : ℕ} {stream : ℕ → List Image} {s s' : Merger} {e : Event} {settled : ℕ → List Image}

theorem inv_start (store : ℕ → ℕ → Block) (stream : ℕ → List Image) (block : Image) :
    Inv n stream (start store stream block) fun _ => [] where
  flow _ := rfl
  split _ := rfl
  kept _ := by simp [enqueued, start]
  met := by simp [zeros, start]
  column _ _ _ h := by cases h
  final h := by cases h

theorem Inv.step (h : Inv n stream s settled) (hs : step n s e = some s') :
    ∃ settled', Inv n stream s' settled' := by
  cases step_effect hs with
  | quiet received pending enqueued hand meetZero column ctrl patient =>
    refine ⟨settled, fun i => ?_, fun i => ?_, fun i => ?_, meetZero.trans h.met, ?_, ?_⟩
    · rw [received, pending, ← h.flow]
    · rw [received, hand, ← h.split]
    · rw [enqueued]
      exact h.kept i
    · intro fds i k hp
      obtain ⟨k', hk'⟩ := column fds i k hp
      exact h.column fds i k' hk'
    · intro hr
      rw [meetZero]
      exact h.final (ctrl hr)
  | recv fds i b lt ctrl rest eq =>
    have hnone (j : ℕ) : s.hand j = [] := hand_of_ne (by simp [ctrl]) j
    rw [eq]
    refine ⟨settled, fun j => ?_, fun j => ?_, fun j => h.kept j, h.met, ?_, by simp⟩
    · have hf := h.flow j
      rw [rest j] at hf
      by_cases hj : j = i
      · subst hj
        simpa using hf
      · simpa [hj] using hf
    · have hsp := h.split j
      rw [hnone, List.append_nil] at hsp
      rw [hand_put rfl]
      by_cases hj : j = i
      · subst hj
        simp [hsp]
      · simp [hj, Ne.symm hj, hsp]
    · intro fds' i' k hp
      cases hp
      exact lt
  | settle fds i k ctrl receive received arrived carried hand others enqueued patient meetZero ctrl' =>
    have hi := h.column fds i k ctrl
    refine ⟨Function.update settled i (settled i ++ [s.block]), fun j => ?_, fun j => ?_,
      fun j => ?_, ?_, ?_, ?_⟩
    · rw [received, arrived, carried, ← h.flow]
    · rw [received, hand, List.append_nil, h.split, hand_put ctrl]
      by_cases hj : j = i
      · subst hj
        simp
      · simp [hj, Ne.symm hj]
    · by_cases hj : j = i
      · subst hj
        rw [Function.update_self]
        rcases enqueued with he | ⟨he, -⟩
        · rw [he]
          exact (h.kept j).append_right _
        · rw [he]
          exact (h.kept j).trans (List.sublist_append_left _ _)
      · rw [Function.update_of_ne hj, others j hj]
        exact h.kept j
    · rw [meetZero, h.met, sum_zeros_update hi]
    · intro fds' i' k' hp
      rcases ctrl' with ⟨j, hj⟩ | ⟨hj, -⟩ <;> rw [hj] at hp <;> cases hp
    · intro hr
      rcases ctrl' with ⟨j, hj⟩ | ⟨-, hn⟩
      · rw [hj] at hr
        cases hr
      · exact hn

/-- Nothing that was received is missing from the columns. -/
def Complete (n : ℕ) (s : Merger) : Prop := ∀ i < n, s.received i = s.enqueued i ++ s.hand i

/-- A patient step keeps the columns complete. -/
theorem Complete.step (hc : Complete n s) (hp : Patient s e) (hs : Merger.step n s e = some s') :
    Complete n s' := by
  intro i hi
  have hci := hc i hi
  cases step_effect hs with
  | quiet received pending enqueued hand => rw [received, enqueued, hand, hci]
  | recv fds j b lt ctrl rest eq =>
    rw [hand_of_ne (by simp [ctrl]), List.append_nil] at hci
    rw [eq, hand_put rfl]
    change Function.update s.received j (s.received j ++ [b]) i = s.enqueued i ++ _
    by_cases hj : i = j
    · subst hj
      simp [hci]
    · simp [hj, Ne.symm hj, hci]
  | settle fds j k ctrl receive received arrived carried hand others enqueued =>
    rw [hand_put ctrl] at hci
    rw [received, hand, List.append_nil, hci]
    by_cases hj : j = i
    · subst hj
      rcases enqueued with he | ⟨-, rfl, hfull⟩
      · simp [he]
      · exact absurd (hp fds j receive ctrl) hfull
    · simp [hj, others i (Ne.symm hj)]

/-- Columns that are complete after a step were complete before it, and the step was patient. -/
theorem Complete.back (h : Inv n stream s settled) (hs : Merger.step n s e = some s')
    (hc : Complete n s') : Complete n s ∧ Patient s e := by
  cases step_effect hs with
  | quiet received pending enqueued hand meetZero column ctrl patient =>
    refine ⟨fun i hi => ?_, patient⟩
    rw [← received, ← enqueued, ← hand, hc i hi]
  | recv fds j b lt ctrl rest eq =>
    refine ⟨fun i hi => ?_, fun _ _ _ hp => by simp [ctrl] at hp⟩
    have hci := hc i hi
    rw [eq, hand_put rfl] at hci
    change Function.update s.received j (s.received j ++ [b]) i = s.enqueued i ++ _ at hci
    rw [hand_of_ne (by simp [ctrl]), List.append_nil]
    by_cases hj : i = j
    · subst hj
      simpa using hci
    · simpa [hj, Ne.symm hj] using hci
  | settle fds j k ctrl receive received arrived carried hand others enqueued patient =>
    have hall : s'.enqueued j = s.enqueued j ++ [s.block] := by
      have hj := h.column fds j k ctrl
      rcases enqueued with he | ⟨he, -⟩
      · exact he
      -- a block that was given up leaves the column shorter than what was received
      · have hcj := congrArg List.length (hc j hj)
        have hsp := congrArg List.length (h.split j)
        have hle := (h.kept j).length_le
        rw [received, hand, he, List.append_nil] at hcj
        rw [hand_put ctrl, if_pos rfl, List.length_append, List.length_singleton] at hsp
        omega
    refine ⟨fun i hi => ?_, patient hall⟩
    have hci := hc i hi
    rw [received, hand, List.append_nil] at hci
    rw [hand_put ctrl, hci]
    by_cases hj : j = i
    · subst hj
      simp [hall]
    · simp [hj, others i (Ne.symm hj)]

/-- With as many empty blocks counted as there are connections, all was received. -/
theorem Inv.received_all (h : Inv n stream s settled) (hclosed : ∀ i < n, Closed (stream i))
    (hr : s.ctrl = .returned) {i : ℕ} (hi : i < n) : s.received i = stream i := by
  have hsettled (j : ℕ) : s.received j = settled j := by
    rw [h.split, hand_of_ne (by simp [hr]), List.append_nil]
  rw [hsettled]
  refine taken_all hclosed (fun j _ => ?_) (h.met.symm.trans (h.final hr)) hi
  rw [h.flow j, hsettled]
  exact List.prefix_append _ _

/-- When `m_receive_select` returns it has received all blocks, and all of them were enqueued
in their column and in order exactly if no `put` of the run had to give up. -/
theorem receiveSelect_lossless_iff (_hn : 1 ≤ n) {store : ℕ → ℕ → Block} {block : Image}
    {events : List Event} (hclosed : ∀ i < n, Closed (stream i))
    (hrun : run (step n) (start store stream block) events = some s) (hret : s.ctrl = .returned) :
    (∀ i < n, s.received i = stream i) ∧
      ((∀ i < n, s.enqueued i = s.received i) ↔
        Along (step n) Patient (start store stream block) events) := by
  have hstep (t : Merger) (e : Event) (t' : Merger) (ht : ∃ settled, Inv n stream t settled)
      (hs : step n t e = some t') : ∃ settled, Inv n stream t' settled := by
    obtain ⟨settled, ht⟩ := ht
    exact ht.step hs
  have hstart : ∃ settled, Inv n stream (start store stream block) settled :=
    ⟨_, inv_start store stream block⟩
  obtain ⟨settled, hinv⟩ := inv hstep hrun hstart
  have hcomplete : (∀ i < n, s.enqueued i = s.received i) ↔ Complete n s := by
    simp only [Complete, hand_of_ne (s := s) (by simp [hret]), List.append_nil, eq_comm]
  refine ⟨fun i hi => hinv.received_all hclosed hret hi, hcomplete.trans ⟨fun hc => ?_, fun hal => ?_⟩⟩
  · refine (along_of_final hstep ?_ hrun hstart hc).2
    rintro t e t' ⟨_, ht⟩ hs hc'
    exact hc'.back ht hs
  · exact inv_along (fun t e t' ht hp hs => ht.step hp hs) hal hrun fun _ _ => rfl

end Run

/-- The events of one round for a block that has arrived on the only connection. -/
def roundEvents : List Event := [.select [0], .receive, .receive, .receive]

/-- One data block and the empty one are received. -/
theorem receiveSelect_lossless_one :
    ∃ s, run (step 1) (start (fun _ _ => Block.make (fun _ => 0) blockSize 0)
        (fun _ => [oneTuple 7, noTuple]) noTuple)
        ([.arrive 0, .arrive 0] ++ roundEvents ++ [.select [0], .receive, .receive]) = some s ∧
      s.ctrl = .returned ∧ (∀ i < 1, s.received i = [oneTuple 7, noTuple]) ∧
      ((∀ i < 1, s.enqueued i = s.received i) ↔
        Along (step 1) Patient (start (fun _ _ => Block.make (fun _ => 0) blockSize 0)
          (fun _ => [oneTuple 7, noTuple]) noTuple)
          ([.arrive 0, .arrive 0] ++ roundEvents ++ [.select [0], .receive, .receive])) := by
  have hfinal : (run (step 1) (start (fun _ _ => Block.make (fun _ => 0) blockSize 0)
      (fun _ => [oneTuple 7, noTuple]) noTuple)
      ([.arrive 0, .arrive 0] ++ roundEvents ++ [.select [0], .receive, .receive])).map
        Merger.ctrl = some .returned := by decide +kernel
  obtain ⟨s, hrun, hret⟩ := Option.map_eq_some_iff.mp hfinal
  refine ⟨s, hrun, hret, receiveSelect_lossless_iff le_rfl (fun _ _ => ?_) hrun hret⟩
  exact ⟨[oneTuple 7], noTuple, rfl, by decide, by simp [oneTuple_count]⟩

/-- Twenty data blocks and the empty one arrive, and the consumer does not pop. -/
def starvedEvents : List Event :=
  List.replicate 21 (.arrive 0) ++ (List.replicate 20 roundEvents).flatten ++
    [.select [0], .receive] ++ List.replicate 11 .receive

/-- The empty block is counted although `put` gave it up. -/
theorem receiveSelect_starved :
    ∃ s, run (step 1) (start (fun _ _ => Block.make (fun _ => 0) blockSize 0)
        (fun _ => List.replicate 20 (oneTuple 7) ++ [noTuple]) noTuple) starvedEvents = some s ∧
      s.ctrl = .returned ∧ ¬ ∀ i < 1, s.enqueued i = s.received i := by
  have h : (run (step 1) (start (fun _ _ => Block.make (fun _ => 0) blockSize 0)
        (fun _ => List.replicate 20 (oneTuple 7) ++ [noTuple]) noTuple) starvedEvents).map
      (fun s => (s.ctrl, (s.enqueued 0).length, (s.received 0).length)) =
        some (.returned, 20, 21) := by decide +kernel
  obtain ⟨s, hs, he⟩ := Option.map_eq_some_iff.mp h
  obtain ⟨hret, henq, hrec⟩ : s.ctrl = .returned ∧ (s.enqueued 0).length = 20 ∧
      (s.received 0).length = 21 := by simpa using he
  refine ⟨s, hs, hret, fun hall => ?_⟩
  rw [hall 0 one_pos, hrec] at henq
  omega

end Merger
end Mosito
