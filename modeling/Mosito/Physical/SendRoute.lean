import Mosito.Common.BlockCircleQueue
import Mosito.Common.BlockStream
import Mosito.Common.BlockTag
import Mosito.Lib.History
import Mosito.Physical.ShuffleUpper1
import Mathlib.Data.List.Forall2

/-! The host of a lower end: `execute` puts blocks into the columns of its buffer, while the send
thread polls the columns, tags the blocks and sends them to the uppers. -/
namespace Mosito
open ByteStore History

namespace Image

/-- Equal outside of the four bytes of the tag. -/
def SameButTag (b b' : Image) : Prop :=
  ∀ i, i < blockSize - 8 ∨ blockSize - 4 ≤ i → b'.mem i = b.mem i

instance : Std.Refl SameButTag := ⟨fun _ _ _ => rfl⟩

theorem SameButTag.count_eq {b b' : Image} (h : SameButTag b b') : b'.count = b.count := by
  unfold count
  rw [readAt_congr fun i hi _ => h i (Or.inr hi)]

/-- Tuples that end in front of the tag are the same. -/
theorem SameButTag.tuples_eq {b b' : Image} {t : ℕ} (h : SameButTag b b')
    (hfits : b.count * t ≤ blockSize - 8) : b'.tuples t = b.tuples t := by
  unfold tuples
  rw [h.count_eq]
  apply records_congr
  apply readAt_congr
  intro i _ hi
  exact h i (Or.inl (by omega))

theorem sameButTag_tag {b : Block} (img : Image) (tg : ℤ) :
    SameButTag img ((b.storeBlock img.mem blockSize).tag blockSize tg).image := by
  intro i hi
  by_cases hlt : i < blockSize
  · rw [Block.image_mem hlt]
    have hkeep : ((b.storeBlock img.mem blockSize).tag blockSize tg).start i =
        (b.storeBlock img.mem blockSize).start i := by
      rcases hi with hi | hi
      · exact writeAt_of_lt _ _ hi
      · apply writeAt_of_ge
        rw [Block.intBytes_length]
        exact le_trans (by decide) hi
    rw [hkeep]
    exact if_pos hlt
  · rw [mem, mem, dif_neg hlt, dif_neg hlt]

end Image

open Image in
theorem zeros_eq_of_forall₂ {l l' : List Image} (h : List.Forall₂ SameButTag l l') :
    zeros l' = zeros l := by
  induction h with
  | nil => rfl
  | cons hb _ ih => simp only [zeros, List.countP_cons, hb.count_eq] at ih ⊢; rw [ih]

theorem zeros_of_closed {l : List Image} (hc : Closed l) : zeros l = 1 := by
  obtain ⟨data, z, rfl, hz, hdata⟩ := hc
  have hnone : zeros data = 0 := by simpa [zeros, List.countP_eq_zero] using hdata
  rw [zeros_append, hnone, zeros_singleton, if_pos hz]

open Image in
theorem closed_of_forall₂ {l l' : List Image} (h : List.Forall₂ SameButTag l l') (hc : Closed l) :
    Closed l' := by
  obtain ⟨data, z, rfl, hz, hdata⟩ := hc
  have hlast : List.Forall₂ SameButTag [z] (l'.drop data.length) := by
    simpa using List.forall₂_drop data.length h
  have hinit : List.Forall₂ SameButTag data (l'.take data.length) := by
    simpa using List.forall₂_take data.length h
  obtain ⟨z', _, hz', hnil, heq⟩ := List.forall₂_cons_left_iff.mp hlast
  rw [List.forall₂_nil_left_iff] at hnil
  subst hnil
  refine ⟨l'.take data.length, z', ?_, hz'.count_eq.trans hz, fun b' hb' => ?_⟩
  · rw [← heq, List.take_append_drop]
  · obtain ⟨k, hk, rfl⟩ := List.mem_iff_getElem.mp hb'
    have hlen := hinit.length_eq
    have hrel := hinit.get (hlen ▸ hk) hk
    simp only [List.get_eq_getElem] at hrel
    rw [hrel.count_eq]
    exact hdata _ (List.getElem_mem _)

/-- Where `send_route` is: in `get` on column `i` after `seconds` pops that found nothing, in
`m_send` with a block of column `i`, or returned. -/
inductive Sending where
  | get (i seconds : ℕ)
  | send (i : ℕ)
  | returned
  deriving DecidableEq

/-- `todo` are the puts of `execute` that are still to come, `gets` is the history of
`send_route`. -/
structure LowerHost where
  todo : List (ℕ × Image)
  data : ℕ → BlockCircleQueue
  blockTemp : Block
  ctrl : Sending
  meetZero : ℕ
  debugCount : ℤ
  gets : ℕ → List Image

namespace LowerHost
open Image

/-- The attempt of `execute` that finds room; all others leave everything as it is. -/
def put (s : LowerHost) : Option LowerHost :=
  match s.todo with
  | [] => none
  | (i, b) :: todo =>
      let r := (s.data i).push b
      if r.1 then some { s with todo := todo, data := Function.update s.data i r.2 } else none

/-- The column after column `i` in the loops of `send_route`. -/
def nextColumn (m i : ℕ) : ℕ := if i + 1 < m then i + 1 else 0

/-- An attempt of `get` on column `i`, and the tag for a block that it finds. -/
def get (m i seconds : ℕ) (s : LowerHost) : LowerHost :=
  match (s.data i).pop with
  | (some b, q) =>
      { s with
        data := Function.update s.data i q
        blockTemp := (s.blockTemp.storeBlock b.mem blockSize).tag blockSize (s.debugCount + 1)
        debugCount := s.debugCount + 1
        ctrl := .send i
        gets := Function.update s.gets i (s.gets i ++ [b]) }
  | (none, _) =>
      if seconds = 10 then { s with ctrl := .get (nextColumn m i) 0 }
      else { s with ctrl := .get i (seconds + 1) }

/-- The rest of a round after `m_send`. -/
def sent (m i : ℕ) (s : LowerHost) : LowerHost :=
  if s.blockTemp.getSize = 0 then
    if s.meetZero + 1 = m then { s with meetZero := s.meetZero + 1, ctrl := .returned }
    else { s with meetZero := s.meetZero + 1, ctrl := .get (nextColumn m i) 0 }
  else { s with ctrl := .get (nextColumn m i) 0 }

/-- The send thread enters its loop; `execute` is going to make the puts `puts`. -/
def start (store : ℕ → ℕ → Block) (junk : Memory) (totalsize : ℕ) (puts : List (ℕ × Image)) :
    LowerHost where
  todo := puts
  data i := BlockCircleQueue.make (store i) columnCon
  blockTemp := Block.make junk blockSize totalsize
  ctrl := .get 0 0
  meetZero := 0
  debugCount := 0
  gets _ := []

/-- The block for upper `u` that is in `m_send`. -/
def hand (s : LowerHost) (u : ℕ) : List Image :=
  match s.ctrl with
  | .send i => if i = u then [s.blockTemp.image] else []
  | _ => []

/-- What is on its way to upper `u` and not yet sent. -/
def unsent (s : LowerHost) (u : ℕ) : List Image :=
  s.hand u ++ ((s.data u).contents ++ part u s.todo)

/-- What holds between two steps when `wire u` was sent to upper `u`. -/
structure Inv (m : ℕ) (puts : List (ℕ × Image)) (wire : ℕ → List Image) (s : LowerHost) :
    Prop where
  todo : s.todo <:+ puts
  flow : ∀ u, part u puts = s.gets u ++ ((s.data u).contents ++ part u s.todo)
  same : ∀ u, List.Forall₂ SameButTag (s.gets u) (wire u ++ s.hand u)
  met : s.meetZero = ∑ u ∈ Finset.range m, zeros (wire u)
  size : s.blockTemp.size = blockSize
  capacity : ∀ u, (s.data u).queueCapacity = columnCon
  column : ∀ i k, s.ctrl = .get i k → i < m ∧ k ≤ 10
  sends : ∀ i, s.ctrl = .send i → i < m
  running : s.ctrl ≠ .returned → s.meetZero < m
  final : s.ctrl = .returned → s.meetZero = m

section Step
variable {m : ℕ} {puts : List (ℕ × Image)} {wire : ℕ → List Image} {s s' : LowerHost}

theorem inv_start (hm : 1 ≤ m) (store : ℕ → ℕ → Block) (junk : Memory) (totalsize : ℕ)
    (puts : List (ℕ × Image)) :
    Inv m puts (fun _ => []) (start store junk totalsize puts) where
  todo := List.suffix_rfl
  flow _ := rfl
  same _ := List.Forall₂.nil
  met := by simp [start]
  size := rfl
  capacity _ := rfl
  column i k h := by
    cases h
    exact ⟨hm, Nat.zero_le _⟩
  sends i h := by cases h
  running _ := hm
  final h := by cases h

theorem hand_get {i k : ℕ} (h : s.ctrl = .get i k) (u : ℕ) : s.hand u = [] := by
  simp [hand, h]

theorem hand_send {i : ℕ} (h : s.ctrl = .send i) (u : ℕ) :
    s.hand u = if i = u then [s.blockTemp.image] else [] := by
  simp [hand, h]

theorem nextColumn_lt (hm : 1 ≤ m) (i : ℕ) : nextColumn m i < m := by
  unfold nextColumn
  split <;> omega

/-- The first put of `execute` goes into a column with room. -/
theorem put_eq_some (h : s.put = some s') : ∃ i b todo, s.todo = (i, b) :: todo ∧
    ((s.data i).push b).1 = true ∧
    s' = { s with todo := todo, data := Function.update s.data i ((s.data i).push b).2 } := by
  unfold put at h
  split at h
  · cases h
  · next i b todo htodo =>
    dsimp only at h
    split at h
    · next hpush =>
      cases h
      exact ⟨i, b, todo, htodo, hpush, rfl⟩
    · cases h

theorem Inv.put (h : Inv m puts wire s) (hs : s.put = some s') : Inv m puts wire s' := by
  obtain ⟨i, b, todo, htodo, hpush, rfl⟩ := put_eq_some hs
  obtain ⟨-, hcap, hcont⟩ := (s.data i).push_eq b
  rw [if_pos hpush] at hcont
  refine { h with todo := ?_, flow := fun u => ?_, capacity := fun u => ?_ }
  · have ht := h.todo
    rw [htodo] at ht
    exact (List.suffix_cons _ _).trans ht
  · rw [h.flow u, htodo]
    dsimp only
    by_cases hu : u = i
    · subst hu
      rw [part_cons_self, Function.update_self, hcont, List.append_assoc]
      rfl
    · rw [part_cons_of_ne hu, Function.update_of_ne hu]
  · dsimp only
    by_cases hu : u = i
    · subst hu
      rw [Function.update_self, hcap, h.capacity]
    · rw [Function.update_of_ne hu, h.capacity]

/-- What an attempt of `get` does: it goes on to the next attempt, or takes a block. -/
theorem get_cases (m i k : ℕ) (s : LowerHost) :
    ((s.data i).contents = [] ∧ s.get m i k = { s with
      ctrl := if k = 10 then .get (nextColumn m i) 0 else .get i (k + 1) }) ∨
    ∃ b q, (s.data i).contents = b :: q.contents ∧ q.queueCapacity = (s.data i).queueCapacity ∧
      s.get m i k = { s with
        data := Function.update s.data i q
        blockTemp := (s.blockTemp.storeBlock b.mem blockSize).tag blockSize (s.debugCount + 1)
        debugCount := s.debugCount + 1
        ctrl := .send i
        gets := Function.update s.gets i (s.gets i ++ [b]) } := by
  obtain ⟨hpop, hcap, hcont⟩ := (s.data i).pop_eq
  unfold get
  split
  · next b q hp =>
    rw [hp] at hpop hcap hcont
    obtain ⟨l, hl⟩ := List.head?_eq_some_iff.mp hpop.symm
    rw [hl] at hcont
    exact Or.inr ⟨b, q, hl.trans (congrArg _ hcont.symm), hcap, rfl⟩
  · next hp =>
    rw [hp] at hpop
    refine Or.inl ⟨List.head?_eq_none_iff.mp hpop.symm, ?_⟩
    split <;> rfl

theorem Inv.get (h : Inv m puts wire s) {i k : ℕ} (hctrl : s.ctrl = .get i k) :
    Inv m puts wire (s.get m i k) := by
  obtain ⟨hi, hk⟩ := h.column i k hctrl
  have hm : 1 ≤ m := by omega
  have hrun := h.running (by simp [hctrl])
  rcases get_cases m i k s with ⟨-, heq⟩ | ⟨b, q, hcont, hcap, heq⟩
  · have hhand (u : ℕ) : (s.get m i k).hand u = s.hand u := by
      rw [hand_get hctrl, heq]
      unfold hand
      split_ifs <;> rfl
    rw [heq] at hhand ⊢
    refine { h with same := fun u => ?_, column := ?_, sends := ?_, running := fun _ => hrun,
                    final := ?_ }
    · rw [hhand]
      exact h.same u
    · intro j l hj
      dsimp only at hj
      split at hj
      · cases hj
        exact ⟨nextColumn_lt hm i, Nat.zero_le _⟩
      · cases hj
        exact ⟨hi, by omega⟩
    · intro j hj
      dsimp only at hj
      split at hj <;> cases hj
    · intro hj
      dsimp only at hj
      split at hj <;> cases hj
  · have hsame := fun u => h.same u
    simp only [hand_get hctrl, List.append_nil] at hsame
    rw [heq]
    refine { h with flow := fun u => ?_, same := fun u => ?_, size := h.size,
                    capacity := fun u => ?_, column := ?_, sends := ?_, running := fun _ => hrun,
                    final := ?_ }
    · dsimp only
      rw [h.flow u]
      by_cases hu : u = i
      · subst hu
        rw [Function.update_self, Function.update_self, hcont, List.append_assoc]
        rfl
      · rw [Function.update_of_ne hu, Function.update_of_ne hu]
    · rw [hand_send rfl]
      dsimp only
      by_cases hu : u = i
      · subst hu
        rw [Function.update_self, if_pos rfl]
        exact List.rel_append (hsame u) (.cons (sameButTag_tag b _) .nil)
      · rw [Function.update_of_ne hu, if_neg (Ne.symm hu), List.append_nil]
        exact hsame u
    · dsimp only
      by_cases hu : u = i
      · subst hu
        rw [Function.update_self, hcap, h.capacity]
      · rw [Function.update_of_ne hu, h.capacity]
    · intro j l hj
      cases hj
    · intro j hj
      cases hj
      exact hi
    · intro hj
      cases hj

/-- After `m_send`, an empty block is counted, and the last one ends the thread. -/
theorem sent_cases (m i : ℕ) (h : s.blockTemp.size = blockSize) :
    s.sent m i = { s with
      meetZero := s.meetZero + zeros [s.blockTemp.image]
      ctrl := if s.blockTemp.image.count = 0 ∧ s.meetZero + 1 = m then .returned
        else .get (nextColumn m i) 0 } := by
  unfold sent
  rw [Block.getSize_eq_count h, zeros_singleton]
  by_cases h0 : s.blockTemp.image.count = 0
  · by_cases hm : s.meetZero + 1 = m <;> simp [h0, hm]
  · simp [h0]

theorem Inv.sent (h : Inv m puts wire s) {i : ℕ} (hctrl : s.ctrl = .send i) :
    Inv m puts (Function.update wire i (wire i ++ [s.blockTemp.image])) (s.sent m i) := by
  have hi := h.sends i hctrl
  have hm : 1 ≤ m := by omega
  have hrun := h.running (by simp [hctrl])
  have hmet := h.met
  have hsum : ∑ j ∈ Finset.range m,
      zeros (Function.update wire i (wire i ++ [s.blockTemp.image]) j) =
        (∑ j ∈ Finset.range m, zeros (wire j)) + zeros [s.blockTemp.image] :=
    sum_zeros_update hi s.blockTemp.image
  rw [sent_cases m i h.size]
  refine { h with same := fun u => ?_, met := ?_, column := ?_, sends := ?_, running := ?_,
                  final := ?_ }
  · have hnone : hand { s with
        meetZero := s.meetZero + zeros [s.blockTemp.image]
        ctrl := if s.blockTemp.image.count = 0 ∧ s.meetZero + 1 = m then .returned
          else .get (nextColumn m i) 0 } u = [] := by
      unfold hand
      split_ifs <;> rfl
    have hs := h.same u
    rw [hand_send hctrl] at hs
    rw [hnone, List.append_nil]
    by_cases hu : u = i
    · subst hu
      rw [if_pos rfl] at hs
      rw [Function.update_self]
      exact hs
    · rw [if_neg (Ne.symm hu), List.append_nil] at hs
      rw [Function.update_of_ne hu]
      exact hs
  · rw [hsum, hmet]
  · intro j l hj
    dsimp only at hj
    split at hj
    · cases hj
    · cases hj
      exact ⟨nextColumn_lt hm i, Nat.zero_le _⟩
  · intro j hj
    dsimp only at hj
    split at hj <;> cases hj
  · intro hne
    dsimp only at hne ⊢
    rw [zeros_singleton]
    split at hne
    · exact absurd rfl hne
    · next hc =>
      split
      · next h0 => have : s.meetZero + 1 ≠ m := fun h => hc ⟨h0, h⟩; omega
      · exact hrun
  · intro hret
    dsimp only at hret ⊢
    split at hret
    · next hc =>
      rw [zeros_singleton, if_pos hc.1]
      exact hc.2
    · cases hret

/-- All that `execute` puts is sent, on its way, or still to be put. -/
theorem Inv.same_all (h : Inv m puts wire s) (u : ℕ) :
    List.Forall₂ SameButTag (part u puts) (wire u ++ s.unsent u) := by
  have hrest : List.Forall₂ SameButTag _ _ :=
    List.forall₂_refl ((s.data u).contents ++ part u s.todo)
  have hall := List.rel_append (h.same u) hrest
  rw [h.flow u, unsent, ← List.append_assoc (wire u)]
  exact hall

/-- When `send_route` has returned nothing is left to be sent. -/
theorem Inv.returned (h : Inv m puts wire s) (hclosed : ∀ u < m, Closed (part u puts))
    (hret : s.ctrl = .returned) {u : ℕ} (hu : u < m) :
    (s.data u).contents = [] ∧ part u s.todo = [] := by
  have hhand (u : ℕ) : s.hand u = [] := by simp [hand, hret]
  have htaken : s.gets u = part u puts := by
    refine taken_all hclosed (fun u _ => ?_) ?_ hu
    · rw [h.flow u]
      exact List.prefix_append _ _
    · refine Eq.trans ?_ (h.met.symm.trans (h.final hret))
      apply Finset.sum_congr rfl
      intro v _
      have hs := h.same v
      rw [hhand, List.append_nil] at hs
      exact (zeros_eq_of_forall₂ hs).symm
  have hflow := h.flow u
  rw [← htaken, List.self_eq_append_right, List.append_eq_nil_iff] at hflow
  exact hflow

end Step

/-! The way to the connections. -/

/-- The hops that the blocks of this lower still have to make. -/
def left (m : ℕ) (s : LowerHost) : ℕ :=
  6 * s.todo.length +
    ∑ u ∈ Finset.range m, (5 * (s.data u).contents.length + 4 * (s.hand u).length)

section Progress
variable {m : ℕ} {puts : List (ℕ × Image)} {wire : ℕ → List Image} {s s' : LowerHost}

theorem Inv.put_of_room (h : Inv m puts wire s) {i : ℕ} {b : Image} {todo : List (ℕ × Image)}
    (htodo : s.todo = (i, b) :: todo) (hi : i < m) (hnil : (s.data i).contents = []) :
    ∃ s', s.put = some s' ∧ s'.left m < s.left m := by
  obtain ⟨hacc, -, hcont⟩ := (s.data i).push_eq b
  have hpush : ((s.data i).push b).1 = true := by
    rw [hacc, hnil, h.capacity]
    decide
  rw [if_pos hpush, hnil, List.nil_append] at hcont
  have hsum := sum_update hi (fun u q => 5 * q.contents.length + 4 * (s.hand u).length) s.data
    ((s.data i).push b).2
  rw [hcont, hnil] at hsum
  refine ⟨_, by rw [LowerHost.put, htodo]; exact if_pos hpush, ?_⟩
  rw [left, left, htodo]
  change 6 * todo.length + ∑ u ∈ Finset.range m, (5 * (Function.update s.data i
    ((s.data i).push b).2 u).contents.length + 4 * (s.hand u).length) < _
  simp only [List.length_cons, List.length_nil] at hsum ⊢
  omega

/-- With a block in column `j` an attempt takes a block, or comes nearer to this column. -/
theorem Inv.get_nearer (h : Inv m puts wire s) {i k j : ℕ} (hctrl : s.ctrl = .get i k)
    (hj : j < m) (hne : (s.data j).contents ≠ []) :
    (s.get m i k).left m < s.left m ∨ ∃ i' k', s.get m i k = { s with ctrl := .get i' k' } ∧
      ShuffleUpper1.distance m j i' k' < ShuffleUpper1.distance m j i k := by
  obtain ⟨hi, hk⟩ := h.column i k hctrl
  rcases get_cases m i k s with ⟨hnil, heq⟩ | ⟨b, q, hcont, -, heq⟩
  · right
    have hij : i ≠ j := by
      rintro rfl
      exact hne hnil
    have hnear := ShuffleUpper1.distance_next hi hj hij hk
    by_cases h10 : k = 10
    · rw [if_pos h10] at heq
      exact ⟨_, _, heq, hnear.1 h10⟩
    · rw [if_neg h10] at heq
      exact ⟨_, _, heq, hnear.2 h10⟩
  · left
    have hempty (u : ℕ) : s.hand u = [] := hand_get hctrl u
    have hmem := Finset.mem_range.mpr hi
    rw [left, left]
    have htodo : (s.get m i k).todo = s.todo := by rw [heq]
    rw [htodo]
    apply Nat.add_lt_add_left
    apply Finset.sum_lt_sum
    · intro u hu
      rw [hempty, heq]
      dsimp only
      rw [hand_send rfl]
      by_cases hui : u = i
      · subst hui
        rw [Function.update_self, if_pos rfl, hcont]
        simp
        omega
      · rw [Function.update_of_ne hui, if_neg (Ne.symm hui)]
    · refine ⟨i, hmem, ?_⟩
      rw [hempty, heq]
      dsimp only
      rw [hand_send rfl, Function.update_self, if_pos rfl, hcont]
      simp
      omega

/-- `m_send` hands the block over. -/
theorem Inv.left_sent (h : Inv m puts wire s) {i : ℕ} (hctrl : s.ctrl = .send i) :
    (s.sent m i).left m + 4 = s.left m := by
  have hi := h.sends i hctrl
  have hsum := sum_update hi (fun u b => 5 * (s.data u).contents.length + 4 * List.length b)
    s.hand []
  have hupd (u : ℕ) : (s.sent m i).hand u = Function.update s.hand i [] u := by
    have hnone : (s.sent m i).hand u = [] := by
      rw [sent_cases m i h.size]
      unfold hand
      split_ifs <;> rfl
    rw [hnone]
    by_cases hu : u = i
    · subst hu
      rw [Function.update_self]
    · rw [Function.update_of_ne hu, hand_send hctrl, if_neg (Ne.symm hu)]
  have hself : s.hand i = [s.blockTemp.image] := by rw [hand_send hctrl, if_pos rfl]
  have hdata : (s.sent m i).data = s.data ∧ (s.sent m i).todo = s.todo := by
    rw [sent_cases m i h.size]
    exact ⟨rfl, rfl⟩
  rw [left, left, hdata.1, hdata.2]
  simp only [hupd]
  rw [hself] at hsum
  simp only [List.length_singleton, List.length_nil] at hsum
  omega

end Progress
end LowerHost
end Mosito
