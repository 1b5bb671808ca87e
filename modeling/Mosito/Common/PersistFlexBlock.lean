import Mosito.Common.FlexBlock
import Mosito.Lib.Runs

/-! The growing buffer of a run file: tuples are stored, it is doubled, written to a file and reset
in any order. -/
namespace Mosito
open ByteStore Runs

/-- `stored` are the tuples since the last reset, `written` what the calls of `persist` wrote. -/
structure PersistFlexBlock where
  buffer : FlexBlock
  stored : List Tuple
  written : List (List UInt8)

namespace PersistFlexBlock

/-- The operations on tuples of `t` bytes. -/
inductive Op (t : ℕ) where
  | storeTupleOK (tuple : { x : Tuple // x.length = t })
  | doubleBuffer
  | persist
  | reset

/-- `PersistFlexBlock(size, tuple_size)` -/
def make (junk : Memory) (size tupleSize : ℕ) : PersistFlexBlock :=
  ⟨FlexBlock.make junk size tupleSize, [], []⟩

/-- `none` when a size is no `unsigned`. -/
def step (t : ℕ) (junk : Memory) (p : PersistFlexBlock) : Op t → Option PersistFlexBlock
  | .storeTupleOK x => (p.buffer.storeTupleOK junk x).map fun f =>
      { p with buffer := f, stored := p.stored ++ [x.val] }
  | .doubleBuffer => (p.buffer.doubleBuffer junk).map fun f => { p with buffer := f }
  | .persist => some { p with written := p.written ++ [p.buffer.persist] }
  | .reset => some { p with buffer := p.buffer.reset, stored := [] }

/-- `free_`, `size_` and the allocation are related, the stored tuples lie between `start_` and
`free_`, and `persist` writes them. -/
structure Related (p : PersistFlexBlock) : Prop where
  free_le : p.buffer.block.free ≤ p.buffer.block.size
  size_le : p.buffer.block.size ≤ p.buffer.alloc
  bytes : readAt p.buffer.block.start 0 p.buffer.block.free = p.stored.flatten
  persist : p.buffer.persist = p.stored.flatten

section Step
variable {junk : Memory} {t : ℕ} {p p' : PersistFlexBlock} {op : Op t}

/-- A reset finds as many bytes allocated as it announces. -/
def RoomToReset (p : PersistFlexBlock) : Op t → Prop
  | .reset => FlexBlock.heapSortBufferInitSize ≤ p.buffer.alloc
  | _ => True

/-- What holds in every state that is reached with room to reset. -/
structure Inv (t : ℕ) (p : PersistFlexBlock) : Prop where
  sound : p.buffer.Sound p.stored
  tupleSize : p.buffer.block.tupleSize = t

theorem Inv.related (h : Inv t p) : Related p := by
  have hbytes : readAt p.buffer.block.start 0 p.buffer.block.free = p.stored.flatten := by
    rw [h.sound.stored.free_eq]
    exact h.sound.stored.bytes
  exact ⟨h.sound.stored.room, h.sound.size_le, hbytes, hbytes⟩

theorem inv_make (junk : Memory) (t : ℕ) {s : ℕ} (hs : 1 ≤ s) : Inv t (make junk s t) :=
  ⟨⟨Block.stored_reset (Block.make junk s t), hs, le_rfl, rfl⟩, rfl⟩

theorem Inv.step (h : Inv t p) (hroom : RoomToReset p op) (hs : p.step t junk op = some p') :
    Inv t p' := by
  cases op with
  | storeTupleOK x =>
    obtain ⟨f, hf, rfl⟩ := Option.map_eq_some_iff.mp hs
    obtain ⟨hsound, htup⟩ := h.sound.storeTupleOK (x.property.trans h.tupleSize.symm) hf
    exact ⟨hsound, htup.trans h.tupleSize⟩
  | doubleBuffer =>
    obtain ⟨f, hf, rfl⟩ := Option.map_eq_some_iff.mp hs
    obtain ⟨hsound, -, -, htup⟩ := h.sound.doubleBuffer hf
    exact ⟨hsound, htup.trans h.tupleSize⟩
  | persist =>
    cases hs
    exact ⟨h.sound, h.tupleSize⟩
  | reset =>
    cases hs
    refine ⟨⟨?_, ?_, hroom, h.sound.inside_eq⟩, h.tupleSize⟩
    · exact Block.stored_reset { p.buffer.block with size := FlexBlock.heapSortBufferInitSize }
    · exact (by decide : 0 < FlexBlock.heapSortBufferInitSize)

/-- Without room to reset, `size_` is more than is allocated. -/
theorem not_related_of_reset (junk : Memory) (hroom : ¬ RoomToReset p op) :
    ∃ p', p.step t junk op = some p' ∧ ¬ Related p' := by
  cases op with
  | reset => exact ⟨_, rfl, fun h => hroom h.size_le⟩
  | _ => exact absurd trivial hroom

end Step

/-- The buffer is right in all states of a run exactly if every reset finds as many bytes allocated
as it announces. -/
theorem run_related_iff (junk : Memory) {s t : ℕ} (hs : 1 ≤ s) (ops : List (Op t)) :
    (∀ ops' p, ops' <+: ops → run (step t junk) (make junk s t) ops' = some p → Related p) ↔
      Along (step t junk) RoomToReset (make junk s t) ops :=
  along_iff (fun _ _ _ h hroom => h.step hroom) (fun _ => Inv.related)
    (fun _ _ _ => not_related_of_reset junk) (inv_make junk t hs)

/-- A buffer of the size that a reset announces can be reset from the start. -/
theorem run_related_resets :
    Along (step 16 fun _ => 0) RoomToReset (make (fun _ => 0) 1024 16) [.reset, .persist, .reset] ∧
      ∀ ops' p, ops' <+: [.reset, .persist, .reset] →
        run (step 16 fun _ => 0) (make (fun _ => 0) 1024 16) ops' = some p → Related p := by
  have hroom : Along (step 16 fun _ => 0) RoomToReset (make (fun _ => 0) 1024 16)
      [.reset, .persist, .reset] := by
    refine ⟨(by decide : FlexBlock.heapSortBufferInitSize ≤ 1024), fun p₁ h₁ => ?_⟩
    cases h₁
    refine ⟨trivial, fun p₂ h₂ => ?_⟩
    cases h₂
    exact ⟨(by decide : FlexBlock.heapSortBufferInitSize ≤ 1024), fun _ _ => trivial⟩
  exact ⟨hroom, (run_related_iff (fun _ => 0) (by decide) _).mpr hroom⟩

/-- A reset of a buffer of 64 bytes announces 1024. -/
theorem not_related_small :
    ∃ p, run (step 16 fun _ => 0) (make (fun _ => 0) 64 16) [.reset] = some p ∧ ¬ Related p := by
  refine ⟨_, rfl, fun h => ?_⟩
  exact absurd h.size_le (by decide)

end PersistFlexBlock
end Mosito
