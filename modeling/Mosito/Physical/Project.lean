import Mosito.Common.BlockFormat

/-! The projection, which copies its child's tuples from block to block. -/
namespace Mosito
open ByteStore

/-- `child` are the blocks that `child_->execute` still gives. -/
structure Project where
  buffer : Block
  bufferIterator : Option BufferIterator
  child : List Image

namespace Project

/-- The state after `prelude`, with tuples of `bytes` bytes. -/
def prelude (junk : Memory) (bytes : ℕ) (child : List Image) : Project :=
  ⟨Block.make junk blockSize bytes, none, child⟩

/-- `if(child_->execute(buffer_)) buffer_iterator_=buffer_->createIterator();`, `none` when the
child returns false. -/
def nextBlock (p : Project) : Option Project :=
  match p.child with
  | [] => none
  | img :: child => some ⟨p.buffer.storeBlock img.mem blockSize, some .fresh, child⟩

/-- The loop of `execute`: what it returns, and the tuples that it has stored. `none` when a
null pointer is followed, the iterator of a child without blocks or the tuple of a block
without tuples. -/
def fillBlock : ℕ → Project → Block → Option (Bool × List Tuple × Project × Block)
  | 0, _, _ => none
  | fuel + 1, p, block =>
      match block.allocateTuple with
      | none => some (true, [], p, block)
      | some desc =>
          let p := if p.bufferIterator = none then p.nextBlock.getD p else p
          p.bufferIterator.bind fun it =>
            match it.getNext p.buffer with
            | (some src, it) =>
                let tuple := p.buffer.tupleAt src
                (fillBlock fuel { p with bufferIterator := some it }
                  (block.storeTuple desc tuple)).map fun r => (r.1, tuple :: r.2.1, r.2.2)
            | (none, it) =>
                match nextBlock { p with bufferIterator := some it } with
                | none => some (false, [], { p with bufferIterator := some it }, block)
                | some p =>
                    match BufferIterator.fresh.getNext p.buffer with
                    | (none, _) => none
                    | (some src, it) =>
                        let tuple := p.buffer.tupleAt src
                        (fillBlock fuel { p with bufferIterator := some it }
                          (block.storeTuple desc tuple)).map fun r => (r.1, tuple :: r.2.1, r.2.2)

/-- Every round takes room of the block, which bounds their number. -/
def execute (p : Project) (block : Block) : Option (Bool × List Tuple × Project × Block) :=
  fillBlock (block.size + 1) p block.reset

/-- The buffer is one of the pipeline, and its iterator is not past the announced tuples. -/
structure Iterating (t : ℕ) (p : Project) : Prop where
  size : p.buffer.size = blockSize
  tupleSize : p.buffer.tupleSize = t
  current : ∀ it ∈ p.bufferIterator, it.current ≤ p.buffer.getSize
  fits : ∀ img ∈ p.child, img.Fits t

/-- The tuples of the child that are not yet copied. -/
def pending (t : ℕ) (p : Project) : List Tuple :=
  (p.bufferIterator.elim [] fun it => p.buffer.tuples.drop it.current) ++
    p.child.flatMap (Image.tuples t)

section Fill
variable {t : ℕ} {p q : Project}

/-- A new block of the child is read from its first tuple on. -/
theorem Iterating.nextBlock (h : Iterating t p) (hq : p.nextBlock = some q) :
    Iterating t q ∧ q.bufferIterator = some .fresh ∧
      q.pending t = p.child.flatMap (Image.tuples t) := by
  unfold Project.nextBlock at hq
  split at hq
  · cases hq
  · next img child hchild =>
    cases hq
    have hfits := h.fits
    rw [hchild] at hfits
    refine ⟨⟨h.size, h.tupleSize, fun it hit => ?_, fun i hi => hfits i (by simp [hi])⟩, rfl, ?_⟩
    · cases hit
      exact Nat.zero_le _
    · rw [hchild, List.flatMap_cons, ← Block.tuples_storeBlock h.size h.tupleSize (hfits img (by simp))]
      rfl

/-- The next tuple of the iterator is the first one to copy. -/
theorem Iterating.getNext (h : Iterating t p) {it it' : BufferIterator} {src : ℕ}
    (hit : p.bufferIterator = some it) (hnext : it.getNext p.buffer = (some src, it')) :
    p.pending t = p.buffer.tupleAt src :: pending t { p with bufferIterator := some it' } ∧
      Iterating t { p with bufferIterator := some it' } := by
  have hle := h.current it hit
  by_cases he : it.current = p.buffer.getSize
  · simp [BufferIterator.getNext, he] at hnext
  · simp only [BufferIterator.getNext, he, ↓reduceIte, Prod.mk.injEq, Option.some.injEq] at hnext
    obtain ⟨rfl, rfl⟩ := hnext
    refine ⟨?_, h.size, h.tupleSize, fun it' hit' => ?_, h.fits⟩
    · simp only [pending, hit, Option.elim_some]
      rw [Block.tuples_drop (by omega)]
      rfl
    · cases hit'
      change it.current + 1 ≤ p.buffer.getSize
      omega

theorem Iterating.exhausted (h : Iterating t p) {it it' : BufferIterator}
    (hit : p.bufferIterator = some it) (hnext : it.getNext p.buffer = (none, it')) :
    p.pending t = p.child.flatMap (Image.tuples t) ∧
      Iterating t { p with bufferIterator := some it' } := by
  by_cases he : it.current = p.buffer.getSize
  · simp only [BufferIterator.getNext, he, ↓reduceIte, Prod.mk.injEq, true_and] at hnext
    subst hnext
    refine ⟨?_, h.size, h.tupleSize, fun it' hit' => ?_, h.fits⟩
    · rw [pending, hit, Option.elim_some, he, List.drop_eq_nil_of_le (by simp)]
      rfl
    · cases hit'
      exact le_rfl
  · simp [BufferIterator.getNext, he] at hnext

/-- The state of the first round, when there is no iterator yet. -/
theorem Iterating.first (h : Iterating t p) :
    Iterating t (if p.bufferIterator = none then p.nextBlock.getD p else p) ∧
      pending t (if p.bufferIterator = none then p.nextBlock.getD p else p) = p.pending t := by
  split
  · next hnone =>
    cases hq : p.nextBlock with
    | none => exact ⟨h, rfl⟩
    | some q =>
      obtain ⟨hi, -, hp⟩ := h.nextBlock hq
      refine ⟨hi, ?_⟩
      rw [Option.getD_some, hp, pending, hnone]
      rfl
  · exact ⟨h, rfl⟩

/-- The state after calls with these blocks. -/
def calls : List Block → Project → Option Project
  | [], p => some p
  | block :: blocks, p => (p.execute block).bind fun r => calls blocks r.2.2.1

end Fill

end Project
end Mosito
