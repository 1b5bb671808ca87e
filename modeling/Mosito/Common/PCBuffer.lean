import Mosito.Common.BlockCircleQueue
import Mosito.Common.BlockFormat
import Mosito.Common.LoserTree
import Mosito.Common.Schema

/-! The merging consumer of a producer-consumer buffer. A column's queue is seen
through the outcomes of the `pop` attempts made on it, `none` for an attempt on an
empty queue, so that every timing of the producers is one list of outcomes. -/
namespace Mosito
open ByteStore

/-- A tuple pointer: null, into `merged_blocks_[column]`, or to `malloc`ed bytes. -/
inductive Ptr where
  | null
  | block (column addr : ℕ)
  | heap (bytes : Tuple)
  deriving DecidableEq, Repr

/-- `CompareTemp::compare`. -/
def compareTemp (left right : Tuple) : Bool := if key left > key right then false else true

theorem compareTemp_iff (x y : Tuple) : compareTemp x y = true ↔ key x ≤ key y := by
  simp [compareTemp]

structure PCBuffer where
  ns : NewSchema
  row : ℕ
  data : ℕ → List (Option Image)
  mergedBlocks : ℕ → Block
  itrs : ℕ → BufferIterator
  lt : LoserTree Ptr
  finished : ℕ
  begun : Bool
  junk : Memory

namespace PCBuffer

/-- A new buffer; `data`, `junk` and the trees' arrays are the environment's. -/
def make (ns : NewSchema) (row : ℕ) (data : ℕ → List (Option Image)) (junk : Memory)
    (lt : LoserTree Ptr) : PCBuffer where
  ns := ns
  row := row
  data := data
  mergedBlocks := fun _ => Block.make junk blockSize ns.totalsize
  itrs := fun _ => .fresh
  lt := lt
  finished := 0
  begun := false
  junk := junk

def deref (pc : PCBuffer) : Ptr → Tuple
  | .null => []
  | .block column addr => (pc.mergedBlocks column).tupleAt addr
  | .heap bytes => bytes

def comparePtr (pc : PCBuffer) (l r : Ptr) : Bool := compareTemp (pc.deref l) (pc.deref r)

theorem comparePtr_iff (pc : PCBuffer) (l r : Ptr) :
    pc.comparePtr l r = true ↔ key (pc.deref l) ≤ key (pc.deref r) := compareTemp_iff _ _

/-- `while(data_[i]->pop(block)==false);`, `none` when no attempt succeeds. -/
def popWait : List (Option Image) → Option (Image × List (Option Image))
  | [] => none
  | none :: rest => popWait rest
  | some img :: rest => some (img, rest)

/-- Wait for a block of column `i` and store it in `merged_blocks_[i]`; a reset of this block
before the wait leaves no trace. -/
def fetch (i : ℕ) (pc : PCBuffer) : Option PCBuffer :=
  (popWait (pc.data i)).map fun r =>
    { pc with
      data := Function.update pc.data i r.2
      mergedBlocks := Function.update pc.mergedBlocks i
        ((pc.mergedBlocks i).storeBlock r.1.mem blockSize) }

def createIterator (i : ℕ) (pc : PCBuffer) : PCBuffer :=
  { pc with itrs := Function.update pc.itrs i .fresh }

/-- `itrs_[i]->getNext()`. -/
def getNext (i : ℕ) (pc : PCBuffer) : Ptr × PCBuffer :=
  let r := (pc.itrs i).getNext (pc.mergedBlocks i)
  (r.1.elim .null (.block i), { pc with itrs := Function.update pc.itrs i r.2 })

/-- The first block of each of the first `k` columns. -/
def fetchFirst : ℕ → PCBuffer → Option PCBuffer
  | 0, pc => some pc
  | k + 1, pc => (fetchFirst k pc).bind fun pc => (pc.fetch k).map (createIterator k)

/-- The first tuple of each of the first `k` columns. -/
def firstTuples : ℕ → (ℕ → Ptr) → PCBuffer → (ℕ → Ptr) × PCBuffer
  | 0, array, pc => (array, pc)
  | k + 1, array, pc =>
      let r := firstTuples k array pc
      let x := r.2.getNext k
      (Function.update r.1 (k + 1) x.1, x.2)

/-- The part of `get_sorted` guarded by `begin_`. -/
def start (pc : PCBuffer) : Option PCBuffer :=
  (fetchFirst pc.row pc).map fun pc =>
    let r := firstTuples pc.row pc.lt.L pc
    { r.2 with
      lt := LoserTree.initializeTree r.2.comparePtr pc.lt.B r.1 pc.row
      begun := true }

/-- What follows a stored tuple: a new tuple for its column, or the end of all columns. -/
inductive Advance where
  | next (tuple : Ptr) (pc : PCBuffer)
  | ended (pc : PCBuffer)

/-- The next tuple of column `i`, from its block, from its queue, or the sentinel. -/
def advance (i : ℕ) (pc : PCBuffer) : Option Advance :=
  match pc.getNext i with
  | (.null, pc) =>
      (pc.fetch i).map fun pc =>
        if (pc.mergedBlocks i).getSize = 0 then
          let pc' := { pc with finished := pc.finished + 1 }
          if pc'.finished = pc'.row then .ended pc'
          else .next (.heap (pc.ns.sentinel pc.junk)) pc'
        else
          let r := (pc.createIterator i).getNext i
          .next r.1 r.2
  | (ptr, pc) => some (.next ptr pc)

/-- One call: its result, the buffer and the output block after it, and the tuples it
passed to `storeTuple`. -/
structure Call where
  ret : Bool
  pc : PCBuffer
  block : Block
  stored : List Tuple

/-- The loop of `get_sorted`; `none` when it waits for a block that never comes. -/
def mergeLoop : ℕ → PCBuffer → Block → List Tuple → Option Call
  | 0, _, _, _ => none
  | fuel + 1, pc, block, out =>
      match block.allocateTuple with
      | none => some ⟨true, pc, block.assembling blockSize pc.ns.totalsize, out⟩
      | some desc =>
          let winner := pc.lt.winner
          let temp := pc.deref pc.lt.winning
          let block := block.storeTuple desc temp
          match pc.advance (winner - 1) with
          | none => none
          | some (.ended pc) => some ⟨false, pc, block.build blockSize 0, out ++ [temp]⟩
          | some (.next tuple pc) =>
              let lt := (pc.lt.load winner tuple).replay pc.comparePtr winner
              if lt.winning = .null then
                some ⟨true, { pc with lt := lt },
                  block.assembling blockSize pc.ns.totalsize, out ++ [temp]⟩
              else mergeLoop fuel { pc with lt := lt } block (out ++ [temp])

/-- Every round of the loop takes at least one byte of the block. -/
def getSorted (pc : PCBuffer) (block : Block) : Option Call :=
  (if pc.begun then some pc else pc.start).bind fun pc =>
    mergeLoop (block.size + 1) pc block.reset []

/-- Successive calls up to the first one that returns false, if it is among the first `k`. -/
def sortedRun : ℕ → PCBuffer → Block → Option (List Call)
  | 0, _, _ => none
  | k + 1, pc, block =>
      (pc.getSorted block).bind fun c =>
        if c.ret then (sortedRun k c.pc c.block).map (c :: ·) else some [c]

end PCBuffer
end Mosito
