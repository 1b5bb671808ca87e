import Mosito.Common.Buffer
import Mosito.Lib.Runs
import Mathlib.Data.List.ProdSigma

/-! The merge loop of the equi-join. A second, fake cursor on each side is to find the other
tuples of a group of equal keys. -/
namespace Mosito
open ByteStore Runs

inductive Side where
  | left
  | right
  deriving DecidableEq

/-- A `void *` into one of the two partitions. -/
structure JoinPtr where
  side : Side
  addr : ℕ
  deriving DecidableEq

/-- The two places of the loop: `gather_merge`, and the calls of `execute` under `SYN_JOIN`. -/
inductive Caller where
  | gatherMerge
  | execute
  deriving DecidableEq

/-- `main` is the test `l&&r`, the others are the tests of `fake_l` and `fake_r`. -/
inductive JoinPc where
  | main
  | fakeLeft
  | fakeRight
  | returned
  deriving DecidableEq

/-- `junk` is the memory of the output blocks, `built` are the full ones, `pairs` are the
arguments of `combine` so far. -/
structure MergeJoin where
  left : Block
  right : Block
  outBytes : ℕ
  junk : ℕ → Memory
  lfbItr : BufferIterator
  rfbItr : BufferIterator
  l : Option JoinPtr
  r : Option JoinPtr
  fakeL : JoinPtr
  fakeR : JoinPtr
  block : Block
  count : ℕ
  built : List Image
  pairs : List (JoinPtr × JoinPtr)
  pc : JoinPc

namespace MergeJoin

/-- `l=lfb_itr_->getNext()`. -/
def nextLeft (s : MergeJoin) : MergeJoin :=
  let a := s.lfbItr.getNext s.left
  { s with lfbItr := a.2, l := a.1.map (JoinPtr.mk .left) }

/-- `r=rfb_itr_->getNext()`. -/
def nextRight (s : MergeJoin) : MergeJoin :=
  let b := s.rfbItr.getNext s.right
  { s with rfbItr := b.2, r := b.1.map (JoinPtr.mk .right) }

def nextBoth (s : MergeJoin) : MergeJoin := { s.nextLeft.nextRight with pc := .main }

/-- The beginning of the loop, with fresh iterators. -/
def start (left right : Block) (outBytes : ℕ) (junk : ℕ → Memory) : MergeJoin :=
  nextBoth {
    left := left
    right := right
    outBytes := outBytes
    junk := junk
    lfbItr := .fresh
    rfbItr := .fresh
    l := none
    r := none
    fakeL := ⟨.left, 0⟩
    fakeR := ⟨.left, 0⟩
    block := Block.make (junk 0) blockSize outBytes
    count := 0
    built := []
    pairs := []
    pc := .main }

def partitionOf (s : MergeJoin) : Side → Block
  | .left => s.left
  | .right => s.right

/-- The `unsigned long` at offset 8 of an address. -/
def keyAt (b : Block) (addr : ℕ) : ℕ := leValue (readAt b.start (addr + 8) 8)

/-- The key behind a pointer, which must not be past the last tuple of its partition. -/
def readKey (s : MergeJoin) (p : JoinPtr) : Option ℕ :=
  let b := s.partitionOf p.side
  if p.addr < b.getSize * b.tupleSize then some (keyAt b p.addr) else none

/-- 1 for equal keys, 0 for a smaller and -1 for a larger left key. -/
def compare (s : MergeJoin) (left right : JoinPtr) : Option ℤ :=
  (s.readKey left).bind fun a => (s.readKey right).map fun b =>
    if a = b then 1 else if a < b then 0 else -1

/-- `combine(desc, left, right)`, `updateFree` and the count. -/
def combine (desc : ℕ) (left right : JoinPtr) (s : MergeJoin) : MergeJoin :=
  let lbytes := readAt (s.partitionOf left.side).start left.addr s.left.tupleSize
  let rbytes := readAt (s.partitionOf right.side).start right.addr s.right.tupleSize
  let mem := writeAt (writeAt s.block.start desc lbytes) (desc + s.left.tupleSize) rbytes
  { s with
    block := { s.block with start := mem }.updateFree
    count := s.count + 1
    pairs := s.pairs ++ [(left, right)] }

/-- The output block is full: `gather_merge` goes back to `funck` with a new block and the old
count, `execute` returns true and is called again. -/
def full (caller : Caller) (s : MergeJoin) : MergeJoin :=
  let built := s.built ++ [(s.block.build blockSize s.count).image]
  nextBoth { s with
    block := Block.make (s.junk built.length) blockSize s.outBytes
    count := if caller = .execute then 0 else s.count
    built := built }

/-- `fake_l=lfb_itr_->getNextFake()`. -/
def nextFakeL (s : MergeJoin) : MergeJoin :=
  let a := s.lfbItr.getNextFake s.left
  { s with lfbItr := a.2, fakeL := ⟨.left, a.1⟩ }

/-- The first `fake_r=rfb_itr_->getNextFake()`. -/
def firstFakeR (s : MergeJoin) : MergeJoin :=
  let b := s.rfbItr.getNextFake s.right
  { s with rfbItr := b.2, fakeR := ⟨.right, b.1⟩ }

/-- The further ones, which are taken from the left iterator: `fake_r=lfb_itr_->getNextFake()`. -/
def nextFakeR (s : MergeJoin) : MergeJoin :=
  let a := s.lfbItr.getNextFake s.left
  { s with lfbItr := a.2, fakeR := ⟨.left, a.1⟩ }

/-- Store a pair and go on with `next`, or start over with another block. -/
def emit (caller : Caller) (left right : JoinPtr) (next : MergeJoin → MergeJoin) (s : MergeJoin) :
    MergeJoin :=
  match s.block.allocateTuple with
  | some desc => next (s.combine desc left right)
  | none => s.full caller

/-- One round of one of the loops; `none` after a read past the last tuple, and at the end. -/
def step (caller : Caller) (s : MergeJoin) (_ : Unit) : Option MergeJoin :=
  match s.pc with
  | .main =>
      match s.l, s.r with
      | some l, some r =>
          (s.compare l r).map fun c =>
            if c = 1 then s.emit caller l r fun s =>
              { s.nextFakeL.firstFakeR with pc := .fakeLeft }
            else if c = 0 then s.nextLeft
            else s.nextRight
      | _, _ => some { s with pc := .returned }
  | .fakeLeft =>
      s.r.bind fun r => (s.compare s.fakeL r).map fun c =>
        if c = 1 then s.emit caller s.fakeL r nextFakeL
        else { s with pc := .fakeRight }
  | .fakeRight =>
      s.l.bind fun l => (s.compare l s.fakeR).map fun c =>
        if c = 1 then s.emit caller l s.fakeR nextFakeR
        else s.nextBoth
  | .returned => none

/-- The tuple at position `i` of a partition. -/
def keyOf (b : Block) (i : ℕ) : ℕ := keyAt b (i * b.tupleSize)

/-- Non-decreasing in the key. -/
def SortedBlock (b : Block) : Prop := ∀ i j, i ≤ j → j < b.getSize → keyOf b i ≤ keyOf b j

/-- The positions `i` and `j` have equal keys. -/
def Match (L R : Block) (i j : ℕ) : Prop :=
  i < L.getSize ∧ j < R.getSize ∧ keyOf L i = keyOf R j

instance (L R : Block) (i j : ℕ) : Decidable (Match L R i j) :=
  inferInstanceAs (Decidable (_ ∧ _ ∧ _))

/-- The pointers to two positions. -/
def pair (L R : Block) (i j : ℕ) : JoinPtr × JoinPtr :=
  (⟨.left, i * L.tupleSize⟩, ⟨.right, j * R.tupleSize⟩)

/-- All pairs of tuples with equal keys. -/
def equiPairs (L R : Block) : List (JoinPtr × JoinPtr) :=
  ((List.range L.getSize ×ˢ List.range R.getSize).filter fun p => Match L R p.1 p.2).map
    fun p => pair L R p.1 p.2

/-- The loop ends, without a read past a last tuple, and has combined exactly the pairs with
equal keys. -/
def Exact (caller : Caller) (L R : Block) (outBytes : ℕ) (junk : ℕ → Memory) : Prop :=
  ∃ k s, run (step caller) (start L R outBytes junk) (List.replicate k ()) = some s ∧
    s.pc = .returned ∧ s.pairs.Perm (equiPairs L R)

/-- A common key is found once on each side, and not at the last two positions. -/
def Sparse (L R : Block) : Prop :=
  ∀ i j, Match L R i j → i + 2 < L.getSize ∧ j + 2 < R.getSize ∧
    (∀ i', Match L R i' j → i' = i) ∧ ∀ j', Match L R i j' → j' = j

section Positions
variable {L R : Block} {i j : ℕ} {s : MergeJoin}

/-- The pointer to position `i`, or null behind the last one. -/
def pointer (side : Side) (b : Block) (i : ℕ) : Option JoinPtr :=
  if i < b.getSize then some ⟨side, i * b.tupleSize⟩ else none

/-- The cursors `l` and `r` are at the positions `i` and `j`. -/
structure At (L R : Block) (i j : ℕ) (s : MergeJoin) : Prop where
  left : s.left = L
  right : s.right = R
  l : s.l = pointer .left L i
  r : s.r = pointer .right R j
  lcur : i < L.getSize → s.lfbItr.current = i + 1
  rcur : j < R.getSize → s.rfbItr.current = j + 1

theorem getNext_pointer (side : Side) {b : Block} {it : BufferIterator} {i : ℕ}
    (h : it.current = i) (hi : i ≤ b.getSize) :
    (it.getNext b).1.map (JoinPtr.mk side) = pointer side b i ∧
      (i < b.getSize → (it.getNext b).2.current = i + 1) := by
  unfold BufferIterator.getNext pointer
  rw [h]
  split_ifs
  · omega
  · exact ⟨rfl, fun hlt => by omega⟩
  · exact ⟨rfl, fun _ => rfl⟩
  · omega

theorem getNext_fakeCount (it : BufferIterator) (b : Block) : (it.getNext b).2.fakeCount = 0 := by
  unfold BufferIterator.getNext
  split_ifs <;> rfl

theorem At.nextLeft (h : At L R i j s) (hi : i < L.getSize) : At L R (i + 1) j s.nextLeft := by
  obtain ⟨hl, hcur⟩ := getNext_pointer .left (h.lcur hi) (b := L) hi
  rw [← h.left] at hl hcur
  exact ⟨h.left, h.right, by rw [← h.left]; exact hl, h.r, by rw [← h.left]; exact hcur, h.rcur⟩

theorem At.nextRight (h : At L R i j s) (hj : j < R.getSize) :
    At L R i (j + 1) s.nextRight := by
  obtain ⟨hr, hcur⟩ := getNext_pointer .right (h.rcur hj) (b := R) hj
  rw [← h.right] at hr hcur
  exact ⟨h.left, h.right, h.l, by rw [← h.right]; exact hr, h.lcur, by rw [← h.right]; exact hcur⟩

/-- A step that leaves the cursors alone. -/
theorem At.congr {s' : MergeJoin} (h : At L R i j s) (hleft : s'.left = s.left)
    (hright : s'.right = s.right) (hl : s'.l = s.l) (hr : s'.r = s.r)
    (hlcur : s'.lfbItr.current = s.lfbItr.current)
    (hrcur : s'.rfbItr.current = s.rfbItr.current) : At L R i j s' :=
  ⟨hleft.trans h.left, hright.trans h.right, hl.trans h.l, hr.trans h.r,
    fun hi => hlcur.trans (h.lcur hi), fun hj => hrcur.trans (h.rcur hj)⟩

theorem At.nextBoth (h : At L R i j s) (hi : i < L.getSize) (hj : j < R.getSize) :
    At L R (i + 1) (j + 1) s.nextBoth :=
  ((h.nextLeft hi).nextRight hj).congr rfl rfl rfl rfl rfl rfl

theorem At.full (h : At L R i j s) (caller : Caller) (hi : i < L.getSize) (hj : j < R.getSize) :
    At L R (i + 1) (j + 1) (s.full caller) :=
  At.nextBoth (h.congr rfl rfl rfl rfl rfl rfl) hi hj

theorem at_start (L R : Block) (outBytes : ℕ) (junk : ℕ → Memory) :
    At L R 0 0 (start L R outBytes junk) := by
  have hcur : BufferIterator.fresh.current = 0 := rfl
  obtain ⟨hl, hlcur⟩ := getNext_pointer .left hcur (Nat.zero_le L.getSize)
  obtain ⟨hr, hrcur⟩ := getNext_pointer .right hcur (Nat.zero_le R.getSize)
  exact ⟨rfl, rfl, hl, hr, hlcur, hrcur⟩

variable (hl : 0 < L.tupleSize) (hr : 0 < R.tupleSize)

include hl in
theorem readKey_left (h : s.left = L) (i : ℕ) :
    s.readKey ⟨.left, i * L.tupleSize⟩ = if i < L.getSize then some (keyOf L i) else none := by
  simp only [readKey, partitionOf, h, Nat.mul_lt_mul_right hl]
  rfl

include hr in
theorem readKey_right (h : s.right = R) (j : ℕ) :
    s.readKey ⟨.right, j * R.tupleSize⟩ = if j < R.getSize then some (keyOf R j) else none := by
  simp only [readKey, partitionOf, h, Nat.mul_lt_mul_right hr]
  rfl

include hl hr in
theorem pair_inj {a b a' b' : ℕ} : pair L R a b = pair L R a' b' ↔ a = a' ∧ b = b' := by
  simp [pair, hl.ne', hr.ne']

include hl hr in
theorem compare_eq (h : At L R i j s) {a b : ℕ} (ha : a < L.getSize) (hb : b < R.getSize) :
    s.compare ⟨.left, a * L.tupleSize⟩ ⟨.right, b * R.tupleSize⟩ =
      some (if keyOf L a = keyOf R b then 1 else if keyOf L a < keyOf R b then 0 else -1) := by
  rw [compare, readKey_left hl h.left, readKey_right hr h.right, if_pos ha, if_pos hb]
  rfl

end Positions

end MergeJoin
end Mosito
