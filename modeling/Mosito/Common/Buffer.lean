import Mosito.Lib.ByteStore

/-! The pipeline buffers: fixed blocks of tuples with a count in their last four
bytes, and the iterators over them. Addresses are offsets from `start_`. -/
namespace Mosito
open ByteStore

/-- `BLOCK_SIZE`, the bytes of a pipeline block. -/
def blockSize : ℕ := 64 * 1024

/-- `COLUMN_CON`, the blocks of one column of a producer-consumer buffer. -/
def columnCon : ℕ := 20

/-- `DATAVOLUME`, the bound of the keys. -/
def dataVolume : ℕ := 50000000

/-- `CPU_CORE`. -/
def cpuCore : ℕ := 4

/-- `PORT_BASE`, the data port of exchange 0. -/
def portBase : ℕ := 6689

/-- The bytes of one tuple. -/
abbrev Tuple := List UInt8

/-- The `unsigned long` at offset 8, by which tuples are partitioned, sorted and joined. Of a tuple
of less than 16 bytes the source reads what lies behind it; here these bytes are missing. -/
def key (t : Tuple) : ℕ := leValue ((t.drop 8).take 8)

/-- `ULONG_MAX`. -/
def ulongMax : ℕ := 2 ^ 64 - 1

/-- All bytes of a pipeline block, as they are copied, queued and sent. -/
@[ext] structure Image where
  byte : Fin blockSize → UInt8

namespace Image

def mem (img : Image) : Memory := fun i => if h : i < blockSize then img.byte ⟨i, h⟩ else 0

/-- The number of tuples that the tail announces. -/
def count (img : Image) : ℕ := leValue (readAt img.mem (blockSize - 4) 4)

/-- The tuples that the tail announces. -/
def tuples (t : ℕ) (img : Image) : List Tuple := records img.mem t img.count

/-- Every announced tuple lies in the block. -/
def Fits (t : ℕ) (img : Image) : Prop := img.count * t ≤ blockSize

@[simp] theorem tuples_length (t : ℕ) (img : Image) : (img.tuples t).length = img.count := by
  simp [tuples]

theorem length_of_mem_tuples {t : ℕ} {img : Image} {r : Tuple} (h : r ∈ img.tuples t) :
    r.length = t := length_of_mem_records h

theorem length_of_mem_flatMap {t : ℕ} {imgs : List Image} {r : Tuple}
    (h : r ∈ imgs.flatMap (tuples t)) : r.length = t := by
  obtain ⟨img, -, hr⟩ := List.mem_flatMap.mp h
  exact length_of_mem_tuples hr

end Image

/-- `start` is the memory at `start_`, `free` is `free_ - start_`. -/
structure Block where
  start : Memory
  free : ℕ
  size : ℕ
  tupleSize : ℕ

namespace Block

/-- `Block(size, tuple_size)`; `junk` is what `malloc` returns. -/
def make (junk : Memory) (size tupleSize : ℕ) : Block := ⟨junk, 0, size, tupleSize⟩

def reset (b : Block) : Block := { b with free := 0 }

def empty (b : Block) : Bool := b.free = 0

/-- The address of the next tuple, or null. -/
def allocateTuple (b : Block) : Option ℕ :=
  if b.free + b.tupleSize ≤ b.size then some b.free else none

/-- `src` are the bytes at the source address. -/
def storeTuple (b : Block) (desc : ℕ) (src : Tuple) : Block :=
  { b with start := writeAt b.start desc (src.take b.tupleSize), free := b.free + b.tupleSize }

def updateFree (b : Block) : Block := { b with free := b.free + b.tupleSize }

def build (b : Block) (size number : ℕ) : Block :=
  { b with start := writeAt b.start (size - 4) (leBytes 4 number) }

def assembling (b : Block) (size tupleSize : ℕ) : Block :=
  { b with size := size, start := writeAt b.start (size - 4) (leBytes 4 ((size - 4) / tupleSize)) }

/-- `get_size`, the number of tuples in the tail. -/
def getSize (b : Block) : ℕ := leValue (readAt b.start (b.size - 4) 4)

def storeBlock (b : Block) (src : Memory) (size : ℕ) : Block :=
  { b with start := fun i => if i < size then src i else b.start i, free := size }

/-- The bytes that leave the block with a copy of `BLOCK_SIZE` bytes from `getAddr()`. -/
def image (b : Block) : Image := ⟨fun i => b.start i⟩

/-- The bytes of the tuple at an address. -/
def tupleAt (b : Block) (addr : ℕ) : Tuple := readAt b.start addr b.tupleSize

end Block

structure BufferIterator where
  current : ℕ
  fakeCount : ℕ
  deriving DecidableEq, Repr

namespace BufferIterator

/-- `createIterator`; `fake_count_` is set by the first `getNext`. -/
def fresh : BufferIterator := ⟨0, 0⟩

/-- The address of the next tuple or null, and the iterator after the call. -/
def getNext (it : BufferIterator) (b : Block) : Option ℕ × BufferIterator :=
  if it.current = b.getSize then (none, ⟨it.current, 0⟩)
  else (some (it.current * b.tupleSize), ⟨it.current + 1, 0⟩)

/-- Unlike `getNext`, the address is never null. -/
def getNextFake (it : BufferIterator) (b : Block) : ℕ × BufferIterator :=
  ((it.current + (it.fakeCount + 1)) * b.tupleSize, ⟨it.current, it.fakeCount + 1⟩)

/-- `while((tuple=bi->getNext())!=0)`: the tuples met, if null comes within `fuel` calls. -/
def iterate (b : Block) : ℕ → BufferIterator → Option (List Tuple)
  | 0, _ => none
  | fuel + 1, it =>
      match it.getNext b with
      | (none, _) => some []
      | (some addr, it') => (iterate b fuel it').map (b.tupleAt addr :: ·)

end BufferIterator

namespace Block

/-- What a fresh iterator gives until `getNext` returns null. -/
def tuples (b : Block) : List Tuple := records b.start b.tupleSize b.getSize

@[simp] theorem tuples_length (b : Block) : b.tuples.length = b.getSize := by simp [tuples]

theorem tuples_drop {b : Block} {k : ℕ} (hk : k < b.getSize) :
    b.tuples.drop k = b.tupleAt (k * b.tupleSize) :: b.tuples.drop (k + 1) := by
  have hlt : k < b.tuples.length := by rwa [tuples_length]
  rw [List.drop_eq_getElem_cons hlt]
  simp [tuples, records, tupleAt]

theorem iterate_eq (b : Block) (fuel k f : ℕ) (hk : k ≤ b.getSize) :
    BufferIterator.iterate b fuel ⟨k, f⟩ =
      if b.getSize < fuel + k then some (b.tuples.drop k) else none := by
  induction fuel generalizing k f with
  | zero => simp [BufferIterator.iterate, Nat.not_lt.mpr hk]
  | succ fuel ih =>
    by_cases he : k = b.getSize
    · simp [BufferIterator.iterate, BufferIterator.getNext, he]
    · have hd := tuples_drop (show k < b.getSize by omega)
      have hf : fuel + (k + 1) = fuel + 1 + k := by omega
      simp only [BufferIterator.iterate, BufferIterator.getNext, he, ↓reduceIte]
      rw [ih (k + 1) 0 (by omega), hd, hf]
      split <;> rfl

/-- A fresh iterator meets null after the announced tuples, and gives exactly these. -/
theorem iterate_fresh_iff (b : Block) (ts : List Tuple) :
    (∃ fuel, BufferIterator.iterate b fuel .fresh = some ts) ↔ b.tuples = ts := by
  have h (fuel : ℕ) := b.iterate_eq fuel 0 0 (Nat.zero_le _)
  constructor
  · rintro ⟨fuel, hf⟩
    rw [BufferIterator.fresh, h fuel] at hf
    split at hf
    · simpa using hf
    · cases hf
  · rintro rfl
    exact ⟨b.getSize + 1, by rw [BufferIterator.fresh, h]; simp⟩

theorem image_mem {b : Block} {i : ℕ} (h : i < blockSize) : b.image.mem i = b.start i := by
  simp [image, Image.mem, h]

theorem getSize_eq_count {b : Block} (hs : b.size = blockSize) : b.getSize = b.image.count := by
  have hb : blockSize - 4 + 4 = blockSize := by decide
  have hr : readAt b.start (blockSize - 4) 4 = readAt b.image.mem (blockSize - 4) 4 :=
    readAt_congr fun i _ hi => (image_mem (by omega)).symm
  rw [getSize, Image.count, hs, hr]

/-- A receiver of the block's bytes reads the same tuples. -/
theorem image_tuples {b : Block} (hs : b.size = blockSize) (hf : b.image.Fits b.tupleSize) :
    b.image.tuples b.tupleSize = b.tuples := by
  unfold Image.tuples tuples
  rw [getSize_eq_count hs]
  apply records_congr
  apply readAt_congr
  intro i _ hi
  unfold Image.Fits at hf
  exact image_mem (by omega)

@[simp] theorem image_storeBlock (b : Block) (img : Image) :
    (b.storeBlock img.mem blockSize).image = img := by
  ext i
  simp [image, storeBlock, Image.mem]

/-- A copy of a block announces as many tuples as the block. -/
theorem getSize_copy {b c : Block} (hb : b.size = blockSize) (hc : c.size = blockSize) :
    (b.storeBlock c.start blockSize).getSize = c.getSize := by
  have h4 : blockSize - 4 + 4 = blockSize := by decide
  have hr : readAt (b.storeBlock c.start blockSize).start (blockSize - 4) 4 =
      readAt c.start (blockSize - 4) 4 :=
    readAt_congr fun i _ hi => if_pos (by omega)
  rw [getSize, getSize, hc, show (b.storeBlock c.start blockSize).size = blockSize from hb, hr]

theorem getSize_storeBlock {b : Block} (hs : b.size = blockSize) (img : Image) :
    (b.storeBlock img.mem blockSize).getSize = img.count := by
  rw [getSize_eq_count (show (b.storeBlock img.mem blockSize).size = blockSize from hs),
    image_storeBlock]

/-- A popped block is iterated as the tuples that were sent. -/
theorem tuples_storeBlock {b : Block} {t : ℕ} (hs : b.size = blockSize) (ht : b.tupleSize = t)
    {img : Image} (hf : img.Fits t) : (b.storeBlock img.mem blockSize).tuples = img.tuples t := by
  subst ht
  have h := image_tuples (show (b.storeBlock img.mem blockSize).size = blockSize from hs)
    (by rw [image_storeBlock]; exact hf)
  rw [image_storeBlock] at h
  exact h.symm

end Block

/-- A tuple of two longs, the second one below 256. -/
def longTuple (k : UInt8) : Tuple := List.replicate 8 0 ++ k :: List.replicate 7 0

theorem key_longTuple (k : UInt8) : key (longTuple k) = k.toNat := by
  simp [key, longTuple, leValue, Nat.ofDigits]

/-- A block that holds one such tuple. -/
def oneTuple (k : UInt8) : Image :=
  ⟨fun i => if i.val = 8 then k else if i.val = blockSize - 4 then 1 else 0⟩

theorem oneTuple_count (k : UInt8) : (oneTuple k).count = 1 := rfl

/-- A block that holds one tuple of two longs, the second one `k`. -/
def oneLong (k : ℕ) : Image :=
  ⟨fun i => writeAt (writeAt (fun _ => 0) 8 (leBytes 8 k)) (blockSize - 4) (leBytes 4 1) i⟩

theorem oneLong_count (k : ℕ) : (oneLong k).count = 1 := rfl

/-- A block without tuples. -/
def noTuple : Image := ⟨fun _ => 0⟩

end Mosito
