import Mosito.Common.BlockFormat

/-! The tag that a block gets before it is sent. It is written in front of the count, where the
last tuple of a block may still be. -/
namespace Mosito
open ByteStore
namespace Block

/-- The four bytes of an `int`. -/
def intBytes (v : ℤ) : List UInt8 := leBytes 4 (v % 2 ^ 32).toNat

def tag (b : Block) (size : ℕ) (tg : ℤ) : Block :=
  { b with start := writeAt b.start (size - 8) (intBytes tg) }

/-- What the block `r` of the receiver holds when the tagged block `b` was sent. -/
def received (r b : Block) (tg : ℤ) : Block :=
  r.storeBlock (b.tag blockSize tg).image.mem blockSize

/-- The receiver finds the count of the block, and iterates its tuples. -/
def TagTransparent (r b : Block) (tg : ℤ) : Prop :=
  (received r b tg).getSize = b.getSize ∧
    ∃ fuel, BufferIterator.iterate (received r b tg) fuel .fresh = some b.tuples

section Tag
variable {r b : Block}

@[simp] theorem intBytes_length (v : ℤ) : (intBytes v).length = 4 := leBytes_length _ _

/-- The tag leaves the count alone. -/
theorem getSize_tag (hb : b.size = blockSize) (tg : ℤ) :
    (b.tag blockSize tg).getSize = b.getSize := by
  have hread : readAt (b.tag blockSize tg).start (blockSize - 4) 4 =
      readAt b.start (blockSize - 4) 4 := by
    refine readAt_congr fun i hi _ => writeAt_of_ge _ _ ?_
    rw [intBytes_length]
    exact le_trans (by decide) hi
  change leValue (readAt (b.tag blockSize tg).start (b.size - 4) 4) = _
  rw [hb, hread, getSize, hb]

/-- The tag leaves the tuples alone if it begins with the bytes that they have in its place. -/
theorem tuples_tag_eq_iff (hb : b.size = blockSize)
    (hfits : b.getSize * b.tupleSize ≤ blockSize - 4) (tg : ℤ) :
    (b.tag blockSize tg).tuples = b.tuples ↔
      b.tuples.flatten.drop (blockSize - 8) <+: intBytes tg := by
  have hall : records (b.tag blockSize tg).start b.tupleSize b.tuples.length = b.tuples ↔
      readAt (b.tag blockSize tg).start 0 (b.tuples.length * b.tupleSize) = b.tuples.flatten :=
    records_eq_iff fun _ hs => length_of_mem_records hs
  have hflat : b.tuples.flatten = readAt b.start 0 (b.getSize * b.tupleSize) :=
    records_flatten b.start b.tupleSize b.getSize
  change records _ b.tupleSize (b.tag blockSize tg).getSize = _ ↔ _
  rw [getSize_tag hb, ← b.tuples_length, hall, b.tuples_length, hflat]
  refine readAt_writeAt_eq_iff _ _ ?_
  rw [intBytes_length]
  exact hfits

theorem received_tuples (hb : b.size = blockSize) (hr : r.size = blockSize)
    (htup : r.tupleSize = b.tupleSize) (hfits : b.getSize * b.tupleSize ≤ blockSize - 4) (tg : ℤ) :
    (received r b tg).tuples = (b.tag blockSize tg).tuples := by
  have hfit : (b.tag blockSize tg).image.Fits b.tupleSize := by
    unfold Image.Fits
    rw [← getSize_eq_count (b := b.tag blockSize tg) hb, getSize_tag hb]
    exact hfits.trans (Nat.sub_le _ _)
  rw [received, tuples_storeBlock hr htup hfit]
  exact image_tuples (b := b.tag blockSize tg) hb hfit

/-- A tag is transparent exactly if the tuples end in front of its place, or it begins with the
bytes that they have there. -/
theorem tagTransparent_iff (hb : b.size = blockSize) (hr : r.size = blockSize)
    (htup : r.tupleSize = b.tupleSize) (ht : 1 ≤ b.tupleSize)
    (hcount : b.getSize ≤ (blockSize - 4) / b.tupleSize) (tg : ℤ) :
    TagTransparent r b tg ↔ b.getSize * b.tupleSize ≤ blockSize - 8 ∨
      b.tuples.flatten.drop (blockSize - 8) <+: intBytes tg := by
  have hfits : b.getSize * b.tupleSize ≤ blockSize - 4 := (Nat.le_div_iff_mul_le ht).mp hcount
  have hsize : (received r b tg).getSize = b.getSize := by
    rw [received, getSize_storeBlock hr, ← getSize_eq_count (b := b.tag blockSize tg) hb,
      getSize_tag hb]
  rw [TagTransparent, iterate_fresh_iff, received_tuples hb hr htup hfits,
    tuples_tag_eq_iff hb hfits]
  refine ⟨fun h => Or.inr h.2, fun h => ⟨hsize, h.elim (fun hle => ?_) id⟩⟩
  have hlen : b.tuples.flatten.length = b.getSize * b.tupleSize := by
    rw [← b.tuples_length]
    exact flatten_length fun _ hs => length_of_mem_records hs
  rw [List.drop_eq_nil_of_le (hlen.trans_le hle)]
  exact List.nil_prefix

end Tag

/-- A block full of tuples of `t` zero bytes. -/
def fullBlock (t : ℕ) : Block :=
  (make (fun _ => 0) blockSize t).build blockSize ((blockSize - 4) / t)

theorem getSize_fullBlock (t : ℕ) : (fullBlock t).getSize = (blockSize - 4) / t := by
  refine getSize_build (b := make (fun _ => 0) blockSize t) ?_
  exact (Nat.div_le_self _ _).trans_lt (by decide)

/-- Tuples of two longs end in front of the tag. -/
theorem tagTransparent_two_longs : TagTransparent (fullBlock 16) (fullBlock 16) 7 := by
  refine (tagTransparent_iff rfl rfl rfl (by decide) (getSize_fullBlock 16).le 7).mpr (Or.inl ?_)
  rw [getSize_fullBlock]
  decide

/-- Tuples of an integer and a long reach up to the count, and the tag overwrites the last one. -/
theorem not_tagTransparent_integer_long :
    ¬ TagTransparent (fullBlock 12) (fullBlock 12) 7 := by
  rw [tagTransparent_iff rfl rfl rfl (by decide) (getSize_fullBlock 12).le 7,
    getSize_fullBlock]
  have hbytes : (fullBlock 12).tuples.flatten.drop (blockSize - 8) = [0, 0, 0, 0] := by
    have hflat : (fullBlock 12).tuples.flatten =
        readAt (fullBlock 12).start 0 ((fullBlock 12).getSize * 12) := records_flatten _ _ _
    rw [hflat, getSize_fullBlock, readAt_drop]
    decide
  rw [hbytes]
  decide

end Block
end Mosito
