import Mosito.Common.BlockFormat

/-! Blocks that grow by doubling, as the merge join gathers its partitions. Next to the
block itself the model keeps the size last passed to `malloc` or `realloc` and whether
every byte touched so far lay inside it. -/
namespace Mosito
open ByteStore

/-- `INIT_FLEX_BLOCK_SIZE`. -/
def initFlexBlockSize : ℕ := 64

structure FlexBlock where
  block : Block
  alloc : ℕ
  inside : Bool

namespace FlexBlock

/-- `FlexBlock(size, tuple_size)`; `junk` are the bytes that the allocator hands out. -/
def make (junk : Memory) (size tupleSize : ℕ) : FlexBlock := ⟨Block.make junk size tupleSize, size, true⟩

/-- An access to `len` bytes from `off` on. -/
def touch (off len : ℕ) (f : FlexBlock) : FlexBlock :=
  { f with inside := f.inside && decide (off + len ≤ f.alloc) }

/-- `double_buffer` with the increasing factor 2. `realloc` keeps the bytes of both sizes;
`none` when the product is no `unsigned`. -/
def doubleBuffer (junk : Memory) (f : FlexBlock) : Option FlexBlock :=
  let size := 2 * f.block.size
  if size < 2 ^ 32 then
    some { f with
      block := { f.block with
        size := size
        start := fun i => if i < min f.alloc size then f.block.start i else junk i }
      alloc := size }
  else none

/-- `while((des=this->allocateTuple())==0) this->double_buffer();` -/
def allocateOK (junk : Memory) : ℕ → FlexBlock → Option (ℕ × FlexBlock)
  | fuel, f =>
      match f.block.allocateTuple with
      | some des => some (des, f)
      | none =>
          match fuel with
          | 0 => none
          | fuel + 1 => (doubleBuffer junk f).bind (allocateOK junk fuel)

/-- The loop never doubles a buffer 32 times: its size would leave the `unsigned`s. -/
def storeTupleOK (junk : Memory) (f : FlexBlock) (tuple : Tuple) : Option FlexBlock :=
  (allocateOK junk 32 f).map fun (des, g) =>
    touch des g.block.tupleSize { g with block := g.block.storeTuple des tuple }

/-- Store one tuple after the other. -/
def storeAll (junk : Memory) (ts : List Tuple) (f : FlexBlock) : Option FlexBlock :=
  ts.foldlM (storeTupleOK junk) f

/-- `HEAP_SORT_BUFFER_INIT_SIZE`. -/
def heapSortBufferInitSize : ℕ := 1024

/-- `FlexBlock::reset`; the bytes stay allocated. -/
def reset (f : FlexBlock) : FlexBlock :=
  { f with block := { f.block with size := heapSortBufferInitSize, free := 0 } }

/-- The bytes that `persist` writes. -/
def persist (f : FlexBlock) : List UInt8 := readAt f.block.start 0 f.block.free

def assembling (size tupleSize : ℕ) (f : FlexBlock) : FlexBlock :=
  touch (size - 4) 4 { f with block := f.block.assembling size tupleSize }

/-- The tuples met until `getNext` returns null, as in `BufferIterator.iterate`; every call
reads the tail, and the caller reads the tuple. -/
def iterate : ℕ → BufferIterator → FlexBlock → Option (List Tuple × FlexBlock)
  | 0, _, _ => none
  | fuel + 1, it, f =>
      let g := touch (f.block.size - 4) 4 f
      match it.getNext f.block with
      | (none, _) => some ([], g)
      | (some addr, it') =>
          (iterate fuel it' (touch addr f.block.tupleSize g)).map fun r =>
            (f.block.tupleAt addr :: r.1, r.2)

/-- The block holds `ts`, and all its bytes are allocated. -/
structure Sound (f : FlexBlock) (ts : List Tuple) : Prop where
  stored : f.block.Stored ts
  size_pos : 0 < f.block.size
  size_le : f.block.size ≤ f.alloc
  inside_eq : f.inside = true

section Sound
variable {junk : Memory} {f g : FlexBlock} {ts : List Tuple}

theorem Sound.doubleBuffer (h : Sound f ts) (hg : FlexBlock.doubleBuffer junk f = some g) :
    Sound g ts ∧ g.block.size = 2 * f.block.size ∧ g.block.free = f.block.free ∧
      g.block.tupleSize = f.block.tupleSize := by
  have hroom := h.stored.room
  have hpos := h.size_pos
  have hle := h.size_le
  simp only [FlexBlock.doubleBuffer] at hg
  split_ifs at hg
  rw [Option.some.injEq] at hg
  subst hg
  refine ⟨⟨⟨h.stored.free_eq, ?_, h.stored.sizes, ?_⟩, ?_, le_rfl, h.inside_eq⟩, rfl, rfl, rfl⟩
  · change f.block.free ≤ 2 * f.block.size
    omega
  · rw [← h.stored.bytes]
    apply readAt_congr
    intro i _ hi
    rw [← h.stored.free_eq] at hi
    exact if_pos (by omega)
  · change 0 < 2 * f.block.size
    omega

/-- The growth loop keeps what is stored and ends with room. -/
theorem Sound.allocateOK {fuel des : ℕ} (h : Sound f ts)
    (ha : FlexBlock.allocateOK junk fuel f = some (des, g)) :
    Sound g ts ∧ g.block.allocateTuple = some des ∧ g.block.tupleSize = f.block.tupleSize := by
  induction fuel generalizing f with
  | zero =>
    rw [FlexBlock.allocateOK] at ha
    split at ha
    · next hdes =>
      cases ha
      exact ⟨h, hdes, rfl⟩
    · cases ha
  | succ fuel ih =>
    rw [FlexBlock.allocateOK] at ha
    split at ha
    · next hdes =>
      cases ha
      exact ⟨h, hdes, rfl⟩
    · obtain ⟨f', hf', hrest⟩ := Option.bind_eq_some_iff.mp ha
      obtain ⟨hsound, -, -, htup⟩ := h.doubleBuffer hf'
      obtain ⟨hg, hdes, htup'⟩ := ih hsound hrest
      exact ⟨hg, hdes, htup'.trans htup⟩

/-- The growth loop ends when at most `2 ^ 31` bytes are needed. -/
theorem Sound.allocateOK_isSome {fuel : ℕ} (h : Sound f ts)
    (hneed : f.block.free + f.block.tupleSize ≤ 2 ^ 31)
    (hfuel : 2 ^ 31 ≤ f.block.size * 2 ^ fuel) :
    (FlexBlock.allocateOK junk fuel f).isSome = true := by
  induction fuel generalizing f with
  | zero =>
    rw [FlexBlock.allocateOK, Block.allocateTuple, if_pos (by omega)]
    rfl
  | succ fuel ih =>
    rw [FlexBlock.allocateOK]
    split
    · rfl
    · next hnone =>
      have hfull := Block.allocateTuple_eq_none.mp hnone
      obtain ⟨g, hg⟩ : ∃ g, FlexBlock.doubleBuffer junk f = some g :=
        ⟨_, if_pos (by omega)⟩
      obtain ⟨hsound, hsize, hfree, htup⟩ := h.doubleBuffer hg
      rw [hg, Option.bind_some]
      refine ih hsound (by rwa [hfree, htup]) ?_
      rw [hsize]
      calc 2 ^ 31 ≤ f.block.size * 2 ^ (fuel + 1) := hfuel
        _ = 2 * f.block.size * 2 ^ fuel := by ring

theorem Sound.storeTupleOK (h : Sound f ts) {x : Tuple} (hx : x.length = f.block.tupleSize)
    (hg : FlexBlock.storeTupleOK junk f x = some g) :
    Sound g (ts ++ [x]) ∧ g.block.tupleSize = f.block.tupleSize := by
  obtain ⟨⟨des, g'⟩, ha, rfl⟩ := Option.map_eq_some_iff.mp hg
  obtain ⟨hsound, hdes, htup⟩ := h.allocateOK ha
  have hst := hsound.stored.storeTuple hdes (hx.trans htup.symm)
  obtain ⟨hroom, hdes'⟩ := Block.allocateTuple_eq_some.mp hdes
  have hle := hsound.size_le
  refine ⟨⟨hst, hsound.size_pos, hle, ?_⟩, htup⟩
  change (g'.inside && decide (des + g'.block.tupleSize ≤ g'.alloc)) = true
  rw [hsound.inside_eq, Bool.true_and, decide_eq_true_eq]
  omega

theorem Sound.storeTupleOK_isSome (h : Sound f ts) (x : Tuple)
    (hneed : (ts.length + 1) * f.block.tupleSize ≤ 2 ^ 31) :
    (FlexBlock.storeTupleOK junk f x).isSome = true := by
  rw [FlexBlock.storeTupleOK, Option.isSome_map]
  have hpos := h.size_pos
  refine h.allocateOK_isSome ?_ ?_
  · rw [h.stored.free_eq, ← Nat.succ_mul]
    exact hneed
  · calc 2 ^ 31 ≤ 1 * 2 ^ 32 := by decide
      _ ≤ f.block.size * 2 ^ 32 := Nat.mul_le_mul_right _ hpos

theorem Sound.persist_eq (h : Sound f ts) : f.persist = ts.flatten := by
  rw [persist, h.stored.free_eq, h.stored.bytes]

end Sound

/-- The block holds `ts` in a buffer that was doubled only for want of `need` bytes. -/
structure Grown (f : FlexBlock) (ts : List Tuple) (need : ℕ) : Prop where
  stored : f.block.Stored ts
  alloc_eq : f.alloc = f.block.size
  size_eq : ∃ k, k ≤ 25 ∧ f.block.size = initFlexBlockSize * 2 ^ k ∧
    ∀ j, j < k → initFlexBlockSize * 2 ^ j < need
  inside_eq : f.inside = true

theorem make_grown (junk : Memory) (t : ℕ) :
    Grown (make junk initFlexBlockSize t) [] (([] : List Tuple).length * t) :=
  ⟨Block.stored_reset (Block.make junk initFlexBlockSize t), rfl,
    ⟨0, by decide, rfl, fun _ h => absurd h (Nat.not_lt_zero _)⟩, rfl⟩

section Growth
variable (junk : Memory) {f g : FlexBlock} {ts : List Tuple} {need : ℕ}

theorem Grown.mono (h : Grown f ts need) {need' : ℕ} (hle : need ≤ need') : Grown f ts need' := by
  obtain ⟨k, hk, hsize, hlt⟩ := h.size_eq
  exact ⟨h.stored, h.alloc_eq, ⟨k, hk, hsize, fun j hj => (hlt j hj).trans_le hle⟩, h.inside_eq⟩

/-- The largest buffer is half the range of an `unsigned`. -/
theorem Grown.size_le (h : Grown f ts need) : f.block.size ≤ 2 ^ 31 := by
  obtain ⟨k, hk, hsize, -⟩ := h.size_eq
  rw [hsize, show 2 ^ 31 = initFlexBlockSize * 2 ^ 25 by decide]
  exact Nat.mul_le_mul_left _ (Nat.pow_le_pow_right (by decide) hk)

theorem Grown.sound (h : Grown f ts need) : Sound f ts := by
  obtain ⟨k, -, hsize, -⟩ := h.size_eq
  refine ⟨h.stored, ?_, h.alloc_eq.ge, h.inside_eq⟩
  rw [hsize]
  exact Nat.mul_pos (by decide) (Nat.two_pow_pos k)

/-- A buffer is doubled as long as its size stays below `2 ^ 31`. -/
theorem Grown.doubleBuffer (h : Grown f ts need) (hneed : f.block.size < need) :
    FlexBlock.doubleBuffer junk f = none ∧ f.block.size = 2 ^ 31 ∨
      ∃ g, FlexBlock.doubleBuffer junk f = some g ∧ Grown g ts need ∧
        g.block.size = 2 * f.block.size ∧ g.block.free = f.block.free ∧
        g.block.tupleSize = f.block.tupleSize := by
  obtain ⟨k, hk, hsize, hlt⟩ := h.size_eq
  rcases Nat.eq_or_lt_of_le hk with rfl | hk'
  · left
    have h31 : f.block.size = 2 ^ 31 := by rw [hsize]; decide
    refine ⟨?_, h31⟩
    unfold FlexBlock.doubleBuffer
    rw [h31]
    exact if_neg (by decide)
  · right
    have hdouble : 2 * f.block.size = initFlexBlockSize * 2 ^ (k + 1) := by
      rw [hsize, pow_succ]
      ring
    have hfit : 2 * f.block.size < 2 ^ 32 := by
      rw [hdouble, show 2 ^ 32 = initFlexBlockSize * 2 ^ 26 by decide]
      exact Nat.mul_lt_mul_of_pos_left (Nat.pow_lt_pow_right (by decide) (by omega)) (by decide)
    have hg : FlexBlock.doubleBuffer junk f = some _ := if_pos hfit
    obtain ⟨hsound, hsame⟩ := h.sound.doubleBuffer hg
    refine ⟨_, hg, ⟨hsound.stored, rfl, ⟨k + 1, hk', hdouble, fun j hj => ?_⟩,
      hsound.inside_eq⟩, hsame⟩
    rcases Nat.lt_succ_iff_lt_or_eq.mp hj with hj | rfl
    · exact hlt j hj
    · exact hsize ▸ hneed

/-- The growth loop ends, with the old `free_`, when at most `2 ^ 31` bytes are needed. -/
theorem Grown.allocateOK {fuel : ℕ} (h : Grown f ts need)
    (hneed : need = f.block.free + f.block.tupleSize) (hle : need ≤ 2 ^ 31)
    (hfuel : 2 ^ 31 ≤ f.block.size * 2 ^ fuel) :
    ∃ g, FlexBlock.allocateOK junk fuel f = some (f.block.free, g) ∧ Grown g ts need ∧
      g.block.tupleSize = f.block.tupleSize := by
  induction fuel generalizing f with
  | zero =>
    have hsome : f.block.allocateTuple = some f.block.free :=
      Block.allocateTuple_eq_some.mpr ⟨by omega, rfl⟩
    exact ⟨f, by rw [FlexBlock.allocateOK, hsome], h, rfl⟩
  | succ fuel ih =>
    rcases Nat.lt_or_ge f.block.size need with hlt | hge
    · have hnone : f.block.allocateTuple = none := Block.allocateTuple_eq_none.mpr (by omega)
      obtain ⟨-, h31⟩ | ⟨g, hg, hgrown, hsize, hfree, htup⟩ := h.doubleBuffer junk hlt
      · omega
      · obtain ⟨r, hr, hrest⟩ := ih hgrown (by rw [hfree, htup]; exact hneed) (by
          calc 2 ^ 31 ≤ f.block.size * 2 ^ (fuel + 1) := hfuel
            _ = g.block.size * 2 ^ fuel := by rw [hsize, pow_succ]; ring)
        rw [htup] at hrest
        refine ⟨r, ?_, hrest⟩
        rw [FlexBlock.allocateOK, hnone, hg, ← hfree]
        exact hr
    · have hsome : f.block.allocateTuple = some f.block.free :=
        Block.allocateTuple_eq_some.mpr ⟨by omega, rfl⟩
      exact ⟨f, by rw [FlexBlock.allocateOK, hsome], h, rfl⟩

theorem Grown.allocateOK_none {fuel : ℕ} (h : Grown f ts need)
    (hneed : need = f.block.free + f.block.tupleSize) (hgt : 2 ^ 31 < need) :
    FlexBlock.allocateOK junk fuel f = none := by
  have hle := h.size_le
  have hnone : f.block.allocateTuple = none := Block.allocateTuple_eq_none.mpr (by omega)
  induction fuel generalizing f with
  | zero => rw [FlexBlock.allocateOK, hnone]
  | succ fuel ih =>
    rw [FlexBlock.allocateOK, hnone]
    obtain ⟨hg, -⟩ | ⟨g, hg, hgrown, -, hfree, htup⟩ := h.doubleBuffer junk (by omega)
    · rw [hg]
      rfl
    · rw [hg]
      have hle' := hgrown.size_le
      exact ih hgrown (by rw [hfree, htup]; exact hneed) hle'
        (Block.allocateTuple_eq_none.mpr (by omega))

/-- A tuple is stored behind the others as long as they need at most `2 ^ 31` bytes. -/
theorem Grown.storeTupleOK (h : Grown f ts (ts.length * f.block.tupleSize)) {s : Tuple}
    (hs : s.length = f.block.tupleSize) (hle : (ts.length + 1) * f.block.tupleSize ≤ 2 ^ 31) :
    ∃ g, FlexBlock.storeTupleOK junk f s = some g ∧
      Grown g (ts ++ [s]) ((ts ++ [s]).length * g.block.tupleSize) ∧
      g.block.tupleSize = f.block.tupleSize := by
  have hneed : (ts.length + 1) * f.block.tupleSize = f.block.free + f.block.tupleSize := by
    rw [h.stored.free_eq, Nat.succ_mul]
  have hgrown := h.mono (Nat.mul_le_mul_right f.block.tupleSize (Nat.le_succ ts.length))
  have hpos := h.sound.size_pos
  have hfuel : 2 ^ 31 ≤ f.block.size * 2 ^ 32 := by omega
  obtain ⟨g, hg, hgr, htup⟩ := hgrown.allocateOK junk hneed hle hfuel
  have hstore : FlexBlock.storeTupleOK junk f s = some (touch f.block.free g.block.tupleSize
      { g with block := g.block.storeTuple f.block.free s }) := by
    rw [FlexBlock.storeTupleOK, hg]
    rfl
  obtain ⟨hsound, htup'⟩ := h.sound.storeTupleOK hs hstore
  refine ⟨_, hstore, ⟨hsound.stored, hgr.alloc_eq, ?_, hsound.inside_eq⟩, htup'⟩
  obtain ⟨k, hk, hsize, hlt⟩ := hgr.size_eq
  refine ⟨k, hk, hsize, fun j hj => ?_⟩
  rw [List.length_append]
  exact htup ▸ hlt j hj

/-- More bytes than that cannot be stored. -/
theorem Grown.storeTupleOK_none (h : Grown f ts (ts.length * f.block.tupleSize)) (s : Tuple)
    (hgt : 2 ^ 31 < (ts.length + 1) * f.block.tupleSize) :
    FlexBlock.storeTupleOK junk f s = none := by
  have hneed : (ts.length + 1) * f.block.tupleSize = f.block.free + f.block.tupleSize := by
    rw [h.stored.free_eq, Nat.succ_mul]
  have hgrown := h.mono (Nat.mul_le_mul_right f.block.tupleSize (Nat.le_succ ts.length))
  rw [FlexBlock.storeTupleOK, hgrown.allocateOK_none junk hneed hgt]
  rfl

/-- All tuples are stored in order when they need at most `2 ^ 31` bytes. -/
theorem Grown.storeAll {t : ℕ} (ht : f.block.tupleSize = t) (h : Grown f ts (ts.length * t))
    {us : List Tuple} (hs : ∀ s ∈ us, s.length = t) (hle : (ts ++ us).length * t ≤ 2 ^ 31) :
    ∃ g, FlexBlock.storeAll junk us f = some g ∧ g.block.tupleSize = t ∧
      Grown g (ts ++ us) ((ts ++ us).length * t) := by
  induction us generalizing f ts with
  | nil =>
    rw [List.append_nil]
    exact ⟨f, rfl, ht, h⟩
  | cons s us ih =>
    subst ht
    have hcons : ts ++ s :: us = ts ++ [s] ++ us := by simp
    have hone : (ts.length + 1) * f.block.tupleSize ≤ (ts ++ s :: us).length * f.block.tupleSize :=
      Nat.mul_le_mul_right _ (by simp)
    obtain ⟨g, hg, hgr, htup⟩ :=
      h.storeTupleOK junk (hs s (by simp)) (hone.trans hle)
    rw [hcons] at hle ⊢
    obtain ⟨r, hr, hrest⟩ := ih htup (htup ▸ hgr) (fun u hu => hs u (by simp [hu])) hle
    refine ⟨r, ?_, hrest⟩
    rw [FlexBlock.storeAll, List.foldlM_cons, hg]
    exact hr

end Growth

section Iterate
variable {f : FlexBlock}

theorem touch_inside (off len : ℕ) : (touch off len f).inside = true ↔
    f.inside = true ∧ off + len ≤ f.alloc := by
  simp [touch]

/-- Iteration leaves the tuples to the block and goes on from where it is. -/
theorem iterate_fst (fuel : ℕ) (it : BufferIterator) :
    (iterate fuel it f).map Prod.fst = BufferIterator.iterate f.block fuel it := by
  induction fuel generalizing it f with
  | zero => rfl
  | succ fuel ih =>
    rw [iterate, BufferIterator.iterate]
    rcases it.getNext f.block with ⟨_ | addr, it'⟩
    · rfl
    · have hrest := ih (f := touch addr f.block.tupleSize (touch (f.block.size - 4) 4 f)) it'
      dsimp only
      rw [show (touch addr f.block.tupleSize (touch (f.block.size - 4) 4 f)).block = f.block from rfl]
        at hrest
      rw [← hrest, Option.map_map, Option.map_map]
      rfl

/-- Iteration stays inside the buffer when the tail does and the tuples lie before it. -/
theorem iterate_inside {fuel k j : ℕ} {r : List Tuple × FlexBlock} (hk : k ≤ f.block.getSize)
    (h4 : 4 ≤ f.block.size) (htuples : f.block.getSize * f.block.tupleSize ≤ f.block.size - 4)
    (hr : iterate fuel ⟨k, j⟩ f = some r) :
    r.2.inside = true ↔ f.inside = true ∧ f.block.size ≤ f.alloc := by
  induction fuel generalizing f k j r with
  | zero => cases hr
  | succ fuel ih =>
    simp only [iterate, BufferIterator.getNext] at hr
    by_cases he : k = f.block.getSize
    · rw [if_pos he] at hr
      rw [← Option.some.inj hr, touch_inside, Nat.sub_add_cancel h4]
    · rw [if_neg he] at hr
      obtain ⟨r', hr', rfl⟩ := Option.map_eq_some_iff.mp hr
      have hend : k * f.block.tupleSize + f.block.tupleSize ≤ f.block.size - 4 := by
        rw [← Nat.succ_mul]
        exact (Nat.mul_le_mul_right _ (by omega)).trans htuples
      have hrest := ih (f := touch (k * f.block.tupleSize) f.block.tupleSize
        (touch (f.block.size - 4) 4 f)) (by change k + 1 ≤ f.block.getSize; omega) h4 htuples hr'
      rw [touch_inside, touch_inside] at hrest
      change r'.2.inside = true ↔ _
      rw [hrest]
      change ((f.inside = true ∧ f.block.size - 4 + 4 ≤ f.alloc) ∧
        k * f.block.tupleSize + f.block.tupleSize ≤ f.alloc) ∧ f.block.size ≤ f.alloc ↔ _
      constructor
      · rintro ⟨⟨⟨hi, -⟩, -⟩, hle⟩
        exact ⟨hi, hle⟩
      · rintro ⟨hi, hle⟩
        exact ⟨⟨⟨hi, by omega⟩, by omega⟩, hle⟩

end Iterate

/-- The tuples are stored, counted and iterated as in `MergeJoin::prelude`, they come back in
order, and no byte outside the buffer is touched on the way. -/
def GatherRoundTrip (junk : Memory) (t : ℕ) (ts : List Tuple) : Prop :=
  ∃ f, storeAll junk ts (make junk initFlexBlockSize t) = some f ∧
    ∃ fuel g, iterate fuel .fresh (assembling (ts.length * t + 4) t f) = some (ts, g) ∧
      g.inside = true

/-- The count fits behind the tuples exactly if it fits in every buffer that holds them. -/
theorem Grown.tail_fits {f : FlexBlock} {ts : List Tuple} {need : ℕ} (h : Grown f ts need)
    (hle : need ≤ f.block.size) : need + 4 ≤ f.block.size ↔
      ∀ k, need ≤ initFlexBlockSize * 2 ^ k → need + 4 ≤ initFlexBlockSize * 2 ^ k := by
  obtain ⟨k, -, hsize, hlt⟩ := h.size_eq
  rw [hsize] at hle ⊢
  refine ⟨fun hfit j hj => ?_, fun hall => hall k hle⟩
  have hkj : k ≤ j := by
    by_contra hc
    have := hlt j (by omega)
    omega
  exact hfit.trans (Nat.mul_le_mul_left _ (Nat.pow_le_pow_right (by decide) hkj))

theorem storeAll_make (junk : Memory) {t : ℕ} {ts : List Tuple} (hs : ∀ s ∈ ts, s.length = t)
    (hle : ts.length * t ≤ 2 ^ 31) :
    ∃ f, storeAll junk ts (make junk initFlexBlockSize t) = some f ∧ f.block.tupleSize = t ∧
      Grown f ts (ts.length * t) :=
  (make_grown junk t).storeAll junk rfl hs hle

/-- Storing and iterating always agree; the count must fit in the buffer of the last growth. -/
theorem gatherRoundTrip_iff_room {junk : Memory} {t : ℕ} (ht : 1 ≤ t) {ts : List Tuple}
    (hl : ts.length * t + 4 < 2 ^ 31) {f : FlexBlock}
    (hf : storeAll junk ts (make junk initFlexBlockSize t) = some f)
    (htup : f.block.tupleSize = t) (hgr : Grown f ts (ts.length * t)) :
    GatherRoundTrip junk t ts ↔ ts.length * t + 4 ≤ f.block.size := by
  have hn : ts.length < 256 ^ 4 := by
    have : ts.length ≤ ts.length * t := Nat.le_mul_of_pos_right _ ht
    omega
  have hdiv : (ts.length * t + 4 - 4) / f.block.tupleSize = ts.length := by
    rw [htup, Nat.add_sub_cancel, Nat.mul_div_cancel _ ht]
  generalize hF : assembling (ts.length * t + 4) t f = F
  have hsize : F.block.size = ts.length * t + 4 := by rw [← hF]; rfl
  have htuples : F.block.tuples = ts := by
    have hread := hgr.stored.assembling_tuples (show ts.length * t + 4 < 256 ^ 4 by omega) hdiv.le
    rw [hdiv, List.take_length, htup] at hread
    rw [← hF]
    exact hread
  have hcount : F.block.getSize = ts.length := by rw [← Block.tuples_length, htuples]
  have hbytes : F.block.getSize * F.block.tupleSize ≤ F.block.size - 4 := by
    rw [hcount, hsize, show F.block.tupleSize = t by rw [← hF]; exact htup]
    omega
  have hinside {fuel : ℕ} {g : FlexBlock} (hg : iterate fuel .fresh F = some (ts, g)) :
      g.inside = true ↔ ts.length * t + 4 ≤ f.block.size := by
    rw [iterate_inside (r := (ts, g)) (Nat.zero_le _) (by omega) hbytes hg, hsize, ← hF, assembling,
      touch_inside]
    change (f.inside = true ∧ ts.length * t + 4 - 4 + 4 ≤ f.alloc) ∧ ts.length * t + 4 ≤ f.alloc ↔ _
    simp [hgr.inside_eq, hgr.alloc_eq]
  have hiterate : ∃ fuel g, iterate fuel .fresh F = some (ts, g) := by
    obtain ⟨fuel, hfuel⟩ := (F.block.iterate_fresh_iff ts).mpr htuples
    rw [← iterate_fst] at hfuel
    obtain ⟨⟨us, g⟩, hg, rfl⟩ := Option.map_eq_some_iff.mp hfuel
    exact ⟨fuel, g, hg⟩
  constructor
  · rintro ⟨f', hf', fuel, g, hg, hgi⟩
    obtain rfl := Option.some.inj (hf.symm.trans hf')
    rw [hF] at hg
    exact (hinside hg).mp hgi
  · intro hfit
    obtain ⟨fuel, g, hg⟩ := hiterate
    exact ⟨f, hf, fuel, g, hF.symm ▸ hg, (hinside hg).mpr hfit⟩

/-- The gathered tuples come back, and no access leaves the buffer, exactly when no buffer
size `64 * 2 ^ k` holds the tuples but not the count behind them. -/
theorem gatherRoundTrip_iff (junk : Memory) {t : ℕ} (ht : 1 ≤ t) {ts : List Tuple}
    (hs : ∀ s ∈ ts, s.length = t) (hl : ts.length * t + 4 < 2 ^ 31) :
    GatherRoundTrip junk t ts ↔ ∀ k, ts.length * t ≤ initFlexBlockSize * 2 ^ k →
      ts.length * t + 4 ≤ initFlexBlockSize * 2 ^ k := by
  obtain ⟨f, hf, htup, hgr⟩ := storeAll_make junk hs (by omega)
  have hroom : ts.length * t ≤ f.block.size := by
    have := hgr.stored.room
    rwa [hgr.stored.free_eq, htup] at this
  rw [gatherRoundTrip_iff_room ht hl hf htup hgr, hgr.tail_fits hroom]

/-- Three tuples of two longs leave room for the count. -/
theorem gatherRoundTrip_three : GatherRoundTrip (fun _ => 0) 16 (Block.zeroTuples 3 16) := by
  have hl : (Block.zeroTuples 3 16).length = 3 := rfl
  rw [gatherRoundTrip_iff _ (by decide) (by decide) (by decide), hl, initFlexBlockSize]
  intro k _
  have : 0 < 2 ^ k := Nat.two_pow_pos k
  omega

/-- Four tuples of two longs fill the first buffer, and their count is written behind it. -/
theorem gatherRoundTrip_four_fails : ¬ GatherRoundTrip (fun _ => 0) 16 (Block.zeroTuples 4 16) := by
  have hs : ∀ s ∈ Block.zeroTuples 4 16, s.length = 16 := by decide
  obtain ⟨f, hf, htup, hgr⟩ := storeAll_make (fun _ => 0) hs (by decide)
  rw [gatherRoundTrip_iff_room (by decide) (by decide) hf htup hgr]
  obtain ⟨k, -, hsize, hlt⟩ := hgr.size_eq
  cases k with
  | zero =>
    rw [hsize]
    decide
  | succ k => exact absurd (hlt 0 (Nat.succ_pos k)) (by decide)

end FlexBlock
end Mosito
