import Mosito.Common.Buffer

/-! Filling a block tuple by tuple and reading it back. The room test of
`allocateTuple` counts all bytes of the block, `assembling` all but the tail. -/
namespace Mosito
open ByteStore
namespace Block

/-- The block holds exactly the tuples `ts`, stored since its last reset. -/
structure Stored (b : Block) (ts : List Tuple) : Prop where
  free_eq : b.free = ts.length * b.tupleSize
  room : b.free ≤ b.size
  sizes : ∀ s ∈ ts, s.length = b.tupleSize
  bytes : readAt b.start 0 (ts.length * b.tupleSize) = ts.flatten

theorem stored_reset (b : Block) : Stored b.reset [] := by
  constructor <;> simp [reset]

theorem allocateTuple_eq_none {b : Block} :
    b.allocateTuple = none ↔ b.size < b.free + b.tupleSize := by
  simp [allocateTuple]

theorem allocateTuple_eq_some {b : Block} {d : ℕ} :
    b.allocateTuple = some d ↔ b.free + b.tupleSize ≤ b.size ∧ d = b.free := by
  simp [allocateTuple, eq_comm]

theorem Stored.storeTuple {b : Block} {ts : List Tuple} {d : ℕ} {s : Tuple} (h : Stored b ts)
    (hd : b.allocateTuple = some d) (hs : s.length = b.tupleSize) :
    Stored (b.storeTuple d s) (ts ++ [s]) := by
  obtain ⟨hroom, rfl⟩ := allocateTuple_eq_some.mp hd
  have hlen : (ts ++ [s]).length * b.tupleSize = ts.length * b.tupleSize + s.length := by
    rw [List.length_append, hs]
    simp [Nat.succ_mul]
  constructor
  · change b.free + b.tupleSize = (ts ++ [s]).length * b.tupleSize
    rw [hlen, h.free_eq, hs]
  · exact hroom
  · intro r hr
    rcases List.mem_append.mp hr with hr | hr
    · exact h.sizes r hr
    · rw [List.mem_singleton.mp hr, hs]; rfl
  · change readAt (writeAt b.start b.free (s.take b.tupleSize)) 0 ((ts ++ [s]).length * b.tupleSize) = _
    rw [hlen, List.take_of_length_le hs.le, h.free_eq, readAt_add,
      readAt_writeAt_before _ _ (by omega), Nat.zero_add, readAt_writeAt_same, h.bytes]
    simp

/-- A block without room holds as many tuples as its size divided by theirs. -/
theorem Stored.full_length {b : Block} {ts : List Tuple} (h : Stored b ts)
    (hn : b.allocateTuple = none) : ts.length = b.size / b.tupleSize := by
  have hlt := allocateTuple_eq_none.mp hn
  have hle := h.room
  rw [h.free_eq] at hlt hle
  symm
  apply Nat.div_eq_of_lt_le hle
  rwa [Nat.succ_mul]

theorem getSize_assembling (b : Block) (size t : ℕ) (h : (size - 4) / t < 256 ^ 4) :
    (b.assembling size t).getSize = (size - 4) / t :=
  leValue_readAt_writeAt _ _ 4 _ h

theorem getSize_build {b : Block} {n : ℕ} (h : n < 256 ^ 4) : (b.build b.size n).getSize = n :=
  leValue_readAt_writeAt _ _ 4 _ h

theorem count_build {b : Block} (h : b.size = blockSize) : (b.build blockSize 0).image.count = 0 := by
  have hbuild := getSize_build (b := b) (show 0 < 256 ^ 4 by decide)
  rw [h] at hbuild
  exact (getSize_eq_count (b := b.build blockSize 0) h).symm.trans hbuild

/-- `assembling` announces as many tuples as fit before the tail, and these are intact. -/
theorem Stored.assembling_tuples {b : Block} {ts : List Tuple} {size : ℕ} (h : Stored b ts)
    (hsize : size < 256 ^ 4) (hl : (size - 4) / b.tupleSize ≤ ts.length) :
    (b.assembling size b.tupleSize).tuples = ts.take ((size - 4) / b.tupleSize) := by
  have hlt : (size - 4) / b.tupleSize < 256 ^ 4 :=
    (Nat.div_le_self _ _).trans_lt (by omega)
  have hmul : (size - 4) / b.tupleSize * b.tupleSize ≤ size - 4 := Nat.div_mul_le_self _ _
  have hall := (records_eq_iff h.sizes).mpr h.bytes
  rw [tuples, getSize_assembling b size _ hlt, ← hall, records_take, min_eq_left hl]
  apply records_congr
  apply readAt_writeAt_before
  change 0 + (size - 4) / b.tupleSize * b.tupleSize ≤ size - 4
  omega

theorem Stored.build_tuples {b : Block} {ts : List Tuple} (h : Stored b ts) (h4 : 4 ≤ b.size)
    (hl : ts.length < 256 ^ 4) :
    (b.build b.size ts.length).tuples = ts ↔
      ts.flatten.drop (b.size - 4) <+: leBytes 4 ts.length := by
  have hle := h.room
  rw [h.free_eq] at hle
  rw [tuples, getSize_build hl]
  change records (writeAt b.start (b.size - 4) (leBytes 4 ts.length)) b.tupleSize ts.length = ts ↔ _
  rw [records_eq_iff h.sizes, ← h.bytes]
  apply readAt_writeAt_eq_iff
  simp
  omega

/-- Store tuples one by one while `allocateTuple` gives room; the block and how many it took. -/
def fill (b : Block) : List Tuple → Block × ℕ
  | [] => (b, 0)
  | s :: ts =>
      match b.allocateTuple with
      | none => (b, 0)
      | some desc =>
          let r := fill (b.storeTuple desc s) ts
          (r.1, r.2 + 1)

theorem fill_of_none {b : Block} (h : b.allocateTuple = none) (ts : List Tuple) :
    b.fill ts = (b, 0) := by
  cases ts with
  | nil => rfl
  | cons s ts => simp only [fill, h]

theorem fill_of_some {b : Block} {desc : ℕ} (h : b.allocateTuple = some desc) (s : Tuple)
    (ts : List Tuple) : b.fill (s :: ts) =
      (((b.storeTuple desc s).fill ts).1, ((b.storeTuple desc s).fill ts).2 + 1) := by
  simp only [fill, h]

@[simp] theorem fill_size (b : Block) (ts : List Tuple) :
    (b.fill ts).1.size = b.size ∧ (b.fill ts).1.tupleSize = b.tupleSize := by
  induction ts generalizing b with
  | nil => exact ⟨rfl, rfl⟩
  | cons s ts ih =>
    simp only [fill]
    split
    · exact ⟨rfl, rfl⟩
    · exact ih _

theorem fill_free (b : Block) (ts : List Tuple) :
    (b.fill ts).1.free = b.free + (b.fill ts).2 * b.tupleSize := by
  induction ts generalizing b with
  | nil => simp [fill]
  | cons s ts ih =>
    simp only [fill]
    split
    · simp
    · rw [ih]
      change b.free + b.tupleSize + _ * b.tupleSize = _
      ring

theorem fill_stored {b : Block} {pre ts : List Tuple} (h : Stored b pre)
    (hs : ∀ s ∈ ts, s.length = b.tupleSize) :
    Stored (b.fill ts).1 (pre ++ ts.take (b.fill ts).2) ∧ (b.fill ts).2 ≤ ts.length := by
  induction ts generalizing b pre with
  | nil => simpa [fill] using h
  | cons s ts ih =>
    simp only [fill]
    split
    · simpa using h
    · next d hd =>
      have hst := h.storeTuple hd (hs s (by simp))
      have hr := ih hst fun r hr => hs r (by simp [hr])
      simp only [List.take_succ_cons, List.length_cons]
      exact ⟨by simpa using hr.1, by omega⟩

/-- Filling stops short of the tuples only without room. -/
theorem fill_stops (b : Block) (ts : List Tuple) :
    (b.fill ts).1.allocateTuple = none ∨ (b.fill ts).2 = ts.length := by
  induction ts generalizing b with
  | nil => exact Or.inr rfl
  | cons s ts ih =>
    simp only [fill]
    split
    · next hn => exact Or.inl hn
    · simpa using ih _

/-- Enough tuples take all the room of a reset block. -/
theorem fill_full (b : Block) {ts : List Tuple} (hs : ∀ s ∈ ts, s.length = b.tupleSize)
    (ht : 0 < b.tupleSize) (hl : b.size / b.tupleSize ≤ ts.length) :
    (b.reset.fill ts).1.allocateTuple = none := by
  rcases fill_stops b.reset ts with h | h
  · exact h
  · have hst := (fill_stored b.stored_reset hs).1
    have hlt := Nat.lt_mul_div_succ b.size ht
    rw [h, List.take_length, List.nil_append] at hst
    rw [allocateTuple_eq_none, hst.free_eq, (fill_size _ _).1, (fill_size _ _).2]
    change b.size < ts.length * b.tupleSize + b.tupleSize
    nlinarith

/-- How a block without room is finished. -/
inductive Finish where
  | assembling
  | build
  deriving DecidableEq

/-- `k` is the number of stored tuples, as the caller counted them. -/
def finish (b : Block) (f : Finish) (k : ℕ) : Block :=
  match f with
  | .assembling => b.assembling blockSize b.tupleSize
  | .build => b.build blockSize k

/-- A finished block gives back the tuples it took. -/
def RoundTrip (f : Finish) (junk : Memory) (t : ℕ) (ts : List Tuple) : Prop :=
  let r := (make junk blockSize t).reset.fill ts
  ∃ fuel, BufferIterator.iterate (r.1.finish f r.2) fuel .fresh = some (ts.take r.2)

theorem capacity_eq_iff {size t : ℕ} (h4 : 4 ≤ size) (ht : 0 < t) :
    (size - 4) / t = size / t ↔ 4 ≤ size % t := by
  have hm := Nat.div_add_mod size t
  have hr := Nat.mod_lt size ht
  constructor
  · intro he
    have hle := Nat.div_mul_le_self (size - 4) t
    rw [he, Nat.mul_comm] at hle
    omega
  · intro h
    apply Nat.div_eq_of_lt_le
    · rw [Nat.mul_comm]; omega
    · rw [Nat.succ_mul, Nat.mul_comm]; omega

/-- What the filled block holds when `allocateTuple` has returned null. -/
private theorem fill_reset_stored (junk : Memory) {t : ℕ} {ts : List Tuple}
    (hs : ∀ s ∈ ts, s.length = t)
    (hn : ((make junk blockSize t).reset.fill ts).1.allocateTuple = none) :
    let r := (make junk blockSize t).reset.fill ts
    r.2 = blockSize / t ∧ Stored r.1 (ts.take r.2) ∧ (ts.take r.2).length = r.2 := by
  intro r
  obtain ⟨hst, hle⟩ := fill_stored (make junk blockSize t).stored_reset hs
  rw [List.nil_append] at hst
  have hlen : (ts.take r.2).length = r.2 := by simpa using hle
  have hfull := hst.full_length hn
  rw [(fill_size _ _).1, (fill_size _ _).2] at hfull
  exact ⟨hlen.symm.trans hfull, hst, hlen⟩

section RoundTrip
variable {junk : Memory} {t : ℕ} {ts : List Tuple}

theorem roundTrip_assembling (ht : 1 ≤ t) (hs : ∀ s ∈ ts, s.length = t)
    (hn : ((make junk blockSize t).reset.fill ts).1.allocateTuple = none) :
    RoundTrip .assembling junk t ts ↔ 4 ≤ blockSize % t := by
  obtain ⟨hk, hst, hlen⟩ := fill_reset_stored junk hs hn
  have htup : _ = t := (fill_size (make junk blockSize t).reset ts).2
  have hle : (blockSize - 4) / t ≤ blockSize / t := Nat.div_le_div_right (by omega)
  rw [hk] at hst hlen
  rw [RoundTrip, iterate_fresh_iff]
  simp only [finish]
  rw [hst.assembling_tuples (by decide) (by rw [htup, hlen]; exact hle), htup, hk,
    ← capacity_eq_iff (by decide) ht, List.take_take, min_eq_left hle]
  constructor
  · intro he
    have hl := congrArg List.length he
    rw [hlen, List.length_take] at hl
    rw [List.length_take] at hlen
    omega
  · intro he
    rw [he]

theorem roundTrip_build (hs : ∀ s ∈ ts, s.length = t)
    (hn : ((make junk blockSize t).reset.fill ts).1.allocateTuple = none) :
    RoundTrip .build junk t ts ↔
      (ts.take (blockSize / t)).flatten.drop (blockSize - 4) <+: leBytes 4 (blockSize / t) := by
  obtain ⟨hk, hst, hlen⟩ := fill_reset_stored junk hs hn
  have hsize : _ = blockSize := (fill_size (make junk blockSize t).reset ts).1
  have hlt : blockSize / t < 256 ^ 4 := (Nat.div_le_self _ _).trans_lt (by decide)
  rw [hk] at hst hlen
  have hb := hst.build_tuples (by rw [hsize]; decide) (by rw [hlen]; exact hlt)
  rw [hlen, hsize] at hb
  rw [RoundTrip, iterate_fresh_iff]
  simp only [finish]
  rw [hk, hb]

/-- Both finishes give back all tuples when the block's size leaves a remainder of at
least the four bytes of the tail; `build` does so else only if the tuples it overwrites
end in the bytes of the count. -/
theorem roundTrip_iff (f : Finish) (ht : 1 ≤ t) (_ht : t ≤ blockSize - 4)
    (hs : ∀ s ∈ ts, s.length = t)
    (hn : ((make junk blockSize t).reset.fill ts).1.allocateTuple = none) :
    RoundTrip f junk t ts ↔ 4 ≤ blockSize % t ∨ (f = .build ∧
      (ts.take (blockSize / t)).flatten.drop (blockSize - 4) <+: leBytes 4 (blockSize / t)) := by
  cases f with
  | assembling => simpa using roundTrip_assembling ht hs hn
  | build =>
    rw [roundTrip_build hs hn]
    refine ⟨fun h => Or.inr ⟨rfl, h⟩, fun h => h.elim (fun h4 => ?_) And.right⟩
    -- with room for the tail no stored byte lies in it
    have hz : (ts.take (blockSize / t)).flatten.length ≤ blockSize - 4 := by
      rw [flatten_length fun s h => hs s (List.mem_of_mem_take h),
        ← (capacity_eq_iff (by decide) ht).mpr h4]
      exact (Nat.mul_le_mul_right _ (List.length_take_le _ _)).trans (Nat.div_mul_le_self _ _)
    rw [List.drop_eq_nil_of_le hz]
    exact List.nil_prefix

end RoundTrip

/-- `k` tuples of `t` zero bytes. -/
def zeroTuples (k t : ℕ) : List Tuple := List.replicate k (List.replicate t 0)

private theorem zeroTuples_sizes {k t : ℕ} : ∀ s ∈ zeroTuples k t, s.length = t := by
  intro s hs
  rw [List.eq_of_mem_replicate hs, List.length_replicate]

private theorem zeroTuples_full {k t : ℕ} (ht : 0 < t) (hk : blockSize / t ≤ k) :
    ((make (fun _ => 0) blockSize t).reset.fill (zeroTuples k t)).1.allocateTuple = none :=
  fill_full _ zeroTuples_sizes ht (by simpa [zeroTuples, make] using hk)

/-- Tuples of one long and five ints leave sixteen bytes of a block. -/
theorem roundTrip_long_five_ints :
    RoundTrip .assembling (fun _ => 0) 28 (zeroTuples 2340 28) ∧
      RoundTrip .build (fun _ => 0) 28 (zeroTuples 2340 28) := by
  have hn := zeroTuples_full (show 0 < 28 by decide) (show blockSize / 28 ≤ 2340 by decide)
  have hr (f : Finish) := roundTrip_iff f (by decide) (by decide) zeroTuples_sizes hn
  exact ⟨(hr _).mpr (Or.inl (by decide)), (hr _).mpr (Or.inl (by decide))⟩

/-- Tuples of two longs fill a block to its last byte: the tail costs the last of them. -/
theorem roundTrip_two_longs_fails :
    ((make (fun _ => 0) blockSize 16).reset.fill (zeroTuples 4096 16)).1.allocateTuple = none ∧
      ¬ RoundTrip .assembling (fun _ => 0) 16 (zeroTuples 4096 16) ∧
      ¬ RoundTrip .build (fun _ => 0) 16 (zeroTuples 4096 16) := by
  have hn := zeroTuples_full (show 0 < 16 by decide) (show blockSize / 16 ≤ 4096 by decide)
  refine ⟨hn, ?_, ?_⟩
  · rw [roundTrip_assembling (by decide) zeroTuples_sizes hn]
    decide
  · have hd : ((zeroTuples 4096 16).take (blockSize / 16)).flatten.drop (blockSize - 4) =
        List.replicate 4 0 := by
      rw [show blockSize / 16 = 4096 from rfl, zeroTuples,
        List.take_of_length_le List.length_replicate.le, List.flatten_replicate_replicate,
        List.drop_replicate]
      rfl
    rw [roundTrip_build zeroTuples_sizes hn, hd]
    decide

end Block
end Mosito
