import Mathlib

/-! Byte-addressed storage: ranged reads and writes of a flat memory, and the
little-endian value of a byte string. -/
namespace ByteStore

/-- A flat memory, addressed from the start of one allocation. -/
abbrev Memory := ℕ → UInt8

/-- The `len` bytes from address `off` on. -/
def readAt (m : Memory) (off len : ℕ) : List UInt8 :=
  (List.range len).map fun i => m (off + i)

/-- Copy the byte string `bs` to address `off`. -/
def writeAt (m : Memory) (off : ℕ) (bs : List UInt8) : Memory :=
  fun i => if off ≤ i then (bs[i - off]?).getD (m i) else m i

@[simp] theorem readAt_length (m : Memory) (off len : ℕ) : (readAt m off len).length = len := by
  simp [readAt]

@[simp] theorem readAt_zero (m : Memory) (off : ℕ) : readAt m off 0 = [] := rfl

@[simp] theorem readAt_getElem (m : Memory) (off len i : ℕ) (h : i < (readAt m off len).length) :
    (readAt m off len)[i] = m (off + i) := by simp [readAt]

theorem readAt_congr {m m' : Memory} {off len : ℕ}
    (h : ∀ i, off ≤ i → i < off + len → m i = m' i) : readAt m off len = readAt m' off len := by
  apply List.map_congr_left
  intro i hi
  have hi := List.mem_range.mp hi
  exact h _ (by omega) (by omega)

theorem readAt_add (m : Memory) (off a b : ℕ) :
    readAt m off (a + b) = readAt m off a ++ readAt m (off + a) b := by
  simp [readAt, List.range_add, Function.comp_def, Nat.add_assoc]

theorem readAt_take (m : Memory) (off len k : ℕ) :
    (readAt m off len).take k = readAt m off (min k len) := by
  simp [readAt, ← List.map_take, List.take_range]

theorem readAt_drop (m : Memory) (off len k : ℕ) :
    (readAt m off len).drop k = readAt m (off + k) (len - k) := by
  rcases Nat.le_total k len with h | h
  · obtain ⟨d, rfl⟩ := Nat.exists_eq_add_of_le h
    rw [readAt_add, List.drop_left' (by simp), Nat.add_sub_cancel_left]
  · rw [List.drop_eq_nil_of_le (by simpa using h), Nat.sub_eq_zero_of_le h]
    simp [readAt]

theorem writeAt_of_lt (m : Memory) {off i : ℕ} (bs : List UInt8) (h : i < off) :
    writeAt m off bs i = m i := by
  simp [writeAt, Nat.not_le.mpr h]

theorem writeAt_of_ge (m : Memory) {off i : ℕ} (bs : List UInt8) (h : off + bs.length ≤ i) :
    writeAt m off bs i = m i := by
  have hn : bs[i - off]? = none := List.getElem?_eq_none (by omega)
  simp [writeAt, hn]

theorem writeAt_inside (m : Memory) (off : ℕ) (bs : List UInt8) {i : ℕ} (h : i < bs.length) :
    writeAt m off bs (off + i) = bs[i] := by
  simp [writeAt, h]

/-- Reading back a written range gives the written bytes. -/
@[simp] theorem readAt_writeAt_same (m : Memory) (off : ℕ) (bs : List UInt8) :
    readAt (writeAt m off bs) off bs.length = bs := by
  apply List.ext_getElem (by simp)
  intro i _ h
  rw [readAt_getElem, writeAt_inside m off bs h]

@[simp] theorem writeAt_nil (m : Memory) (off : ℕ) : writeAt m off [] = m := by
  funext i
  simp [writeAt]

/-- A range that ends before the written one is not changed. -/
theorem readAt_writeAt_before (m : Memory) {off len dst : ℕ} (bs : List UInt8)
    (h : off + len ≤ dst) : readAt (writeAt m dst bs) off len = readAt m off len :=
  readAt_congr fun _ _ hi => writeAt_of_lt m bs (by omega)

/-- A write that covers the end of a range leaves the range alone exactly when
the bytes it covers already begin with the written ones. -/
theorem readAt_writeAt_eq_iff (m : Memory) {d n : ℕ} (bs : List UInt8) (h : n ≤ d + bs.length) :
    readAt (writeAt m d bs) 0 n = readAt m 0 n ↔ (readAt m 0 n).drop d <+: bs := by
  rcases Nat.le_total n d with hnd | hdn
  · rw [List.drop_eq_nil_of_le (by simpa using hnd)]
    simpa using readAt_writeAt_before m bs (by omega)
  · obtain ⟨e, rfl⟩ := Nat.exists_eq_add_of_le hdn
    have hw : readAt (writeAt m d bs) d e = bs.take e := by
      have ht := congrArg (List.take e) (readAt_writeAt_same m d bs)
      rwa [readAt_take, min_eq_left (by omega)] at ht
    rw [readAt_drop, Nat.add_sub_cancel_left, Nat.zero_add, List.prefix_iff_eq_take, readAt_length,
      readAt_add, readAt_add, readAt_writeAt_before m bs (by omega), Nat.zero_add, hw]
    exact ⟨fun hh => (List.append_cancel_left hh).symm, fun hh => by rw [hh]⟩

/-! Consecutive records of one size. -/

theorem flatten_record {α : Type*} {w : ℕ} {rs : List (List α)} (h : ∀ r ∈ rs, r.length = w)
    {k : ℕ} (hk : k < rs.length) : (rs.flatten.drop (k * w)).take w = rs[k] := by
  induction rs generalizing k with
  | nil => simp at hk
  | cons r rs ih =>
    have hr : r.length = w := h r (by simp)
    cases k with
    | zero => simp [hr]
    | succ k =>
      have hs : (k + 1) * w = r.length + k * w := by rw [hr]; ring
      rw [List.flatten_cons, hs, List.drop_length_add_append]
      simpa using ih (fun r hr => h r (by simp [hr])) (by simpa using hk)

theorem flatten_length {α : Type*} {w : ℕ} {rs : List (List α)} (h : ∀ r ∈ rs, r.length = w) :
    rs.flatten.length = rs.length * w := by
  rw [List.length_flatten, List.map_congr_left h]
  simp

/-- The first `n` records of `w` bytes. -/
def records (m : Memory) (w n : ℕ) : List (List UInt8) :=
  (List.range n).map fun k => readAt m (k * w) w

@[simp] theorem records_length (m : Memory) (w n : ℕ) : (records m w n).length = n := by
  simp [records]

theorem length_of_mem_records {m : Memory} {w n : ℕ} {r : List UInt8} (h : r ∈ records m w n) :
    r.length = w := by
  obtain ⟨k, _, rfl⟩ := List.mem_map.mp h
  simp

theorem records_flatten (m : Memory) (w n : ℕ) :
    (records m w n).flatten = readAt m 0 (n * w) := by
  induction n with
  | zero => simp [records, readAt]
  | succ n ih =>
    rw [Nat.succ_mul, readAt_add, ← ih]
    simp [records, List.range_succ]

theorem records_take (m : Memory) (w n k : ℕ) :
    (records m w n).take k = records m w (min k n) := by
  simp [records, ← List.map_take, List.take_range]

theorem records_congr {m m' : Memory} {w n : ℕ} (h : readAt m 0 (n * w) = readAt m' 0 (n * w)) :
    records m w n = records m' w n := by
  apply List.ext_getElem (by simp)
  intro k hk hk'
  rw [← flatten_record (fun _ => length_of_mem_records) hk,
    ← flatten_record (fun _ => length_of_mem_records) hk', records_flatten, records_flatten, h]

/-- The records of a memory are given by its bytes. -/
theorem records_eq_iff {m : Memory} {w : ℕ} {rs : List (List UInt8)} (h : ∀ r ∈ rs, r.length = w) :
    records m w rs.length = rs ↔ readAt m 0 (rs.length * w) = rs.flatten := by
  constructor
  · intro he
    rw [← records_flatten, he]
  · intro he
    apply List.ext_getElem (by simp)
    intro k hk hk'
    rw [← flatten_record (fun _ => length_of_mem_records) hk, ← flatten_record h hk',
      records_flatten, he]

/-! Little-endian values. -/

/-- The unsigned value of a byte string, least significant byte first. -/
def leValue (bs : List UInt8) : ℕ := Nat.ofDigits 256 (bs.map UInt8.toNat)

/-- The `w` lowest bytes of `v`, least significant byte first. -/
def leBytes : ℕ → ℕ → List UInt8
  | 0, _ => []
  | w + 1, v => UInt8.ofNat v :: leBytes w (v / 256)

@[simp] theorem leBytes_length (w v : ℕ) : (leBytes w v).length = w := by
  induction w generalizing v with
  | zero => rfl
  | succ w ih => simp [leBytes, ih]

@[simp] theorem leValue_nil : leValue [] = 0 := rfl

@[simp] theorem leValue_cons (b : UInt8) (bs : List UInt8) :
    leValue (b :: bs) = b.toNat + 256 * leValue bs := by
  simp [leValue, Nat.ofDigits_cons]

/-- Decoding an encoded value truncates it to the encoded width. -/
theorem leValue_leBytes (w v : ℕ) : leValue (leBytes w v) = v % 256 ^ w := by
  induction w generalizing v with
  | zero => simp [leBytes, Nat.mod_one]
  | succ w ih =>
    rw [leBytes, leValue_cons, ih, pow_succ, Nat.mul_comm (256 ^ w), Nat.mod_mul]
    simp [UInt8.toNat_ofNat']

theorem leValue_leBytes_of_lt {w v : ℕ} (h : v < 256 ^ w) : leValue (leBytes w v) = v := by
  rw [leValue_leBytes, Nat.mod_eq_of_lt h]

theorem leValue_append (as bs : List UInt8) :
    leValue (as ++ bs) = leValue as + 256 ^ as.length * leValue bs := by
  simp [leValue, Nat.ofDigits_append]

theorem leValue_lt (bs : List UInt8) : leValue bs < 256 ^ bs.length := by
  induction bs with
  | nil => simp
  | cons b bs ih =>
    have hb := b.toNat_lt
    rw [leValue_cons, List.length_cons, pow_succ]
    omega

/-- The four-byte word at an address. -/
def word (m : Memory) (a : ℕ) : ℕ := leValue (readAt m a 4)

theorem word_lt (m : Memory) (a : ℕ) : word m a < 2 ^ 32 := by
  have hlt := leValue_lt (readAt m a 4)
  rwa [readAt_length] at hlt

theorem leValue_readAt_eight (m : Memory) (a : ℕ) :
    leValue (readAt m a 8) = word m a + 2 ^ 32 * word m (a + 4) := by
  rw [readAt_add m a 4 4, leValue_append, readAt_length, word, word,
    show 256 ^ 4 = 2 ^ 32 by decide]

/-- The memory that consists of the words `w`. -/
def ofWords (w : ℕ → ℕ) : Memory := fun i => (leBytes 4 (w (i / 4)))[i % 4]?.getD 0

theorem word_ofWords {w : ℕ → ℕ} {i : ℕ} (h : w i < 2 ^ 32) : word (ofWords w) (4 * i) = w i := by
  have hread : readAt (ofWords w) (4 * i) 4 = leBytes 4 (w i) := by
    apply List.ext_getElem (by simp)
    intro k hk hk'
    rw [readAt_length] at hk
    rw [readAt_getElem, ofWords, show (4 * i + k) / 4 = i by omega,
      show (4 * i + k) % 4 = k by omega, List.getElem?_eq_getElem hk', Option.getD_some]
  rw [word, hread, leValue_leBytes_of_lt h]

/-- A field written as a `w`-byte value reads back as that value. -/
theorem leValue_readAt_writeAt (m : Memory) (off w v : ℕ) (h : v < 256 ^ w) :
    leValue (readAt (writeAt m off (leBytes w v)) off w) = v := by
  have hr := readAt_writeAt_same m off (leBytes w v)
  rw [leBytes_length] at hr
  rw [hr, leValue_leBytes_of_lt h]

end ByteStore
