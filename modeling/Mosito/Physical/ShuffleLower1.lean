import Mosito.Common.BlockFormat
import Mosito.Common.BlockStream

/-! The lower end of the range shuffle: the tuples of the child are staged in one buffer for
each range, and full buffers are put into the column of their destination. -/
namespace Mosito
open ByteStore

/-- `ranges_2_`, the upper bounds of the ranges. -/
def ranges2 : List ℕ := (List.range cpuCore).map fun i => (i + 1) * dataVolume / cpuCore

/-- `ranges_1_`. -/
def ranges1 : List ℕ := [dataVolume]

/-- The first of the bounds that is above `start`. -/
def firstAbove (start : ℕ) (bounds : List ℕ) : Option ℕ := bounds.findIdx? fun b => start < b

/-- The range of a tuple. Without a bound above its key the source returns an uninitialized
`ret`. -/
def partition (tuple : Tuple) (bounds : List ℕ) : Option ℕ := firstAbove (key tuple) bounds

/-- `n` is the number of destinations, `columns` are the blocks put so far. -/
structure ShuffleLower1 where
  n : ℕ
  totalsize : ℕ
  exchangeId : ℕ
  buffer : Block
  buffers : ℕ → Block
  columns : ℕ → List Image

namespace ShuffleLower1

/-- `prelude`: new buffers, one for each range. -/
def make (n totalsize exchangeId : ℕ) (junk : Memory) : ShuffleLower1 where
  n := n
  totalsize := totalsize
  exchangeId := exchangeId
  buffer := Block.make junk blockSize totalsize
  buffers _ := Block.make junk blockSize totalsize
  columns _ := []

def mul (s : ShuffleLower1) : ℕ := cpuCore / s.n

/-- `while(!pcbuffer_->put(block, column));`, which ends with a success. -/
def put (block : Block) (column : ℕ) (s : ShuffleLower1) : ShuffleLower1 :=
  { s with columns := Function.update s.columns column (s.columns column ++ [block.image]) }

def setBuffer (r : ℕ) (b : Block) (s : ShuffleLower1) : ShuffleLower1 :=
  { s with buffers := Function.update s.buffers r b }

/-- One round of the loop over the tuples of a child block. -/
def route (tuple : Tuple) (s : ShuffleLower1) : Option ShuffleLower1 :=
  (partition tuple (if s.exchangeId = 10 then ranges1 else ranges2)).map fun r =>
    match (s.buffers r).allocateTuple with
    | some desc => s.setBuffer r ((s.buffers r).storeTuple desc tuple)
    | none =>
        if s.exchangeId ≠ 10 then
          let b := (s.buffers r).assembling blockSize s.totalsize
          (s.put b (r / s.mul)).setBuffer r b.reset
        else s.setBuffer r (s.buffers r).reset

def routeAll (tuples : List Tuple) (s : ShuffleLower1) : Option ShuffleLower1 :=
  tuples.foldlM (fun s tuple => route tuple s) s

/-- The rounds in which the child gives a block. -/
def executeChild (child : List Image) (s : ShuffleLower1) : Option ShuffleLower1 :=
  child.foldlM (fun s img =>
    let buffer := s.buffer.storeBlock img.mem blockSize
    routeAll buffer.tuples { s with buffer := buffer }) s

/-- The round in which the child returns false, for the first `k` destinations. -/
def close : ℕ → ShuffleLower1 → ShuffleLower1
  | 0, s => s
  | k + 1, s =>
      let s := close k s
      let buffer := s.buffer.build blockSize 0
      put buffer k { s with buffer := buffer }

/-- The state in which `execute` returns false. -/
def execute (child : List Image) (s : ShuffleLower1) : Option ShuffleLower1 :=
  (executeChild child s).map fun s => close s.n s

/-- The destination of a tuple. -/
def destination (n : ℕ) (tuple : Tuple) : Option ℕ :=
  (partition tuple ranges2).map fun r => r / (cpuCore / n)

/-- The blocks of a column give back exactly the tuples `ts`, and one empty block ends it. -/
def Lossless (t : ℕ) (column : List Image) (ts : List Tuple) : Prop :=
  ∃ blocks z, column = blocks ++ [z] ∧ z.count = 0 ∧ (∀ b ∈ blocks, b.count ≠ 0) ∧
    (blocks.flatMap (Image.tuples t)).Perm ts

theorem partition_lt {tuple : Tuple} {r : ℕ} (h : partition tuple ranges2 = some r) :
    r < cpuCore := by
  obtain ⟨hlt, -⟩ := List.findIdx?_eq_some_iff_getElem.mp h
  simpa [ranges2] using hlt

theorem partition_isSome {tuple : Tuple} (h : key tuple < dataVolume) :
    ∃ r, partition tuple ranges2 = some r := by
  rw [← Option.isSome_iff_exists, partition, firstAbove, List.findIdx?_isSome, List.any_eq_true]
  exact ⟨dataVolume, by decide, by simpa using h⟩

/-- The tuples staged for destination `d`, with `k r` of them in buffer `r`. -/
def staged (m : ℕ) (k : ℕ → ℕ) (d : ℕ) : ℕ :=
  ∑ r ∈ Finset.range cpuCore, if r / m = d then k r else 0

theorem staged_update {m r : ℕ} (hr : r < cpuCore) (k : ℕ → ℕ) (v d : ℕ) :
    staged m (Function.update k r v) d + (if r / m = d then k r else 0) =
      staged m k d + if r / m = d then v else 0 :=
  sum_update hr (fun j x => if j / m = d then x else 0) k v

/-- The tuples that the blocks of column `d` announce. -/
def decoded (s : ShuffleLower1) (d : ℕ) : ℕ := ((s.columns d).map Image.count).sum

/-- `ts` are the tuples routed so far, `k r` are staged in buffer `r`. Every block put has cost
its column one tuple that is nowhere. -/
structure Inv (n t : ℕ) (ts : List Tuple) (s : ShuffleLower1) (k : ℕ → ℕ) : Prop where
  n_eq : s.n = n
  totalsize : s.totalsize = t
  exchange : s.exchangeId ≠ 10
  buffer : s.buffer.size = blockSize ∧ s.buffer.tupleSize = t
  buffers : ∀ r, (s.buffers r).free = k r * t ∧ (s.buffers r).size = blockSize ∧
    (s.buffers r).tupleSize = t
  bound : ∀ d, s.decoded d + (s.columns d).length + staged (cpuCore / n) k d ≤
    ts.countP fun x => destination n x = some d

section Route
variable {n t : ℕ} {ts : List Tuple} {s : ShuffleLower1} {k : ℕ → ℕ}

theorem count_assembling {b : Block} (t : ℕ) :
    (b.assembling blockSize t).image.count = (blockSize - 4) / t := by
  rw [← Block.getSize_eq_count rfl, Block.getSize_assembling]
  exact (Nat.div_le_self _ _).trans_lt (by decide)

theorem Inv.route (h : Inv n t ts s k) {tuple : Tuple} {r : ℕ}
    (hr : partition tuple ranges2 = some r) :
    ∃ s' k', route tuple s = some s' ∧ Inv n t (ts ++ [tuple]) s' k' := by
  have hlt := partition_lt hr
  have hdest (d : ℕ) : (ts ++ [tuple]).countP (fun x => destination n x = some d) =
      ts.countP (fun x => destination n x = some d) + if r / (cpuCore / n) = d then 1 else 0 := by
    simp [List.countP_append, List.countP_cons, destination, hr]
  obtain ⟨hfree, hsize, htup⟩ := h.buffers r
  rw [ShuffleLower1.route, if_neg h.exchange, hr, Option.map_some]
  cases hall : (s.buffers r).allocateTuple with
  | some desc =>
    refine ⟨_, Function.update k r (k r + 1), rfl, h.n_eq, h.totalsize, h.exchange, h.buffer,
      fun j => ?_, fun d => ?_⟩
    · by_cases hj : j = r
      · subst hj
        simp [setBuffer, Block.storeTuple, hfree, hsize, htup, Nat.succ_mul]
      · simpa [setBuffer, hj] using h.buffers j
    · have hb := h.bound d
      have hu := staged_update (m := cpuCore / n) hlt k (k r + 1) d
      rw [hdest]
      change s.decoded d + (s.columns d).length + _ ≤ _
      split_ifs at hu ⊢ <;> omega
  | none =>
    -- the block announces at most what is staged, and the new tuple is dropped
    have hfull := Block.allocateTuple_eq_none.mp hall
    have hle : (blockSize - 4) / t ≤ k r := by
      rw [hfree, hsize, htup, ← Nat.succ_mul] at hfull
      exact Nat.lt_succ_iff.mp (Nat.div_lt_of_lt_mul (by rw [Nat.mul_comm]; omega))
    have hmul : s.mul = cpuCore / n := by rw [mul, h.n_eq]
    refine ⟨_, Function.update k r 0, rfl, ?_⟩
    simp only [h.exchange, ne_eq, not_false_eq_true, ↓reduceIte, hmul, h.totalsize]
    refine ⟨h.n_eq, h.totalsize, h.exchange, h.buffer, fun j => ?_, fun d => ?_⟩
    · by_cases hj : j = r
      · subst hj
        simp [setBuffer, Block.reset, Block.assembling, htup]
      · simpa [setBuffer, put, hj] using h.buffers j
    · have hb := h.bound d
      have hu := staged_update (m := cpuCore / n) hlt k 0 d
      rw [hdest]
      by_cases hd : r / (cpuCore / n) = d
      · subst hd
        simp only [decoded, setBuffer, put, Function.update_self, List.map_append,
          List.map_singleton, List.sum_append, List.sum_singleton, List.length_append,
          List.length_singleton, count_assembling, ↓reduceIte] at hb hu ⊢
        omega
      · simp only [decoded, setBuffer, put, Function.update_of_ne (Ne.symm hd), hd, ↓reduceIte]
          at hb hu ⊢
        omega

theorem Inv.routeAll (h : Inv n t ts s k) {tuples : List Tuple}
    (hkeys : ∀ x ∈ tuples, key x < dataVolume) :
    ∃ s' k', routeAll tuples s = some s' ∧ Inv n t (ts ++ tuples) s' k' := by
  induction tuples generalizing ts s k with
  | nil => exact ⟨s, k, rfl, by simpa using h⟩
  | cons x tuples ih =>
    obtain ⟨r, hr⟩ := partition_isSome (hkeys x (by simp))
    obtain ⟨s1, k1, hs1, h1⟩ := h.route hr
    obtain ⟨s', k', hs', h'⟩ := ih h1 fun y hy => hkeys y (by simp [hy])
    refine ⟨s', k', ?_, by simpa using h'⟩
    rw [ShuffleLower1.routeAll, List.foldlM_cons, hs1]
    exact hs'

theorem Inv.executeChild (h : Inv n t ts s k) {child : List Image}
    (hfits : ∀ img ∈ child, img.Fits t)
    (hkeys : ∀ x ∈ child.flatMap (Image.tuples t), key x < dataVolume) :
    ∃ s' k', executeChild child s = some s' ∧
      Inv n t (ts ++ child.flatMap (Image.tuples t)) s' k' := by
  induction child generalizing ts s k with
  | nil => exact ⟨s, k, rfl, by simpa using h⟩
  | cons img child ih =>
    have htup : (s.buffer.storeBlock img.mem blockSize).tuples = img.tuples t :=
      Block.tuples_storeBlock h.buffer.1 h.buffer.2 (hfits img (by simp))
    have hstored : Inv n t ts { s with buffer := s.buffer.storeBlock img.mem blockSize } k :=
      ⟨h.n_eq, h.totalsize, h.exchange, h.buffer, h.buffers, h.bound⟩
    have hk (x : Tuple) (hx : x ∈ img.tuples t) : key x < dataVolume := hkeys x (by simp [hx])
    obtain ⟨s1, k1, hs1, h1⟩ := hstored.routeAll hk
    rw [← htup] at hs1
    obtain ⟨s', k', hs', h'⟩ := ih h1 (fun i hi => hfits i (by simp [hi])) fun x hx =>
      hkeys x (by rw [List.flatMap_cons]; exact List.mem_append_right _ hx)
    refine ⟨s', k', ?_, by simpa using h'⟩
    rw [ShuffleLower1.executeChild, List.foldlM_cons, hs1]
    exact hs'

end Route

/-- Closing gives every destination one empty block. -/
theorem close_columns {s : ShuffleLower1} (hb : s.buffer.size = blockSize) (k : ℕ) :
    (close k s).buffer.size = blockSize ∧
      (∀ d < k, ∃ z : Image, (close k s).columns d = s.columns d ++ [z] ∧ z.count = 0) ∧
      ∀ d ≥ k, (close k s).columns d = s.columns d := by
  induction k with
  | zero => exact ⟨hb, fun d hd => by omega, fun _ _ => rfl⟩
  | succ k ih =>
    obtain ⟨hsize, hdone, htodo⟩ := ih
    have hzero : ((close k s).buffer.build blockSize 0).image.count = 0 := Block.count_build hsize
    refine ⟨hsize, fun d hd => ?_, fun d hd => ?_⟩
    · rcases Nat.lt_succ_iff_lt_or_eq.mp hd with hlt | rfl
      · simpa [close, put, hlt.ne] using hdone d hlt
      · exact ⟨_, by simp [close, put, htodo d le_rfl], hzero⟩
    · have hne : d ≠ k := by omega
      simpa [close, put, hne] using htodo d (by omega)

theorem inv_make (n t : ℕ) {exchangeId : ℕ} (he : exchangeId ≠ 10) (junk : Memory) :
    Inv n t [] (make n t exchangeId junk) fun _ => 0 where
  n_eq := rfl
  totalsize := rfl
  exchange := he
  buffer := ⟨rfl, rfl⟩
  buffers _ := ⟨by simp [make, Block.make], rfl, rfl⟩
  bound d := by simp [decoded, make, staged]

theorem destination_lt {n : ℕ} (hn : n ∣ cpuCore) {x : Tuple} (hx : key x < dataVolume) :
    ∃ d < n, destination n x = some d := by
  obtain ⟨r, hr⟩ := partition_isSome hx
  refine ⟨r / (cpuCore / n), Nat.div_lt_of_lt_mul ?_, by rw [destination, hr, Option.map_some]⟩
  rw [Nat.div_mul_cancel hn]
  exact partition_lt hr

theorem length_flatMap_tuples (t : ℕ) (blocks : List Image) :
    (blocks.flatMap (Image.tuples t)).length = (blocks.map Image.count).sum := by
  simp [List.length_flatMap]

/-- A destination that gets a tuple loses one: a column is lossless only without tuples. -/
theorem Inv.lossless_iff {n t : ℕ} {ts : List Tuple} {s : ShuffleLower1} {k : ℕ → ℕ}
    (h : Inv n t ts s k) (d : ℕ) {z : Image} (hz : z.count = 0) :
    Lossless t (s.columns d ++ [z]) (ts.filter fun x => destination n x = some d) ↔
      ∀ x ∈ ts, destination n x ≠ some d := by
  have hb := h.bound d
  rw [List.countP_eq_length_filter] at hb
  constructor
  · rintro ⟨blocks, z', hcol, -, -, hperm⟩
    obtain ⟨rfl, -⟩ := List.append_inj' hcol rfl
    have hlen := hperm.length_eq
    rw [length_flatMap_tuples, ← decoded] at hlen
    have hnone : s.columns d = [] := List.length_eq_zero_iff.mp (by omega)
    have hempty : ts.filter (fun x => destination n x = some d) = [] := by
      rw [← List.length_eq_zero_iff, ← hlen, decoded, hnone]
      rfl
    intro x hx hd
    exact List.filter_eq_nil_iff.mp hempty x hx (by simpa using hd)
  · intro hall
    have hempty : ts.filter (fun x => destination n x = some d) = [] :=
      List.filter_eq_nil_iff.mpr fun x hx => by simpa using hall x hx
    rw [hempty, List.length_nil] at hb
    have hnone : s.columns d = [] := List.length_eq_zero_iff.mp (by omega)
    exact ⟨[], z, by rw [hnone], hz, by simp, by simp [hempty]⟩

/-- What `execute` has put when it returns. -/
theorem execute_columns (n : ℕ) {t exchangeId : ℕ} (he : exchangeId ≠ 10) {child : List Image}
    (hfits : ∀ img ∈ child, img.Fits t)
    (hkeys : ∀ x ∈ child.flatMap (Image.tuples t), key x < dataVolume) (junk : Memory) :
    ∃ s k s', Inv n t (child.flatMap (Image.tuples t)) s k ∧
      execute child (make n t exchangeId junk) = some s' ∧
      ∀ d < n, ∃ z : Image, s'.columns d = s.columns d ++ [z] ∧ z.count = 0 := by
  obtain ⟨s, k, hs, h⟩ := (inv_make n t he junk).executeChild hfits hkeys
  obtain ⟨-, hclose, -⟩ := close_columns h.buffer.1 n
  exact ⟨s, k, close n s, h, by rw [execute, hs, Option.map_some, h.n_eq], hclose⟩

/-- `execute` delivers everything only when there is nothing to deliver: a tuple that meets a
full buffer is dropped, and what is staged at the end is never put. -/
theorem execute_lossless_iff {n t exchangeId : ℕ} (hn : n ∣ cpuCore) (he : exchangeId ≠ 10)
    {child : List Image} (hfits : ∀ img ∈ child, img.Fits t)
    (hkeys : ∀ x ∈ child.flatMap (Image.tuples t), key x < dataVolume) (junk : Memory) :
    ∃ s, execute child (make n t exchangeId junk) = some s ∧
      ((∀ d < n, Lossless t (s.columns d)
        ((child.flatMap (Image.tuples t)).filter fun x => destination n x = some d)) ↔
        child.flatMap (Image.tuples t) = []) := by
  obtain ⟨s, k, s', h, hs', hclose⟩ := execute_columns n he hfits hkeys junk
  refine ⟨s', hs', ?_, ?_⟩
  · intro hall
    by_contra hne
    obtain ⟨x, hx⟩ := List.exists_mem_of_ne_nil _ hne
    obtain ⟨d, hd, hxd⟩ := destination_lt hn (hkeys x hx)
    obtain ⟨z, hcol, hz⟩ := hclose d hd
    have hloss := hall d hd
    rw [hcol, h.lossless_iff d hz] at hloss
    exact hloss x hx hxd
  · intro hnil d hd
    obtain ⟨z, hcol, hz⟩ := hclose d hd
    rw [hcol, h.lossless_iff d hz, hnil]
    simp

private theorem tuples_oneTuple : [oneTuple 7].flatMap (Image.tuples 16) = [longTuple 7] := rfl

private theorem fits_oneTuple : ∀ img ∈ [oneTuple 7], img.Fits 16 := by
  simp [Image.Fits, oneTuple_count, blockSize]

private theorem keys_oneTuple :
    ∀ x ∈ [oneTuple 7].flatMap (Image.tuples 16), key x < dataVolume := by
  rw [tuples_oneTuple]
  simp [key_longTuple, dataVolume]

private theorem fits_noTuple : ∀ img ∈ [noTuple], img.Fits 16 := by
  have h : noTuple.count = 0 := by decide
  simp [Image.Fits, h]

/-- A child without tuples, and one with a tuple, for two destinations. -/
theorem execute_lossless_iff_two :
    (∃ s, execute [noTuple] (make 2 16 0 fun _ => 0) = some s ∧
      ∀ d < 2, Lossless 16 (s.columns d) []) ∧
    ∃ s, execute [oneTuple 7] (make 2 16 0 fun _ => 0) = some s ∧
      ¬ ∀ d < 2, Lossless 16 (s.columns d)
        ([longTuple 7].filter fun x => destination 2 x = some d) := by
  have hnone : [noTuple].flatMap (Image.tuples 16) = [] := rfl
  obtain ⟨s, hs, hiff⟩ := execute_lossless_iff (n := 2) (by decide) (show 0 ≠ 10 by decide)
    fits_noTuple (by simp [hnone]) fun _ => 0
  obtain ⟨s', hs', hiff'⟩ := execute_lossless_iff (n := 2) (by decide) (show 0 ≠ 10 by decide)
    fits_oneTuple keys_oneTuple fun _ => 0
  refine ⟨⟨s, hs, ?_⟩, s', hs', ?_⟩
  · simpa [hnone] using hiff.mpr hnone
  · rw [tuples_oneTuple] at hiff'
    simpa using hiff'.not.mpr (by simp)

/-- One tuple stays in its buffer: the only column gets the empty block alone. -/
theorem execute_loses_one :
    ∃ s, execute [oneTuple 7] (make 1 16 0 fun _ => 0) = some s ∧
      ¬ ∀ d < 1, Lossless 16 (s.columns d)
        ([longTuple 7].filter fun x => destination 1 x = some d) := by
  obtain ⟨s, k, s', h, hs', hclose⟩ := execute_columns 1 (show 0 ≠ 10 by decide) fits_oneTuple
    keys_oneTuple fun _ => 0
  obtain ⟨z, hcol, hz⟩ := hclose 0 one_pos
  refine ⟨s', hs', fun hall => ?_⟩
  have hloss := hall 0 one_pos
  rw [hcol, ← tuples_oneTuple, h.lossless_iff 0 hz] at hloss
  exact hloss (longTuple 7) (by rw [tuples_oneTuple]; simp) (by decide)

end ShuffleLower1
end Mosito
