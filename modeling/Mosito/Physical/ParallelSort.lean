import Mosito.Common.BlockFormat
import Mosito.Physical.OrderedShuffle

/-! The parallel sort without `MULTI_PARTITION`: `prelude` splits the child's tuples into key
ranges and sorts each range downwards, `execute` takes them from the backs of the ranges. -/
namespace Mosito
open ByteStore

/-- `ranges` are the tuples behind the pointers of `ranges_`. -/
structure PhysicalSort where
  bytes : ℕ
  ranges : List (List Tuple)
  count : ℕ
  tempCur : ℕ

namespace PhysicalSort

/-- `ranges_[r].push_back(tuple)`; `none` without a range for the key. -/
def push (dist : List ℕ) (ranges : List (List Tuple)) (tuple : Tuple) : Option (List (List Tuple)) :=
  (compareStartEnd dist (key tuple)).bind fun r =>
    if r < ranges.length then some (ranges.modify r (· ++ [tuple])) else none

/-- The child's tuples, as they are iterated in the copies of its blocks. -/
def childTuples (junk : Memory) (bytes : ℕ) (child : List Image) : List Tuple :=
  child.flatMap fun img => ((Block.make junk blockSize bytes).storeBlock img.mem blockSize).tuples

/-- The partition and sort phases of `prelude` with the bounds `dist_ranges_`. -/
def sortPhase (stableSort : List Tuple → List Tuple) (dist : List ℕ) (junk : Memory) (bytes : ℕ)
    (child : List Image) : Option PhysicalSort :=
  ((childTuples junk bytes child).foldlM (push dist) (List.replicate cpuCore [])).map fun ranges =>
    { bytes := bytes
      ranges := ranges.map stableSort
      count := 0
      tempCur := (childTuples junk bytes child).length }

def prelude {α : Type} [DecidableEq α] (stableSort : List Tuple → List Tuple) (lowers : List α)
    (ip : α) (junk : Memory) (bytes : ℕ) (child : List Image) : Option PhysicalSort :=
  (distRanges lowers ip).bind fun dist => sortPhase stableSort dist junk bytes child

/-- `pop_back` on the range `range` at `count_`, with the counters. -/
def popBack (range : List Tuple) (s : PhysicalSort) : PhysicalSort :=
  { s with
    ranges := s.ranges.set s.count range.dropLast
    tempCur := s.tempCur - 1
    count := if range.dropLast.isEmpty then s.count + 1 else s.count }

/-- The inner loop of `execute`, with the tuples it passes to `storeTuple`; `none` when it
would read `ranges_[count_]` past the last range. -/
def fillBlock : ℕ → PhysicalSort → Block → Option (List Tuple × PhysicalSort × Block)
  | 0, _, _ => none
  | fuel + 1, s, block =>
      match block.allocateTuple with
      | none => some ([], s, block)
      | some desc =>
          (s.ranges[s.count]?).bind fun range =>
            match range.getLast? with
            | some tuple =>
                let block := block.storeTuple desc tuple
                let s := s.popBack range
                if s.tempCur = 0 then some ([tuple], s, block)
                else (fillBlock fuel s block).map fun r => (tuple :: r.1, r.2)
            | none =>
                let s := { s with count := s.count + 1 }
                if s.tempCur = 0 then some ([], s, block) else fillBlock fuel s block

/-- What `execute` returns, the tuples it stores, and the sort and the block after the call.
A round of its loop takes a tuple or goes on to the next range, which bounds their number. -/
def execute (s : PhysicalSort) (block : Block) : Option (Bool × List Tuple × PhysicalSort × Block) :=
  if s.tempCur = 0 then some (false, [], s, block)
  else
    (fillBlock (s.tempCur + s.ranges.length + 1) s block.reset).map fun r =>
      (true, r.1, r.2.1, r.2.2.assembling blockSize s.bytes)

/-- One call for each block: the returned values and all stored tuples. -/
def calls : List Block → PhysicalSort → Option (List Bool × List Tuple × PhysicalSort)
  | [], s => some ([], [], s)
  | block :: blocks, s =>
      (execute s block).bind fun r =>
        (calls blocks r.2.2.1).map fun c => (r.1 :: c.1, r.2.1 ++ c.2.1, c.2.2)

/-! The tuples to come. -/

/-- The tuples that are not yet stored, in the order in which they will be. -/
def pending (s : PhysicalSort) : List Tuple := (s.ranges.drop s.count).flatMap List.reverse

/-- `temp_cur_` counts the tuples that are not yet stored. -/
def Counted (s : PhysicalSort) : Prop := s.tempCur = s.pending.length

section Fill
variable {s : PhysicalSort}

/-- With tuples to come, `count_` is the number of a range. -/
theorem count_lt (h : s.pending ≠ []) : s.count < s.ranges.length := by
  by_contra hc
  apply h
  rw [pending, List.drop_eq_nil_of_le (by omega)]
  rfl

theorem pending_eq (h : s.count < s.ranges.length) :
    s.pending = s.ranges[s.count].reverse ++ (s.ranges.drop (s.count + 1)).flatMap List.reverse := by
  rw [pending, List.drop_eq_getElem_cons h, List.flatMap_cons]

/-- Taking the back of a range takes the next tuple to come. -/
theorem pending_popBack {tuple : Tuple} (h : s.count < s.ranges.length)
    (hlast : s.ranges[s.count].getLast? = some tuple) :
    s.pending = tuple :: (s.popBack s.ranges[s.count]).pending := by
  have hrange : s.ranges[s.count].dropLast ++ [tuple] = s.ranges[s.count] :=
    List.dropLast_append_getLast? tuple hlast
  rw [pending_eq h, popBack]
  generalize s.ranges[s.count].dropLast = front at *
  rw [← hrange, List.reverse_append]
  change tuple :: (front.reverse ++ _) = _
  congr 1
  by_cases hfront : front = []
  · subst hfront
    simp [pending, List.drop_set_of_lt (Nat.lt_succ_self s.count)]
  · have hlt : s.count < (s.ranges.set s.count front).length := by simpa using h
    have hempty : front.isEmpty = false := by simpa using hfront
    rw [pending]
    simp only [hempty, Bool.false_eq_true, ↓reduceIte]
    rw [List.drop_eq_getElem_cons hlt, List.flatMap_cons, List.getElem_set_self,
      List.drop_set_of_lt (Nat.lt_succ_self s.count)]

theorem counted_popBack {tuple : Tuple} (hc : s.Counted) (h : s.count < s.ranges.length)
    (hlast : s.ranges[s.count].getLast? = some tuple) : (s.popBack s.ranges[s.count]).Counted := by
  have hlen := congrArg List.length (pending_popBack h hlast)
  rw [List.length_cons] at hlen
  rw [Counted] at hc ⊢
  change s.tempCur - 1 = _
  omega

theorem ranges_left_popBack (range : List Tuple) : (s.popBack range).ranges.length -
    (s.popBack range).count ≤ s.ranges.length - s.count := by
  simp only [popBack, List.length_set]
  split <;> omega

/-- An empty range is passed over. -/
theorem pending_skip (h : s.count < s.ranges.length) (hlast : s.ranges[s.count].getLast? = none) :
    s.pending = pending { s with count := s.count + 1 } := by
  rw [pending_eq h, List.getLast?_eq_none_iff.mp hlast]
  rfl

/-- The inner loop fills the block with the tuples to come, and never leaves the ranges. -/
theorem fillBlock_eq {fuel : ℕ} {b : Block} (hc : s.Counted) (hpos : s.tempCur ≠ 0)
    (hfuel : s.tempCur + (s.ranges.length - s.count) < fuel) :
    ∃ s', fillBlock fuel s b =
        some (s.pending.take (b.fill s.pending).2, s', (b.fill s.pending).1) ∧
      s'.pending = s.pending.drop (b.fill s.pending).2 ∧ s'.Counted ∧ s'.bytes = s.bytes := by
  induction fuel generalizing s b with
  | zero => omega
  | succ fuel ih =>
    have hne : s.pending ≠ [] := by
      rw [Counted] at hc
      rintro hnil
      simp [hnil] at hc
      omega
    have hlt := count_lt hne
    cases hdesc : b.allocateTuple with
    | none =>
      rw [fillBlock, hdesc, Block.fill_of_none hdesc]
      exact ⟨s, rfl, rfl, hc, rfl⟩
    | some desc =>
      rw [fillBlock, hdesc]
      simp only [List.getElem?_eq_getElem hlt, Option.bind_some]
      cases hlast : s.ranges[s.count].getLast? with
      | some tuple =>
        have htake := pending_popBack hlt hlast
        have hc1 := counted_popBack hc hlt hlast
        have hleft := ranges_left_popBack (s := s) s.ranges[s.count]
        have htemp : (s.popBack s.ranges[s.count]).tempCur = s.tempCur - 1 := rfl
        have hbytes : (s.popBack s.ranges[s.count]).bytes = s.bytes := rfl
        generalize s.popBack s.ranges[s.count] = s1 at *
        dsimp only
        rw [htake, Block.fill_of_some hdesc, List.take_succ_cons, List.drop_succ_cons]
        split
        · next hzero =>
          have hnil : s1.pending = [] := by
            rw [← List.length_eq_zero_iff, ← hc1]
            exact hzero
          exact ⟨s1, by rw [hnil]; rfl, by rw [hnil]; rfl, hc1, hbytes⟩
        · next hzero =>
          obtain ⟨s', hs', hrest⟩ := ih (b := b.storeTuple desc tuple) hc1 hzero (by omega)
          exact ⟨s', by rw [hs']; rfl, hbytes ▸ hrest⟩
      | none =>
        have hskip := pending_skip hlt hlast
        dsimp only
        rw [if_neg hpos]
        obtain ⟨s', hs', hrest⟩ := ih (s := { s with count := s.count + 1 }) (b := b)
          (by rw [Counted, ← hskip]; exact hc) hpos (by
            change s.tempCur + (s.ranges.length - (s.count + 1)) < fuel
            omega)
        rw [← hskip] at hs' hrest
        exact ⟨s', hs', hrest⟩

end Fill

/-! Calls of `execute`. -/

/-- A block of the pipeline that a caller of `execute` passes. -/
def Passed (bytes : ℕ) (b : Block) : Prop := b.size = blockSize ∧ b.tupleSize = bytes

section Calls
variable {s : PhysicalSort}

theorem execute_false (h : s.pending = []) (hc : s.Counted) (b : Block) :
    execute s b = some (false, [], s, b) := by
  rw [execute, if_pos (by rw [hc, h]; rfl)]

/-- With tuples to come, `execute` returns true and stores at least one of them. -/
theorem execute_true (h : s.pending ≠ []) (hc : s.Counted) {b : Block} (hb : Passed s.bytes b)
    (hfits : s.bytes ≤ blockSize) :
    ∃ s', execute s b = some (true, s.pending.take (b.reset.fill s.pending).2, s',
        ((b.reset.fill s.pending).1).assembling blockSize s.bytes) ∧
      s'.pending = s.pending.drop (b.reset.fill s.pending).2 ∧ s'.Counted ∧ s'.bytes = s.bytes ∧
      0 < (b.reset.fill s.pending).2 := by
  have hpos : s.tempCur ≠ 0 := by
    rw [hc]
    simpa using h
  obtain ⟨s', hs', hrest⟩ := fillBlock_eq (b := b.reset) hc hpos
    (show _ < s.tempCur + s.ranges.length + 1 by omega)
  refine ⟨s', by rw [execute, if_neg hpos, hs']; rfl, hrest.1, hrest.2.1, hrest.2.2, ?_⟩
  obtain ⟨x, xs, hx⟩ := List.exists_cons_of_ne_nil h
  have hroom : b.reset.allocateTuple = some 0 := by
    rw [Block.allocateTuple_eq_some]
    refine ⟨?_, rfl⟩
    change 0 + b.tupleSize ≤ b.size
    rw [hb.1, hb.2]
    omega
  rw [hx, Block.fill_of_some hroom]
  exact Nat.succ_pos _

/-- The calls store the tuples to come in order, and return false only after the last. -/
theorem calls_pending (hc : s.Counted) (hfits : s.pending ≠ [] → s.bytes ≤ blockSize)
    {blocks : List Block} (hb : ∀ b ∈ blocks, Passed s.bytes b) :
    ∃ rets out s', calls blocks s = some (rets, out, s') ∧ s.pending = out ++ s'.pending ∧
      s'.Counted ∧ s'.bytes = s.bytes ∧ (false ∈ rets → s'.pending = []) ∧
      (s.pending.length < blocks.length → false ∈ rets) := by
  induction blocks generalizing s with
  | nil => exact ⟨[], [], s, rfl, rfl, hc, rfl, by simp, by simp⟩
  | cons b blocks ih =>
    by_cases hnil : s.pending = []
    · obtain ⟨rets, out, s', hcalls, hsplit, hc', hbytes, -, -⟩ :=
        ih hc hfits fun b hb' => hb b (by simp [hb'])
      have hend : s'.pending = [] := by
        rw [hnil] at hsplit
        exact (List.append_eq_nil_iff.mp hsplit.symm).2
      refine ⟨false :: rets, out, s', ?_, hsplit, hc', hbytes, fun _ => hend, fun _ => by simp⟩
      rw [calls, execute_false hnil hc, Option.bind_some, hcalls]
      rfl
    · obtain ⟨s₁, hex, hpend, hc₁, hbytes₁, hpos⟩ :=
        execute_true hnil hc (hb b (by simp)) (hfits hnil)
      obtain ⟨rets, out, s', hcalls, hsplit, hc', hbytes, hfalse, hall⟩ :=
        ih hc₁ (fun _ => hbytes₁ ▸ hfits hnil) (hbytes₁ ▸ fun b hb' => hb b (by simp [hb']))
      refine ⟨true :: rets, s.pending.take (b.reset.fill s.pending).2 ++ out, s', ?_, ?_, hc',
        hbytes.trans hbytes₁, fun hf => hfalse (by simpa using hf), fun hlen => ?_⟩
      · rw [calls, hex, Option.bind_some, hcalls]
        rfl
      · rw [List.append_assoc, ← hsplit, hpend, List.take_append_drop]
      · have hlt : s₁.pending.length < blocks.length := by
          rw [hpend, List.length_drop]
          rw [List.length_cons] at hlen
          have := List.length_pos_iff.mpr hnil
          omega
        exact List.mem_cons_of_mem _ (hall hlt)

end Calls

/-! The partition and sort phases. -/

theorem push_perm {dist : List ℕ} {ranges ranges' : List (List Tuple)} {x : Tuple}
    (h : push dist ranges x = some ranges') : ranges'.flatten.Perm (ranges.flatten ++ [x]) := by
  obtain ⟨r, -, hr⟩ := Option.bind_eq_some_iff.mp h
  split at hr
  · next hlt =>
    rw [Option.some.injEq] at hr
    have hsplit := List.take_append_drop r ranges
    rw [List.drop_eq_getElem_cons hlt] at hsplit
    rw [← hr, List.modify_eq_take_cons_drop hlt]
    nth_rewrite 4 [← hsplit]
    simp only [List.flatten_append, List.flatten_cons, List.append_assoc]
    exact List.Perm.append_left _ (List.Perm.append_left _ List.perm_append_comm)
  · cases hr

theorem foldlM_push_perm {dist : List ℕ} {ts : List Tuple} {ranges ranges' : List (List Tuple)}
    (h : ts.foldlM (push dist) ranges = some ranges') :
    ranges'.flatten.Perm (ranges.flatten ++ ts) := by
  induction ts generalizing ranges with
  | nil =>
    cases h
    rw [List.append_nil]
  | cons x ts ih =>
    rw [List.foldlM_cons] at h
    obtain ⟨r, hr, hrest⟩ := Option.bind_eq_some_iff.mp h
    have hp := (ih hrest).trans ((push_perm hr).append_right ts)
    simpa using hp

/-- Whatever the keys, a finished `prelude` has all tuples to come and counts them. -/
theorem sortPhase_perm {stableSort : List Tuple → List Tuple} (hperm : ∀ l, (stableSort l).Perm l)
    {dist : List ℕ} {junk : Memory} {t : ℕ} {child : List Image} {s : PhysicalSort}
    (h : sortPhase stableSort dist junk t child = some s) :
    s.pending.Perm (childTuples junk t child) ∧ s.Counted ∧ s.bytes = t := by
  obtain ⟨ranges, hr, rfl⟩ := Option.map_eq_some_iff.mp h
  have hp : pending ⟨t, ranges.map stableSort, 0, (childTuples junk t child).length⟩ |>.Perm
      (childTuples junk t child) := by
    rw [pending, List.drop_zero, List.flatMap_map]
    apply (List.Perm.flatMap_left _ fun l _ => (List.reverse_perm _).trans (hperm l)).trans
    rw [List.flatMap_id']
    simpa using foldlM_push_perm hr
  exact ⟨hp, hp.length_eq.symm, rfl⟩

/-- The number of a tuple's range. -/
def rangeOf (dist : List ℕ) (tuple : Tuple) : ℕ := (compareStartEnd dist (key tuple)).getD 0

theorem modify_map_range {n r : ℕ} (c : ℕ → List Tuple) (g : List Tuple → List Tuple) :
    ((List.range n).map c).modify r g =
      (List.range n).map fun i => if i = r then g (c i) else c i := by
  apply List.ext_getElem (by simp)
  intro i hi _
  simp only [List.getElem_modify, List.getElem_map, List.getElem_range, eq_comm]

/-- The partition phase appends to every range the tuples of its keys, in order. -/
theorem foldlM_push {dist : List ℕ} {n : ℕ} {ts : List Tuple}
    (h : ∀ x ∈ ts, ∃ r < n, compareStartEnd dist (key x) = some r) (c : ℕ → List Tuple) :
    ts.foldlM (push dist) ((List.range n).map c) =
      some ((List.range n).map fun i => c i ++ ts.filter fun x => rangeOf dist x = i) := by
  induction ts generalizing c with
  | nil => simp
  | cons x ts ih =>
    obtain ⟨r, hr, hx⟩ := h x (by simp)
    have hof : rangeOf dist x = r := by rw [rangeOf, hx]; rfl
    rw [List.foldlM_cons, push, hx, Option.bind_some, if_pos (by simpa using hr), modify_map_range]
    change ts.foldlM (push dist) _ = _
    rw [ih (fun y hy => h y (by simp [hy]))]
    congr 2
    funext i
    by_cases hi : i = r
    · simp [hi, hof]
    · simp [hi, hof, Ne.symm hi]

theorem childTuples_eq (junk : Memory) {t : ℕ} {child : List Image}
    (hfits : ∀ img ∈ child, img.Fits t) :
    childTuples junk t child = child.flatMap (Image.tuples t) :=
  List.flatMap_congr fun img himg =>
    Block.tuples_storeBlock (b := Block.make junk blockSize t) rfl rfl (hfits img himg)

/-- A key below the last bound has a range. -/
theorem compareStartEnd_some {dist : List ℕ} (hlen : dist.length = cpuCore) {k : ℕ}
    (hk : k < dist.getLastD 0) : ∃ r < cpuCore, compareStartEnd dist k = some r := by
  have hne : dist ≠ [] := by
    rintro rfl
    simp at hk
  rw [List.getLastD_eq_getLast?, List.getLast?_eq_some_getLast hne] at hk
  obtain ⟨i, hi, hfirst⟩ := firstAbove_isSome (List.getLast_mem hne) hk
  exact ⟨i, hlen ▸ hi, hfirst⟩

/-- Keys of an earlier range are below the keys of a later one. -/
theorem key_lt_of_rangeOf {dist : List ℕ} {i j : ℕ} {x y : Tuple}
    (hx : compareStartEnd dist (key x) = some i) (hy : compareStartEnd dist (key y) = some j)
    (hij : i < j) : key x < key y := by
  obtain ⟨hi, hlt, -⟩ := List.findIdx?_eq_some_iff_getElem.mp hx
  obtain ⟨_, _, hle⟩ := List.findIdx?_eq_some_iff_getElem.mp hy
  have hnot := hle i hij
  simp only [decide_eq_true_eq] at hlt hnot
  omega

theorem distRanges_length {α : Type} [DecidableEq α] {lowers : List α} {ip : α} {dist : List ℕ}
    (h : distRanges lowers ip = some dist) : dist.length = cpuCore := by
  by_cases hov : th lowers ip * dataVolume ≤ intMax
  · rw [distRanges_eq hov, Option.some.injEq] at h
    rw [← h]
    simp
  · rw [distRanges_eq_none hov] at h
    cases h

section SortPhase
variable {stableSort : List Tuple → List Tuple} (hperm : ∀ l, (stableSort l).Perm l)
  (hsort : ∀ l, (stableSort l).Pairwise fun x y => key y ≤ key x)
include hperm hsort

/-- After the sort phase, the tuples to come are all tuples of the child in key order. -/
theorem sortPhase_pending {dist : List ℕ} (hlen : dist.length = cpuCore) (junk : Memory) {t : ℕ}
    {child : List Image} (hfits : ∀ img ∈ child, img.Fits t)
    (hkeys : ∀ x ∈ child.flatMap (Image.tuples t), key x < dist.getLastD 0) :
    ∃ s, sortPhase stableSort dist junk t child = some s ∧ s.Counted ∧ s.bytes = t ∧
      s.pending.Perm (child.flatMap (Image.tuples t)) ∧
      s.pending.Pairwise fun x y => key x ≤ key y := by
  have hall := fun x hx => compareStartEnd_some hlen (hkeys x hx)
  have hpart := foldlM_push hall fun _ => []
  generalize hts : child.flatMap (Image.tuples t) = ts at *
  have hrange {x : Tuple} (hx : x ∈ ts) : compareStartEnd dist (key x) = some (rangeOf dist x) := by
    obtain ⟨r, -, hr⟩ := hall x hx
    rw [rangeOf, hr]
    rfl
  let bucket := fun i => stableSort (ts.filter fun x => rangeOf dist x = i)
  have hbucket {i : ℕ} {x : Tuple} (hx : x ∈ (bucket i).reverse) :
      compareStartEnd dist (key x) = some i := by
    have hmem := List.mem_filter.mp ((hperm _).mem_iff.mp (List.mem_reverse.mp hx))
    rw [hrange hmem.1, show rangeOf dist x = i by simpa using hmem.2]
  let s : PhysicalSort := ⟨t, (List.range cpuCore).map bucket, 0, ts.length⟩
  have hpend : s.pending = (List.range cpuCore).flatMap fun i => (bucket i).reverse := by
    rw [pending, List.drop_zero, List.flatMap_map]
  have hs : sortPhase stableSort dist junk t child = some s := by
    rw [sortPhase, childTuples_eq junk hfits, hts,
      show List.replicate cpuCore ([] : List Tuple) = (List.range cpuCore).map fun _ => [] from rfl,
      hpart, Option.map_some, List.map_map]
    rfl
  obtain ⟨hp, hc, hbytes⟩ := sortPhase_perm hperm hs
  rw [childTuples_eq junk hfits, hts] at hp
  refine ⟨s, hs, hc, hbytes, hp, ?_⟩
  rw [hpend, List.pairwise_flatMap]
  refine ⟨fun i _ => List.pairwise_reverse.mpr (hsort _), ?_⟩
  apply List.pairwise_lt_range.imp
  intro i j hij x hx y hy
  exact (key_lt_of_rangeOf (hbucket hx) (hbucket hy) hij).le

end SortPhase

end PhysicalSort
end Mosito
