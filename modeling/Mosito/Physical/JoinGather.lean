import Mosito.Common.FlexBlock
import Mosito.Lib.Buckets

/-! The first phase of the merge join: the tuples of both children are gathered in one
growing block for each core. The index of the block is computed from the key and used
unchecked. -/
namespace Mosito
open ByteStore

/-- The gathered tuples of one side: `left_flex_block_` and `tablesize_left`, or those of
the right side. -/
structure Partitions where
  flexBlock : ℕ → FlexBlock
  tablesize : ℕ → ℕ

namespace Partitions

/-- The empty partitions of `prelude`. -/
def make (junk : Memory) (tupleSize : ℕ) : Partitions where
  flexBlock _ := FlexBlock.make junk initFlexBlockSize tupleSize
  tablesize _ := 0

/-- `int range=(value)/CPU_CORE`. -/
def range (tuple : Tuple) : ℤ := Int.bmod (key tuple / cpuCore : ℕ) (2 ^ 32)

/-- One round of the loop over the tuples of a child block; `none` when the index is out of
the arrays or the block cannot take the tuple. -/
def put (junk : Memory) (ps : Partitions) (tuple : Tuple) : Option Partitions :=
  if 0 ≤ range tuple ∧ range tuple < cpuCore then
    let i := (range tuple).toNat
    ((ps.flexBlock i).storeTupleOK junk tuple).map fun f =>
      { flexBlock := Function.update ps.flexBlock i f
        tablesize := Function.update ps.tablesize i (ps.tablesize i + 1) }
  else none

/-- The loop over the blocks of a child, which are read from `block`. -/
def gather (junk : Memory) (block : Block) (child : List Image) (ps : Partitions) :
    Option Partitions :=
  child.foldlM (fun ps img => (block.storeBlock img.mem blockSize).tuples.foldlM (put junk) ps) ps

end Partitions

/-- Both sides of `MergeJoin` in `prelude`, up to the merge. -/
structure JoinGather where
  leftBlock : Block
  rightBlock : Block
  left : Partitions
  right : Partitions

namespace JoinGather

def make (junk : Memory) (leftSize rightSize : ℕ) : JoinGather where
  leftBlock := Block.make junk blockSize leftSize
  rightBlock := Block.make junk blockSize rightSize
  left := Partitions.make junk leftSize
  right := Partitions.make junk rightSize

def gatherLeft (junk : Memory) (child : List Image) (mj : JoinGather) : Option JoinGather :=
  (mj.left.gather junk mj.leftBlock child).map fun ps => { mj with left := ps }

def gatherRight (junk : Memory) (child : List Image) (mj : JoinGather) : Option JoinGather :=
  (mj.right.gather junk mj.rightBlock child).map fun ps => { mj with right := ps }

/-- Both threads have ended; they share no partition. -/
def prelude (junk : Memory) (leftSize rightSize : ℕ) (left right : List Image) :
    Option JoinGather :=
  (gatherLeft junk left (make junk leftSize rightSize)).bind (gatherRight junk right)

end JoinGather

namespace Partitions

/-- Partition `i` holds the tuples `c i` and their number. -/
structure Holds (t : ℕ) (ps : Partitions) (c : ℕ → List Tuple) : Prop where
  grown : ∀ i, (ps.flexBlock i).Grown (c i) ((c i).length * t)
  tupleSize_eq : ∀ i, (ps.flexBlock i).block.tupleSize = t
  tablesize_eq : ∀ i, ps.tablesize i = (c i).length

theorem make_holds (junk : Memory) (t : ℕ) : Holds t (make junk t) fun _ => [] :=
  ⟨fun _ => FlexBlock.make_grown junk t, fun _ => rfl, fun _ => rfl⟩

/-- Below `DATAVOLUME` the conversion to `int` changes nothing. -/
theorem range_eq {tuple : Tuple} (h : key tuple < dataVolume) :
    range tuple = ((key tuple / cpuCore : ℕ) : ℤ) := by
  have hlt : key tuple / cpuCore < 2 ^ 31 := (Nat.div_le_self _ _).trans_lt (h.trans (by decide))
  unfold range
  generalize key tuple / cpuCore = q at hlt
  apply Int.bmod_eq_of_le
  · norm_num
  · norm_num
    omega

/-- The tuples of partition `i`. -/
def share (i : ℕ) (ts : List Tuple) : List Tuple := ts.filter fun s => key s / cpuCore = i

section Gather
variable (junk : Memory) {t : ℕ} {ps : Partitions} {c : ℕ → List Tuple}

theorem put_eq {s : Tuple} (hkey : key s < dataVolume) :
    put junk ps s = if key s / cpuCore < cpuCore then
      ((ps.flexBlock (key s / cpuCore)).storeTupleOK junk s).map fun f =>
        { flexBlock := Function.update ps.flexBlock (key s / cpuCore) f
          tablesize := Function.update ps.tablesize (key s / cpuCore)
            (ps.tablesize (key s / cpuCore) + 1) }
    else none := by
  simp only [put, range_eq hkey, Int.toNat_natCast, Int.natCast_nonneg, true_and, Nat.cast_lt]

/-- A tuple whose partition exists and has room goes behind the others of its partition. -/
theorem Holds.put (h : Holds t ps c) {s : Tuple} (hs : s.length = t) (hkey : key s < dataVolume)
    (hcore : key s / cpuCore < cpuCore) (hle : ((c (key s / cpuCore)).length + 1) * t ≤ 2 ^ 31) :
    ∃ ps', Partitions.put junk ps s = some ps' ∧
      Holds t ps' (Function.update c (key s / cpuCore) (c (key s / cpuCore) ++ [s])) := by
  rw [put_eq junk hkey, if_pos hcore]
  generalize key s / cpuCore = i at *
  have hsize := h.tupleSize_eq i
  obtain ⟨f, hf, hgr, htup⟩ := FlexBlock.Grown.storeTupleOK junk (s := s)
    (by rw [hsize]; exact h.grown i) (hs.trans hsize.symm) (by rw [hsize]; exact hle)
  refine ⟨_, by rw [hf]; rfl, ⟨fun j => ?_, fun j => ?_, fun j => ?_⟩⟩
  · by_cases hj : j = i
    · subst hj
      simp only [Function.update_self]
      rw [htup, hsize] at hgr
      exact hgr
    · simp only [Function.update_of_ne hj]
      exact h.grown j
  · by_cases hj : j = i
    · subst hj
      simp only [Function.update_self]
      exact htup.trans hsize
    · simp only [Function.update_of_ne hj]
      exact h.tupleSize_eq j
  · by_cases hj : j = i
    · subst hj
      simp [h.tablesize_eq j]
    · simp only [Function.update_of_ne hj]
      exact h.tablesize_eq j

/-- Every index is in the arrays, and no partition outgrows its block. -/
def Gatherable (t : ℕ) (c : ℕ → List Tuple) (ts : List Tuple) : Prop :=
  (∀ s ∈ ts, key s / cpuCore < cpuCore) ∧
    ∀ i < cpuCore, (c i ++ share i ts).length * t ≤ 2 ^ 31

theorem share_cons (c : ℕ → List Tuple) (s : Tuple) (ts : List Tuple) (i : ℕ) :
    Function.update c (key s / cpuCore) (c (key s / cpuCore) ++ [s]) i ++ share i ts =
      c i ++ share i (s :: ts) := by
  by_cases hi : key s / cpuCore = i
  · subst hi
    simp [share]
  · simp [share, hi, Function.update_of_ne (Ne.symm hi)]

theorem gatherable_cons {s : Tuple} {ts : List Tuple} :
    Gatherable t c (s :: ts) ↔ key s / cpuCore < cpuCore ∧
      Gatherable t (Function.update c (key s / cpuCore) (c (key s / cpuCore) ++ [s])) ts := by
  simp only [Gatherable, share_cons, List.forall_mem_cons, and_assoc]

theorem Gatherable.room {s : Tuple} {ts : List Tuple} (h : Gatherable t c (s :: ts)) :
    ((c (key s / cpuCore)).length + 1) * t ≤ 2 ^ 31 := by
  refine (Nat.mul_le_mul_right t ?_).trans (h.2 _ (h.1 s (by simp)))
  simp [share]

/-- Gathering gives each partition its share of the tuples, in order. -/
theorem Holds.gatherAll (h : Holds t ps c) {ts : List Tuple} (hs : ∀ s ∈ ts, s.length = t)
    (hkeys : ∀ s ∈ ts, key s < dataVolume) (hg : Gatherable t c ts) :
    ∃ ps', ts.foldlM (Partitions.put junk) ps = some ps' ∧
      Holds t ps' fun i => c i ++ share i ts := by
  induction ts generalizing ps c with
  | nil => exact ⟨ps, rfl, by simpa [share] using h⟩
  | cons s ts ih =>
    obtain ⟨hcore, hrest⟩ := gatherable_cons.mp hg
    obtain ⟨ps', hput, h'⟩ := h.put junk (hs s (by simp)) (hkeys s (by simp)) hcore hg.room
    obtain ⟨ps'', hfold, h''⟩ := ih h' (fun r hr => hs r (by simp [hr]))
      (fun r hr => hkeys r (by simp [hr])) hrest
    simp only [share_cons] at h''
    exact ⟨ps'', by rw [List.foldlM_cons, hput]; exact hfold, h''⟩

theorem Holds.gatherAll_none (h : Holds t ps c) {ts : List Tuple} (hs : ∀ s ∈ ts, s.length = t)
    (hkeys : ∀ s ∈ ts, key s < dataVolume) (hg : ¬ Gatherable t c ts) :
    ts.foldlM (Partitions.put junk) ps = none := by
  induction ts generalizing ps c with
  | nil =>
    refine absurd ⟨by simp, fun i _ => ?_⟩ hg
    have hle := (h.grown i).stored.room.trans (h.grown i).size_le
    rw [(h.grown i).stored.free_eq, h.tupleSize_eq i] at hle
    simpa [share] using hle
  | cons s ts ih =>
    have hkey := hkeys s (by simp)
    by_cases hcore : key s / cpuCore < cpuCore
    · rcases Nat.lt_or_ge (2 ^ 31) (((c (key s / cpuCore)).length + 1) * t) with hgt | hle
      · have hsize := h.tupleSize_eq (key s / cpuCore)
        rw [List.foldlM_cons, put_eq junk hkey, if_pos hcore, FlexBlock.Grown.storeTupleOK_none
          junk (by rw [hsize]; exact h.grown _) s (by rw [hsize]; exact hgt)]
        rfl
      · obtain ⟨ps', hput, h'⟩ := h.put junk (hs s (by simp)) hkey hcore hle
        rw [List.foldlM_cons, hput]
        exact ih h' (fun r hr => hs r (by simp [hr])) (fun r hr => hkeys r (by simp [hr]))
          fun hrest => hg (gatherable_cons.mpr ⟨hcore, hrest⟩)
    · rw [List.foldlM_cons, put_eq junk hkey, if_neg hcore]
      rfl

end Gather

/-- The blocks of the child are gathered as one sequence of tuples. -/
theorem gather_eq {junk : Memory} {t : ℕ} {child : List Image} (hfits : ∀ img ∈ child, img.Fits t)
    (ps : Partitions) : ps.gather junk (Block.make junk blockSize t) child =
      (child.flatMap (Image.tuples t)).foldlM (put junk) ps := by
  induction child generalizing ps with
  | nil => rfl
  | cons img child ih =>
    have hblock := Block.tuples_storeBlock (b := Block.make junk blockSize t) rfl rfl
      (hfits img (by simp))
    rw [gather, List.foldlM_cons, hblock, List.flatMap_cons, List.foldlM_append]
    congr 1
    funext ps'
    exact ih (fun i hi => hfits i (by simp [hi])) ps'

end Partitions

namespace JoinGather
open Partitions

/-- The tuples of a child. -/
def childTuples (t : ℕ) (child : List Image) : List Tuple := child.flatMap (Image.tuples t)

/-- The contents `c` of one side's partitions are all tuples of its child, with their number;
a child in key order gives partitions in key order. -/
structure Sides (t : ℕ) (child : List Image) (ps : Partitions) (c : ℕ → List Tuple) : Prop where
  stored : ∀ i < cpuCore, (ps.flexBlock i).block.Stored (c i)
  perm : ((List.range cpuCore).flatMap c).Perm (childTuples t child)
  sorted : (childTuples t child).Pairwise (fun a b => key a ≤ key b) →
    ∀ i < cpuCore, (c i).Pairwise fun a b => key a ≤ key b
  tablesize : ∀ i < cpuCore, ps.tablesize i = (c i).length

/-- Both sides are partitioned, and equal keys of either side are in partitions of one index. -/
def Partitioned (junk : Memory) (leftSize rightSize : ℕ) (left right : List Image) : Prop :=
  ∃ mj l r, prelude junk leftSize rightSize left right = some mj ∧
    Sides leftSize left mj.left l ∧ Sides rightSize right mj.right r ∧
    ∀ i < cpuCore, ∀ j < cpuCore, ∀ a ∈ l i ++ r i, ∀ b ∈ l j ++ r j, key a = key b → i = j

/-- The keys of a side are below `CPU_CORE * CPU_CORE`, and the tuples of each partition take
no more bytes than a block can grow to. -/
def InRange (t : ℕ) (child : List Image) : Prop :=
  (∀ s ∈ childTuples t child, key s < cpuCore * cpuCore) ∧
    ∀ i < cpuCore, (share i (childTuples t child)).length * t ≤ 2 ^ 31

theorem gatherable_iff {t : ℕ} {child : List Image} :
    Gatherable t (fun _ => []) (childTuples t child) ↔ InRange t child := by
  simp only [Gatherable, InRange, List.nil_append, Nat.div_lt_iff_lt_mul (show 0 < cpuCore by decide)]

theorem childTuples_length {t : ℕ} {child : List Image} :
    ∀ s ∈ childTuples t child, s.length = t := fun _ => Image.length_of_mem_flatMap

section Side
variable (junk : Memory) {t : ℕ} {child : List Image} (hfits : ∀ img ∈ child, img.Fits t)
  (hkeys : ∀ s ∈ childTuples t child, key s < dataVolume)
include hfits hkeys

theorem gather_some (h : InRange t child) :
    ∃ ps, (Partitions.make junk t).gather junk (Block.make junk blockSize t) child = some ps ∧
      Holds t ps fun i => share i (childTuples t child) := by
  rw [gather_eq hfits]
  exact (make_holds junk t).gatherAll junk childTuples_length hkeys (gatherable_iff.mpr h)

theorem gather_none (h : ¬ InRange t child) :
    (Partitions.make junk t).gather junk (Block.make junk blockSize t) child = none := by
  rw [gather_eq hfits]
  exact (make_holds junk t).gatherAll_none junk childTuples_length hkeys (gatherable_iff.not.mpr h)

end Side

theorem holds_sides {t : ℕ} {child : List Image} {ps : Partitions}
    (h : Holds t ps fun i => share i (childTuples t child)) (hr : InRange t child) :
    Sides t child ps fun i => share i (childTuples t child) := by
  refine ⟨fun i _ => (h.grown i).stored, ?_, fun hsort i _ => ?_, fun i _ => h.tablesize_eq i⟩
  · exact Buckets.perm_of_lt fun s hs => (Nat.div_lt_iff_lt_mul (by decide)).mpr (hr.1 s hs)
  · exact hsort.filter _

/-- Both inputs are partitioned exactly if all their keys are below `CPU_CORE * CPU_CORE` and
no partition takes more than `2 ^ 31` bytes. -/
theorem partitioned_iff (junk : Memory) {leftSize rightSize : ℕ} {left right : List Image}
    (hl : ∀ img ∈ left, img.Fits leftSize) (hr : ∀ img ∈ right, img.Fits rightSize)
    (hlk : ∀ s ∈ childTuples leftSize left, key s < dataVolume)
    (hrk : ∀ s ∈ childTuples rightSize right, key s < dataVolume) :
    Partitioned junk leftSize rightSize left right ↔
      InRange leftSize left ∧ InRange rightSize right := by
  constructor
  · rintro ⟨mj, -, -, hprelude, -⟩
    obtain ⟨a, ha, hb⟩ := Option.bind_eq_some_iff.mp hprelude
    refine ⟨by_contra fun hnot => ?_, by_contra fun hnot => ?_⟩
    · rw [gatherLeft, make, gather_none junk hl hlk hnot] at ha
      cases ha
    · obtain ⟨ps, -, rfl⟩ := Option.map_eq_some_iff.mp ha
      rw [gatherRight, make, gather_none junk hr hrk hnot] at hb
      cases hb
  · rintro ⟨hleft, hright⟩
    obtain ⟨ls, hls, hlh⟩ := gather_some junk hl hlk hleft
    obtain ⟨rs, hrs, hrh⟩ := gather_some junk hr hrk hright
    refine ⟨{ make junk leftSize rightSize with left := ls, right := rs }, _, _, ?_,
      holds_sides hlh hleft, holds_sides hrh hright, fun i _ j _ a ha b hb he => ?_⟩
    · rw [prelude, gatherLeft, make, hls, Option.map_some, Option.bind_some, gatherRight, hrs]
      rfl
    · have hshare {k : ℕ} {x : Tuple} (hx : x ∈ share k (childTuples leftSize left) ++
          share k (childTuples rightSize right)) : key x / cpuCore = k := by
        rcases List.mem_append.mp hx with hx | hx
        · simpa using (List.mem_filter.mp hx).2
        · simpa using (List.mem_filter.mp hx).2
      rw [← hshare ha, ← hshare hb, he]

/-- One tuple of key 3 on both sides. -/
theorem partitioned_three :
    Partitioned (fun _ => 0) 16 16 [oneTuple 3] [oneTuple 3] := by
  have hfits : ∀ img ∈ [oneTuple 3], img.Fits 16 := by
    simp [Image.Fits, oneTuple_count, blockSize]
  have htuples : childTuples 16 [oneTuple 3] = [longTuple 3] := rfl
  have hkeys : ∀ s ∈ childTuples 16 [oneTuple 3], key s < dataVolume := by
    rw [htuples]
    simp [key_longTuple, dataVolume]
  have hrange : InRange 16 [oneTuple 3] := by
    refine ⟨?_, ?_⟩ <;> rw [htuples]
    · simp [key_longTuple, cpuCore]
    · decide
  exact (partitioned_iff _ hfits hfits hkeys hkeys).mpr ⟨hrange, hrange⟩

/-- Key 16 is far below `DATAVOLUME`, but its index is past the last partition. -/
theorem partitioned_sixteen_fails :
    (∀ s ∈ childTuples 16 [oneTuple 16], key s < dataVolume) ∧
      ¬ Partitioned (fun _ => 0) 16 16 [oneTuple 16] [] := by
  have hfits : ∀ img ∈ [oneTuple 16], img.Fits 16 := by
    simp [Image.Fits, oneTuple_count, blockSize]
  have htuples : childTuples 16 [oneTuple 16] = [longTuple 16] := rfl
  have hkeys : ∀ s ∈ childTuples 16 [oneTuple 16], key s < dataVolume := by
    rw [htuples]
    simp [key_longTuple, dataVolume]
  have hrange : ¬ InRange 16 [oneTuple 16] := by
    rw [InRange, htuples]
    simp [key_longTuple, cpuCore]
  refine ⟨hkeys, ?_⟩
  rintro ⟨mj, -, -, hprelude, -⟩
  obtain ⟨a, ha, -⟩ := Option.bind_eq_some_iff.mp hprelude
  rw [gatherLeft, make, gather_none _ hfits hkeys hrange] at ha
  cases ha

end JoinGather
end Mosito
