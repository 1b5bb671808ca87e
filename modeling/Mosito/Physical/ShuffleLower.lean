import Mosito.Physical.RangeAgreement
import Mosito.Lib.Runs
import Mathlib.Data.List.Sort

/-! The sorting lower end of the range shuffle. The child's tuples are sorted range by range and
then sent block by block, with a gather, a send and a flush phase over the same buffers. -/
namespace Mosito
open ByteStore Runs

/-- Where `execute` is. `send`, `flush` and `close` are before destination `i` of their loop,
`check` is the test of `oks` at the top of the flush. -/
inductive ShufflePc where
  | gather
  | send (i : ℕ)
  | check
  | flush (i : ℕ)
  | close (i : ℕ)
  | returned
  deriving DecidableEq

namespace ShufflePc

/-- The gather and send phases are over. -/
@[simp] def flushing : ShufflePc → Bool
  | gather | send _ => false
  | _ => true

/-- The flush is over too. -/
@[simp] def closing : ShufflePc → Bool
  | close _ | returned => true
  | _ => false

end ShufflePc

/-- `newRanges` are `new_ranges_`, each from its end, where tuples are taken. `columns` are the
blocks that `put` has accepted. -/
structure ShuffleLower where
  n : ℕ
  totalsize : ℕ
  buffers : ℕ → Block
  newRanges : ℕ → List Tuple
  emptys : ℕ
  oneEmpty : Bool
  oks : ℕ → Bool
  columns : ℕ → List Image
  pc : ShufflePc

namespace ShuffleLower

/-- The tuples of the blocks that `prelude` has copied from the child. A copy has all the
bytes of a block. -/
def childTuples (t : ℕ) (child : List Image) : List Tuple :=
  child.flatMap fun img => ((Block.make img.mem blockSize t).storeBlock img.mem blockSize).tuples

/-- One tuple goes to its range; without a bound above its key, to that of the tuple before. -/
def scatterOne (state : ℕ × (ℕ → List Tuple)) (tuple : Tuple) : ℕ × (ℕ → List Tuple) :=
  let r := (firstAbove (key tuple) ranges2).getD state.1
  (r, Function.update state.2 r (state.2 r ++ [tuple]))

/-- `ranges_`. -/
def scatter (tuples : List Tuple) : ℕ → List Tuple :=
  (tuples.foldl scatterOne (0, fun _ => [])).2

/-- `new_ranges_[i]`: the sorted ranges of destination `i`, the last one first. -/
def combine (n : ℕ) (ranges : ℕ → List Tuple) (i : ℕ) : List Tuple :=
  (List.range (cpuCore / n)).reverse.flatMap fun k => ranges (i * (cpuCore / n) + k)

/-- The state in which `execute` enters its loop, after `prelude`; `sort` is `stable_sort` with
`compare1`. -/
def prelude (sort : List Tuple → List Tuple) (n t : ℕ) (junk : ℕ → Memory)
    (child : List Image) : ShuffleLower where
  n := n
  totalsize := t
  buffers i := Block.make (junk i) blockSize t
  newRanges i := (combine n (fun j => sort (scatter (childTuples t child) j)) i).reverse
  emptys := 0
  oneEmpty := false
  oks _ := false
  columns _ := []
  pc := .gather

def setBuffer (i : ℕ) (b : Block) (s : ShuffleLower) : ShuffleLower :=
  { s with buffers := Function.update s.buffers i b }

/-- A `put` of the buffer of destination `i` that succeeds. -/
def enqueue (i : ℕ) (s : ShuffleLower) : ShuffleLower :=
  { s with columns := Function.update s.columns i (s.columns i ++ [(s.buffers i).image]) }

def setOk (i : ℕ) (s : ShuffleLower) : ShuffleLower :=
  { s with oks := Function.update s.oks i true }

def goto (pc : ShufflePc) (s : ShuffleLower) : ShuffleLower := { s with pc := pc }

/-- The gather phase for destination `i`. -/
def gatherOne (i : ℕ) (s : ShuffleLower) : ShuffleLower :=
  if (s.buffers i).empty ∧ s.newRanges i ≠ [] then
    let r := (s.buffers i).fill (s.newRanges i)
    let rest := (s.newRanges i).drop r.2
    { s with
      buffers := Function.update s.buffers i r.1
      newRanges := Function.update s.newRanges i rest
      emptys := if rest = [] then s.emptys + 1 else s.emptys
      oneEmpty := s.oneEmpty || (rest = [] && s.emptys + 1 = s.n) }
  else s

/-- The gather phase for the first `k` destinations. -/
def gather : ℕ → ShuffleLower → ShuffleLower
  | 0, s => s
  | k + 1, s => gatherOne k (gather k s)

def assemble (i : ℕ) (s : ShuffleLower) : ShuffleLower :=
  s.setBuffer i ((s.buffers i).assembling blockSize s.totalsize)

/-- A step of `execute`; `accepted` is what `put` returns if the step calls it. -/
def step (s : ShuffleLower) (accepted : Bool) : Option ShuffleLower :=
  match s.pc with
  | .gather =>
      let s := s.gather s.n
      some (s.goto (if s.oneEmpty then .check else .send 0))
  | .send i =>
      if s.n ≤ i then some (s.goto .gather)
      else if (s.buffers i).empty then some (s.goto (.send (i + 1)))
      else
        let s := s.assemble i
        if accepted then some (((s.enqueue i).setBuffer i (s.buffers i).reset).goto (.send (i + 1)))
        else some (s.goto (.send (i + 1)))
  | .check =>
      if 0 < s.n ∧ ∀ i < s.n, s.oks i = true then some (s.goto (.close 0))
      else some (s.goto (.flush 0))
  | .flush i =>
      if s.n ≤ i then some (s.goto .check)
      else if (s.buffers i).empty then some ((s.setOk i).goto (.flush (i + 1)))
      else
        let s := s.assemble i
        if accepted then some ((s.enqueue i).goto (.flush (i + 1)))
        else some (((s.setBuffer i (s.buffers i).reset).setOk i).goto (.flush (i + 1)))
  | .close i =>
      if s.n ≤ i then some (s.goto .returned)
      else
        let s := s.setBuffer i ((s.buffers i).build blockSize 0)
        if accepted then some ((s.enqueue i).goto (.close (i + 1)))
        else some s
  | .returned => none

/-- The tuples with a key between the bounds of destination `i`. -/
def share (n i : ℕ) (ts : List Tuple) : List Tuple :=
  ts.filter fun x => i * dataVolume / n ≤ key x ∧ key x < (i + 1) * dataVolume / n

/-- Exactly the tuples `ts` in ascending order of their keys, and one empty block. -/
def Ordered (t : ℕ) (column : List Image) (ts : List Tuple) : Prop :=
  ShuffleLower1.Lossless t column ts ∧
    (column.flatMap (Image.tuples t)).Pairwise fun x y => key x ≤ key y

/-- The tuples for which a buffer has room. -/
def capacity (t : ℕ) : ℕ := blockSize / t

/-- The tuples that an assembled block announces. -/
def announced (t : ℕ) : ℕ := (blockSize - 4) / t

/-- `k` tuples fill blocks that hold exactly what they announce. -/
def Even (t k : ℕ) : Prop := (capacity t = announced t ∧ capacity t ∣ k) ∨ k = announced t

/-- The blocks that `k` tuples take. -/
def blocksFor (t k : ℕ) : ℕ := (k + capacity t - 1) / capacity t

/-- In the flush, a block is accepted exactly while its column lacks one. -/
def Once (t : ℕ) (sizes : ℕ → ℕ) (s : ShuffleLower) (accepted : Bool) : Prop :=
  ∀ i < s.n, s.pc = .flush i → (s.buffers i).empty = false →
    (accepted = true ↔ (s.columns i).length < blocksFor t (sizes i))

section Ranges
variable {sort : List Tuple → List Tuple} {n t : ℕ} {ts : List Tuple}

theorem childTuples_eq {child : List Image} (hfits : ∀ img ∈ child, img.Fits t) :
    childTuples t child = child.flatMap (Image.tuples t) :=
  List.flatMap_congr fun img himg => Block.tuples_storeBlock rfl rfl (hfits img himg)

/-- The tuples with a key in range `j`. -/
def quarterOf (j : ℕ) (ts : List Tuple) : List Tuple := ts.filter fun x => key x / quarter = j

theorem scatter_eq (hkeys : ∀ x ∈ ts, key x < dataVolume) (j : ℕ) :
    scatter ts j = quarterOf j ts := by
  induction ts using List.reverseRecOn with
  | nil => rfl
  | append_singleton ts x ih =>
    have hx : firstAbove (key x) ranges2 = some (key x / quarter) :=
      firstAbove_ranges2 (hkeys x (by simp))
    have hj := ih fun y hy => hkeys y (by simp [hy])
    rw [scatter, List.foldl_append, List.foldl_cons, List.foldl_nil, scatterOne, hx,
      Option.getD_some, ← scatter, quarterOf, List.filter_append, ← quarterOf, ← hj]
    rcases eq_or_ne (key x / quarter) j with rfl | hne
    · simp
    · simp [hne, hne.symm]

/-- The ranges of destination `i` are its share. -/
theorem share_eq (hn : n ∣ cpuCore) (i : ℕ) (ts : List Tuple) :
    share n i ts = ts.filter fun x => i * (cpuCore / n) ≤ key x / quarter ∧
      key x / quarter < (i + 1) * (cpuCore / n) := by
  apply List.filter_congr
  intro x _
  obtain ⟨k, hk⟩ := hn
  have hpos : 0 < n := by
    rcases Nat.eq_zero_or_pos n with rfl | h
    · simp [cpuCore] at hk
    · exact h
  have hdiv : cpuCore / n = k := by rw [hk, Nat.mul_div_cancel_left _ hpos]
  have hbound (i : ℕ) : i * dataVolume / n = i * k * quarter := by
    rw [show dataVolume = cpuCore * quarter from rfl, hk,
      show i * (n * k * quarter) = n * (i * k * quarter) by ring, Nat.mul_div_cancel_left _ hpos]
  rw [hdiv, hbound, hbound, decide_eq_decide, Nat.le_div_iff_mul_le (by decide),
    Nat.div_lt_iff_lt_mul (by decide)]

theorem quarters_perm (a k : ℕ) (ts : List Tuple) :
    ((List.range k).reverse.flatMap fun j => quarterOf (a + j) ts).Perm
      (ts.filter fun x => a ≤ key x / quarter ∧ key x / quarter < a + k) := by
  induction k with
  | zero =>
    have hnone : ts.filter (fun x => a ≤ key x / quarter ∧ key x / quarter < a + 0) = [] :=
      List.filter_eq_nil_iff.mpr fun x _ => by simp
    rw [hnone]
    rfl
  | succ k ih =>
    rw [List.range_succ, List.reverse_append, List.reverse_singleton, List.singleton_append,
      List.flatMap_cons]
    refine (ih.append_left _).trans ?_
    refine List.Perm.trans ?_ (List.filter_append_perm (fun x => key x / quarter = a + k) _)
    rw [List.filter_filter, List.filter_filter]
    refine List.Perm.append (.of_eq ?_) (.of_eq ?_)
    · apply List.filter_congr
      intro x _
      rw [← Bool.decide_and, decide_eq_decide]
      omega
    · apply List.filter_congr
      intro x _
      rw [← decide_not, ← Bool.decide_and, decide_eq_decide]
      omega

section Sorted
variable (hperm : ∀ l, (sort l).Perm l)
include hperm

theorem combine_perm (hn : n ∣ cpuCore) (hkeys : ∀ x ∈ ts, key x < dataVolume) (i : ℕ) :
    (combine n (fun j => sort (scatter ts j)) i).Perm (share n i ts) := by
  rw [share_eq hn, Nat.succ_mul]
  refine List.Perm.trans ?_ (quarters_perm _ _ _)
  apply List.Perm.flatMap_left
  intro k _
  rw [← scatter_eq hkeys]
  exact hperm _

theorem combine_sorted (hsorted : ∀ l, (sort l).Pairwise fun x y => key y ≤ key x)
    (hkeys : ∀ x ∈ ts, key x < dataVolume) (i : ℕ) :
    (combine n (fun j => sort (scatter ts j)) i).Pairwise fun x y => key y ≤ key x := by
  have hmem (j : ℕ) (x : Tuple) (hx : x ∈ sort (scatter ts j)) : key x / quarter = j := by
    rw [(hperm _).mem_iff, scatter_eq hkeys, quarterOf, List.mem_filter] at hx
    simpa using hx.2
  rw [combine, List.pairwise_flatMap]
  refine ⟨fun _ _ => hsorted _, ?_⟩
  rw [List.pairwise_reverse]
  refine List.pairwise_lt_range.imp fun {a b} hab x hx y hy => ?_
  have hxq := hmem _ x hx
  have hyq := hmem _ y hy
  by_contra hlt
  have := Nat.div_le_div_right (c := quarter) (Nat.le_of_lt (Nat.lt_of_not_le hlt))
  omega

end Sorted

end Ranges

section Blocks
variable {t : ℕ} {b : Block} {q rest : List Tuple}

theorem announced_le_capacity (t : ℕ) : announced t ≤ capacity t :=
  Nat.div_le_div_right (Nat.sub_le _ _)

theorem announced_mul_le (t : ℕ) : announced t * t ≤ blockSize - 4 := Nat.div_mul_le_self _ _

/-- The tuples `q` are stored in a buffer, which is empty or as full as it will announce. -/
structure Held (t : ℕ) (b : Block) (q : List Tuple) : Prop where
  stored : b.Stored q
  size : b.size = blockSize
  tupleSize : b.tupleSize = t
  full : q = [] ∨ q.length = announced t

theorem Held.empty_iff (h : Held t b q) (ht : 0 < t) : b.empty = true ↔ q = [] := by
  rw [Block.empty, decide_eq_true_eq, h.stored.free_eq, h.tupleSize, Nat.mul_eq_zero,
    List.length_eq_zero_iff]
  exact or_iff_left ht.ne'

theorem Held.reset (h : Held t b q) : Held t b.reset [] :=
  ⟨b.stored_reset, h.size, h.tupleSize, Or.inl rfl⟩

/-- The tail does not touch the tuples of a buffer that is as full as it announces. -/
theorem Held.assembling (h : Held t b q) : Held t (b.assembling blockSize t) q := by
  refine ⟨⟨h.stored.free_eq, ?_, h.stored.sizes, ?_⟩, rfl, h.tupleSize, h.full⟩
  · exact h.stored.room.trans_eq h.size
  · rw [← h.stored.bytes]
    apply readAt_writeAt_before
    change 0 + q.length * b.tupleSize ≤ blockSize - 4
    rw [h.tupleSize, Nat.zero_add]
    rcases h.full with rfl | hq
    · simp
    · rw [hq]
      exact announced_mul_le t

theorem Held.image_tuples (h : Held t b q) (hq : q.length = announced t) :
    (b.assembling blockSize t).image.tuples t = q := by
  have hcount : (b.assembling blockSize t).image.count = announced t :=
    ShuffleLower1.count_assembling t
  have hfits : (b.assembling blockSize t).image.Fits t := by
    rw [Image.Fits, hcount]
    exact (announced_mul_le t).trans (Nat.sub_le _ _)
  obtain ⟨hst, -, rfl, -⟩ := h
  rw [← List.take_of_length_le hq.le, announced, ← hst.assembling_tuples (by decide) hq.ge]
  exact Block.image_tuples rfl hfits

/-- A fill of an empty buffer takes as many tuples as the block will announce. -/
theorem Held.fill (h : Held t b []) (hrest : rest ≠ []) (hpos : 0 < announced t)
    (hsizes : ∀ x ∈ rest, x.length = t) (heven : Even t rest.length) :
    (b.fill rest).2 = announced t ∧ Held t (b.fill rest).1 (rest.take (announced t)) := by
  have hsizes' : ∀ x ∈ rest, x.length = b.tupleSize := by rwa [h.tupleSize]
  obtain ⟨hst, hle⟩ := Block.fill_stored h.stored hsizes'
  have hlen : ([] ++ rest.take (b.fill rest).2).length = (b.fill rest).2 := by simpa using hle
  have hsize : (b.fill rest).1.size = blockSize := (Block.fill_size b rest).1.trans h.size
  have htup : (b.fill rest).1.tupleSize = t := (Block.fill_size b rest).2.trans h.tupleSize
  have hcap : (b.fill rest).2 ≤ capacity t := by
    have hroom := hst.room
    rw [hst.free_eq, hlen, hsize, htup] at hroom
    have ht : 0 < t := Nat.pos_of_ne_zero fun h0 => by simp [announced, h0] at hpos
    exact (Nat.le_div_iff_mul_le ht).mpr hroom
  have htaken : (b.fill rest).2 = announced t := by
    have hne := List.length_pos_iff.mpr hrest
    have hann := announced_le_capacity t
    rcases Block.fill_stops b rest with hfull | hall
    · have hcap' := hst.full_length hfull
      rw [hlen, hsize, htup, ← capacity] at hcap'
      rcases heven with ⟨heq, -⟩ | heq <;> omega
    · rcases heven with ⟨heq, hdvd⟩ | heq
      · have := Nat.le_of_dvd hne hdvd
        omega
      · omega
  refine ⟨htaken, ?_⟩
  rw [List.nil_append, htaken] at hst
  refine ⟨hst, hsize, htup, Or.inr ?_⟩
  rw [List.length_take]
  omega

theorem Even.drop {k : ℕ} (h : Even t k) : Even t (k - announced t) ∨ k - announced t = 0 := by
  rcases h with ⟨heq, hdvd⟩ | heq
  · exact Or.inl (Or.inl ⟨heq, Nat.dvd_sub hdvd (heq ▸ dvd_refl _)⟩)
  · exact Or.inr (by omega)

theorem Even.blocksFor_mul {k : ℕ} (h : Even t k) (hpos : 0 < announced t) :
    blocksFor t k * announced t = k := by
  have hann := announced_le_capacity t
  rcases h with ⟨heq, m, rfl⟩ | rfl
  · have hdiv : (capacity t * m + capacity t - 1) / capacity t = m := by
      rw [Nat.add_sub_assoc (by omega), Nat.mul_add_div (by omega),
        Nat.div_eq_of_lt (by omega), Nat.add_zero]
    rw [blocksFor, hdiv, ← heq, Nat.mul_comm]
  · have hdiv : (announced t + capacity t - 1) / capacity t = 1 := by
      apply Nat.div_eq_of_lt_le <;> omega
    rw [blocksFor, hdiv, Nat.one_mul]

end Blocks

end ShuffleLower
end Mosito
