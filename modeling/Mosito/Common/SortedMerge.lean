import Mosito.Common.PCBuffer
import Mosito.Lib.KWayMerge

/-! `get_sorted` merges its columns: every round of its loop is a pick of a least head,
and the calls up to the first one that returns false take all tuples. -/
namespace Mosito
open ByteStore KWayMerge
namespace PCBuffer

/-- The pops that a column's queue still has to answer: `blocks`, and an empty one. -/
structure Feed (t : ℕ) (data : List (Option Image)) (blocks : List Image) : Prop where
  pops : ∃ z : Image, data.reduceOption = blocks ++ [z] ∧ z.count = 0
  counts : ∀ img ∈ blocks, img.count ≠ 0
  fits : ∀ img ∈ blocks, img.Fits t

/-- All tuples of some blocks. -/
def decode (t : ℕ) (blocks : List Image) : List Tuple := blocks.flatMap (Image.tuples t)

/-- A column's queue after it took `blocks` and an empty one, and gave all of them out. -/
structure Supplied (t : ℕ) (h : BlockCircleQueue.History) (blocks : List Image) : Prop where
  accepted : ∃ z : Image, h.accepted = blocks ++ [z] ∧ z.count = 0
  drained : h.queue.contents = []
  counts : ∀ img ∈ blocks, img.count ≠ 0
  fits : ∀ img ∈ blocks, img.Fits t

/-- A queue feeds the merge in every timing of its pushes and pops. -/
theorem Supplied.feed {t : ℕ} {store : ℕ → Block} {ops : List BlockCircleQueue.Op}
    {blocks : List Image} (h : Supplied t ((BlockCircleQueue.make store columnCon).run ops) blocks) :
    Feed t ((BlockCircleQueue.make store columnCon).run ops).popped blocks := by
  obtain ⟨z, hz, h0⟩ := h.accepted
  have hrun := BlockCircleQueue.run_accepted store columnCon ops
  dsimp only at hrun
  rw [hz, h.drained, List.append_nil] at hrun
  exact ⟨⟨z, hrun.symm, h0⟩, h.counts, h.fits⟩

theorem Feed.decode_ne_nil {t : ℕ} {data : List (Option Image)} {blocks : List Image}
    (h : Feed t data blocks) (hne : blocks ≠ []) : decode t blocks ≠ [] := by
  obtain ⟨img, rest, rfl⟩ := List.exists_cons_of_ne_nil hne
  have hc := h.counts img (by simp)
  rw [decode, List.flatMap_cons, ← List.length_pos_iff, List.length_append, Image.tuples_length]
  omega

theorem popWait_of_reduceOption {data : List (Option Image)} {img : Image} {rest : List Image}
    (h : data.reduceOption = img :: rest) :
    ∃ data', popWait data = some (img, data') ∧ data'.reduceOption = rest := by
  induction data with
  | nil => cases h
  | cons a data ih =>
    cases a with
    | none => exact ih (by simpa using h)
    | some a =>
      rw [List.reduceOption_cons_of_some] at h
      obtain ⟨rfl, rfl⟩ := List.cons.inj h
      exact ⟨data, rfl, rfl⟩

theorem Feed.popWait {t : ℕ} {data : List (Option Image)} {img : Image} {rest : List Image}
    (h : Feed t data (img :: rest)) :
    ∃ data', PCBuffer.popWait data = some (img, data') ∧ Feed t data' rest := by
  obtain ⟨z, hz, h0⟩ := h.pops
  rw [List.cons_append] at hz
  obtain ⟨data', hp, hr⟩ := popWait_of_reduceOption hz
  exact ⟨data', hp, ⟨z, hr, h0⟩, fun x hx => h.counts x (by simp [hx]),
    fun x hx => h.fits x (by simp [hx])⟩

theorem Feed.popWait_last {t : ℕ} {data : List (Option Image)} (h : Feed t data []) :
    ∃ z data', PCBuffer.popWait data = some (z, data') ∧ z.count = 0 ∧
      data'.reduceOption = [] := by
  obtain ⟨z, hz, h0⟩ := h.pops
  obtain ⟨data', hp, hr⟩ := popWait_of_reduceOption hz
  exact ⟨z, data', hp, h0, hr⟩

/-- What column `i` of a begun merge still has to give. `ptr` is its entry in the tree; it
points to the first of these tuples, or to the sentinel. -/
inductive Column (t : ℕ) (sentinel : Tuple) (i : ℕ) (ptr : Ptr) (b : Block)
    (it : BufferIterator) (data : List (Option Image)) : List Tuple → Prop where
  | active {k : ℕ} {rest : List Image} (size : b.size = blockSize) (tupleSize : b.tupleSize = t)
      (lt : k < b.getSize) (entry : ptr = .block i (k * t)) (current : it.current = k + 1)
      (feed : Feed t data rest) :
      Column t sentinel i ptr b it data (b.tuples.drop k ++ decode t rest)
  | closed (entry : ptr = .heap sentinel) (empty : data.reduceOption = []) :
      Column t sentinel i ptr b it data []

section Column
variable {t i : ℕ} {sentinel : Tuple} {ptr : Ptr} {b : Block} {it : BufferIterator}
  {data : List (Option Image)}

/-- A column with a tuple left is active, and its entry points to this tuple. -/
theorem Column.cons_inv {x : Tuple} {l : List Tuple}
    (h : Column t sentinel i ptr b it data (x :: l)) :
    ∃ k rest, b.size = blockSize ∧ b.tupleSize = t ∧ k < b.getSize ∧ ptr = .block i (k * t) ∧
      it.current = k + 1 ∧ Feed t data rest ∧ x = b.tupleAt (k * t) ∧
      l = b.tuples.drop (k + 1) ++ decode t rest := by
  generalize hr : x :: l = rem at h
  cases h with
  | @active k rest size tupleSize lt entry current feed =>
    rw [Block.tuples_drop lt, tupleSize, List.cons_append] at hr
    obtain ⟨rfl, rfl⟩ := List.cons.inj hr
    exact ⟨k, rest, size, tupleSize, lt, entry, current, feed, rfl, rfl⟩
  | closed => cases hr

theorem Column.nil_inv (h : Column t sentinel i ptr b it data []) :
    ptr = .heap sentinel ∧ data.reduceOption = [] := by
  generalize hr : ([] : List Tuple) = rem at h
  cases h with
  | active _ _ lt =>
    rw [Block.tuples_drop lt] at hr
    cases hr
  | closed entry empty => exact ⟨entry, empty⟩

theorem Column.entry {rem : List Tuple} (h : Column t sentinel i ptr b it data rem) :
    (∃ addr, ptr = .block i addr) ∨ ∃ bytes, ptr = .heap bytes := by
  cases h with
  | @active k _ _ _ _ entry => exact Or.inl ⟨_, entry⟩
  | closed entry => exact Or.inr ⟨_, entry⟩

/-- A block that was just popped is the column's new block. -/
theorem Column.fetched (sentinel : Tuple) {img : Image} {rest : List Image} (hb : b.tupleSize = t)
    (hs : b.size = blockSize) (hc : img.count ≠ 0) (hf : img.Fits t) (feed : Feed t data rest) :
    Column t sentinel i (.block i (0 * t)) (b.storeBlock img.mem blockSize) ⟨1, 0⟩ data
      (decode t (img :: rest)) := by
  rw [decode, List.flatMap_cons, ← Block.tuples_storeBlock hs hb hf]
  refine .active (k := 0) hs hb ?_ rfl rfl feed
  rw [Block.getSize_storeBlock hs]
  omega

end Column

/-- The tree is a tournament of the columns' entries, and none of these is null. -/
structure Loaded (pc : PCBuffer) : Prop where
  begun : pc.begun = true
  players : pc.lt.n = pc.row
  valid : pc.lt.Valid fun p => key (pc.deref p)
  entries : ∀ i < pc.row, (∃ addr, pc.lt.L (i + 1) = .block i addr) ∨
    ∃ bytes, pc.lt.L (i + 1) = .heap bytes

/-- The state between two rounds of the loop, with `rem` still to be merged. -/
structure Merging (pc : PCBuffer) (rem : ℕ → List Tuple) : Prop extends Loaded pc where
  column : ∀ i < pc.row, Column pc.ns.totalsize (pc.ns.sentinel pc.junk) i (pc.lt.L (i + 1))
    (pc.mergedBlocks i) (pc.itrs i) (pc.data i) (rem i)
  finished : pc.finished = exhausted pc.row rem
  sentinel : key (pc.ns.sentinel pc.junk) = ulongMax
  keys : ∀ x ∈ total pc.row rem, key x < ulongMax

/-- `pc'` differs from `pc` in column `i` and the number of finished columns only. -/
structure Frame (i : ℕ) (pc pc' : PCBuffer) : Prop where
  ns : pc'.ns = pc.ns
  row : pc'.row = pc.row
  lt : pc'.lt = pc.lt
  begun : pc'.begun = pc.begun
  junk : pc'.junk = pc.junk
  data : ∀ j ≠ i, pc'.data j = pc.data j
  mergedBlocks : ∀ j ≠ i, pc'.mergedBlocks j = pc.mergedBlocks j
  itrs : ∀ j ≠ i, pc'.itrs j = pc.itrs j

theorem getNext_of_lt {pc : PCBuffer} {i k : ℕ} (hc : (pc.itrs i).current = k)
    (hk : k ≠ (pc.mergedBlocks i).getSize) :
    pc.getNext i = (.block i (k * (pc.mergedBlocks i).tupleSize),
      { pc with itrs := Function.update pc.itrs i ⟨k + 1, 0⟩ }) := by
  subst hc
  simp [getNext, BufferIterator.getNext, hk]

theorem getNext_of_eq {pc : PCBuffer} {i : ℕ}
    (hc : (pc.itrs i).current = (pc.mergedBlocks i).getSize) :
    pc.getNext i =
      (.null, { pc with itrs := Function.update pc.itrs i ⟨(pc.itrs i).current, 0⟩ }) := by
  simp [getNext, BufferIterator.getNext, hc]

/-- What `advance` does after the first tuple of a column was stored. -/
inductive Advanced (pc : PCBuffer) (i : ℕ) (l : List Tuple) : Option Advance → Prop where
  | next {ptr : Ptr} {pc' : PCBuffer} (frame : Frame i pc pc')
      (finished : pc'.finished = pc.finished + if l = [] then 1 else 0)
      (more : l = [] → pc'.finished ≠ pc.row)
      (column : Column pc.ns.totalsize (pc.ns.sentinel pc.junk) i ptr (pc'.mergedBlocks i)
        (pc'.itrs i) (pc'.data i) l) : Advanced pc i l (some (.next ptr pc'))
  | ended {pc' : PCBuffer} (frame : Frame i pc pc') (finished : pc'.finished = pc.finished + 1)
      (last : pc'.finished = pc.row) (column : l = []) (empty : (pc'.data i).reduceOption = []) :
      Advanced pc i l (some (.ended pc'))

theorem advance_advanced {pc : PCBuffer} {i : ℕ} {x : Tuple} {l : List Tuple}
    (h : Column pc.ns.totalsize (pc.ns.sentinel pc.junk) i (pc.lt.L (i + 1))
      (pc.mergedBlocks i) (pc.itrs i) (pc.data i) (x :: l)) :
    Advanced pc i l (pc.advance i) := by
  obtain ⟨k, rest, hsize, htup, hk, -, hcur, feed, -, rfl⟩ := h.cons_inv
  by_cases hlast : k + 1 = (pc.mergedBlocks i).getSize
  · -- the block is exhausted: the queue gives the next one
    have hdrop : (pc.mergedBlocks i).tuples.drop (k + 1) = [] := by
      rw [hlast, ← Block.tuples_length, List.drop_length]
    rw [hdrop, List.nil_append]
    rw [advance, getNext_of_eq (hcur.trans hlast)]
    cases rest with
    | nil =>
      obtain ⟨z, data', hp, hz, hempty⟩ := feed.popWait_last
      simp only [fetch, hp, Option.map_some, Function.update_self, Block.getSize_storeBlock hsize,
        hz, ↓reduceIte, decode, List.flatMap_nil]
      split
      · next hrow =>
        refine .ended ?_ rfl hrow rfl (by simpa using hempty)
        constructor <;> intros <;> simp [*]
      · next hrow =>
        refine .next ?_ (by simp) (fun _ => hrow) (.closed rfl (by simpa using hempty))
        constructor <;> intros <;> simp [*]
    | cons img rest =>
      obtain ⟨data', hp, hfeed⟩ := feed.popWait
      have hc := feed.counts img (by simp)
      have hfits := feed.fits img (by simp)
      have hcount := Block.getSize_storeBlock hsize img
      simp only [fetch, hp, Option.map_some, Function.update_self, hcount, hc, ↓reduceIte]
      rw [getNext_of_lt (k := 0) (by simp [createIterator, BufferIterator.fresh])
        (by simp only [createIterator, Function.update_self, hcount]; omega)]
      have hne := feed.decode_ne_nil (List.cons_ne_nil _ _)
      refine .next ?_ (by simp [hne, createIterator]) (fun he => absurd he hne) ?_
      · constructor <;> intros <;> simp [createIterator, *]
      · have hcol := Column.fetched (i := i) (pc.ns.sentinel pc.junk) htup hsize hc hfits hfeed
        simpa [createIterator, Block.storeBlock, htup] using hcol
  · have hne : (pc.mergedBlocks i).tuples.drop (k + 1) ++ decode pc.ns.totalsize rest ≠ [] := by
      rw [← List.length_pos_iff]
      simp
      omega
    rw [advance, getNext_of_lt hcur hlast]
    refine .next ?_ (by simp [hne]) (fun he => absurd he hne) ?_
    · constructor <;> intros <;> simp [*]
    · exact .active hsize htup (show k + 1 < (pc.mergedBlocks i).getSize by omega) (by rw [htup])
        (by simp) feed

section Loaded
variable {pc pc' : PCBuffer} {i : ℕ}

theorem Loaded.winner_eq (h : Loaded pc) : ∃ i < pc.row, pc.lt.winner = i + 1 := by
  obtain ⟨h1, hn⟩ := h.valid.winner_bounds
  have hp := h.players
  exact ⟨pc.lt.winner - 1, by omega, by omega⟩

theorem Loaded.winning_ne_null (h : Loaded pc) : pc.lt.winning ≠ .null := by
  obtain ⟨i, hi, hw⟩ := h.winner_eq
  have hwin : pc.lt.winning = pc.lt.L (i + 1) := congrArg pc.lt.L hw
  rcases h.entries i hi with ⟨addr, he⟩ | ⟨bytes, he⟩ <;> simp [hwin, he]

/-- Replacing the block of one column leaves the other columns' tuples. -/
theorem Loaded.deref_other (h : Loaded pc) {j : ℕ} (hf : Frame i pc pc') (hj : j < pc.row)
    (hne : j ≠ i) : pc'.deref (pc.lt.L (j + 1)) = pc.deref (pc.lt.L (j + 1)) := by
  rcases h.entries j hj with ⟨addr, he⟩ | ⟨bytes, he⟩
  · rw [he, deref, deref, hf.mergedBlocks j hne]
  · rw [he, deref, deref]

/-- Loading an entry for the winner's column and replaying it gives a tournament again. -/
theorem Loaded.load (h : Loaded pc) (hw : pc.lt.winner = i + 1) (hf : Frame i pc pc') {ptr : Ptr}
    (hptr : (∃ addr, ptr = .block i addr) ∨ ∃ bytes, ptr = .heap bytes) :
    Loaded { pc' with lt := (pc'.lt.load (i + 1) ptr).replay pc'.comparePtr (i + 1) } := by
  have hrow := hf.row
  have hp := h.players
  refine ⟨hf.begun.trans h.begun, ?_, ?_, fun j hj => ?_⟩
  · exact (congrArg LoserTree.n hf.lt).trans (hp.trans hrow.symm)
  · have hv := LoserTree.replay_valid pc'.comparePtr_iff h.valid ptr ?_
    · rw [hw, ← hf.lt] at hv
      exact hv
    · intro j h1 hn hj
      obtain ⟨m, rfl⟩ : ∃ m, j = m + 1 := ⟨j - 1, by omega⟩
      exact congrArg key (h.deref_other hf (by omega) (by omega))
  · have hL : ((pc'.lt.load (i + 1) ptr).replay pc'.comparePtr (i + 1)).L (j + 1) =
        Function.update pc.lt.L (i + 1) ptr (j + 1) := by
      rw [← hf.lt]
      rfl
    rcases eq_or_ne j i with rfl | hji
    · simpa only [hL, Function.update_self] using hptr
    · rw [hL, Function.update_of_ne (by omega)]
      exact h.entries j (hrow ▸ hj)

end Loaded

section Step
variable {pc : PCBuffer} {rem : ℕ → List Tuple}

/-- The entry of a column with a tuple left points to it. -/
theorem Merging.deref_cons (h : Merging pc rem) {i : ℕ} (hi : i < pc.row) {x : Tuple}
    {l : List Tuple} (hr : rem i = x :: l) : pc.deref (pc.lt.L (i + 1)) = x := by
  have hc := h.column i hi
  rw [hr] at hc
  obtain ⟨k, rest, -, -, -, hptr, -, -, rfl, -⟩ := hc.cons_inv
  rw [hptr, deref]

theorem Merging.deref_nil (h : Merging pc rem) {i : ℕ} (hi : i < pc.row) (hr : rem i = []) :
    key (pc.deref (pc.lt.L (i + 1))) = ulongMax := by
  have hc := h.column i hi
  rw [hr] at hc
  rw [hc.nil_inv.1, deref, h.sentinel]

/-- While a tuple is left, the winner is the least head of the columns. -/
theorem Merging.pick (h : Merging pc rem) (hne : total pc.row rem ≠ []) :
    ∃ i l, pc.lt.winner = i + 1 ∧ i < pc.row ∧ rem i = pc.deref pc.lt.winning :: l ∧
      Pick key pc.row rem (pc.deref pc.lt.winning) (Function.update rem i l) := by
  obtain ⟨i, hi, hw⟩ := h.winner_eq
  have hp := h.players
  have hwin : pc.lt.winning = pc.lt.L (i + 1) := congrArg pc.lt.L hw
  have hle (j : ℕ) (hj : j < pc.row) :
      key (pc.deref pc.lt.winning) ≤ key (pc.deref (pc.lt.L (j + 1))) :=
    h.valid.winning_le (by omega) (by omega)
  -- an exhausted column does not win against the key of a tuple that is left
  cases hr : rem i with
  | nil =>
    obtain ⟨y, hy⟩ := List.exists_mem_of_ne_nil _ hne
    obtain ⟨j, hj, hyj⟩ := mem_total.mp hy
    obtain ⟨z, l, hz⟩ := List.exists_cons_of_ne_nil (List.ne_nil_of_mem hyj)
    have hlt := h.keys z (mem_total.mpr ⟨j, hj, by simp [hz]⟩)
    have hwj := hle j hj
    rw [hwin, h.deref_nil hi hr, h.deref_cons hj hz] at hwj
    omega
  | cons x l =>
    have hx := h.deref_cons hi hr
    rw [hwin, hx]
    refine ⟨i, l, hw, hi, hr, ⟨i, hi, l, hr, rfl⟩, ?_⟩
    intro j hj y hy
    obtain ⟨l', hl'⟩ := List.head?_eq_some_iff.mp hy
    have hwj := hle j hj
    rwa [hwin, hx, h.deref_cons hj hl'] at hwj

/-- Loading the next tuple of the winner's column and replaying it keeps the merge going. -/
theorem Merging.load (h : Merging pc rem) {i : ℕ} {l : List Tuple} {ptr : Ptr} {pc' : PCBuffer}
    (hi : i < pc.row) (hw : pc.lt.winner = i + 1) (hne : rem i ≠ []) (hkeys : ∀ x ∈ l, x ∈ rem i)
    (hf : Frame i pc pc') (hfin : pc'.finished = pc.finished + if l = [] then 1 else 0)
    (hcol : Column pc.ns.totalsize (pc.ns.sentinel pc.junk) i ptr (pc'.mergedBlocks i)
      (pc'.itrs i) (pc'.data i) l) :
    Merging { pc' with lt := (pc'.lt.load (i + 1) ptr).replay pc'.comparePtr (i + 1) }
      (Function.update rem i l) := by
  have hrow := hf.row
  refine ⟨h.toLoaded.load hw hf hcol.entry, ?_, ?_, ?_, ?_⟩
  · intro j hj
    change Column pc'.ns.totalsize (pc'.ns.sentinel pc'.junk) j
      (Function.update pc'.lt.L (i + 1) ptr (j + 1)) (pc'.mergedBlocks j) (pc'.itrs j)
      (pc'.data j) (Function.update rem i l j)
    rw [hf.ns, hf.junk, hf.lt]
    rcases eq_or_ne j i with rfl | hji
    · rw [Function.update_self, Function.update_self]
      exact hcol
    · rw [Function.update_of_ne (by omega), Function.update_of_ne hji, hf.mergedBlocks j hji,
        hf.itrs j hji, hf.data j hji]
      exact h.column j (hrow ▸ hj)
  · change pc'.finished = exhausted pc'.row (Function.update rem i l)
    rw [hrow, exhausted_update hi hne, hfin, h.finished]
  · change key (pc'.ns.sentinel pc'.junk) = ulongMax
    rw [hf.ns, hf.junk, h.sentinel]
  · intro x hx
    change x ∈ total pc'.row (Function.update rem i l) at hx
    rw [hrow] at hx
    obtain ⟨j, hj, hx⟩ := mem_total.mp hx
    rcases eq_or_ne j i with rfl | hji
    · rw [Function.update_self] at hx
      exact h.keys x (mem_total.mpr ⟨j, hj, hkeys x hx⟩)
    · rw [Function.update_of_ne hji] at hx
      exact h.keys x (mem_total.mpr ⟨j, hj, hx⟩)

theorem Merging.tuple_length (h : Merging pc rem) {i : ℕ} (hi : i < pc.row) {x : Tuple}
    {l : List Tuple} (hr : rem i = x :: l) : x.length = pc.ns.totalsize := by
  have hc := h.column i hi
  rw [hr] at hc
  obtain ⟨k, rest, -, htup, -, -, -, -, rfl, -⟩ := hc.cons_inv
  simpa [Block.tupleAt] using htup

end Step

/-- How a call ends: with a full block and tuples left, or with nothing left. -/
structure Returned (ns : NewSchema) (row : ℕ) (c : Call) (rem : ℕ → List Tuple) : Prop where
  row_eq : c.pc.row = row
  ns_eq : c.pc.ns = ns
  full : c.ret = true → Merging c.pc rem ∧ total row rem ≠ [] ∧ ∃ b : Block,
    b.Stored c.stored ∧ b.allocateTuple = none ∧ b.tupleSize = ns.totalsize ∧
      b.size = blockSize ∧ c.block = b.assembling blockSize ns.totalsize
  ended : c.ret = false → total row rem = [] ∧ ∀ i < row, (c.pc.data i).reduceOption = []

/-- The loop of a call picks tuples in order until the block is full or none is left. -/
theorem mergeLoop_spec {fuel : ℕ} {pc : PCBuffer} {rem : ℕ → List Tuple} {block : Block}
    {out : List Tuple} (h : Merging pc rem) (hne : total pc.row rem ≠ []) (hst : block.Stored out)
    (htup : block.tupleSize = pc.ns.totalsize) (hsize : block.size = blockSize)
    (ht : 0 < pc.ns.totalsize) (hfuel : block.size < fuel + block.free) :
    ∃ c picked rem', mergeLoop fuel pc block out = some c ∧ c.stored = out ++ picked ∧
      Picks key pc.row rem picked rem' ∧ Returned pc.ns pc.row c rem' := by
  induction fuel generalizing pc rem block out with
  | zero =>
    have := hst.room
    omega
  | succ fuel ih =>
    cases hall : block.allocateTuple with
    | none =>
      refine ⟨_, [], rem, by rw [mergeLoop, hall], (List.append_nil _).symm, .nil _, rfl, rfl,
        fun _ => ⟨h, hne, block, hst, hall, htup, hsize, rfl⟩, fun hret => by cases hret⟩
    | some d =>
      obtain ⟨i, l, hw, hi, hr, hpick⟩ := h.pick hne
      have hcol := h.column i hi
      rw [hr] at hcol
      have hadv := advance_advanced hcol
      have hst' := hst.storeTuple hall ((h.tuple_length hi hr).trans htup.symm)
      simp only [mergeLoop, hall, hw, Nat.add_sub_cancel]
      generalize pc.advance i = a at hadv
      cases hadv with
      | @ended pc' frame finished last column empty =>
        subst column
        refine ⟨_, [_], _, rfl, rfl, .cons hpick (.nil _), frame.row, frame.ns,
          fun hret => by (cases hret), fun _ => ?_⟩
        have hnil : total pc.row (Function.update rem i []) = [] := by
          rw [← exhausted_eq_iff, exhausted_update hi (by simp [hr]), ← h.finished, ← last,
            finished, if_pos rfl]
        refine ⟨hnil, fun j hj => ?_⟩
        rcases eq_or_ne j i with rfl | hji
        · exact empty
        · have hj0 := total_eq_nil_iff.mp hnil j hj
          rw [Function.update_of_ne hji] at hj0
          have hcj := h.column j hj
          rw [hj0] at hcj
          exact (congrArg _ (frame.data j hji)).trans hcj.nil_inv.2
      | @next ptr pc' frame finished more column =>
        have hm := h.load hi hw (by simp [hr]) (fun x hx => by simp [hr, hx]) frame finished column
        have hmore : total pc.row (Function.update rem i l) ≠ [] := by
          intro hnil
          have hl : l = [] := by simpa using total_eq_nil_iff.mp hnil i hi
          apply more hl
          rw [finished, h.finished, ← exhausted_update hi (by simp [hr]),
            exhausted_eq_iff.mpr hnil]
        have hns : pc'.ns = pc.ns := frame.ns
        have hrow : pc'.row = pc.row := frame.row
        simp only [hm.winning_ne_null, ↓reduceIte]
        obtain ⟨c, picked, rem', hc, hstored, hpicks, hret⟩ := ih hm (by rwa [← hrow] at hmore) hst'
          (htup.trans (congrArg _ hns.symm)) hsize (hns ▸ ht) (by
            change block.size < fuel + (block.free + block.tupleSize)
            omega)
        refine ⟨c, _ :: picked, rem', hc, by simp [hstored], .cons hpick ?_, ?_⟩
        · rw [← hrow]
          exact hpicks
        · rw [← hrow, ← hns]
          exact hret

section Start
variable {t : ℕ} {pc : PCBuffer} {first : ℕ → Image} {rest : ℕ → List Image}

/-- The first `k` columns hold their first blocks, the others are as in `pc`. -/
structure Fetched (t k : ℕ) (first : ℕ → Image) (rest : ℕ → List Image) (pc pc' : PCBuffer) :
    Prop where
  ns : pc'.ns = pc.ns
  row : pc'.row = pc.row
  lt : pc'.lt = pc.lt
  finished : pc'.finished = pc.finished
  junk : pc'.junk = pc.junk
  done : ∀ i < k, pc'.mergedBlocks i = (pc.mergedBlocks i).storeBlock (first i).mem blockSize ∧
    pc'.itrs i = .fresh ∧ Feed t (pc'.data i) (rest i)
  todo : ∀ i ≥ k, pc'.data i = pc.data i ∧ pc'.mergedBlocks i = pc.mergedBlocks i

theorem fetchFirst_fetched {k : ℕ} (feed : ∀ i < k, Feed t (pc.data i) (first i :: rest i)) :
    ∃ pc', fetchFirst k pc = some pc' ∧ Fetched t k first rest pc pc' := by
  induction k with
  | zero => exact ⟨pc, rfl, rfl, rfl, rfl, rfl, rfl, by simp, fun _ _ => ⟨rfl, rfl⟩⟩
  | succ k ih =>
    obtain ⟨pc', hpc', hf⟩ := ih fun i hi => feed i (by omega)
    obtain ⟨hdata, hblock⟩ := hf.todo k le_rfl
    obtain ⟨data', hpop, hrest⟩ := (feed k (by omega)).popWait
    rw [← hdata] at hpop
    refine ⟨createIterator k { pc' with
        data := Function.update pc'.data k data'
        mergedBlocks := Function.update pc'.mergedBlocks k
          ((pc'.mergedBlocks k).storeBlock (first k).mem blockSize) },
      by simp only [fetchFirst, hpc', Option.bind_some, fetch, hpop, Option.map_some],
      hf.ns, hf.row, hf.lt, hf.finished, hf.junk, fun i hi => ?_, fun i hi => ?_⟩
    · rcases Nat.lt_succ_iff_lt_or_eq.mp hi with hlt | rfl
      · simpa [createIterator, hlt.ne] using hf.done i hlt
      · simpa [createIterator, hblock] using hrest
    · have hne : i ≠ k := by omega
      simpa [createIterator, hne] using hf.todo i (by omega)

theorem firstTuples_eq {k : ℕ} (A : ℕ → Ptr) (hit : ∀ i < k, pc.itrs i = .fresh)
    (hsize : ∀ i < k, (pc.mergedBlocks i).getSize ≠ 0) :
    (firstTuples k A pc).2 = { pc with itrs := fun i => if i < k then ⟨1, 0⟩ else pc.itrs i } ∧
      ∀ i < k, (firstTuples k A pc).1 (i + 1) = .block i 0 := by
  induction k with
  | zero => simp [firstTuples]
  | succ k ih =>
    obtain ⟨hpc, hptr⟩ := ih (fun i hi => hit i (by omega)) fun i hi => hsize i (by omega)
    have hcur : ((firstTuples k A pc).2.itrs k).current = 0 := by
      simp [hpc, hit k (by omega), BufferIterator.fresh]
    have hne : 0 ≠ ((firstTuples k A pc).2.mergedBlocks k).getSize := by
      rw [hpc]
      exact (hsize k (by omega)).symm
    simp only [firstTuples, getNext_of_lt hcur hne, Nat.zero_mul]
    constructor
    · rw [hpc]
      congr 1
      funext i
      rcases eq_or_ne i k with rfl | hne
      · simp
      · have hiff : i < k + 1 ↔ i < k := by omega
        simp [hne, hiff]
    · intro i hi
      rcases eq_or_ne i k with rfl | hne
      · simp
      · rw [Function.update_of_ne (by omega)]
        exact hptr i (by omega)

end Start

/-- What the columns of a new buffer are given. -/
structure Supply (t row : ℕ) (data : ℕ → List (Option Image)) (blocks : ℕ → List Image) : Prop where
  two : 2 ≤ row
  feed : ∀ i < row, Feed t (data i) (blocks i)
  nonempty : ∀ i < row, blocks i ≠ []

/-- The first call of `get_sorted` loads the first tuple of every column. -/
theorem Supply.start {ns : NewSchema} {row : ℕ} {data : ℕ → List (Option Image)}
    {blocks : ℕ → List Image} (h : Supply ns.totalsize row data blocks) (junk : Memory)
    (lt : LoserTree Ptr) :
    ∃ pc, (make ns row data junk lt).start = some pc ∧ pc.row = row ∧ pc.ns = ns ∧
      pc.junk = junk ∧ pc.finished = 0 ∧ Loaded pc ∧
      ∀ i < row, Column ns.totalsize (ns.sentinel junk) i (pc.lt.L (i + 1)) (pc.mergedBlocks i)
        (pc.itrs i) (pc.data i) (decode ns.totalsize (blocks i)) := by
  have hcons (i : ℕ) : ∃ img rest, i < row → blocks i = img :: rest := by
    by_cases hi : i < row
    · obtain ⟨img, rest, hb⟩ := List.exists_cons_of_ne_nil (h.nonempty i hi)
      exact ⟨img, rest, fun _ => hb⟩
    · exact ⟨⟨fun _ => 0⟩, [], fun hi' => absurd hi' hi⟩
  choose first rest hblocks using hcons
  have hfeed (i : ℕ) (hi : i < row) :
      Feed ns.totalsize ((make ns row data junk lt).data i) (first i :: rest i) :=
    hblocks i hi ▸ h.feed i hi
  obtain ⟨pc, hpc, hf⟩ := fetchFirst_fetched hfeed
  have hcount (i : ℕ) (hi : i < row) : (pc.mergedBlocks i).getSize ≠ 0 := by
    rw [(hf.done i hi).1, Block.getSize_storeBlock rfl]
    exact (hfeed i hi).counts _ (by simp)
  obtain ⟨htuples, hptr⟩ := firstTuples_eq pc.lt.L (fun i hi => (hf.done i hi).2.1) hcount
  have hrow : pc.row = row := hf.row
  obtain ⟨hvalid, hL, hn⟩ := LoserTree.initializeTree_valid pc.comparePtr_iff pc.lt.B
    (firstTuples row pc.lt.L pc).1 h.two
  have hcolumn (i : ℕ) (hi : i < row) : Column ns.totalsize (ns.sentinel junk) i
      ((firstTuples row pc.lt.L pc).1 (i + 1)) (pc.mergedBlocks i) ⟨1, 0⟩ (pc.data i)
      (decode ns.totalsize (blocks i)) := by
    obtain ⟨hblock, -, hrest⟩ := hf.done i hi
    have hc := (hfeed i hi).counts (first i) (by simp)
    have hfit := (hfeed i hi).fits (first i) (by simp)
    have hcol := Column.fetched (i := i) (b := (make ns row data junk lt).mergedBlocks i)
      (ns.sentinel junk) rfl rfl hc hfit hrest
    rw [Nat.zero_mul, ← hptr i hi, ← hblock, ← hblocks i hi] at hcol
    exact hcol
  refine ⟨{ pc with
      itrs := fun i => if i < row then ⟨1, 0⟩ else pc.itrs i
      lt := LoserTree.initializeTree pc.comparePtr pc.lt.B (firstTuples row pc.lt.L pc).1 row
      begun := true }, ?_, hrow, hf.ns, hf.junk, hf.finished,
    ⟨rfl, hn.trans hrow.symm, hvalid, fun i hi => ?_⟩, fun i hi => ?_⟩
  · rw [PCBuffer.start, show (make ns row data junk lt).row = row from rfl, hpc, Option.map_some]
    simp only [hrow, htuples]
    rfl
  · simp only [hL]
    exact (hcolumn i (hrow ▸ hi)).entry
  · simp only [hL, if_pos hi]
    exact hcolumn i hi

/-- The sentinel of the schema comes after all supplied tuples. -/
structure Bounded (ns : NewSchema) (junk : Memory) (row : ℕ) (blocks : ℕ → List Image) : Prop where
  sentinel : key (ns.sentinel junk) = ulongMax
  keys : ∀ i < row, ∀ x ∈ decode ns.totalsize (blocks i), key x < ulongMax

theorem Supply.start_merging {ns : NewSchema} {junk : Memory} {row : ℕ}
    {data : ℕ → List (Option Image)} {blocks : ℕ → List Image}
    (h : Supply ns.totalsize row data blocks) (hb : Bounded ns junk row blocks)
    (lt : LoserTree Ptr) :
    ∃ pc, (make ns row data junk lt).start = some pc ∧ pc.row = row ∧ pc.ns = ns ∧
      Merging pc fun i => decode ns.totalsize (blocks i) := by
  obtain ⟨pc, hpc, rfl, rfl, rfl, hfin, hload, hcol⟩ := h.start junk lt
  refine ⟨pc, hpc, rfl, rfl, hload, hcol, ?_, hb.sentinel, fun x hx => ?_⟩
  · rw [hfin, exhausted_eq_zero fun i hi => (h.feed i hi).decode_ne_nil (h.nonempty i hi)]
  · obtain ⟨i, hi, hx⟩ := mem_total.mp hx
    exact hb.keys i hi x hx

/-- The calls of a whole run, with `rem` to be merged before the first of them. -/
inductive Completes (ns : NewSchema) (row : ℕ) : (ℕ → List Tuple) → List Call → Prop where
  | last {rem rem' : ℕ → List Tuple} {c : Call} (ret : c.ret = false)
      (picks : Picks key row rem c.stored rem') (left : total row rem ≠ [])
      (returned : Returned ns row c rem') : Completes ns row rem [c]
  | call {rem rem' : ℕ → List Tuple} {c : Call} {cs : List Call} (ret : c.ret = true)
      (picks : Picks key row rem c.stored rem') (returned : Returned ns row c rem')
      (rest : Completes ns row rem' cs) : Completes ns row rem (c :: cs)

section Run
variable {ns : NewSchema} {row : ℕ}

/-- A call takes at least one tuple: the block has room for it. -/
theorem Returned.stored_ne_nil {c : Call} {rem rem' : ℕ → List Tuple} (h : Returned ns row c rem')
    (hp : Picks key row rem c.stored rem') (hne : total row rem ≠ []) (ht : 0 < ns.totalsize)
    (hle : ns.totalsize ≤ blockSize) : c.stored ≠ [] := by
  intro hnil
  cases hret : c.ret with
  | false =>
    have hperm := hp.total_perm
    rw [hnil, (h.ended hret).1] at hperm
    exact hne hperm.eq_nil
  | true =>
    obtain ⟨-, -, b, hst, hfull, htup, hsize, -⟩ := h.full hret
    have hlen := hst.full_length hfull
    rw [hnil, htup, hsize, List.length_nil] at hlen
    have := Nat.div_pos hle ht
    omega

theorem sortedRun_completes (ht : 0 < ns.totalsize) (hle : ns.totalsize ≤ blockSize) {k : ℕ}
    {pc pc' : PCBuffer} {rem : ℕ → List Tuple} {block : Block}
    (hstart : (if pc.begun then some pc else pc.start) = some pc') (h : Merging pc' rem)
    (hrow : pc'.row = row) (hns : pc'.ns = ns) (hne : total row rem ≠ [])
    (htup : block.tupleSize = ns.totalsize) (hsize : block.size = blockSize)
    (hk : (total row rem).length ≤ k) :
    ∃ cs, sortedRun k pc block = some cs ∧ Completes ns row rem cs := by
  induction k generalizing pc pc' rem block with
  | zero => exact absurd (List.length_eq_zero_iff.mp (Nat.le_zero.mp hk)) hne
  | succ k ih =>
    subst hrow hns
    obtain ⟨c, picked, rem', hc, hstored, hpicks, hret⟩ := mergeLoop_spec h hne
      block.stored_reset htup hsize ht (Nat.lt_succ_self block.size)
    rw [List.nil_append] at hstored
    rw [← hstored] at hpicks
    have hcall : pc.getSorted block = some c := by rw [getSorted, hstart, Option.bind_some, hc]
    rw [sortedRun, hcall, Option.bind_some]
    cases hr : c.ret with
    | false => exact ⟨[c], rfl, .last hr hpicks hne hret⟩
    | true =>
      obtain ⟨hm, hmore, b, -, -, hbt, -, hcb⟩ := hret.full hr
      have hpos := List.length_pos_iff.mpr (hret.stored_ne_nil hpicks hne ht hle)
      have hlen := hpicks.total_perm.length_eq
      rw [List.length_append] at hlen
      have hct : c.block.tupleSize = pc'.ns.totalsize := hcb ▸ hbt
      have hcs : c.block.size = blockSize := hcb ▸ rfl
      obtain ⟨cs, hcs, hall⟩ := ih (by rw [hm.begun]; rfl) hm hret.row_eq hret.ns_eq hmore hct hcs
        (by omega)
      refine ⟨c :: cs, ?_, .call hr hpicks hret hall⟩
      simp only [↓reduceIte, hcs, Option.map_some]

/-- A new buffer with supplied columns completes its run of calls. -/
theorem Supply.completes {junk : Memory} {data : ℕ → List (Option Image)}
    {blocks : ℕ → List Image} (h : Supply ns.totalsize row data blocks)
    (hb : Bounded ns junk row blocks) (lt : LoserTree Ptr)
    (ht : 0 < ns.totalsize) (hle : ns.totalsize ≤ blockSize) {block : Block}
    (htup : block.tupleSize = ns.totalsize) (hsize : block.size = blockSize) :
    ∃ k cs, sortedRun k (make ns row data junk lt) block = some cs ∧
      Completes ns row (fun i => decode ns.totalsize (blocks i)) cs := by
  obtain ⟨pc, hstart, hpr, hns, hm⟩ := h.start_merging hb lt
  have hleft : total row (fun i => decode ns.totalsize (blocks i)) ≠ [] := by
    intro hnil
    have h0 : 0 < row := by
      have := h.two
      omega
    exact (h.feed 0 h0).decode_ne_nil (h.nonempty 0 h0) (total_eq_nil_iff.mp hnil 0 h0)
  have hbegin : (if (make ns row data junk lt).begun then some (make ns row data junk lt)
      else (make ns row data junk lt).start) = some pc := hstart
  exact ⟨_, sortedRun_completes ht hle hbegin hm hpr hns hleft htup hsize le_rfl⟩

theorem Completes.picks_all {rem : ℕ → List Tuple} {cs : List Call} (h : Completes ns row rem cs) :
    ∃ rem', Picks key row rem (cs.flatMap Call.stored) rem' ∧ total row rem' = [] := by
  induction h with
  | @last rem rem' c ret picks left returned =>
    exact ⟨rem', by simpa using picks, (returned.ended ret).1⟩
  | @call rem rem' c cs ret picks returned rest ih =>
    obtain ⟨rem'', hp, hnil⟩ := ih
    exact ⟨rem'', picks.append hp, hnil⟩

/-- Every call of a run leaves the columns with what it and the calls before did not take. -/
theorem Completes.picks_upto {rem : ℕ → List Tuple} {cs : List Call}
    (h : Completes ns row rem cs) {pre post : List Call} {c : Call} (hcs : cs = pre ++ c :: post) :
    ∃ rem', Picks key row rem ((pre ++ [c]).flatMap Call.stored) rem' ∧ Returned ns row c rem' := by
  induction h generalizing pre with
  | @last rem rem' c' ret picks left returned =>
    obtain ⟨rfl, hc⟩ := List.singleton_eq_append_iff.mp hcs |>.resolve_right (by simp)
    obtain ⟨rfl, -⟩ := List.cons.inj hc
    exact ⟨rem', by simpa using picks, returned⟩
  | @call rem rem' c' cs ret picks returned rest ih =>
    cases pre with
    | nil =>
      obtain ⟨rfl, -⟩ := List.cons.inj hcs
      exact ⟨rem', by simpa using picks, returned⟩
    | cons d pre =>
      obtain ⟨rfl, htail⟩ := List.cons.inj hcs
      obtain ⟨rem'', hp, hret⟩ := ih htail
      exact ⟨rem'', picks.append hp, hret⟩

theorem Returned.ret_false_iff {c : Call} {rem : ℕ → List Tuple} (h : Returned ns row c rem) :
    c.ret = false ↔ total row rem = [] := by
  constructor
  · exact fun hret => (h.ended hret).1
  · intro hnil
    by_contra hret
    exact (h.full (by simpa using hret)).2.1 hnil

/-- Only an active column has a block to come, its closing one. -/
theorem Returned.ret_false_iff_data {c : Call} {rem : ℕ → List Tuple}
    (h : Returned ns row c rem) :
    c.ret = false ↔ ∀ i < row, (c.pc.data i).reduceOption = [] := by
  constructor
  · exact fun hret => (h.ended hret).2
  · intro hempty
    by_contra hret
    obtain ⟨hm, hne, -⟩ := h.full (by simpa using hret)
    obtain ⟨x, hx⟩ := List.exists_mem_of_ne_nil _ hne
    obtain ⟨i, hi, hx⟩ := mem_total.mp hx
    obtain ⟨y, l, hl⟩ := List.exists_cons_of_ne_nil (List.ne_nil_of_mem hx)
    have hc := hm.column i (h.row_eq.symm ▸ hi)
    rw [hl] at hc
    obtain ⟨k, rest, -, -, -, -, -, feed, -⟩ := hc.cons_inv
    obtain ⟨z, hz, -⟩ := feed.pops
    rw [hempty i hi] at hz
    simp at hz

theorem Completes.ret_iff {rem : ℕ → List Tuple} {cs : List Call} (h : Completes ns row rem cs)
    {pre post : List Call} {c : Call} (hcs : cs = pre ++ c :: post) :
    (c.ret = false ↔ ∀ i < row, (c.pc.data i).reduceOption = []) ∧
      (c.ret = false ↔ ((pre ++ [c]).flatMap Call.stored).Perm (total row rem)) := by
  obtain ⟨rem', hp, hret⟩ := h.picks_upto hcs
  have hperm := hp.total_perm
  refine ⟨hret.ret_false_iff_data, hret.ret_false_iff.trans ⟨fun hnil => ?_, fun hall => ?_⟩⟩
  · rw [hnil, List.append_nil] at hperm
    exact hperm.symm
  · have hlen := (hall.trans hperm).length_eq
    rw [List.length_append] at hlen
    exact List.length_eq_zero_iff.mp (by omega)

end Run

theorem sentinel_twoLongs (junk : Memory) : key (twoLongs.sentinel junk) = ulongMax := by
  have hs : twoLongs.sentinel junk =
      readAt (writeAt (writeAt junk 0 (leBytes 8 ulongMax)) 8 (leBytes 8 ulongMax)) 0 16 := rfl
  rw [hs, key, readAt_drop, readAt_take]
  exact leValue_readAt_writeAt _ 8 8 ulongMax (by decide)

/-- The calls of `get_sorted` up to the first one that returns false store the tuples of
all columns in the order of their keys, each once; false comes with the last column's
empty block, when every tuple is stored and not before. -/
theorem getSorted_merges {row : ℕ} {store : ℕ → ℕ → Block}
    {ops : ℕ → List BlockCircleQueue.Op} {blocks : ℕ → List Image} (hrow : 2 ≤ row)
    (supplied : ∀ i < row,
      Supplied 16 ((BlockCircleQueue.make (store i) columnCon).run (ops i)) (blocks i))
    (hne : ∀ i < row, blocks i ≠ []) (hsorted : Sorted key row fun i => decode 16 (blocks i))
    (hkeys : ∀ i < row, ∀ x ∈ decode 16 (blocks i), key x < ulongMax) (junk : Memory)
    (lt : LoserTree Ptr) {block : Block} (hsize : block.size = blockSize)
    (htup : block.tupleSize = 16) :
    ∃ k cs, sortedRun k (make twoLongs row
        (fun i => ((BlockCircleQueue.make (store i) columnCon).run (ops i)).popped) junk lt)
        block = some cs ∧
      (cs.flatMap Call.stored).Pairwise (fun x y => key x ≤ key y) ∧
      (cs.flatMap Call.stored).Perm (total row fun i => decode 16 (blocks i)) ∧
      ∀ pre c post, cs = pre ++ c :: post →
        (c.ret = false ↔ ∀ i < row, (c.pc.data i).reduceOption = []) ∧
        (c.ret = false ↔ ((pre ++ [c]).flatMap Call.stored).Perm
          (total row fun i => decode 16 (blocks i))) := by
  have hsupply : Supply twoLongs.totalsize row
      (fun i => ((BlockCircleQueue.make (store i) columnCon).run (ops i)).popped) blocks :=
    ⟨hrow, fun i hi => (supplied i hi).feed, hne⟩
  obtain ⟨k, cs, hcs, hc⟩ := hsupply.completes ⟨sentinel_twoLongs junk, hkeys⟩ lt (by decide)
    (by decide) htup hsize
  obtain ⟨rem', hpicks, hnil⟩ := hc.picks_all
  have hperm := hpicks.total_perm
  rw [hnil, List.append_nil] at hperm
  exact ⟨k, cs, hcs, hpicks.pairwise hsorted, hperm.symm, fun pre c post h => hc.ret_iff h⟩

theorem decode_oneTuple (k : UInt8) : decode 16 [oneTuple k] = [longTuple k] := rfl

/-- The producer comes late, and the consumer tries twice for each block. -/
def lateOps (k : UInt8) : List BlockCircleQueue.Op :=
  [.pop, .push (oneTuple k), .pop, .pop, .push noTuple, .pop]

theorem supplied_lateOps (k : UInt8) :
    Supplied 16 ((BlockCircleQueue.make (fun _ => Block.make (fun _ => 0) blockSize 0)
      columnCon).run (lateOps k)) [oneTuple k] := by
  refine ⟨⟨noTuple, rfl, by decide⟩, rfl, ?_, ?_⟩
  · simp [oneTuple_count]
  · simp [Image.Fits, oneTuple_count, blockSize]

/-- Two columns of one tuple each, in the wrong order and with pops that find nothing. -/
theorem getSorted_merges_two :
    ∃ k cs, sortedRun k (make twoLongs 2
        (fun i => ((BlockCircleQueue.make (fun _ => Block.make (fun _ => 0) blockSize 0)
          columnCon).run (lateOps (if i = 0 then 7 else 3))).popped)
        (fun _ => 0) ⟨0, 0, 0, fun _ => 0, fun _ => .null⟩)
        (Block.make (fun _ => 0) blockSize 16) = some cs ∧
      (cs.flatMap Call.stored).Pairwise (fun x y => key x ≤ key y) ∧
      (cs.flatMap Call.stored).Perm [longTuple 7, longTuple 3] := by
  obtain ⟨k, cs, hrun, hsorted, hperm, -⟩ := getSorted_merges le_rfl
    (fun i _ => supplied_lateOps (if i = 0 then 7 else 3)) (fun _ _ => by simp)
    (fun i _ => by simp [decode_oneTuple])
    (fun i _ x hx => by
      rw [decode_oneTuple, List.mem_singleton] at hx
      rw [hx, key_longTuple]
      exact (UInt8.toNat_lt _).trans (by decide))
    (fun _ => 0) ⟨0, 0, 0, fun _ => 0, fun _ => .null⟩
    (show (Block.make (fun _ => 0) blockSize 16).size = blockSize from rfl) rfl
  exact ⟨k, cs, hrun, hsorted, hperm⟩

end PCBuffer
end Mosito
