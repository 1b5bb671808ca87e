import Mosito.Common.Heap

/-! The end of replacement selection: the current run and then the sorted heap go to files. The
places of `array_` that are accessed are recorded, those outside of it too. -/
namespace Mosito
open ByteStore BinaryHeap
namespace Heap
variable (le : Tuple → Tuple → Bool) (junk : Memory)

/-- The accesses of `heap_again(i, len)`. -/
def againAccesses (len : ℕ) : ℕ → ℕ → (ℕ → Tuple) → List ℕ
  | 0, _, _ => []
  | fuel + 1, i, a =>
      if 2 * i + 1 < len then
        let child := smallerChild le len i a
        (if 2 * i + 1 + 1 < len then [2 * i + 1, 2 * i + 1 + 1] else []) ++ [i, child] ++
          if le (a i) (a child) then []
          else [i, child] ++ againAccesses len fuel child (exchange i child a)
      else []

/-- The accesses of `heap_sort`, for the places below `k`. -/
def sortAccesses (len : ℕ) : ℕ → (ℕ → Tuple) → List ℕ
  | 0, _ => []
  | k + 1, a => againAccesses le len len k a ++ sortAccesses len k (siftDown le len len k a)

/-- The loop of `cleanup`. -/
structure Draining where
  waterline : ℤ
  array : ℕ → Tuple
  flexBuffer : FlexBlock
  accesses : List ℤ

/-- `array_[i]`; `before` is what `array_[-1]` points to. -/
def entry (before : Tuple) (array : ℕ → Tuple) (i : ℤ) : Tuple :=
  if 0 ≤ i then array i.toNat else before

/-- One round. -/
def Draining.round (before : Tuple) (d : Draining) : Option Draining :=
  let len := d.waterline.toNat
  let array := siftDown le len len 0 d.array
  (d.flexBuffer.storeTupleOK junk (array 0)).map fun flexBuffer =>
    { waterline := d.waterline - 1
      array := Function.update array 0 (entry before array (d.waterline - 1))
      flexBuffer := flexBuffer
      accesses := d.accesses ++ (againAccesses le len len 0 d.array).map Nat.cast ++
        [0, d.waterline - 1, 0] }

/-- `while(waterline_>=0)`, if it ends within `fuel` rounds. -/
def Draining.loop (before : Tuple) : ℕ → Draining → Option Draining
  | 0, _ => none
  | fuel + 1, d =>
      if 0 ≤ d.waterline then (d.round le junk before).bind (loop before fuel) else some d

/-- What `cleanup` leaves. -/
structure Cleaned where
  files : List String
  fileOff : ℕ
  disk : String → Option (List UInt8)
  draining : Draining

/-- Before the loop: the buffer was reset, and `heap_sort` is done. -/
def drainStart (h : Heap) : Draining :=
  let h' := heapSort le { h with flexBuffer := h.flexBuffer.reset, waterline := heapSize }
  { waterline := heapSize
    array := h'.array
    flexBuffer := h'.flexBuffer
    accesses := (sortAccesses le heapSize ((heapSize - 2) / 2 + 1) h.array).map Nat.cast }

/-- The name of the second file. -/
def nextName (h : Heap) : String := fname ((h.fileOff + 1) % 2 ^ 32)

/-- The files when the loop is done. -/
def cleaned (h : Heap) (d : Draining) : Cleaned where
  files := h.files ++ [fname h.fileOff] ++ [h.nextName]
  fileOff := ((h.fileOff + 1) % 2 ^ 32 + 1) % 2 ^ 32
  disk := Function.update (Function.update h.disk (fname h.fileOff) (some h.flexBuffer.persist))
    h.nextName (some d.flexBuffer.persist)
  draining := d

/-- `none` when the buffer outgrows an `unsigned`. -/
def cleanup (before : Tuple) (h : Heap) : Option Cleaned :=
  ((h.drainStart le).loop le junk before (heapSize + 2)).map h.cleaned

/-- What `cleanup` is for: two new files, one with the current run `stored` and one with all
tuples of the heap, each once and in order, and no access outside of the array. -/
def CleansUp (before : Tuple) (h : Heap) (stored : List Tuple) : Prop :=
  ∃ (c : Cleaned) (sorted : List Tuple), h.cleanup le junk before = some c ∧
    c.files = h.files ++ [fname h.fileOff] ++ [h.nextName] ∧
    c.disk (fname h.fileOff) = some stored.flatten ∧ c.disk h.nextName = some sorted.flatten ∧
    sorted.Perm (elems heapSize h.array) ∧ sorted.Pairwise (fun x y => le x y = true) ∧
    ∀ i ∈ c.draining.accesses, 0 ≤ i ∧ i < heapSize

variable {le junk} {before : Tuple} {t w : ℕ} {stored : List Tuple} {d d' : Draining} {h : Heap}

/-- Before a round with the first `w` places: they hold a heap but for the root, and none of them
is below a tuple that was stored. -/
structure Draining.Inv (le : Tuple → Tuple → Bool) (t w : ℕ) (stored : List Tuple) (d : Draining) :
    Prop where
  waterline : d.waterline = w
  buffer : d.flexBuffer.Sound stored
  tupleSize : d.flexBuffer.block.tupleSize = t
  sorted : stored.Pairwise fun x y => le x y = true
  heap : ∀ p c, p ≠ 0 → Child p c → c < w → le (d.array p) (d.array c) = true
  above : ∀ x ∈ stored, ∀ j < w, le x (d.array j) = true
  sizes : ∀ j, j = 0 ∨ j < w → (d.array j).length = t
  last : w = 0 → stored.getLast? = some (d.array 0)
  accesses : ∀ i ∈ d.accesses, 0 ≤ i ∧ i < heapSize
  le_heapSize : w ≤ heapSize

theorem againAccesses_lt {len fuel i k : ℕ} {a : ℕ → Tuple}
    (hk : k ∈ againAccesses le len fuel i a) : k < len := by
  induction fuel generalizing i a with
  | zero => cases hk
  | succ fuel ih =>
    rw [againAccesses] at hk
    by_cases hlt : 2 * i + 1 < len
    · rw [if_pos hlt] at hk
      have hchild := smallerChild_lt le a hlt
      have hpair (hk : k ∈ [i, smallerChild le len i a]) : k < len := by
        simp only [List.mem_cons, List.not_mem_nil, or_false] at hk
        omega
      rcases List.mem_append.mp hk with hk | hk
      · rcases List.mem_append.mp hk with hk | hk
        · split_ifs at hk with hright
          · simp only [List.mem_cons, List.not_mem_nil, or_false] at hk
            omega
          · cases hk
        · exact hpair hk
      · split_ifs at hk
        · cases hk
        · exact (List.mem_append.mp hk).elim hpair ih
    · rw [if_neg hlt] at hk
      cases hk

theorem sortAccesses_lt {len k j : ℕ} {a : ℕ → Tuple} (hj : j ∈ sortAccesses le len k a) :
    j < len := by
  induction k generalizing a with
  | zero => cases hj
  | succ k ih =>
    rcases List.mem_append.mp hj with hj | hj
    · exact againAccesses_lt hj
    · exact ih hj

/-- The tuples that are left when the top is stored and the last one goes to the root. -/
theorem elems_pop (a : ℕ → Tuple) (w : ℕ) :
    (a 0 :: elems w (Function.update a 0 (a w))).Perm (elems (w + 1) a) := by
  have hsucc : elems (w + 1) a = elems w a ++ [a w] := by
    rw [elems, List.range_succ, List.map_append]
    rfl
  rw [hsucc]
  rcases Nat.eq_zero_or_pos w with rfl | hpos
  · rfl
  · exact (update_perm hpos (a w)).trans (List.perm_append_singleton _ _).symm

/-- What holds of the first `w + 1` places holds of them when the last one goes to the root. -/
theorem of_update_root {P : Tuple → Prop} {a : ℕ → Tuple} (h : ∀ j < w + 1, P (a j)) {j : ℕ}
    (hj : j = 0 ∨ j < w) : P (Function.update a 0 (a w) j) := by
  rw [Function.update_apply]
  split_ifs with hj0
  · exact h w (by omega)
  · exact h j (by omega)

theorem of_siftDown {P : Tuple → Prop} {a : ℕ → Tuple} (h : ∀ k < w + 1, P (a k)) {j : ℕ}
    (hj : j < w + 1) : P (siftDown le (w + 1) (w + 1) 0 a j) := by
  obtain ⟨k, hk, he⟩ := siftDown_mem le _ _ _ hj
  rw [he]
  exact h k hk

section Sifted
variable (ho : TotalPreorder le) (hd : Draining.Inv le t (w + 1) stored d)
include ho hd

theorem Draining.Inv.sifted_ordered :
    OrderedFrom le (w + 1) 0 (siftDown le (w + 1) (w + 1) 0 d.array) := by
  apply siftDown_ordered ho _ le_rfl (Nat.le_add_left _ _)
  constructor
  · exact fun p c _ => hd.heap p c
  · intro p c _ hc
    unfold Child at hc
    omega

/-- The top is not below what was stored, and nothing that is left is below either. -/
theorem Draining.Inv.sifted_above {x : Tuple}
    (hx : x ∈ stored ++ [siftDown le (w + 1) (w + 1) 0 d.array 0]) {j : ℕ} (hj : j < w + 1) :
    le x (siftDown le (w + 1) (w + 1) 0 d.array j) = true := by
  rcases List.mem_append.mp hx with hx | hx
  · exact of_siftDown (P := fun y => le x y = true) (hd.above x hx) hj
  · rw [List.mem_singleton.mp hx]
    exact (hd.sifted_ordered ho).root_le ho hj

end Sifted

theorem Draining.Inv.round (junk : Memory) (before : Tuple) (ho : TotalPreorder le)
    (hd : Draining.Inv le t (w + 1) stored d)
    (hfits : (stored.length + 1) * t ≤ 2 ^ 31) :
    ∃ d' top, d.round le junk before = some d' ∧ Draining.Inv le t w (stored ++ [top]) d' ∧
      (top :: elems w d'.array).Perm (elems (w + 1) d.array) := by
  have hlen : d.waterline.toNat = w + 1 := by rw [hd.waterline]; rfl
  have hlast : d.waterline - 1 = w := by rw [hd.waterline]; omega
  have hw := hd.le_heapSize
  let a := siftDown le (w + 1) (w + 1) 0 d.array
  have hordered : OrderedFrom le (w + 1) 0 a := hd.sifted_ordered ho
  have hsize (j : ℕ) (hj : j < w + 1) : (a j).length = t :=
    of_siftDown (P := fun x => x.length = t) (fun k hk => hd.sizes k (Or.inr hk)) hj
  have habove (x) (hx : x ∈ stored ++ [a 0]) (j) (hj : j < w + 1) : le x (a j) = true :=
    hd.sifted_above ho hx hj
  have hsome : (FlexBlock.storeTupleOK junk d.flexBuffer (a 0)).isSome = true :=
    hd.buffer.storeTupleOK_isSome (a 0) (by rwa [hd.tupleSize])
  obtain ⟨flexBuffer, hstore⟩ := Option.isSome_iff_exists.mp hsome
  obtain ⟨hbuf, htup⟩ := hd.buffer.storeTupleOK
    ((hsize 0 (by omega)).trans hd.tupleSize.symm) hstore
  have hentry : entry before a (d.waterline - 1) = a w := by
    rw [hlast, entry, if_pos (Int.natCast_nonneg w)]
    rfl
  have hround : d.round le junk before = some
      { waterline := d.waterline - 1
        array := Function.update a 0 (a w)
        flexBuffer := flexBuffer
        accesses := d.accesses ++ (againAccesses le (w + 1) (w + 1) 0 d.array).map Nat.cast ++
          [0, d.waterline - 1, 0] } := by
    simp only [Draining.round, hlen]
    rw [hstore, Option.map_some, hentry]
  refine ⟨_, a 0, hround, ⟨hlast, hbuf, htup.trans hd.tupleSize, ?_, ?_, ?_, ?_, ?_, ?_,
    by omega⟩,
    (elems_pop a w).trans (siftDown_perm le_rfl)⟩
  · refine List.pairwise_append.mpr ⟨hd.sorted, List.pairwise_singleton _ _, fun x hx y hy => ?_⟩
    rw [List.mem_singleton.mp hy]
    exact habove x (List.mem_append_left _ hx) 0 (by omega)
  · intro p c hp hc hlt
    have hc0 : c ≠ 0 := by unfold Child at hc; omega
    change le (Function.update a 0 (a w) p) (Function.update a 0 (a w) c) = true
    rw [Function.update_of_ne hp, Function.update_of_ne hc0]
    exact hordered p c (Nat.zero_le p) hc (by omega)
  · intro x hx j hj
    exact of_update_root (P := fun y => le x y = true) (habove x hx) (Or.inr hj)
  · intro j hj
    exact of_update_root (P := fun y => y.length = t) hsize hj
  · rintro rfl
    change (stored ++ [a 0]).getLast? = some (Function.update a 0 (a 0) 0)
    rw [Function.update_self, List.getLast?_concat]
  · intro i hi
    rcases List.mem_append.mp hi with hi | hi
    · rcases List.mem_append.mp hi with hi | hi
      · exact hd.accesses i hi
      · obtain ⟨k, hk, rfl⟩ := List.mem_map.mp hi
        have hlt := againAccesses_lt hk
        omega
    · simp only [hlast, List.mem_cons, List.not_mem_nil, or_false] at hi
      omega

/-- The loop stores the tuples of the heap in order, and then the last one again: the root is
stored once more with nothing left, and `array_[-1]` is read for it. -/
theorem Draining.Inv.loop (junk : Memory) (before : Tuple) (ho : TotalPreorder le)
    (hd : Draining.Inv le t w stored d)
    (hfits : (stored.length + w + 1) * t ≤ 2 ^ 31) :
    ∃ d' sorted last, d.loop le junk before (w + 2) = some d' ∧
      d'.flexBuffer.Sound (stored ++ sorted ++ [last]) ∧ sorted.Perm (elems w d.array) ∧
      (stored ++ sorted).Pairwise (fun x y => le x y = true) ∧
      (stored ++ sorted).getLast? = some last ∧ -1 ∈ d'.accesses ∧
      ∀ i ∈ d'.accesses, i = -1 ∨ 0 ≤ i ∧ i < heapSize := by
  induction w generalizing stored d with
  | zero =>
    have hsome : (FlexBlock.storeTupleOK junk d.flexBuffer (d.array 0)).isSome = true :=
      hd.buffer.storeTupleOK_isSome (d.array 0) (by rwa [hd.tupleSize])
    obtain ⟨flexBuffer, hstore⟩ := Option.isSome_iff_exists.mp hsome
    obtain ⟨hbuf, -⟩ := hd.buffer.storeTupleOK
      ((hd.sizes 0 (Or.inl rfl)).trans hd.tupleSize.symm) hstore
    let d' : Draining :=
      { waterline := -1
        array := Function.update d.array 0 before
        flexBuffer := flexBuffer
        accesses := d.accesses ++ [] ++ [0, -1, 0] }
    have hround : d.round le junk before = some d' := by
      simp only [Draining.round, hd.waterline]
      exact congrArg (Option.map _) hstore
    refine ⟨d', [], d.array 0, ?_, by rwa [List.append_nil], List.Perm.nil, ?_, ?_, ?_,
      fun i hi => ?_⟩
    · rw [Draining.loop, if_pos (by rw [hd.waterline]; omega), hround]
      rfl
    · rw [List.append_nil]
      exact hd.sorted
    · rw [List.append_nil]
      exact hd.last rfl
    · simp [d']
    · simp only [d', List.append_nil, List.mem_append, List.mem_cons, List.not_mem_nil,
        or_false] at hi
      rcases hi with hi | rfl | rfl | rfl
      · exact Or.inr (hd.accesses i hi)
      · exact Or.inr (by decide)
      · exact Or.inl rfl
      · exact Or.inr (by decide)
  | succ w ih =>
    obtain ⟨d₁, top, hround, hd₁, hperm⟩ := hd.round junk before ho
      ((Nat.mul_le_mul_right t (by omega)).trans hfits)
    obtain ⟨d', sorted, last, hloop, hbuf, hsorted, hpair, hlast, hneg, hacc⟩ := ih hd₁ (by
      rw [List.length_append, List.length_singleton]
      convert hfits using 2
      omega)
    have happ : stored ++ [top] ++ sorted = stored ++ top :: sorted := by simp
    rw [happ] at hbuf hpair hlast
    refine ⟨d', top :: sorted, last, ?_, hbuf, (hsorted.cons top).trans hperm, hpair, hlast, hneg,
      hacc⟩
    rw [Draining.loop, if_pos (by rw [hd.waterline]; omega), hround, Option.bind_some]
    exact hloop

theorem nextName_ne (h : Heap) : fname h.fileOff ≠ h.nextName := by
  intro he
  have hrepr := Nat.repr_inj.mp (String.append_right_inj _ |>.mp he)
  omega

/-- What `cleanup` does: behind the sorted tuples of the heap the second file has the last one
again, and `array_[-1]` is read. -/
theorem cleanup_spec (junk : Memory) (before : Tuple) (ho : TotalPreorder le)
    (hsizes : ∀ y ∈ elems heapSize h.array, y.length = t)
    (hbuf : h.flexBuffer.Sound stored)
    (halloc : FlexBlock.heapSortBufferInitSize ≤ h.flexBuffer.alloc)
    (htup : h.flexBuffer.block.tupleSize = t) (hfits : (heapSize + 1) * t ≤ 2 ^ 31) :
    ∃ c sorted last, h.cleanup le junk before = some c ∧
      c.files = h.files ++ [fname h.fileOff] ++ [h.nextName] ∧
      c.disk (fname h.fileOff) = some stored.flatten ∧
      c.disk h.nextName = some (sorted ++ [last]).flatten ∧
      sorted.Perm (elems heapSize h.array) ∧ sorted.Pairwise (fun x y => le x y = true) ∧
      sorted.getLast? = some last ∧ -1 ∈ c.draining.accesses ∧
      ∀ i ∈ c.draining.accesses, i = -1 ∨ 0 ≤ i ∧ i < heapSize := by
  let d := h.drainStart le
  have hperm : (elems heapSize d.array).Perm (elems heapSize h.array) := heapify_perm le_rfl
  have hordered : OrderedFrom le heapSize 0 d.array := by
    refine heapify_ordered ho fun p c hp hc hlen => ?_
    simp only [heapSize, Child] at hp hc hlen
    omega
  have hd : Draining.Inv le t heapSize [] d := by
    refine ⟨rfl, ?_, htup, List.Pairwise.nil, fun p c _ hc hlt => ?_, by simp, fun j hj => ?_,
      fun h0 => absurd h0 (by decide), fun i hi => ?_, le_rfl⟩
    · exact ⟨Block.stored_reset { h.flexBuffer.block with size := FlexBlock.heapSortBufferInitSize },
        (show 0 < FlexBlock.heapSortBufferInitSize by decide), halloc, hbuf.inside_eq⟩
    · exact hordered p c (Nat.zero_le p) hc hlt
    · refine hsizes _ (hperm.mem_iff.mp (List.mem_map.mpr ⟨j, List.mem_range.mpr ?_, rfl⟩))
      rcases hj with rfl | hj
      · decide
      · exact hj
    · obtain ⟨k, hk, rfl⟩ := List.mem_map.mp hi
      have hlt := sortAccesses_lt hk
      omega
  obtain ⟨d', sorted, last, hloop, hbuf', hsorted, hpair, hlast, hneg, hacc⟩ :=
    hd.loop junk before ho (by rwa [List.length_nil, Nat.zero_add])
  rw [List.nil_append] at hbuf' hpair hlast
  have hclean : h.cleanup le junk before = some (h.cleaned d') := by
    rw [cleanup, hloop]
    rfl
  refine ⟨_, sorted, last, hclean, rfl, ?_, ?_, hsorted.trans hperm, hpair, hlast, hneg, hacc⟩
  · rw [← hbuf.persist_eq]
    exact (Function.update_of_ne h.nextName_ne _ _).trans (Function.update_self _ _ _)
  · rw [← hbuf'.persist_eq]
    exact Function.update_self _ _ _

/-- A loop that ends has read `array_[-1]`. -/
theorem Draining.loop_accesses {fuel : ℕ} (hl : d.loop le junk before fuel = some d')
    (hw : 0 ≤ d.waterline) : -1 ∈ d'.accesses := by
  induction fuel generalizing d with
  | zero => cases hl
  | succ fuel ih =>
    rw [Draining.loop, if_pos hw] at hl
    obtain ⟨d₁, hround, hl⟩ := Option.bind_eq_some_iff.mp hl
    obtain ⟨flexBuffer, -, rfl⟩ := Option.map_eq_some_iff.mp hround
    rcases hw.lt_or_eq with hpos | hzero
    · exact ih hl (Int.le_sub_one_of_lt hpos)
    · cases fuel with
      | zero => cases hl
      | succ fuel =>
        rw [Draining.loop, if_neg (show ¬ 0 ≤ d.waterline - 1 by omega), Option.some.injEq] at hl
        rw [← hl]
        simp [← hzero]

theorem not_cleansUp (le : Tuple → Tuple → Bool) (junk : Memory) (before : Tuple) (h : Heap)
    (stored : List Tuple) : ¬ CleansUp le junk before h stored := by
  rintro ⟨c, -, hclean, -, -, -, -, -, hacc⟩
  obtain ⟨d', hloop, rfl⟩ := Option.map_eq_some_iff.mp hclean
  have hneg := hacc (-1) (Draining.loop_accesses hloop (Int.natCast_nonneg heapSize))
  omega

/-- `cleanup` never does what it is for: it reads `array_[-1]`, and the second file has a tuple too
many. -/
theorem cleanup_never (le : Tuple → Tuple → Bool) (junk : Memory) (before : Tuple) (h : Heap)
    (stored : List Tuple) : ¬ CleansUp le junk before h stored ∧
    ∀ t, 1 ≤ t → TotalPreorder le → (∀ y ∈ elems heapSize h.array, y.length = t) →
      h.flexBuffer.Sound stored → FlexBlock.heapSortBufferInitSize ≤ h.flexBuffer.alloc →
      h.flexBuffer.block.tupleSize = t → (heapSize + 1) * t ≤ 2 ^ 31 →
      ∃ c, h.cleanup le junk before = some c ∧ c.disk (fname h.fileOff) = some stored.flatten ∧
        ∀ sorted : List Tuple, sorted.Perm (elems heapSize h.array) →
          c.disk h.nextName ≠ some sorted.flatten := by
  refine ⟨not_cleansUp le junk before h stored, fun t ht ho hsizes hbuf halloc htup hfits => ?_⟩
  obtain ⟨c, sorted, last, hclean, -, hfirst, hsecond, hperm, -, hlast, -⟩ :=
    cleanup_spec junk before ho hsizes hbuf halloc htup hfits
  refine ⟨c, hclean, hfirst, fun sorted' hperm' he => ?_⟩
  rw [hsecond, Option.some.injEq] at he
  have hlen := congrArg List.length he
  have hmem : last ∈ sorted := List.mem_of_getLast? hlast
  rw [flatten_length (w := t) fun y hy => ?_, flatten_length (w := t) fun y hy => ?_,
    List.length_append, hperm.length_eq, hperm'.length_eq, List.length_singleton, Nat.succ_mul]
    at hlen
  · omega
  · exact hsizes y (hperm'.mem_iff.mp hy)
  · rcases List.mem_append.mp hy with hy | hy
    · exact hsizes y (hperm.mem_iff.mp hy)
    · rw [List.mem_singleton.mp hy]
      exact hsizes last (hperm.mem_iff.mp hmem)

theorem sevens_sizes : ∀ y ∈ elems heapSize sevens.array, y.length = 16 := by
  intro y hy
  obtain ⟨k, -, rfl⟩ := List.mem_map.mp hy
  rfl

theorem sevens_sound : sevens.flexBuffer.Sound [] :=
  ⟨Block.stored_reset (Block.make (fun _ => 0) 1024 16), by decide, le_rfl, rfl⟩

theorem cleanup_never_sevens :
    ∃ c, sevens.cleanup leKey (fun _ => 0) [] = some c ∧
      ∀ sorted : List Tuple, sorted.Perm (elems heapSize sevens.array) →
        c.disk sevens.nextName ≠ some sorted.flatten := by
  obtain ⟨c, hclean, -, hnever⟩ := (cleanup_never leKey (fun _ => 0) [] sevens []).2 16 (by decide)
    leKey_totalPreorder sevens_sizes sevens_sound le_rfl rfl (by decide)
  exact ⟨c, hclean, hnever⟩

/-- A hundred sevens become a hundred and one. -/
theorem cleanup_sevens : ¬ CleansUp leKey (fun _ => 0) [] sevens [] ∧
    ∃ c, sevens.cleanup leKey (fun _ => 0) [] = some c ∧ -1 ∈ c.draining.accesses ∧
      c.disk "sort_1" = some (List.replicate 101 (longTuple 7)).flatten := by
  obtain ⟨c, sorted, last, hclean, -, -, hsecond, hperm, -, hlast, hneg, -⟩ :=
    cleanup_spec (fun _ => 0) [] leKey_totalPreorder sevens_sizes sevens_sound
      le_rfl rfl (by decide)
  have hseven (y : Tuple) (hy : y ∈ sorted) : y = longTuple 7 := by
    obtain ⟨k, -, rfl⟩ := List.mem_map.mp (hperm.mem_iff.mp hy)
    rfl
  have hsorted : sorted = List.replicate 100 (longTuple 7) :=
    List.eq_replicate_iff.mpr ⟨hperm.length_eq, hseven⟩
  have hname : sevens.nextName = "sort_1" := by decide
  refine ⟨not_cleansUp _ _ _ _ _, c, hclean, hneg, ?_⟩
  rw [← hname, hsecond, hsorted, hseven last (List.mem_of_getLast? hlast)]
  rfl

end Heap
end Mosito
