import Mosito.Common.Heap

/-! The files of replacement selection, after any calls of `heap_sort` and `heap_adjust`. -/
namespace Mosito
open ByteStore BinaryHeap Runs

inductive HeapCall where
  | heapSort
  | heapAdjust (tuple : Tuple)

/-- The tuples that the calls pass in. -/
def HeapCall.inputs (calls : List HeapCall) : List Tuple :=
  calls.flatMap fun
    | .heapSort => []
    | .heapAdjust tuple => [tuple]

namespace FlexBlock
variable {junk : Memory} {f g : FlexBlock} {ts : List Tuple}

/-- The growth loop makes no buffer smaller. -/
theorem Sound.allocateOK_size {fuel des : ℕ} (h : Sound f ts)
    (ha : FlexBlock.allocateOK junk fuel f = some (des, g)) : f.block.size ≤ g.block.size := by
  induction fuel generalizing f with
  | zero =>
    rw [FlexBlock.allocateOK] at ha
    split at ha
    · cases ha
      exact le_rfl
    · cases ha
  | succ fuel ih =>
    rw [FlexBlock.allocateOK] at ha
    split at ha
    · cases ha
      exact le_rfl
    · obtain ⟨f', hf', hrest⟩ := Option.bind_eq_some_iff.mp ha
      obtain ⟨hsound, hsize, -, -⟩ := h.doubleBuffer hf'
      have hle := ih hsound hrest
      omega

theorem Sound.storeTupleOK_size {x : Tuple} (h : Sound f ts)
    (hg : FlexBlock.storeTupleOK junk f x = some g) : f.block.size ≤ g.block.size := by
  obtain ⟨⟨des, g'⟩, ha, rfl⟩ := Option.map_eq_some_iff.mp hg
  have hle := h.allocateOK_size ha
  exact hle

/-- A buffer that was not smaller than the size it is reset to. -/
theorem Sound.reset (h : Sound f ts) (hroom : heapSortBufferInitSize ≤ f.block.size) :
    Sound f.reset [] :=
  ⟨Block.stored_reset { f.block with size := heapSortBufferInitSize },
    Nat.zero_lt_succ 1023, hroom.trans h.size_le, h.inside_eq⟩

end FlexBlock

namespace Heap
variable (le : Tuple → Tuple → Bool) (junk : Memory)

def call (h : Heap) : HeapCall → Option Heap
  | .heapSort => some (h.heapSort le)
  | .heapAdjust tuple => heapAdjust le junk h tuple

/-- A tuple is passed in when the waiting ones are in heap order. -/
def InOrder (h : Heap) : HeapCall → Prop
  | .heapSort => True
  | .heapAdjust _ => OrderedFrom le h.waterline 0 h.array

/-- A full heap before the first call. -/
structure Full (t : ℕ) (h : Heap) : Prop where
  waterline : h.waterline = heapSize
  sizes : ∀ y ∈ elems heapSize h.array, y.length = t
  buffer : h.flexBuffer.Sound []
  tupleSize : h.flexBuffer.block.tupleSize = t
  room : FlexBlock.heapSortBufferInitSize ≤ h.flexBuffer.block.size
  files : h.files = []
  fileOff : h.fileOff < 2 ^ 32

/-- The files hold the closed runs, the buffer holds the run that is going on. -/
structure Selected (t : ℕ) (h₀ : Heap) (xs : List Tuple) (runs : List (List Tuple))
    (stored : List Tuple) (h : Heap) : Prop where
  buffer : h.flexBuffer.Sound stored
  tupleSize : h.flexBuffer.block.tupleSize = t
  room : FlexBlock.heapSortBufferInitSize ≤ h.flexBuffer.block.size
  waterline : 0 < h.waterline ∧ h.waterline ≤ heapSize
  enough : heapSize ≤ stored.length + h.waterline
  long : ∀ r ∈ runs, heapSize ≤ r.length
  named : h.Named
  disk : h.files.length ≤ 2 ^ 32 → h.files.map h.disk = runs.map fun r => some r.flatten
  closed : h.files.length = runs.length
  conserved : (runs.flatten ++ stored ++ elems heapSize h.array).Perm (elems heapSize h₀.array ++ xs)

/-- Every closed run is in order, and so is the run that is going on, all of it at most what waits
in the heap. -/
structure Ascending (runs : List (List Tuple)) (stored : List Tuple) (h : Heap) : Prop where
  done : ∀ r ∈ runs, r.Pairwise fun x y => le x y = true
  current : stored.Pairwise fun x y => le x y = true
  above : ∀ x ∈ stored, ∀ j < h.waterline, le x (h.array j) = true

variable {le junk} {t : ℕ} {xs stored : List Tuple} {runs : List (List Tuple)} {h₀ h h' : Heap}
  {x : Tuple} {cs : List HeapCall}

/-- No two files have one name. -/
theorem Named.nodup (hn : h.Named) (hle : h.files.length ≤ 2 ^ 32) : h.files.Nodup := by
  obtain ⟨first, hfiles, -⟩ := hn
  rw [hfiles]
  apply List.Nodup.map_on _ List.nodup_range
  intro j hj k hk he
  have hrepr := Nat.repr_inj.mp (String.append_right_inj _ |>.mp he)
  rw [List.mem_range] at hj hk
  omega

section Selected

theorem Selected.top_length (hs : Selected t h₀ xs runs stored h)
    (hsizes : ∀ y ∈ elems heapSize h₀.array ++ xs, y.length = t) : h.heapGetTop.length = t := by
  apply hsizes
  refine hs.conserved.mem_iff.mp (List.mem_append_right _ ?_)
  exact List.mem_map.mpr ⟨0, List.mem_range.mpr (by decide), rfl⟩

theorem Selected.length (hs : Selected t h₀ xs runs stored h) :
    runs.flatten.length + stored.length = xs.length := by
  have hlen := hs.conserved.length_eq
  simp only [List.length_append, elems, List.length_map, List.length_range] at hlen
  omega

theorem Selected.sort (hs : Selected t h₀ xs runs stored h) :
    Selected t h₀ xs runs stored (h.heapSort le) where
  buffer := hs.buffer
  tupleSize := hs.tupleSize
  room := hs.room
  waterline := hs.waterline
  enough := hs.enough
  long := hs.long
  named := hs.named
  disk := hs.disk
  closed := hs.closed
  conserved := ((heapify_perm hs.waterline.2).append_left _).trans hs.conserved

/-- The tuples stay the same when the top is stored and `x` comes in. -/
theorem Selected.conserve (hs : Selected t h₀ xs runs stored h) {b : ℕ → Tuple}
    (hb : (h.heapGetTop :: elems heapSize b).Perm (x :: elems heapSize h.array)) :
    (runs.flatten ++ (stored ++ [h.heapGetTop]) ++ elems heapSize b).Perm
      (elems heapSize h₀.array ++ (xs ++ [x])) := by
  rw [← List.append_assoc, List.append_assoc, List.singleton_append, ← List.append_assoc]
  refine (hb.append_left _).trans (List.perm_middle.trans ?_)
  exact (hs.conserved.cons x).trans (List.perm_append_singleton x _).symm

/-- The last tuple of the heap goes to the root, and `x` to the last place. -/
theorem shrink_perm {w : ℕ} (hw : w ≠ 0) (hle : w < heapSize) (x : Tuple) (a : ℕ → Tuple) :
    (a 0 :: elems heapSize (Function.update (Function.update a 0 (a w)) w x)).Perm
      (x :: elems heapSize a) := by
  have hout := update_perm (a := a) (n := heapSize) (i := 0) (by decide) (a w)
  have hin := update_perm (n := heapSize) (i := w) (a := Function.update a 0 (a w)) hle x
  rw [Function.update_of_ne hw] at hin
  apply (List.perm_cons (a w)).mp
  refine (List.Perm.swap _ _ _).trans ((hin.cons _).trans ?_)
  refine (List.Perm.swap _ _ _).trans ((hout.cons x).trans ?_)
  exact List.Perm.swap _ _ _

/-- `heap_again` on `w` tuples of the array. -/
theorem selected_heapAgain {w : ℕ} {b : ℕ → Tuple} {flexBuffer : FlexBlock}
    (hs : Selected t h₀ xs runs stored h) (hbuf : flexBuffer.Sound (stored ++ [h.heapGetTop]))
    (htup : flexBuffer.block.tupleSize = t) (hroom : h.flexBuffer.block.size ≤ flexBuffer.block.size)
    (hw : 0 < w ∧ w ≤ h.waterline ∧ h.waterline ≤ w + 1)
    (hb : (h.heapGetTop :: elems heapSize b).Perm (x :: elems heapSize h.array)) :
    Selected t h₀ (xs ++ [x]) runs (stored ++ [h.heapGetTop])
      (heapAgain le 0 w { h with waterline := w, flexBuffer := flexBuffer, array := b }) where
  buffer := hbuf
  tupleSize := htup
  room := hs.room.trans hroom
  waterline := ⟨hw.1, hw.2.1.trans hs.waterline.2⟩
  enough := by
    have henough := hs.enough
    change heapSize ≤ (stored ++ [h.heapGetTop]).length + w
    rw [List.length_append, List.length_singleton]
    omega
  long := hs.long
  named := hs.named
  disk := hs.disk
  closed := hs.closed
  conserved := by
    have hperm : (elems heapSize (siftDown le w w 0 b)).Perm (elems heapSize b) :=
      siftDown_perm (hw.2.1.trans hs.waterline.2)
    exact (hperm.append_left _).trans (hs.conserve hb)

/-- The run is closed when its last place is taken. -/
theorem Selected.close {b : ℕ → Tuple} {flexBuffer : FlexBlock}
    (hs : Selected t h₀ xs runs stored h) (hbuf : flexBuffer.Sound (stored ++ [h.heapGetTop]))
    (htup : flexBuffer.block.tupleSize = t) (hroom : h.flexBuffer.block.size ≤ flexBuffer.block.size)
    (hw : h.waterline = 1) (hnamed : Named (closeRun { h with
      waterline := h.waterline - 1, flexBuffer := flexBuffer, array := b }))
    (hb : (h.heapGetTop :: elems heapSize b).Perm (x :: elems heapSize h.array)) :
    Selected t h₀ (xs ++ [x]) (runs ++ [stored ++ [h.heapGetTop]]) []
      (closeRun { h with waterline := h.waterline - 1, flexBuffer := flexBuffer, array := b }) where
  buffer := hbuf.reset (hs.room.trans hroom)
  tupleSize := htup
  room := le_rfl
  waterline := by
    change 0 < heapSize ∧ heapSize ≤ heapSize
    decide
  enough := by
    change heapSize ≤ 0 + heapSize
    omega
  long r hr := by
    rcases List.mem_append.mp hr with hr | hr
    · exact hs.long r hr
    · have henough := hs.enough
      rw [List.mem_singleton.mp hr, List.length_append, List.length_singleton]
      omega
  named := hnamed
  disk hle := by
    change (h.files ++ [fname h.fileOff]).length ≤ 2 ^ 32 at hle
    rw [List.length_append, List.length_singleton] at hle
    have hfresh := hs.named.fresh (by omega)
    have hold := hs.disk (by omega)
    change (h.files ++ [fname h.fileOff]).map
      (Function.update h.disk (fname h.fileOff) (some flexBuffer.persist)) = _
    rw [List.map_append, List.map_append, List.map_singleton, List.map_singleton,
      Function.update_self, hbuf.persist_eq, ← hold]
    congr 1
    apply List.map_congr_left
    intro name hname
    have hne : name ≠ fname h.fileOff := by
      rintro rfl
      exact hfresh hname
    exact Function.update_of_ne hne _ _
  closed := by
    change (h.files ++ [fname h.fileOff]).length = _
    rw [List.length_append, List.length_append, hs.closed]
    rfl
  conserved := by
    have hall := hs.conserve hb
    rw [List.flatten_append, List.flatten_singleton, List.append_nil]
    exact hall

/-- The run that is going on with the top behind it. -/
theorem Ascending.store (ho : TotalPreorder le) (ha : Ascending le runs stored h)
    (hw : 0 < h.waterline) (hheap : OrderedFrom le h.waterline 0 h.array) :
    (stored ++ [h.heapGetTop]).Pairwise (fun y z => le y z = true) ∧
      ∀ y ∈ stored ++ [h.heapGetTop], ∀ j < h.waterline, le y (h.array j) = true := by
  constructor
  · refine List.pairwise_append.mpr ⟨ha.current, List.pairwise_singleton _ _, ?_⟩
    intro y hy z hz
    rw [List.mem_singleton.mp hz]
    exact ha.above y hy 0 hw
  · intro y hy j hj
    rcases List.mem_append.mp hy with hy | hy
    · exact ha.above y hy j hj
    · rw [List.mem_singleton.mp hy]
      exact hheap.root_le ho hj

theorem ascending_heapAgain {w : ℕ} {b : ℕ → Tuple} {flexBuffer : FlexBlock}
    (hruns : ∀ r ∈ runs, r.Pairwise fun y z => le y z = true)
    (hstored : stored.Pairwise fun y z => le y z = true)
    (hb : ∀ y ∈ stored, ∀ k < w, le y (b k) = true) :
    Ascending le runs stored
      (heapAgain le 0 w { h with waterline := w, flexBuffer := flexBuffer, array := b }) where
  done := hruns
  current := hstored
  above y hy j hj := by
    replace hj : j < w := hj
    obtain ⟨k, hk, he⟩ := siftDown_mem le w 0 b hj
    change le y (siftDown le w w 0 b j) = true
    rw [he]
    exact hb y hy k hk

theorem Ascending.sort (ha : Ascending le runs stored h) :
    Ascending le runs stored (h.heapSort le) where
  done := ha.done
  current := ha.current
  above y hy j hj := by
    have hmem : (h.heapSort le).array j ∈ elems h.waterline h.array := by
      refine (heapify_perm le_rfl).mem_iff.mp (List.mem_map.mpr ⟨j, List.mem_range.mpr hj, rfl⟩)
    obtain ⟨k, hk, he⟩ := List.mem_map.mp hmem
    rw [← he]
    exact ha.above y hy k (List.mem_range.mp hk)

/-- A call of `heap_adjust`. -/
theorem Selected.adjust (hs : Selected t h₀ xs runs stored h)
    (hsizes : ∀ y ∈ elems heapSize h₀.array ++ xs, y.length = t)
    (hcall : heapAdjust le junk h x = some h') :
    ∃ runs' stored', Selected t h₀ (xs ++ [x]) runs' stored' h' ∧
      (TotalPreorder le → OrderedFrom le h.waterline 0 h.array → Ascending le runs stored h →
        Ascending le runs' stored' h') := by
  have htop := hs.top_length hsizes
  obtain ⟨hpos, hle⟩ := hs.waterline
  have hnamed := hs.named.step hcall
  obtain ⟨flexBuffer, hstore, rfl⟩ := Option.map_eq_some_iff.mp hcall
  obtain ⟨hbuf, htup⟩ := hs.buffer.storeTupleOK (htop.trans hs.tupleSize.symm) hstore
  have hroom := hs.buffer.storeTupleOK_size hstore
  replace htup := htup.trans hs.tupleSize
  dsimp only at hnamed ⊢
  split_ifs at hnamed ⊢ with hx hw
  · -- the tuple takes the place of the top
    use runs, stored ++ [h.heapGetTop],
      selected_heapAgain hs hbuf htup hroom ⟨hpos, le_rfl, Nat.le_succ _⟩
        (update_perm (by decide) x)
    intro ho hheap ha
    obtain ⟨hcurrent, habove⟩ := ha.store ho hpos hheap
    apply ascending_heapAgain ha.done hcurrent
    intro y hy k hk
    rcases eq_or_ne k 0 with rfl | hk0
    · have hlt : le h.heapGetTop x = true := by
        refine (ho.total _ _).resolve_right ?_
        rw [hx]
        exact Bool.false_ne_true
      rw [Function.update_self]
      exact ho.trans _ _ _ (habove y hy 0 hk) hlt
    · rw [Function.update_of_ne hk0]
      exact habove y hy k hk
  · -- the run is closed
    have hone : h.waterline = 1 := by omega
    use runs ++ [stored ++ [h.heapGetTop]], [],
      hs.close hbuf htup hroom hone hnamed (update_perm (by decide) x)
    intro ho hheap ha
    obtain ⟨hcurrent, -⟩ := ha.store ho hpos hheap
    refine ⟨fun r hr => ?_, .nil, nofun⟩
    rcases List.mem_append.mp hr with hr | hr
    · exact ha.done r hr
    · rw [List.mem_singleton.mp hr]
      exact hcurrent
  · -- the heap is one smaller, and the tuple waits behind it
    use runs, stored ++ [h.heapGetTop],
      selected_heapAgain hs hbuf htup hroom ⟨by omega, by omega, by omega⟩
        (shrink_perm hw (by omega) x h.array)
    intro ho hheap ha
    obtain ⟨hcurrent, habove⟩ := ha.store ho hpos hheap
    apply ascending_heapAgain ha.done hcurrent
    intro y hy k hk
    rw [Function.update_of_ne hk.ne]
    rcases eq_or_ne k 0 with rfl | hk0
    · rw [Function.update_self]
      exact habove y hy _ (by omega)
    · rw [Function.update_of_ne hk0]
      exact habove y hy k (by omega)

/-- All calls. -/
theorem Selected.calls (hs : Selected t h₀ xs runs stored h)
    (hsizes : ∀ y ∈ elems heapSize h₀.array ++ (xs ++ HeapCall.inputs cs), y.length = t)
    (hr : run (call le junk) h cs = some h') :
    ∃ runs' stored', Selected t h₀ (xs ++ HeapCall.inputs cs) runs' stored' h' ∧
      (TotalPreorder le → Along (call le junk) (InOrder le) h cs → Ascending le runs stored h →
        Ascending le runs' stored' h') := by
  induction cs generalizing xs runs stored h with
  | nil =>
    cases hr
    exact ⟨runs, stored, (List.append_nil xs).symm ▸ hs, fun _ _ ha => ha⟩
  | cons c cs ih =>
    obtain ⟨h₁, hc, hrest⟩ := run_cons.mp hr
    cases c with
    | heapSort =>
      cases hc
      obtain ⟨runs', stored', hs', hasc⟩ := ih hs.sort hsizes hrest
      exact ⟨runs', stored', hs', fun ho hal ha => hasc ho (hal.2 _ rfl) ha.sort⟩
    | heapAdjust x =>
      have hinputs : xs ++ HeapCall.inputs (.heapAdjust x :: cs) = xs ++ [x] ++ HeapCall.inputs cs := by
        rw [List.append_assoc]
        rfl
      have hfirst : ∀ y ∈ elems heapSize h₀.array ++ xs, y.length = t := by
        intro y hy
        apply hsizes
        rw [← List.append_assoc]
        exact List.mem_append_left _ hy
      rw [hinputs] at hsizes ⊢
      obtain ⟨runs₁, stored₁, hs₁, hasc₁⟩ := hs.adjust hfirst hc
      obtain ⟨runs', stored', hs', hasc⟩ := ih hs₁ hsizes hrest
      exact ⟨runs', stored', hs', fun ho hal ha => hasc ho (hal.2 h₁ hc) (hasc₁ ho hal.1 ha)⟩

/-- The calls return as long as all tuples together fit the largest buffer. -/
theorem Selected.returns (hs : Selected t h₀ xs runs stored h)
    (hsizes : ∀ y ∈ elems heapSize h₀.array ++ (xs ++ HeapCall.inputs cs), y.length = t)
    (hfits : (xs ++ HeapCall.inputs cs).length * t ≤ 2 ^ 31) :
    ∃ h', run (call le junk) h cs = some h' := by
  induction cs generalizing xs runs stored h with
  | nil => exact ⟨h, rfl⟩
  | cons c cs ih =>
    cases c with
    | heapSort =>
      obtain ⟨h', hr⟩ := ih hs.sort hsizes hfits
      exact ⟨h', run_cons.mpr ⟨_, rfl, hr⟩⟩
    | heapAdjust x =>
      have hinputs : xs ++ HeapCall.inputs (.heapAdjust x :: cs) = xs ++ [x] ++ HeapCall.inputs cs := by
        rw [List.append_assoc]
        rfl
      have hfirst : ∀ y ∈ elems heapSize h₀.array ++ xs, y.length = t := by
        intro y hy
        apply hsizes
        rw [← List.append_assoc]
        exact List.mem_append_left _ hy
      rw [hinputs] at hsizes hfits
      obtain ⟨h₁, hc⟩ : ∃ h₁, heapAdjust le junk h x = some h₁ := by
        rw [← Option.isSome_iff_exists, heapAdjust, Option.isSome_map]
        apply hs.buffer.storeTupleOK_isSome
        rw [hs.tupleSize]
        refine (Nat.mul_le_mul_right t ?_).trans hfits
        have hlen := hs.length
        simp only [List.length_append, List.length_singleton]
        omega
      obtain ⟨runs₁, stored₁, hs₁, -⟩ := hs.adjust hfirst hc
      obtain ⟨h', hr⟩ := ih hs₁ hsizes hfits
      exact ⟨h', run_cons.mpr ⟨h₁, hc, hr⟩⟩

end Selected

end Heap
end Mosito
