import Mosito.Common.FlexBlock
import Mosito.Lib.BinaryHeap
import Mosito.Lib.Runs

/-! Replacement selection. A heap of tuples gives its smallest one to a growing buffer and takes
the next tuple of the input, which waits for the following run if it is too small for this one. -/
namespace Mosito
open ByteStore BinaryHeap Runs

/-- `HEAP_SIZE`. -/
def heapSize : ℕ := 100

/-- `array` are the tuples that `array_` points to; `disk` is what the files hold. -/
structure Heap where
  waterline : ℕ
  array : ℕ → Tuple
  flexBuffer : FlexBlock
  initFlag : Bool
  fileOff : ℕ
  files : List String
  disk : String → Option (List UInt8)

namespace Heap
variable (le : Tuple → Tuple → Bool) (junk : Memory)

def heapGetTop (h : Heap) : Tuple := h.array 0

/-- Every round goes down a level, so that `len` rounds are enough. -/
def heapAgain (i len : ℕ) (h : Heap) : Heap := { h with array := siftDown le len len i h.array }

/-- `for(int i=(waterline_-2)/2;i>=0;i--) heap_again(i,waterline_);` -/
def heapSort (h : Heap) : Heap :=
  { h with array := heapify le h.waterline ((h.waterline - 2) / 2 + 1) h.array }

def fname (off : ℕ) : String := "sort_" ++ Nat.repr off

/-- The end of a run: its tuples go to a file of their own. -/
def closeRun (h : Heap) : Heap :=
  { h with
    fileOff := (h.fileOff + 1) % 2 ^ 32
    files := h.files ++ [fname h.fileOff]
    disk := Function.update h.disk (fname h.fileOff) (some h.flexBuffer.persist)
    flexBuffer := h.flexBuffer.reset
    waterline := heapSize
    initFlag := false }

/-- `le` is `comparator_->compare`. `none` when the buffer outgrows an `unsigned`. -/
def heapAdjust (h : Heap) (tuple : Tuple) : Option Heap :=
  let top := h.heapGetTop
  (h.flexBuffer.storeTupleOK junk top).map fun flexBuffer =>
    let h := { h with flexBuffer := flexBuffer }
    if le tuple top = false then
      heapAgain le 0 h.waterline { h with array := Function.update h.array 0 tuple }
    else
      let h := { h with waterline := h.waterline - 1 }
      if h.waterline = 0 then closeRun { h with array := Function.update h.array 0 tuple }
      else
        let array := Function.update h.array 0 (h.array h.waterline)
        heapAgain le 0 h.waterline { h with array := Function.update array h.waterline tuple }

/-- The call that brings `waterline_` to 0. -/
def Closes (h : Heap) (tuple : Tuple) : Prop :=
  h.waterline = 1 ∧ le tuple h.heapGetTop = true

/-- Of the tuples `ts` passed in, those that were at most the top they met; the tops are what
the calls stored. -/
def frozen (ts stored : List Tuple) : List Tuple :=
  ((ts.zip stored).filter fun p => le p.1 p.2).map Prod.fst

/-- The state of a run that began with the tuples of `h₀`, after calls with `ts` that have
stored `stored`. -/
structure InRun (t : ℕ) (h₀ : Heap) (ts stored : List Tuple) (h : Heap) : Prop where
  buffer : h.flexBuffer.Sound stored
  tupleSize : h.flexBuffer.block.tupleSize = t
  count : stored.length = ts.length
  sorted : stored.Pairwise fun x y => le x y = true
  waterline : 0 < h.waterline ∧ h.waterline ≤ heapSize
  heap : OrderedFrom le h.waterline 0 h.array
  above : ∀ x ∈ stored, ∀ j < h.waterline, le x (h.array j) = true
  parked : (List.range (heapSize - h.waterline)).map (fun k => h.array (h.waterline + k)) =
    (frozen le ts stored).reverse
  conserved : (stored ++ elems heapSize h.array).Perm (elems heapSize h₀.array ++ ts)
  kept : h.files = h₀.files ∧ h.fileOff = h₀.fileOff ∧ h.disk = h₀.disk

/-- The names of the files count on from the first one. -/
def Named (h : Heap) : Prop :=
  ∃ first, h.files = (List.range h.files.length).map (fun k => fname ((first + k) % 2 ^ 32)) ∧
    h.fileOff = (first + h.files.length) % 2 ^ 32

/-- What the last call of a run leaves: a file with the run, which is sorted, an empty buffer,
and as many tuples as the heap has places, none of them written. -/
structure Closed (h₀ : Heap) (ts stored : List Tuple) (h h' : Heap) : Prop where
  file : h'.files = h.files ++ [fname h.fileOff] ∧
    h'.disk = Function.update h.disk (fname h.fileOff) (some stored.flatten)
  fresh : h.files.length < 2 ^ 32 → fname h.fileOff ∉ h.files
  sorted : stored.Pairwise fun x y => le x y = true
  empty : h'.flexBuffer.block.free = 0
  waterline : h'.waterline = heapSize
  parked : elems heapSize h'.array = (frozen le ts stored).reverse
  conserved : (stored ++ elems heapSize h'.array).Perm (elems heapSize h₀.array ++ ts)

variable {le junk} {t : ℕ} {ts stored : List Tuple} {h₀ h h' : Heap} {x : Tuple}

/-- The next file has a name that none of the others has. -/
theorem Named.fresh (hn : h.Named) (hlt : h.files.length < 2 ^ 32) :
    fname h.fileOff ∉ h.files := by
  obtain ⟨first, hfiles, hoff⟩ := hn
  intro hmem
  rw [hfiles, hoff] at hmem
  obtain ⟨k, hk, he⟩ := List.mem_map.mp hmem
  have hrepr := Nat.repr_inj.mp (String.append_right_inj _ |>.mp he)
  rw [List.mem_range] at hk
  omega

theorem Named.step (hn : h.Named) (hs : heapAdjust le junk h x = some h') : h'.Named := by
  obtain ⟨flexBuffer, -, rfl⟩ := Option.map_eq_some_iff.mp hs
  obtain ⟨first, hfiles, hoff⟩ := hn
  dsimp only
  split_ifs
  · exact ⟨first, hfiles, hoff⟩
  · refine ⟨first, ?_, ?_⟩
    · change h.files ++ [fname h.fileOff] =
        (List.range (h.files ++ [fname h.fileOff]).length).map _
      rw [List.length_append, List.length_singleton, List.range_succ, List.map_append, ← hfiles,
        hoff]
      rfl
    · change (h.fileOff + 1) % 2 ^ 32 = (first + (h.files ++ [fname h.fileOff]).length) % 2 ^ 32
      rw [hoff, List.length_append, List.length_singleton]
      omega
  · exact ⟨first, hfiles, hoff⟩

theorem frozen_concat (hlen : stored.length = ts.length) (x top : Tuple) :
    frozen le (ts ++ [x]) (stored ++ [top]) =
      frozen le ts stored ++ if le x top = true then [x] else [] := by
  rw [frozen, List.zip_append hlen.symm, List.filter_append, List.map_append, ← frozen]
  congr 1
  simp only [List.zip_cons_cons, List.zip_nil_left, List.filter_cons, List.filter_nil]
  split <;> rfl

/-- An element of the new heap is one of those among which it was restored. -/
theorem siftDown_mem (le : Tuple → Tuple → Bool) (fuel i : ℕ) (a : ℕ → Tuple) {len j : ℕ}
    (hj : j < len) :
    ∃ k < len, siftDown le len fuel i a j = a k := by
  have hmem : siftDown le len fuel i a j ∈ elems len (siftDown le len fuel i a) :=
    List.mem_map.mpr ⟨j, List.mem_range.mpr hj, rfl⟩
  rw [(siftDown_perm le_rfl).mem_iff] at hmem
  obtain ⟨k, hk, he⟩ := List.mem_map.mp hmem
  exact ⟨k, List.mem_range.mp hk, he.symm⟩

section Step
variable (ho : TotalPreorder le)
include ho

/-- The run begins when `heap_sort` is done. -/
theorem inRun_heapSort (hw : h.waterline = heapSize) (hbuf : h.flexBuffer.Sound [])
    (htup : h.flexBuffer.block.tupleSize = t) :
    InRun le t h [] [] (h.heapSort le) := by
  refine ⟨hbuf, htup, rfl, List.Pairwise.nil, ?_, ?_, by simp, ?_, ?_, rfl, rfl, rfl⟩
  · change 0 < h.waterline ∧ h.waterline ≤ heapSize
    rw [hw]
    decide
  · refine heapify_ordered ho fun p c hp hc hlen => ?_
    replace hlen : c < h.waterline := hlen
    simp only [hw, heapSize, Child] at hp hc hlen
    omega
  · change (List.range (heapSize - h.waterline)).map _ = _
    rw [hw, Nat.sub_self]
    rfl
  · rw [List.nil_append, List.append_nil]
    exact heapify_perm hw.le

/-- The stored tuples with the top behind them. -/
theorem InRun.store (hr : InRun le t h₀ ts stored h) :
    (stored ++ [h.heapGetTop]).Pairwise (fun x y => le x y = true) ∧
      ∀ y ∈ stored ++ [h.heapGetTop], ∀ j < h.waterline, le y (h.array j) = true := by
  have hroot (j : ℕ) (hj : j < h.waterline) : le h.heapGetTop (h.array j) = true :=
    hr.heap.root_le ho hj
  constructor
  · refine List.pairwise_append.mpr ⟨hr.sorted, List.pairwise_singleton _ _, ?_⟩
    intro y hy z hz
    rw [List.mem_singleton.mp hz]
    exact hr.above y hy 0 hr.waterline.1
  · intro y hy j hj
    rcases List.mem_append.mp hy with hy | hy
    · exact hr.above y hy j hj
    · rw [List.mem_singleton.mp hy]
      exact hroot j hj

/-- `heap_again` restores a heap of `w` tuples in which only the root may be too large. -/
theorem inRun_heapAgain {w : ℕ} {b : ℕ → Tuple} {flexBuffer : FlexBlock}
    (hbuf : flexBuffer.Sound stored) (htup : flexBuffer.block.tupleSize = t)
    (hcount : stored.length = ts.length) (hsorted : stored.Pairwise fun x y => le x y = true)
    (hw : 0 < w ∧ w ≤ heapSize)
    (hheap : ∀ p c, p ≠ 0 → Child p c → c < w → le (b p) (b c) = true)
    (habove : ∀ y ∈ stored, ∀ k < w, le y (b k) = true)
    (hparked : (List.range (heapSize - w)).map (fun k => b (w + k)) = (frozen le ts stored).reverse)
    (hconserved : (stored ++ elems heapSize b).Perm (elems heapSize h₀.array ++ ts))
    (hkept : h.files = h₀.files ∧ h.fileOff = h₀.fileOff ∧ h.disk = h₀.disk) :
    InRun le t h₀ ts stored
      (heapAgain le 0 w { h with waterline := w, flexBuffer := flexBuffer, array := b }) where
  buffer := hbuf
  tupleSize := htup
  count := hcount
  sorted := hsorted
  waterline := hw
  heap := by
    refine siftDown_ordered ho ⟨fun p c _ => hheap p c, fun p c _ hc => ?_⟩ le_rfl
      (Nat.le_add_left w 0)
    unfold Child at hc
    omega
  above y hy j hj := by
    replace hj : j < w := hj
    obtain ⟨k, hk, he⟩ := siftDown_mem le w 0 b hj
    change le y (siftDown le w w 0 b j) = true
    rw [he]
    exact habove y hy k hk
  parked := by
    rw [← hparked]
    exact List.map_congr_left fun k _ => siftDown_of_ge (Nat.le_add_right w k)
  conserved := ((siftDown_perm hw.2).append_left stored).trans hconserved
  kept := hkept

omit ho in
/-- The tuples stay the same when the top is stored and `x` comes in. -/
theorem InRun.conserve (hr : InRun le t h₀ ts stored h) {b : ℕ → Tuple}
    (hb : (h.heapGetTop :: elems heapSize b).Perm (x :: elems heapSize h.array)) :
    (stored ++ [h.heapGetTop] ++ elems heapSize b).Perm (elems heapSize h₀.array ++ (ts ++ [x])) := by
  rw [List.append_assoc, List.singleton_append, ← List.append_assoc]
  refine (hb.append_left stored).trans (List.perm_middle.trans ?_)
  exact (hr.conserved.cons x).trans (List.perm_append_singleton x _).symm

/-- A tuple above the top takes its place. -/
theorem InRun.replace (hr : InRun le t h₀ ts stored h) {flexBuffer : FlexBlock}
    (hbuf : flexBuffer.Sound (stored ++ [h.heapGetTop])) (htup : flexBuffer.block.tupleSize = t)
    (hx : le x h.heapGetTop = false) :
    InRun le t h₀ (ts ++ [x]) (stored ++ [h.heapGetTop]) (heapAgain le 0 h.waterline
      { h with flexBuffer := flexBuffer, array := Function.update h.array 0 x }) := by
  obtain ⟨hsorted, habove⟩ := hr.store ho
  have htop : le h.heapGetTop x = true := by
    refine (ho.total _ _).resolve_right ?_
    rw [hx]
    exact Bool.false_ne_true
  refine inRun_heapAgain ho hbuf htup (by simp [hr.count]) hsorted hr.waterline ?_ ?_ ?_ ?_ hr.kept
  · intro p c hp hc hlen
    have hc0 : c ≠ 0 := by unfold Child at hc; omega
    rw [Function.update_of_ne hp, Function.update_of_ne hc0]
    exact hr.heap p c (Nat.zero_le p) hc hlen
  · intro y hy k hk
    rcases eq_or_ne k 0 with rfl | hk0
    · rw [Function.update_self]
      exact ho.trans _ _ _ (habove y hy 0 hk) htop
    · rw [Function.update_of_ne hk0]
      exact habove y hy k hk
  · have hpos := hr.waterline.1
    rw [frozen_concat hr.count, hx, if_neg Bool.false_ne_true, List.append_nil, ← hr.parked]
    exact List.map_congr_left fun k _ => Function.update_of_ne (by omega) _ _
  · exact hr.conserve (update_perm (by decide) x)

omit ho in
/-- The tuples behind the heap when it is one smaller and `x` is parked. -/
theorem InRun.park (hr : InRun le t h₀ ts stored h) {b : ℕ → Tuple}
    (hx : le x h.heapGetTop = true) (hlast : b (h.waterline - 1) = x)
    (hback : ∀ k, h.waterline ≤ k → b k = h.array k) :
    (List.range (heapSize - (h.waterline - 1))).map (fun k => b (h.waterline - 1 + k)) =
      (frozen le (ts ++ [x]) (stored ++ [h.heapGetTop])).reverse := by
  obtain ⟨hpos, hle⟩ := hr.waterline
  have hlen : heapSize - (h.waterline - 1) = heapSize - h.waterline + 1 := by omega
  rw [frozen_concat hr.count, hx, if_pos rfl, List.reverse_append, ← hr.parked, hlen,
    List.range_succ_eq_map, List.map_cons, List.map_map, Nat.add_zero, hlast]
  refine congrArg (x :: ·) (List.map_congr_left fun k _ => ?_)
  have hk : h.waterline - 1 + (k + 1) = h.waterline + k := by omega
  rw [Function.comp_apply, Nat.succ_eq_add_one, hk]
  exact hback _ (by omega)

/-- A tuple at most the top is parked behind the heap, whose last tuple goes to the root. -/
theorem InRun.shrink (hr : InRun le t h₀ ts stored h) {flexBuffer : FlexBlock}
    (hbuf : flexBuffer.Sound (stored ++ [h.heapGetTop])) (htup : flexBuffer.block.tupleSize = t)
    (hx : le x h.heapGetTop = true) (hw : h.waterline - 1 ≠ 0) :
    InRun le t h₀ (ts ++ [x]) (stored ++ [h.heapGetTop]) (heapAgain le 0 (h.waterline - 1)
      { h with
        flexBuffer := flexBuffer
        waterline := h.waterline - 1
        array := Function.update (Function.update h.array 0 (h.array (h.waterline - 1)))
          (h.waterline - 1) x }) := by
  obtain ⟨hsorted, habove⟩ := hr.store ho
  obtain ⟨hpos, hle⟩ := hr.waterline
  refine inRun_heapAgain ho hbuf htup (by simp [hr.count]) hsorted (by omega) ?_ ?_ ?_ ?_ hr.kept
  · intro p c hp hc hlen
    have hpc : p < c ∧ c ≠ 0 := by unfold Child at hc; omega
    rw [Function.update_of_ne (by omega), Function.update_of_ne hp,
      Function.update_of_ne (by omega), Function.update_of_ne hpc.2]
    exact hr.heap p c (Nat.zero_le p) hc (by omega)
  · intro y hy k hk
    rw [Function.update_of_ne hk.ne]
    rcases eq_or_ne k 0 with rfl | hk0
    · rw [Function.update_self]
      exact habove y hy _ (by omega)
    · rw [Function.update_of_ne hk0]
      exact habove y hy k (by omega)
  · refine hr.park hx (Function.update_self _ _ _) fun k hk => ?_
    rw [Function.update_of_ne (by omega), Function.update_of_ne (by omega)]
  · refine hr.conserve ((List.perm_cons (h.array (h.waterline - 1))).mp ?_)
    have hout := update_perm (a := h.array) (n := heapSize) (i := 0) (by decide)
      (h.array (h.waterline - 1))
    have hin := update_perm (n := heapSize) (i := h.waterline - 1)
      (a := Function.update h.array 0 (h.array (h.waterline - 1))) (by omega) x
    rw [Function.update_of_ne hw] at hin
    refine (List.Perm.swap _ _ _).trans ((hin.cons _).trans ?_)
    refine (List.Perm.swap _ _ _).trans ((hout.cons x).trans ?_)
    exact List.Perm.swap _ _ _

/-- A call inside a run. -/
theorem InRun.step (hr : InRun le t h₀ ts stored h) (hsizes : h.heapGetTop.length = t)
    (hopen : ¬ Closes le h x) (hs : heapAdjust le junk h x = some h') :
    InRun le t h₀ (ts ++ [x]) (stored ++ [h.heapGetTop]) h' := by
  obtain ⟨flexBuffer, hstore, rfl⟩ := Option.map_eq_some_iff.mp hs
  obtain ⟨hbuf, htup⟩ := hr.buffer.storeTupleOK (hsizes.trans hr.tupleSize.symm) hstore
  replace htup := htup.trans hr.tupleSize
  have hpos := hr.waterline.1
  dsimp only
  split_ifs with hx hw
  · exact hr.replace ho hbuf htup hx
  · exact absurd ⟨by omega, by simpa using hx⟩ hopen
  · exact hr.shrink ho hbuf htup (by simpa using hx) hw

/-- The call that ends a run. -/
theorem InRun.close (hr : InRun le t h₀ ts stored h) (hnamed : h.Named)
    (hsizes : h.heapGetTop.length = t) (hclose : Closes le h x)
    (hs : heapAdjust le junk h x = some h') :
    Closed le h₀ (ts ++ [x]) (stored ++ [h.heapGetTop]) h h' := by
  obtain ⟨flexBuffer, hstore, rfl⟩ := Option.map_eq_some_iff.mp hs
  obtain ⟨hbuf, -⟩ := hr.buffer.storeTupleOK (hsizes.trans hr.tupleSize.symm) hstore
  obtain ⟨hsorted, -⟩ := hr.store ho
  obtain ⟨hw, hx⟩ := hclose
  have hpark := hr.park (b := Function.update h.array 0 x) hx (by simp [hw])
    fun k hk => Function.update_of_ne (by omega) _ _
  simp only [hw, Nat.sub_self, Nat.sub_zero, Nat.zero_add] at hpark
  dsimp only
  rw [hx, if_neg (by simp), if_pos (by omega)]
  refine ⟨⟨rfl, ?_⟩, hnamed.fresh, hsorted, rfl, rfl, hpark,
    hr.conserve (update_perm (by decide) x)⟩
  change Function.update h.disk (fname h.fileOff) (some flexBuffer.persist) = _
  rw [hbuf.persist_eq]

omit ho in
/-- The smallest tuple was in the heap at the start of the run, or came in it. -/
theorem InRun.top_mem (hr : InRun le t h₀ ts stored h) :
    h.heapGetTop ∈ elems heapSize h₀.array ++ ts := by
  refine hr.conserved.mem_iff.mp (List.mem_append_right _ ?_)
  exact List.mem_map.mpr ⟨0, List.mem_range.mpr (by decide), rfl⟩

omit ho in
theorem InRun.top_length (hr : InRun le t h₀ ts stored h) {us : List Tuple}
    (hsizes : ∀ y ∈ elems heapSize h₀.array ++ (ts ++ us), y.length = t) :
    h.heapGetTop.length = t := by
  rw [← List.append_assoc] at hsizes
  exact hsizes _ (List.mem_append_left us hr.top_mem)

omit ho in
/-- A call returns as long as the run fits the largest buffer. -/
theorem InRun.returns (hr : InRun le t h₀ ts stored h) (junk : Memory) (x : Tuple)
    (hfits : (ts.length + 1) * t ≤ 2 ^ 31) : ∃ h', heapAdjust le junk h x = some h' := by
  rw [← Option.isSome_iff_exists, heapAdjust, Option.isSome_map]
  refine hr.buffer.storeTupleOK_isSome _ ?_
  rwa [hr.count, hr.tupleSize]

/-- The calls of a run, one after the other. -/
theorem InRun.calls {us : List Tuple} (hr : InRun le t h₀ ts stored h)
    (hsizes : ∀ y ∈ elems heapSize h₀.array ++ (ts ++ us), y.length = t)
    (hopen : Along (heapAdjust le junk) (fun h x => ¬ Closes le h x) h us) :
    ((ts.length + us.length) * t ≤ 2 ^ 31 → ∃ h', run (heapAdjust le junk) h us = some h') ∧
      ∀ h', run (heapAdjust le junk) h us = some h' →
        ∃ stored', InRun le t h₀ (ts ++ us) stored' h' := by
  induction us generalizing ts stored h with
  | nil =>
    refine ⟨fun _ => ⟨h, rfl⟩, fun h' hrun => ?_⟩
    cases hrun
    exact ⟨stored, by rwa [List.append_nil]⟩
  | cons x us ih =>
    have htop := hr.top_length hsizes
    have hassoc : ts ++ x :: us = ts ++ [x] ++ us := by simp
    rw [hassoc] at hsizes ⊢
    constructor
    · intro hfits
      obtain ⟨h₁, hs⟩ := hr.returns junk x
        ((Nat.mul_le_mul_right t (by simp)).trans hfits)
      have hr₁ := hr.step ho htop hopen.1 hs
      obtain ⟨h', hrun⟩ := (ih hr₁ hsizes (hopen.2 h₁ hs)).1 (by
        refine le_trans (le_of_eq ?_) hfits
        rw [List.length_append, List.length_singleton, List.length_cons]
        congr 1
        omega)
      exact ⟨h', run_cons.mpr ⟨h₁, hs, hrun⟩⟩
    · intro h' hrun
      obtain ⟨h₁, hs, hrun⟩ := run_cons.mp hrun
      exact (ih (hr.step ho htop hopen.1 hs) hsizes (hopen.2 h₁ hs)).2 h' hrun

/-- Replacement selection: all the time of a run, and with the call that ends it. -/
theorem heapAdjust_run (hw : h.waterline = heapSize)
    (hsizes : ∀ y ∈ elems heapSize h.array, y.length = t) (hbuf : h.flexBuffer.Sound [])
    (htup : h.flexBuffer.block.tupleSize = t) (hnamed : h.Named) (hts : ∀ y ∈ ts, y.length = t)
    (hopen : Along (heapAdjust le junk) (fun h x => ¬ Closes le h x) (h.heapSort le) ts) :
    (ts.length * t ≤ 2 ^ 31 → ∃ h₁, run (heapAdjust le junk) (h.heapSort le) ts = some h₁) ∧
      ∀ h₁, run (heapAdjust le junk) (h.heapSort le) ts = some h₁ →
        ∃ stored, InRun le t h ts stored h₁ ∧ ∀ x, Closes le h₁ x →
          ((ts.length + 1) * t ≤ 2 ^ 31 → ∃ h₂, heapAdjust le junk h₁ x = some h₂) ∧
          ∀ h₂, heapAdjust le junk h₁ x = some h₂ →
            Closed le h (ts ++ [x]) (stored ++ [h₁.heapGetTop]) h₁ h₂ := by
  have hall : ∀ y ∈ elems heapSize h.array ++ ts, y.length = t := by
    intro y hy
    rcases List.mem_append.mp hy with hy | hy
    · exact hsizes y hy
    · exact hts y hy
  obtain ⟨hreturns, hruns⟩ := (inRun_heapSort ho hw hbuf htup).calls ho hall hopen
  rw [List.length_nil, Nat.zero_add] at hreturns
  refine ⟨hreturns, fun h₁ hrun => ?_⟩
  obtain ⟨stored, hr⟩ := hruns h₁ hrun
  rw [List.nil_append] at hr
  have hnamed₁ : h₁.Named := inv (fun _ _ _ hn hs => hn.step hs) hrun hnamed
  exact ⟨stored, hr, fun x hclose => ⟨hr.returns junk x, fun h₂ hs =>
    hr.close ho hnamed₁ (hall _ hr.top_mem) hclose hs⟩⟩

end Step

/-- Each parked tuple takes one place of the heap. -/
theorem InRun.waterline_eq (hr : InRun le t h₀ ts stored h) :
    h.waterline + (frozen le ts stored).length = heapSize := by
  have hlen := congrArg List.length hr.parked
  rw [List.length_map, List.length_range, List.length_reverse] at hlen
  have hle := hr.waterline.2
  omega

theorem frozen_length_le (le : Tuple → Tuple → Bool) (ts stored : List Tuple) :
    (frozen le ts stored).length ≤ ts.length := by
  rw [frozen, List.length_map]
  refine (List.length_filter_le _ _).trans ?_
  rw [List.length_zip]
  exact Nat.min_le_left _ _

/-- No run ends before its call number `heapSize`. -/
theorem InRun.along (ho : TotalPreorder le) (junk : Memory) {us : List Tuple}
    (hr : InRun le t h₀ ts stored h)
    (hsizes : ∀ y ∈ elems heapSize h₀.array ++ (ts ++ us), y.length = t)
    (hfew : ts.length + us.length < heapSize) :
    Along (heapAdjust le junk) (fun h x => ¬ Closes le h x) h us := by
  induction us generalizing ts stored h with
  | nil => trivial
  | cons x us ih =>
    rw [List.length_cons] at hfew
    have hopen : ¬ Closes le h x := by
      rintro ⟨hw, -⟩
      have heq := hr.waterline_eq
      have hle := frozen_length_le le ts stored
      omega
    refine ⟨hopen, fun h₁ hs => ?_⟩
    have htop := hr.top_length hsizes
    refine ih (hr.step ho htop hopen hs) (by simpa using hsizes) ?_
    rw [List.length_append, List.length_singleton]
    omega

/-- A full heap with the key 7 only. -/
def sevens : Heap where
  waterline := heapSize
  array _ := longTuple 7
  flexBuffer := .make (fun _ => 0) FlexBlock.heapSortBufferInitSize 16
  initFlag := true
  fileOff := 0
  files := []
  disk _ := none

/-- `compare` on the keys, ascending. -/
def leKey (x y : Tuple) : Bool := decide (key x ≤ key y)

theorem leKey_totalPreorder : TotalPreorder leKey where
  total x y := by
    simp only [leKey, decide_eq_true_eq]
    exact Nat.le_total _ _
  trans x y z hxy hyz := by
    simp only [leKey, decide_eq_true_eq] at *
    exact hxy.trans hyz

/-- A hundred more sevens: the last of them ends the run, and the file has the first hundred. -/
theorem heapAdjust_run_sevens :
    ∃ h₁ h₂, run (heapAdjust leKey fun _ => 0) (sevens.heapSort leKey)
        (List.replicate 99 (longTuple 7)) = some h₁ ∧
      heapAdjust leKey (fun _ => 0) h₁ (longTuple 7) = some h₂ ∧
      h₂.files = ["sort_0"] ∧ h₂.disk "sort_0" = some (List.replicate 100 (longTuple 7)).flatten ∧
      h₂.waterline = heapSize := by
  have hts : ∀ y ∈ List.replicate 99 (longTuple 7), y.length = 16 := by
    intro y hy
    rw [List.eq_of_mem_replicate hy]
    rfl
  have hsizes : ∀ y ∈ elems heapSize sevens.array, y.length = 16 := by
    intro y hy
    obtain ⟨k, -, rfl⟩ := List.mem_map.mp hy
    rfl
  have hbuf : sevens.flexBuffer.Sound [] :=
    ⟨Block.stored_reset (Block.make (fun _ => 0) 1024 16), by decide, le_rfl, rfl⟩
  have hseven {y : Tuple} (hy : y ∈ elems heapSize sevens.array ++ List.replicate 99 (longTuple 7)) :
      y = longTuple 7 := by
    rcases List.mem_append.mp hy with hy | hy
    · obtain ⟨k, -, rfl⟩ := List.mem_map.mp hy
      rfl
    · exact List.eq_of_mem_replicate hy
  have hall : ∀ y ∈ elems heapSize sevens.array ++ ([] ++ List.replicate 99 (longTuple 7)),
      y.length = 16 := by
    intro y hy
    rw [hseven hy]
    rfl
  obtain ⟨hreturns, hruns⟩ := heapAdjust_run leKey_totalPreorder rfl hsizes hbuf rfl
    ⟨0, rfl, rfl⟩ hts ((inRun_heapSort leKey_totalPreorder rfl hbuf rfl).along
      leKey_totalPreorder (fun _ => 0) hall (by decide))
  obtain ⟨h₁, hrun⟩ := hreturns (by decide)
  obtain ⟨stored, hr, hclosing⟩ := hruns h₁ hrun
  have hstored : stored = List.replicate 99 (longTuple 7) :=
    List.eq_replicate_iff.mpr ⟨hr.count.trans (List.length_replicate ..), fun y hy =>
      hseven (hr.conserved.mem_iff.mp (List.mem_append_left _ hy))⟩
  have htop : h₁.heapGetTop = longTuple 7 := hseven hr.top_mem
  have hw : h₁.waterline = 1 := by
    have heq := hr.waterline_eq
    have hfrozen : (frozen leKey (List.replicate 99 (longTuple 7)) stored).length = 99 := by
      rw [hstored]
      decide +kernel
    rw [hfrozen] at heq
    simp only [heapSize] at heq
    omega
  obtain ⟨hreturns₂, hclosed⟩ := hclosing (longTuple 7) ⟨hw, by rw [htop]; decide +kernel⟩
  obtain ⟨h₂, hs⟩ := hreturns₂ (by decide)
  obtain ⟨hfiles, hoff, -⟩ := hr.kept
  have hend := hclosed h₂ hs
  have hname : fname h₁.fileOff = "sort_0" := by
    rw [hoff]
    decide
  refine ⟨h₁, h₂, hrun, hs, ?_, ?_, hend.waterline⟩
  · rw [hend.file.1, hfiles, hname]
    rfl
  · rw [hend.file.2, hname, Function.update_self, hstored, htop]
    rfl

end Heap
end Mosito
