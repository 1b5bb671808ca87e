import Mosito.Analysis.BlockThreads
import Mosito.Common.BlockFormat

/-! The histogram of the keys, counted by one loop and by `CPU_CORE` threads that share the
counters. -/
namespace Mosito
open ByteStore Runs

/-- `HIST_SIZE`. -/
def histSize : ℕ := 262144

/-- `(value*HIST_SIZE)/10000000` on an `unsigned long`. -/
def bucket (value : ℕ) : ℕ := value * histSize % 2 ^ 64 / 10000000

/-- `Hist::increase`, the counter is an `unsigned`. -/
def Hist.increase (counter : ℕ) : ℕ := (counter + 1) % 2 ^ 32

namespace Histogram

/-- `histogram_[..]++`: `none` when there is no such `int`, or none that is larger. -/
def increase (value : ℕ) (histogram : ℕ → ℕ) : Option (ℕ → ℕ) :=
  if bucket value < histSize ∧ histogram (bucket value) + 1 < 2 ^ 31 then
    some (Function.update histogram (bucket value) (histogram (bucket value) + 1))
  else none

def eval (blocks : List Block) : Option (ℕ → ℕ) := serial increase blocks fun _ => 0

end Histogram

namespace Histogram1

/-- `hist_[range]->increase()` for the `unsigned` range of the value. -/
def increase (_ : Fin cpuCore) (value : ℕ) (hist : ℕ → ℕ) : Option (ℕ → ℕ) :=
  let range := bucket value % 2 ^ 32
  if range < histSize then
    some (Function.update hist range (Hist.increase (hist range)))
  else none

/-- The threads of `pthreads_eval` from their start on. -/
def pthreadE (blocks : List Block) (ts : List (Fin cpuCore)) : Option (Threads (ℕ → ℕ)) :=
  run (Threads.step increase blocks) (.create fun _ => 0) ts

end Histogram1

/-- The buckets of all keys exist; the threads can always be joined, and have then visited every
block once and counted what `eval` counts: all tuples. -/
structure HistogramsAgree (blocks : List Block) : Prop where
  inside : ∀ v ∈ allValues blocks, bucket v < histSize
  joined : ∀ ts s, Histogram1.pthreadE blocks ts = some s →
    ∃ ts' s', Histogram1.pthreadE blocks (ts ++ ts') = some s' ∧ s'.Complete
  visits : ∀ ts s, Histogram1.pthreadE blocks ts = some s → s.Complete →
    (s.visits.map Prod.snd).Perm (List.range blocks.length)
  counters : ∃ histogram, Histogram.eval blocks = some histogram ∧
    ((List.range histSize).map histogram).sum = (blocks.map Block.getSize).sum ∧
    ∀ ts s, Histogram1.pthreadE blocks ts = some s → s.Complete →
      ∀ b < histSize, s.shared b = histogram b

/-- How many of the values a bucket gets. -/
def load (b : ℕ) (vs : List ℕ) : ℕ := vs.countP fun v => bucket v = b

theorem bucket_lt_iff {v : ℕ} (hv : v < dataVolume) : bucket v < histSize ↔ v < 10000000 := by
  unfold dataVolume at hv
  unfold bucket histSize
  rw [Nat.mod_eq_of_lt (by omega)]
  omega

theorem load_cons (b v : ℕ) (vs : List ℕ) :
    load b (v :: vs) = load b [v] + load b vs := by
  unfold load
  rw [List.countP_cons, List.countP_singleton, Nat.add_comm]

theorem load_self (v : ℕ) : load (bucket v) [v] = 1 := by simp [load]

theorem load_of_ne {b v : ℕ} (h : b ≠ bucket v) : load b [v] = 0 := by simp [load, h.symm]

theorem load_perm {b : ℕ} {vs ws : List ℕ} (h : vs.Perm ws) : load b vs = load b ws := h.countP_eq _

/-- Together the buckets get all values. -/
theorem sum_load {vs : List ℕ} (hin : ∀ v ∈ vs, bucket v < histSize) :
    ((List.range histSize).map fun b => load b vs).sum = vs.length := by
  have hperm := (Buckets.perm_of_lt hin).length_eq
  rw [List.length_flatMap] at hperm
  rw [← hperm]
  apply congrArg List.sum
  apply List.map_congr_left
  intro b _
  exact List.countP_eq_length_filter

theorem length_allValues (blocks : List Block) :
    (allValues blocks).length = (blocks.map Block.getSize).sum := by
  unfold allValues
  rw [List.length_flatMap]
  simp

namespace Histogram

/-- The counters of the loop are the loads, and are no more than an `int` can be. -/
theorem increase_foldlM {vs : List ℕ} {h h' : ℕ → ℕ}
    (hf : vs.foldlM (fun h v => increase v h) h = some h') (b : ℕ) :
    h' b = h b + load b vs ∧ (h b < 2 ^ 31 → h' b < 2 ^ 31) := by
  induction vs generalizing h with
  | nil =>
    cases hf
    exact ⟨rfl, id⟩
  | cons v vs ih =>
    rw [List.foldlM_cons] at hf
    obtain ⟨h₁, h₁eq, hf⟩ := Option.bind_eq_some_iff.mp hf
    obtain ⟨⟨-, hroom⟩, hh⟩ := Option.ite_none_right_eq_some.mp h₁eq
    obtain ⟨heq, hlt⟩ := ih hf
    cases hh
    rw [load_cons]
    rcases eq_or_ne b (bucket v) with rfl | hne
    · rw [Function.update_self] at heq hlt
      rw [load_self]
      exact ⟨by omega, fun _ => hlt hroom⟩
    · rw [Function.update_of_ne hne] at heq hlt
      rw [load_of_ne hne]
      exact ⟨by omega, hlt⟩

/-- The loop is defined if all buckets exist and none gets too much. -/
theorem increase_foldlM_isSome {vs : List ℕ} {h : ℕ → ℕ} (hin : ∀ v ∈ vs, bucket v < histSize)
    (hroom : ∀ b < histSize, h b + load b vs < 2 ^ 31) :
    ∃ h', vs.foldlM (fun h v => increase v h) h = some h' := by
  induction vs generalizing h with
  | nil => exact ⟨h, rfl⟩
  | cons v vs ih =>
    have hv := hin v List.mem_cons_self
    have hself := hroom (bucket v) hv
    rw [load_cons, load_self] at hself
    rw [List.foldlM_cons, increase, if_pos ⟨hv, by omega⟩]
    apply ih fun w hw => hin w (List.mem_cons_of_mem v hw)
    intro b hb
    have hb' := hroom b hb
    rw [load_cons] at hb'
    rcases eq_or_ne b (bucket v) with rfl | hne
    · rw [Function.update_self]
      omega
    · rw [Function.update_of_ne hne]
      rw [load_of_ne hne] at hb'
      omega

end Histogram

namespace Histogram1

theorem increase_of_lt {v : ℕ} (h : bucket v < histSize) (t : Fin cpuCore) (hist : ℕ → ℕ) :
    increase t v hist =
      some (Function.update hist (bucket v) (Hist.increase (hist (bucket v)))) := by
  have hmod : bucket v % 2 ^ 32 = bucket v := by
    apply Nat.mod_eq_of_lt
    unfold histSize at h
    omega
  unfold increase
  rw [hmod]
  exact if_pos h

/-- The counters of the threads are the loads, in whichever order the values were met. -/
theorem increase_foldlM {l : List (Fin cpuCore × ℕ)} {h h' : ℕ → ℕ}
    (hin : ∀ p ∈ l, bucket p.2 < histSize)
    (hf : l.foldlM (fun h p => increase p.1 p.2 h) h = some h') {b : ℕ}
    (hroom : h b + load b (l.map Prod.snd) < 2 ^ 32) :
    h' b = h b + load b (l.map Prod.snd) := by
  induction l generalizing h with
  | nil =>
    cases hf
    rfl
  | cons p l ih =>
    rw [List.foldlM_cons, increase_of_lt (hin p List.mem_cons_self)] at hf
    have hrest := ih (fun q hq => hin q (List.mem_cons_of_mem p hq)) hf
    rw [List.map_cons, load_cons] at hroom
    rw [List.map_cons, load_cons]
    rcases eq_or_ne b (bucket p.2) with rfl | hne
    · rw [load_self] at *
      rw [Function.update_self, Hist.increase, Nat.mod_eq_of_lt (by omega)] at hrest
      rw [hrest (by omega)]
      omega
    · rw [load_of_ne hne] at *
      rw [Function.update_of_ne hne] at hrest
      rw [hrest (by omega)]
      omega

end Histogram1

/-- What the histograms need in order to agree. -/
structure Countable (blocks : List Block) : Prop where
  short : blocks.length ≤ 2 ^ 32 - cpuCore
  inside : ∀ v ∈ allValues blocks, bucket v < histSize
  load_lt : ∀ b < histSize, load b (allValues blocks) < 2 ^ 31

theorem Countable.eval {blocks : List Block} (h : Countable blocks) :
    ∃ histogram, Histogram.eval blocks = some histogram ∧
      ∀ b, histogram b = load b (allValues blocks) := by
  have hload : ∀ b < histSize, 0 + load b (allValues blocks) < 2 ^ 31 := by
    intro b hb
    rw [Nat.zero_add]
    exact h.load_lt b hb
  obtain ⟨histogram, hf⟩ :=
    Histogram.increase_foldlM_isSome (h := fun _ => 0) h.inside hload
  have hcore : cpuCore = 4 := rfl
  have hshort := h.short
  use histogram
  constructor
  · unfold Histogram.eval
    rwa [serial_eq (by omega)]
  · intro b
    rw [(Histogram.increase_foldlM hf b).1, Nat.zero_add]

/-- The threads are defined on their shares, and can be joined from anywhere. -/
theorem Countable.joined {blocks : List Block} (h : Countable blocks) {ts : List (Fin cpuCore)}
    {s : Threads (ℕ → ℕ)} (hr : Histogram1.pthreadE blocks ts = some s) :
    ∃ ts' s', Histogram1.pthreadE blocks (ts ++ ts') = some s' ∧ s'.Complete := by
  obtain ⟨ts', s', hr', hc⟩ := (Threads.inv_run h.short hr).completes h.short fun t v hv x => by
    rw [Histogram1.increase_of_lt (h.inside v (Pos.mem_allValues.mpr ⟨t, hv⟩))]
    rfl
  use ts', s'
  constructor
  · unfold Histogram1.pthreadE at *
    rw [run_append, hr]
    exact hr'
  · exact hc

theorem Countable.shared {blocks : List Block} (h : Countable blocks) {ts : List (Fin cpuCore)}
    {s : Threads (ℕ → ℕ)} (hr : Histogram1.pthreadE blocks ts = some s) (hc : s.Complete) {b : ℕ}
    (hb : b < histSize) : s.shared b = load b (allValues blocks) := by
  have hinv := Threads.inv_run h.short hr
  have hperm := hinv.read_perm hc
  have hin : ∀ p ∈ s.read, bucket p.2 < histSize := by
    intro p hp
    apply h.inside
    exact hperm.mem_iff.mp (List.mem_map_of_mem hp)
  have hlt := h.load_lt b hb
  rw [← load_perm hperm] at hlt
  have hcount := Histogram1.increase_foldlM hin hinv.shared (by omega : 0 + load b _ < 2 ^ 32)
  rw [hcount, Nat.zero_add]
  exact load_perm hperm

/-- For keys below `DATAVOLUME` the histograms agree exactly if the threads' indexes do not wrap
around, the keys are below 10000000 and no bucket gets more than an `int` can count. -/
theorem histogramsAgree_iff (blocks : List Block) (hkeys : ∀ v ∈ allValues blocks, v < dataVolume) :
    HistogramsAgree blocks ↔ blocks.length ≤ 2 ^ 32 - cpuCore ∧
      (∀ v ∈ allValues blocks, v < 10000000) ∧
      ∀ b < histSize, load b (allValues blocks) < 2 ^ 31 := by
  have hinside : (∀ v ∈ allValues blocks, bucket v < histSize) ↔
      ∀ v ∈ allValues blocks, v < 10000000 :=
    forall₂_congr fun v hv => bucket_lt_iff (hkeys v hv)
  rw [← hinside]
  constructor
  · intro h
    have hlen : blocks.length ≤ 2 ^ 32 - cpuCore := by
      by_contra hlong
      obtain ⟨ts, s, hr, hc⟩ := h.joined [] _ rfl
      exact Threads.not_complete (Nat.lt_of_not_le hlong) hr hc
    have hcore : cpuCore = 4 := rfl
    use hlen, h.inside
    intro b _
    obtain ⟨histogram, heval, -⟩ := h.counters
    unfold Histogram.eval at heval
    rw [serial_eq (by omega)] at heval
    obtain ⟨heq, hlt⟩ := Histogram.increase_foldlM heval b
    rw [Nat.zero_add] at heq
    rw [← heq]
    exact hlt (by decide)
  · rintro ⟨hlen, hin, hload⟩
    have h : Countable blocks := ⟨hlen, hin, hload⟩
    obtain ⟨histogram, heval, hcount⟩ := h.eval
    constructor
    · exact hin
    · exact fun ts s hr => h.joined hr
    · exact fun ts s hr hc => (Threads.inv_run hlen hr).visits_perm hc
    · use histogram, heval
      constructor
      · rw [funext hcount, sum_load hin, length_allValues]
      · intro ts s hr hc b hb
        rw [h.shared hr hc hb, hcount]

/-- A block of one tuple of two longs with the key `k`. -/
def keyBlock (k : ℕ) : Block :=
  (Block.make (writeAt (fun _ => 0) 8 (leBytes 8 k)) blockSize 16).build blockSize 1

theorem values_keyBlock {k : ℕ} (hk : k < 2 ^ 64) : (keyBlock k).values = [k] := by
  have hsize : (keyBlock k).getSize = 1 :=
    Block.getSize_build (b := Block.make _ blockSize 16) (by decide)
  have hvalue : (keyBlock k).valueAt (0 * (keyBlock k).tupleSize) = k := by
    change leValue (readAt (writeAt _ (blockSize - 4) _) (0 * 16 + 8) 8) = k
    rw [readAt_writeAt_before _ _ (by decide)]
    exact leValue_readAt_writeAt _ _ 8 k hk
  unfold Block.values
  rw [hsize]
  exact congrArg (fun v => [v]) hvalue

theorem allValues_keyBlock {k : ℕ} (hk : k < 2 ^ 64) : allValues [keyBlock k] = [k] := by
  simp [allValues, values_keyBlock hk]

/-- The key 7 is counted in bucket 0. -/
theorem histogramsAgree_small : HistogramsAgree [keyBlock 7] := by
  have hall : allValues [keyBlock 7] = [7] := allValues_keyBlock (by decide)
  have hseven {n : ℕ} (hn : 7 < n) (v : ℕ) (hv : v ∈ allValues [keyBlock 7]) : v < n := by
    rw [hall] at hv
    rwa [List.mem_singleton.mp hv]
  apply (histogramsAgree_iff [keyBlock 7] (hseven (by decide))).mpr
  use by decide, hseven (by decide)
  intro b _
  rw [hall]
  exact List.countP_le_length.trans_lt (by decide)

/-- The bucket of the last key below `DATAVOLUME` does not exist. -/
theorem not_histogramsAgree_large : ¬ HistogramsAgree [keyBlock 49999999] := by
  intro h
  have hmem : 49999999 ∈ allValues [keyBlock 49999999] := by
    rw [allValues_keyBlock (by decide)]
    exact List.mem_singleton_self _
  exact absurd (h.inside 49999999 hmem) (by decide)

end Mosito
