import Mosito.Analysis.Histogram
import Mosito.Lib.Assignment

/-! The bounds of the keys, found by one loop and by `CPU_CORE` threads that keep bounds of their
own. -/
namespace Mosito
open Runs Strided Assignment History

namespace Histogram

/-- The body of the loop on `start` and `end`. -/
def widen (value : ℕ) (bounds : ℕ × ℕ) : ℕ × ℕ :=
  (if value < bounds.1 then value else bounds.1, if value > bounds.2 then value else bounds.2)

/-- `start` and `end` after the call. -/
def getbound (blocks : List Block) (bounds : ℕ × ℕ) : Option (ℕ × ℕ) :=
  serial (fun v x => some (widen v x)) blocks bounds

end Histogram

namespace Histogram1

/-- `start_` and `end_`, the bounds of each thread. -/
structure Bounds where
  start : Fin cpuCore → ℕ
  stop : Fin cpuCore → ℕ

/-- The body of the loop of thread `t`. -/
def widen (t : Fin cpuCore) (value : ℕ) (x : Bounds) : Bounds where
  start := if value < x.start t then Function.update x.start t value else x.start
  stop := if value > x.stop t then Function.update x.stop t value else x.stop

/-- The threads of `getbound` from their start on; `junk` are the bounds that nothing has set. -/
def bound (blocks : List Block) (junk : Bounds) (ts : List (Fin cpuCore)) :
    Option (Threads Bounds) :=
  run (Threads.step (fun t v x => some (widen t v x)) blocks) (.create junk) ts

/-- What `getbound` does once the threads are joined: it prints the bounds of thread 0. -/
structure Joined where
  bounds : ℕ × ℕ
  printed : ℕ × ℕ

/-- `start` and `end` are those of the caller. -/
def getbound (s : Threads Bounds) (bounds : ℕ × ℕ) : Joined where
  bounds := bounds
  printed := (s.shared.start Threads.first, s.shared.stop Threads.first)

/-- The bounds that the threads make of `x`. -/
def partials (x : Bounds) (work : Fin cpuCore → List ℕ) : Bounds where
  start t := (work t).foldl min (x.start t)
  stop t := (work t).foldl max (x.stop t)

end Histogram1

/-- Both calls return, with the least and the largest of the caller's bounds and all keys. -/
structure BoundsAgree (blocks : List Block) (start stop : ℕ) : Prop where
  serial : Histogram.getbound blocks (start, stop) =
    some ((allValues blocks).foldl min start, (allValues blocks).foldl max stop)
  joined : ∀ junk ts s, Histogram1.bound blocks junk ts = some s →
    ∃ ts' s', Histogram1.bound blocks junk (ts ++ ts') = some s' ∧ s'.Complete
  agree : ∀ junk ts s, Histogram1.bound blocks junk ts = some s → s.Complete →
    Histogram.getbound blocks (start, stop) = some (Histogram1.getbound s (start, stop)).bounds

theorem Histogram.widen_eq (v : ℕ) (x : ℕ × ℕ) : widen v x = (min x.1 v, max x.2 v) := by
  unfold widen
  congr 1
  · rw [min_comm, min_def_lt]
  · rw [max_def_lt]

theorem Histogram.widen_foldlM (vs : List ℕ) (x : ℕ × ℕ) :
    vs.foldlM (fun x v => some (widen v x)) x = some (vs.foldl min x.1, vs.foldl max x.2) := by
  induction vs generalizing x with
  | nil => rfl
  | cons v vs ih =>
    rw [List.foldlM_cons, List.foldl_cons, List.foldl_cons]
    change vs.foldlM _ (widen v x) = _
    rw [ih, widen_eq]

namespace Histogram1

theorem widen_eq (t : Fin cpuCore) (v : ℕ) (x : Bounds) :
    widen t v x = ⟨Function.update x.start t (min (x.start t) v),
      Function.update x.stop t (max (x.stop t) v)⟩ := by
  unfold widen
  congr 1
  · split_ifs with hlt
    · rw [min_eq_right hlt.le]
    · rw [min_eq_left (not_lt.mp hlt), Function.update_eq_self]
  · split_ifs with hlt
    · rw [max_eq_right hlt.le]
    · rw [max_eq_left (not_lt.mp hlt), Function.update_eq_self]

/-- Each thread's bounds are made of its own values only. -/
theorem widen_foldlM (l : List (Fin cpuCore × ℕ)) (x : Bounds) :
    l.foldlM (fun x p => some (widen p.1 p.2 x)) x = some (partials x fun t => part t l) := by
  induction l generalizing x with
  | nil => rfl
  | cons p l ih =>
    obtain ⟨t, v⟩ := p
    rw [List.foldlM_cons]
    change l.foldlM _ (widen t v x) = _
    rw [ih, widen_eq]
    unfold partials
    congr 2
    · funext u
      exact (foldl_part_cons min x.start t u v l).symm
    · funext u
      exact (foldl_part_cons max x.stop t u v l).symm

section Threads
variable {blocks : List Block} {junk : Bounds} {ts : List (Fin cpuCore)} {s : Threads Bounds}

/-- When they are joined, the threads have the bounds of their shares. -/
theorem bound_shared (hlen : blocks.length ≤ 2 ^ 32 - cpuCore)
    (hr : bound blocks junk ts = some s) (hc : s.Complete) :
    s.shared = partials junk fun t => Pos.work blocks t := by
  have hinv := Threads.inv_run hlen hr
  have hshared := hinv.shared
  rw [widen_foldlM, funext (hinv.part_read hc)] at hshared
  exact (Option.some.inj hshared).symm

/-- Had they started with the caller's bounds, the least and the largest of the threads' bounds
would be those of all keys. -/
theorem combine_partials (blocks : List Block) (start stop : ℕ) :
    let x := partials ⟨fun _ => start, fun _ => stop⟩ fun t => Pos.work blocks t
    ((List.finRange cpuCore).map x.start).foldl min start = (allValues blocks).foldl min start ∧
      ((List.finRange cpuCore).map x.stop).foldl max stop =
        (allValues blocks).foldl max stop := by
  constructor
  · apply eq_of_forall_le_iff
    intro c
    simp only [le_foldl_min, List.forall_mem_map, partials, Pos.mem_allValues]
    constructor
    · rintro ⟨hstart, hall⟩
      exact ⟨hstart, fun v ⟨t, hv⟩ => (hall t (List.mem_finRange t)).2 v hv⟩
    · rintro ⟨hstart, hall⟩
      exact ⟨hstart, fun t _ => ⟨hstart, fun v hv => hall v ⟨t, hv⟩⟩⟩
  · apply eq_of_forall_ge_iff
    intro c
    simp only [foldl_max_le, List.forall_mem_map, partials, Pos.mem_allValues]
    constructor
    · rintro ⟨hstop, hall⟩
      exact ⟨hstop, fun v ⟨t, hv⟩ => (hall t (List.mem_finRange t)).2 v hv⟩
    · rintro ⟨hstop, hall⟩
      exact ⟨hstop, fun t _ => ⟨hstop, fun v hv => hall v ⟨t, hv⟩⟩⟩

/-- The threads can be joined from anywhere. -/
theorem bound_joined (hlen : blocks.length ≤ 2 ^ 32 - cpuCore)
    (hr : bound blocks junk ts = some s) :
    ∃ ts' s', bound blocks junk (ts ++ ts') = some s' ∧ s'.Complete := by
  obtain ⟨ts', s', hr', hc⟩ := (Threads.inv_run hlen hr).completes hlen fun _ _ _ _ => rfl
  use ts', s'
  unfold bound at *
  rw [run_append, hr]
  exact ⟨hr', hc⟩

end Threads
end Histogram1

/-- The bounds agree exactly if the threads' indexes do not wrap around and all keys are between
the bounds of the caller. -/
theorem boundsAgree_iff (blocks : List Block) (start stop : ℕ) :
    BoundsAgree blocks start stop ↔ blocks.length ≤ 2 ^ 32 - cpuCore ∧
      ∀ v ∈ allValues blocks, start ≤ v ∧ v ≤ stop := by
  have hserial (hlen : blocks.length ≤ 2 ^ 32 - cpuCore) : Histogram.getbound blocks (start, stop) =
      some ((allValues blocks).foldl min start, (allValues blocks).foldl max stop) := by
    have hcore : cpuCore = 4 := rfl
    unfold Histogram.getbound
    rw [serial_eq (by omega)]
    exact Histogram.widen_foldlM _ _
  constructor
  · intro h
    let junk : Histogram1.Bounds := ⟨fun _ => 0, fun _ => 0⟩
    obtain ⟨ts, s, hr, hc⟩ := h.joined junk [] _ rfl
    have hlen : blocks.length ≤ 2 ^ 32 - cpuCore := by
      by_contra hlong
      exact Threads.not_complete (Nat.lt_of_not_le hlong) hr hc
    have heq := h.agree junk ts s hr hc
    rw [hserial hlen] at heq
    obtain ⟨hmin, hmax⟩ := Prod.mk.inj (Option.some.inj heq)
    use hlen
    exact fun v hv => ⟨foldl_min_eq_self.mp hmin v hv, foldl_max_eq_self.mp hmax v hv⟩
  · rintro ⟨hlen, hall⟩
    constructor
    · exact hserial hlen
    · exact fun junk ts s hr => Histogram1.bound_joined hlen hr
    · intro junk ts s hr hc
      have hmin := foldl_min_eq_self.mpr fun v hv => (hall v hv).1
      have hmax := foldl_max_eq_self.mpr fun v hv => (hall v hv).2
      rw [hserial hlen, hmin, hmax]
      rfl

/-- From the bounds 0 and 0 the largest key is found by the loop only. -/
theorem not_boundsAgree_zero : ¬ BoundsAgree [keyBlock 7] 0 0 := by
  rw [boundsAgree_iff]
  rintro ⟨-, hall⟩
  have hmem : 7 ∈ allValues [keyBlock 7] := by
    rw [allValues_keyBlock (by decide)]
    exact List.mem_singleton_self 7
  exact absurd (hall 7 hmem).2 (by decide)

end Mosito
