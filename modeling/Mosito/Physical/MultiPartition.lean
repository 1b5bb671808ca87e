import Mosito.Analysis.BlockThreads
import Mosito.Lib.SpinLock
import Mosito.Physical.ParallelSort
import Mathlib.Algebra.BigOperators.Fin
import Mathlib.Algebra.Order.BigOperators.Group.Finset

/-! The parallel sort with `MULTI_PARTITION`: the threads of the partition phase share the blocks
out and put their tuples into common ranges, each under a spin lock. -/
namespace Mosito
open ByteStore Runs Strided History

/-- The loop that creates the partition threads. They all are handed the one `argument` of its
body, which round `i` sets to `i` before it creates thread `i`, and from which a thread reads its
range when it starts. Behind the loop the memory keeps the last value until the threads are
joined. -/
structure PartitionLoop where
  filled : ℕ
  created : ℕ
  range : Fin cpuCore → Option ℕ

namespace PartitionLoop

inductive Event where
  | fill
  | create
  | read (u : Fin cpuCore)

def start : PartitionLoop := ⟨0, 0, fun _ => none⟩

def step (s : PartitionLoop) : Event → Option PartitionLoop
  | .fill => if s.filled = s.created ∧ s.filled < cpuCore then
      some { s with filled := s.filled + 1 } else none
  | .create => if s.created < s.filled then some { s with created := s.created + 1 } else none
  | .read u => if u.val < s.created ∧ s.range u = none then
      some { s with range := Function.update s.range u (some (s.filled - 1)) } else none

/-- No thread is there before its round, and none reads what an earlier round has set. -/
structure Inv (s : PartitionLoop) : Prop where
  created : s.created ≤ s.filled
  filled : s.filled ≤ cpuCore
  range : ∀ u r, s.range u = some r → u.val ≤ r ∧ r < cpuCore

theorem Inv.step {s s' : PartitionLoop} {e : Event} (h : s.Inv)
    (hs : PartitionLoop.step s e = some s') : s'.Inv := by
  obtain ⟨hcreated, hfilled, hrange⟩ := h
  cases e with
  | fill =>
    rw [PartitionLoop.step] at hs
    split_ifs at hs with hc
    cases hs
    exact ⟨Nat.le_succ_of_le hcreated, hc.2, hrange⟩
  | create =>
    rw [PartitionLoop.step] at hs
    split_ifs at hs with hc
    cases hs
    exact ⟨hc, hfilled, hrange⟩
  | read u =>
    rw [PartitionLoop.step] at hs
    split_ifs at hs with hc
    cases hs
    refine ⟨hcreated, hfilled, fun v r hr => ?_⟩
    dsimp only at hr
    by_cases hv : v = u
    · subst hv
      rw [Function.update_self] at hr
      cases hr
      omega
    · rw [Function.update_of_ne hv] at hr
      exact hrange v r hr

theorem inv_run {s : PartitionLoop} {es : List Event} (hrun : run step start es = some s) :
    s.Inv :=
  Runs.inv (fun _ _ _ h hs => h.step hs) hrun ⟨le_rfl, Nat.zero_le _, nofun⟩

end PartitionLoop

namespace PhysicalSort

/-- `ranges.push_back(tuple)`. -/
def pushBack (ranges : List Tuple) (tuple : Tuple) : List Tuple := ranges ++ [tuple]

section Calls
variable {blocks : List Block}

/-- What `f` makes of the blocks that the threads take, each from `range u` on. -/
def taken {α : Type} (blocks : List Block) (f : Block → List α) (range : Fin cpuCore → ℕ)
    (u : Fin cpuCore) : List α :=
  (indices blocks.length cpuCore (range u)).flatMap fun j => (blocks[j]?.map f).getD []

end Calls
section Partition
variable {junk : Memory} {t : ℕ} {child : List Image} {s : RangeThreads}

end Partition

/-- What calls up to the first false have stored. -/
theorem complete_of_calls {p p' : PhysicalSort} {ts : List Tuple} (hc : p.Counted)
    (hp : p.pending.Perm ts) (hsorted : p.pending.Pairwise fun x y => key x ≤ key y)
    (hroom : p.pending ≠ [] → p.bytes ≤ blockSize) {blocks : List Block}
    (hb : ∀ b ∈ blocks, Passed p.bytes b) {rets : List Bool} {out : List Tuple}
    (hcalls : calls blocks p = some (rets, out, p')) (hend : false ∈ rets) :
    out.Perm ts ∧ (out.map key).Pairwise (· ≤ ·) := by
  obtain ⟨rets', out', p'', hcalls', hsplit, -, -, hfalse, -⟩ := calls_pending hc hroom hb
  cases hcalls.symm.trans hcalls'
  rw [hsplit, hfalse hend, List.append_nil] at hp hsorted
  exact ⟨hp, List.pairwise_map.mpr hsorted⟩

section SortRanges
variable {stableSort : List Tuple → List Tuple} (hperm : ∀ l, (stableSort l).Perm l)
  (hsort : ∀ l, (stableSort l).Pairwise fun x y => key y ≤ key x)
include hperm hsort

end SortRanges

end PhysicalSort
end Mosito
