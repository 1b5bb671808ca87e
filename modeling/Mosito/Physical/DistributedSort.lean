import Mosito.Physical.Exchange
import Mosito.Physical.MultiPartition
import Mosito.Physical.RangePuts

/-! The distributed sort: the lowers send the tuples of their children through the range shuffle,
and each upper sorts what its end of the exchange passes on. -/
namespace Mosito
open ByteStore History Runs

namespace UpperHost

/-- The blocks that come out of `execute` with true. -/
def delivered (s : UpperHost) : List Image :=
  (s.returns.filter fun r => r.ret = true).map Delivery.block

theorem tuples_of_count {t : ℕ} {b : Image} (h : b.count = 0) : b.tuples t = [] :=
  List.length_eq_zero_iff.mp (by rw [Image.tuples_length, h])

/-- Blocks without tuples can be left out. -/
theorem flatMap_tuples_filter (t : ℕ) (rs : List Delivery) :
    (rs.filter fun r => r.block.count ≠ 0).flatMap (fun r => r.block.tuples t) =
      rs.flatMap fun r => r.block.tuples t := by
  induction rs with
  | nil => rfl
  | cons r rs ih =>
    rw [List.filter_cons, List.flatMap_cons]
    by_cases h : r.block.count = 0
    · rw [if_neg (by simpa using h), ih, tuples_of_count h, List.nil_append]
    · rw [if_pos (by simpa using h), List.flatMap_cons, ih]

/-- The tuples that come out are those that were passed on from all connections. -/
theorem Inv.delivered_perm {n : ℕ} {s : UpperHost} (h : s.Inv n) (t : ℕ) :
    (s.delivered.flatMap (Image.tuples t)).Perm
      ((List.range n).flatMap fun i => (s.upper.passed i).flatMap (Image.tuples t)) := by
  let rs := (s.returns.filter fun r => r.ret = true).filter fun r => r.block.count ≠ 0
  have hcolumns : ∀ r ∈ rs, r.column < n := fun r hr =>
    h.columns r (List.mem_filter.mp (List.mem_filter.mp hr).1).1
  have hpassed (i : ℕ) : s.upper.passed i = (rs.filter fun r => r.column = i).map Delivery.block := by
    rw [ShuffleUpper1.passed, List.filter_filter, List.filter_filter]
    congr 1
    apply List.filter_congr
    intro r _
    simp only [ne_eq, decide_not, Bool.decide_and]
    cases decide (r.column = i) <;> cases decide (r.ret = true) <;> simp
  have hflat : s.delivered.flatMap (Image.tuples t) = rs.flatMap fun r => r.block.tuples t := by
    rw [flatMap_tuples_filter, delivered, List.flatMap_map]
  have hbuckets := (Buckets.perm_of_lt hcolumns).symm.flatMap_right fun r => r.block.tuples t
  rw [hflat]
  refine hbuckets.trans (List.Perm.of_eq ?_)
  rw [List.flatMap_assoc]
  congr 1
  funext i
  rw [hpassed, List.flatMap_map]

theorem Inv.mem_delivered {n : ℕ} {s : UpperHost} (h : s.Inv n) {b : Image}
    (hb : b ∈ s.delivered) (hc : b.count ≠ 0) : ∃ i < n, b ∈ s.upper.passed i := by
  obtain ⟨r, hr, rfl⟩ := List.mem_map.mp hb
  obtain ⟨hr, hret⟩ := List.mem_filter.mp hr
  refine ⟨r.column, h.columns r hr, List.mem_map.mpr ⟨r, List.mem_filter.mpr ⟨hr, ?_⟩, rfl⟩⟩
  simpa using ⟨by simpa using hret, hc⟩

end UpperHost

namespace Exchange
open Image

/-- The tuples of blocks that end in front of the tag. -/
theorem flatMap_tuples_eq {t : ℕ} {as bs : List Image} (h : List.Forall₂ SameButTag as bs)
    (hfits : ∀ b ∈ as, b.count * t ≤ blockSize - 8) :
    bs.flatMap (Image.tuples t) = as.flatMap (Image.tuples t) := by
  induction h with
  | nil => rfl
  | cons hab _ ih =>
    obtain ⟨hb, hrest⟩ := List.forall_mem_cons.mp hfits
    rw [List.flatMap_cons, List.flatMap_cons, hab.tuples_eq hb, ih hrest]

/-- The puts of `execute` on lower `l`, whose child gives `children l`. -/
def rangePuts (n t exchangeId : ℕ) (junk : ℕ → Memory) (children : ℕ → List Image) (l : ℕ) :
    List (ℕ × Image) :=
  ShuffleLower1.puts (children l) (ShuffleLower1.make n t exchangeId (junk l))

/-- The children of all lowers, as the range shuffle needs them. -/
structure Workload (w : Wiring) (t exchangeId : ℕ) (children : ℕ → List Image) : Prop where
  uppers : w.uppers ∣ cpuCore
  exchange : exchangeId ≠ 10
  pos : 1 ≤ t
  room : t ≤ blockSize - 4
  tag : (blockSize - 4) / t * t ≤ blockSize - 8
  fits : ∀ l < w.lowers, ∀ img ∈ children l, img.Fits t
  keys : ∀ l < w.lowers, ∀ x ∈ (children l).flatMap (Image.tuples t), key x < dataVolume

section Range
variable {w : Wiring} {store : ℕ → ℕ → ℕ → Block} {junk : ℕ → Memory} {block : ℕ → Image}
  {t exchangeId : ℕ} {children : ℕ → List Image} {events : List Event} {s : Exchange} {u l : ℕ}

/-- The blocks that an upper passes on from a lower announce what fits in front of the tag. -/
theorem Workload.passed_count (h : Workload w t exchangeId children)
    (hinv : s.Inv w (rangePuts w.uppers t exchangeId junk children)) (hu : u < w.uppers)
    (hl : l < w.lowers) : ∀ b ∈ s.passed w u l, b.count ≤ (blockSize - 4) / t := by
  obtain ⟨blocks, hblocks, hrel⟩ := hinv.passed_sublist hu hl
  obtain ⟨-, hputs⟩ := ShuffleLower1.puts_routed h.uppers h.exchange h.pos h.room (h.fits l hl)
    (h.keys l hl) (junk l)
  obtain ⟨-, hcount, -⟩ := hputs u hu
  intro b hb
  obtain ⟨k, hk, rfl⟩ := List.mem_iff_getElem.mp hb
  have hlen := hrel.length_eq
  have hsame := hrel.get (hlen ▸ hk) hk
  simp only [List.get_eq_getElem] at hsame
  rw [hsame.count_eq]
  exact hcount _ (List.mem_filter.mp (hblocks.subset (List.getElem_mem _))).1

/-- An upper passes on tuples of its range only, each at most as often as the lower's child gave
it. -/
theorem Workload.passed_tuples (h : Workload w t exchangeId children)
    (hinv : s.Inv w (rangePuts w.uppers t exchangeId junk children)) (hu : u < w.uppers)
    (hl : l < w.lowers) :
    ((s.passed w u l).flatMap (Image.tuples t)).Subperm
      (((children l).flatMap (Image.tuples t)).filter fun x =>
        ShuffleLower1.destination w.uppers x = some u) := by
  obtain ⟨blocks, hblocks, hrel⟩ := hinv.passed_sublist hu hl
  obtain ⟨-, hputs⟩ := ShuffleLower1.puts_routed h.uppers h.exchange h.pos h.room (h.fits l hl)
    (h.keys l hl) (junk l)
  obtain ⟨-, hcount, hsub⟩ := hputs u hu
  have hmem : blocks.Sublist (part u (rangePuts w.uppers t exchangeId junk children l)) :=
    hblocks.trans List.filter_sublist
  rw [flatMap_tuples_eq hrel fun b hb =>
    (Nat.mul_le_mul_right t (hcount b (hmem.subset hb))).trans h.tag]
  exact (hmem.flatMap _).subperm.trans hsub

theorem flatMap_subperm {α β : Type} {f g : α → List β} {l : List α}
    (h : ∀ a ∈ l, (f a).Subperm (g a)) : (l.flatMap f).Subperm (l.flatMap g) := by
  induction l with
  | nil => exact List.Subperm.refl _
  | cons a l ih =>
    obtain ⟨ha, hl⟩ := List.forall_mem_cons.mp h
    exact ha.append (ih hl)

/-- What comes out of `execute` of an upper are tuples of its range from all lowers. -/
theorem Workload.delivered_tuples (h : Workload w t exchangeId children)
    (hinv : s.Inv w (rangePuts w.uppers t exchangeId junk children)) (hu : u < w.uppers) :
    ((s.upper u).delivered.flatMap (Image.tuples t)).Subperm
      (((List.range w.lowers).flatMap fun l => (children l).flatMap (Image.tuples t)).filter
        fun x => ShuffleLower1.destination w.uppers x = some u) := by
  have hslots := (w.slots_perm u).symm.flatMap_right fun i =>
    ((s.upper u).upper.passed i).flatMap (Image.tuples t)
  rw [List.flatMap_map] at hslots
  rw [List.filter_flatMap]
  refine (((hinv.upper u hu).delivered_perm t).trans hslots).subperm.trans ?_
  exact flatMap_subperm fun l hl => h.passed_tuples hinv hu (List.mem_range.mp hl)

theorem Workload.delivered_fits (h : Workload w t exchangeId children)
    (hinv : s.Inv w (rangePuts w.uppers t exchangeId junk children)) (hu : u < w.uppers) :
    ∀ b ∈ (s.upper u).delivered, b.Fits t := by
  intro b hb
  by_cases hc : b.count = 0
  · rw [Image.Fits, hc, Nat.zero_mul]
    exact Nat.zero_le _
  · obtain ⟨i, hi, hmem⟩ := (hinv.upper u hu).mem_delivered hb hc
    have hslot := (w.slots_perm u).mem_iff.mpr (List.mem_range.mpr hi)
    obtain ⟨l, hl, rfl⟩ := List.mem_map.mp hslot
    have hcount := h.passed_count hinv hu (List.mem_range.mp hl) b hmem
    calc b.count * t ≤ (blockSize - 4) / t * t := Nat.mul_le_mul_right t hcount
      _ ≤ blockSize - 4 := Nat.div_mul_le_self _ _
      _ ≤ blockSize := Nat.sub_le _ _

end Range

section Sorting
variable {α : Type} [DecidableEq α] {U V : List α}

/-- The destination of a tuple is the one for its key. -/
theorem destination_eq {n : ℕ} (hpos : 1 ≤ n) (hn : n ∣ cpuCore) (x : Tuple) :
    ShuffleLower1.destination n x = ShuffleLower1.sendTo n (key x) := by
  have hne : cpuCore / n ≠ 0 := (Nat.div_pos (Nat.le_of_dvd (by decide) hn) hpos).ne'
  rw [ShuffleLower1.destination, ShuffleLower1.sendTo, partition]
  cases firstAbove (key x) ranges2 with
  | none => rfl
  | some r => rw [Option.map_some, Option.bind_some, if_neg hne]

/-- A key that the sort accepts is below the last of its bounds. -/
theorem lt_last_of_accepts {ip : α} {k : ℕ} (h : PhysicalSort.Accepts V ip k) :
    ∃ dist, PhysicalSort.distRanges V ip = some dist ∧ k < dist.getLastD 0 := by
  obtain ⟨hint, hk⟩ := accepts_iff.mp h
  refine ⟨_, distRanges_eq hint, ?_⟩
  have hlast : 4 * dataVolume / (V.length * cpuCore) = dataVolume / V.length := by
    rw [Nat.mul_comm V.length]
    exact Nat.mul_div_mul_left _ _ (by decide)
  change k < PhysicalSort.th V ip * dataVolume / V.length +
    (3 + 1) * dataVolume / (V.length * cpuCore)
  rw [hlast]
  exact hk

variable {w : Wiring} {store : ℕ → ℕ → ℕ → Block} {junk : ℕ → Memory} {block : ℕ → Image}
  {t exchangeId : ℕ} {children : ℕ → List Image} {events : List Event} {s : Exchange}
  {stableSort : List Tuple → List Tuple}

/-- All tuples that the children of the lowers give. -/
def allTuples (w : Wiring) (t : ℕ) (children : ℕ → List Image) : List Tuple :=
  (List.range w.lowers).flatMap fun l => (children l).flatMap (Image.tuples t)

theorem Workload.key_lt (h : Workload w t exchangeId children) {x : Tuple}
    (hx : x ∈ allTuples w t children) : key x < dataVolume := by
  obtain ⟨l, hl, hx⟩ := List.mem_flatMap.mp hx
  exact h.keys l (List.mem_range.mp hl) x hx

/-- The sort of an upper, and what its calls of `execute` store. -/
theorem Workload.sorted (h : Workload w t exchangeId children) (hw : w.uppers = U.length)
    (hagree : RangesAgree U V)
    (hinv : s.Inv w (rangePuts w.uppers t exchangeId junk children))
    (hperm : ∀ l, (stableSort l).Perm l)
    (hsort : ∀ l, (stableSort l).Pairwise fun x y => key y ≤ key x) (sortJunk : Memory)
    {u : ℕ} (hu : u < U.length) :
    ∃ p, PhysicalSort.prelude stableSort V (U.get ⟨u, hu⟩) sortJunk t (s.upper u).delivered = some p ∧
      ∀ blocks rets out q, (∀ b ∈ blocks, PhysicalSort.Passed t b) →
        PhysicalSort.calls blocks p = some (rets, out, q) → false ∈ rets →
        (out.map key).Pairwise (· ≤ ·) ∧
          out.Perm ((s.upper u).delivered.flatMap (Image.tuples t)) := by
  have hu' : u < w.uppers := hw ▸ hu
  have hsub := h.delivered_tuples hinv hu'
  have haccepts (k : ℕ) (hk : k < dataVolume) (hd : ShuffleLower1.sendTo U.length k = some u) :
      PhysicalSort.Accepts V (U.get ⟨u, hu⟩) k := by
    obtain ⟨d, hlt, hsend, hacc⟩ := hagree.1 k hk
    cases hd.symm.trans hsend
    exact hacc
  -- the first key of the range gives the bounds
  have hn : U.length ∣ cpuCore := hw ▸ h.uppers
  have hfirst : u * (dataVolume / U.length) < dataVolume := by
    have hle := dest_le_dataVolume hn hu
    have hpos := dest_pos (Nat.zero_lt_of_lt hu) hn
    rw [Nat.succ_mul] at hle
    omega
  have hsend : ShuffleLower1.sendTo U.length (u * (dataVolume / U.length)) = some u := by
    rw [sendTo_eq hn hfirst, Nat.mul_div_cancel _ (dest_pos (Nat.zero_lt_of_lt hu) hn)]
  obtain ⟨dist, hdist, -⟩ := lt_last_of_accepts (haccepts _ hfirst hsend)
  have hkeys : ∀ x ∈ (s.upper u).delivered.flatMap (Image.tuples t), key x < dist.getLastD 0 := by
    intro x hx
    obtain ⟨hmem, hd⟩ := List.mem_filter.mp (hsub.subset hx)
    rw [decide_eq_true_eq, destination_eq w.uppers_pos h.uppers, hw] at hd
    obtain ⟨dist', hdist', hlt⟩ := lt_last_of_accepts (haccepts _ (h.key_lt hmem) hd)
    cases hdist.symm.trans hdist'
    exact hlt
  obtain ⟨p, hp, hc, hbytes, hpend, hsorted⟩ := PhysicalSort.sortPhase_pending hperm hsort
    (PhysicalSort.distRanges_length hdist) sortJunk (h.delivered_fits hinv hu') hkeys
  refine ⟨p, by rw [PhysicalSort.prelude, hdist]; exact hp, ?_⟩
  intro blocks rets out q hb hcalls hend
  have hroom : p.pending ≠ [] → p.bytes ≤ blockSize := fun _ => by
    rw [hbytes]
    exact h.room.trans (Nat.sub_le _ _)
  obtain ⟨hout, hkeys'⟩ :=
    PhysicalSort.complete_of_calls hc hpend hsorted hroom (hbytes ▸ hb) hcalls hend
  exact ⟨hkeys', hout⟩

end Sorting

end Exchange
end Mosito
