import Mosito.Physical.ShuffleLower1

/-! The key ranges of a range shuffle are computed twice: by the lowers, which choose a
destination from the list of uppers, and by the sort on each upper, which splits its keys
with its position in the list of lowers. -/
namespace Mosito
variable {α : Type} [DecidableEq α]

namespace ShuffleLower1

/-- `partition(tuple, ranges_2_)/mul` for a tuple with the key `k`, where `mul` is `CPU_CORE`
divided by the number of uppers; `none` for a division by zero. -/
def sendTo (uppers k : ℕ) : Option ℕ :=
  (firstAbove k ranges2).bind fun r =>
    if cpuCore / uppers = 0 then none else some (r / (cpuCore / uppers))

end ShuffleLower1

namespace PhysicalSort

/-- The position of the host `ip` in the list of lowers, 0 if it is not there. -/
def th (lowers : List α) (ip : α) : ℕ := (lowers.findIdx? fun h => h = ip).getD 0

/-- `INT_MAX`. -/
def intMax : ℕ := 2 ^ 31 - 1

/-- The bound of range `i`; `none` when the `int` product `th*DATAVOLUME` overflows. -/
def distRange (th lowers i : ℕ) : Option ℕ :=
  if th * dataVolume ≤ intMax then
    some (th * dataVolume / lowers + (i + 1) * dataVolume / (lowers * cpuCore))
  else none

/-- `dist_ranges_` on the host `ip`. -/
def distRanges (lowers : List α) (ip : α) : Option (List ℕ) :=
  (List.range cpuCore).mapM fun i => distRange (th lowers ip) lowers.length i

/-- `none` when the source falls off the end without a return. -/
def compareStartEnd (distRanges : List ℕ) (value : ℕ) : Option ℕ := firstAbove value distRanges

/-- The sort on the host `ip` finds a range for the key. -/
def Accepts (lowers : List α) (ip : α) (k : ℕ) : Prop :=
  ∃ ranges i, distRanges lowers ip = some ranges ∧ compareStartEnd ranges k = some i ∧ i < cpuCore

end PhysicalSort

open ShuffleLower1 PhysicalSort

/-- Every key has a destination, smaller destinations have smaller keys, and the sort on the
destination accepts the key. -/
def RangesAgree (U V : List α) : Prop :=
  (∀ k < dataVolume, ∃ d, ∃ h : d < U.length, sendTo U.length k = some d ∧
    Accepts V (U.get ⟨d, h⟩) k) ∧
  ∀ k < dataVolume, ∀ k' < dataVolume, ∀ d d', sendTo U.length k = some d →
    sendTo U.length k' = some d' → d < d' → k < k'

/-- The number of keys of one range. -/
def quarter : ℕ := 12500000

theorem firstAbove_ranges2 {k : ℕ} (hk : k < dataVolume) :
    firstAbove k ranges2 = some (k / quarter) := by
  have hr : ranges2 = [12500000, 25000000, 37500000, 50000000] := by decide
  have hk' : k < 50000000 := hk
  rw [firstAbove, hr]
  simp only [List.findIdx?_cons, quarter]
  split_ifs with h1 h2 h3 h4 <;> simp at * <;> omega

theorem firstAbove_isSome {k : ℕ} {bounds : List ℕ} {b : ℕ} (hb : b ∈ bounds) (hk : k < b) :
    ∃ i < bounds.length, firstAbove k bounds = some i := by
  have hs : (firstAbove k bounds).isSome := by
    rw [firstAbove, List.findIdx?_isSome, List.any_eq_true]
    exact ⟨b, hb, by simpa using hk⟩
  obtain ⟨i, hi⟩ := Option.isSome_iff_exists.mp hs
  exact ⟨i, (List.findIdx?_eq_some_iff_getElem.mp hi).1, hi⟩

theorem th_lt {V : List α} (hV : V ≠ []) (ip : α) : th V ip < V.length := by
  have hpos := List.length_pos_iff.mpr hV
  unfold th
  cases h : V.findIdx? fun x => x = ip with
  | none => simpa using hpos
  | some i => exact (List.findIdx?_eq_some_iff_getElem.mp h).1

theorem distRanges_eq {V : List α} {ip : α} (h : th V ip * dataVolume ≤ intMax) :
    distRanges V ip = some ((List.range cpuCore).map fun i =>
      th V ip * dataVolume / V.length + (i + 1) * dataVolume / (V.length * cpuCore)) := by
  have hf : (fun i => distRange (th V ip) V.length i) = fun i =>
      some (th V ip * dataVolume / V.length + (i + 1) * dataVolume / (V.length * cpuCore)) := by
    funext i
    rw [distRange, if_pos h]
  rw [distRanges, hf]
  rfl

theorem distRanges_eq_none {V : List α} {ip : α} (h : ¬ th V ip * dataVolume ≤ intMax) :
    distRanges V ip = none := by
  have hf : (fun i => distRange (th V ip) V.length i) = fun _ => none := by
    funext i
    rw [distRange, if_neg h]
  rw [distRanges, hf]
  rfl

/-- The last bound of a host is the largest one. -/
theorem accepts_iff {V : List α} {ip : α} {k : ℕ} :
    Accepts V ip k ↔ th V ip * dataVolume ≤ intMax ∧
      k < th V ip * dataVolume / V.length + dataVolume / V.length := by
  by_cases h : th V ip * dataVolume ≤ intMax
  · have hlast : 4 * dataVolume / (V.length * cpuCore) = dataVolume / V.length := by
      rw [Nat.mul_comm V.length]
      exact Nat.mul_div_mul_left _ _ (by decide)
    simp only [Accepts, distRanges_eq h, compareStartEnd, Option.some.injEq, h, true_and]
    constructor
    · rintro ⟨_, i, rfl, hi, -⟩
      obtain ⟨hlt, hk, -⟩ := List.findIdx?_eq_some_iff_getElem.mp hi
      simp only [List.length_map, List.length_range, List.getElem_map, List.getElem_range,
        decide_eq_true_eq] at hlt hk
      have hle : (i + 1) * dataVolume / (V.length * cpuCore) ≤
          4 * dataVolume / (V.length * cpuCore) :=
        Nat.div_le_div_right (Nat.mul_le_mul_right _ (by have : cpuCore = 4 := rfl; omega))
      omega
    · intro hk
      have hmem : th V ip * dataVolume / V.length + (3 + 1) * dataVolume / (V.length * cpuCore) ∈
          (List.range cpuCore).map fun i =>
            th V ip * dataVolume / V.length + (i + 1) * dataVolume / (V.length * cpuCore) :=
        List.mem_map.mpr ⟨3, by decide, rfl⟩
      obtain ⟨i, hi, hfirst⟩ := firstAbove_isSome hmem (hlast.symm ▸ hk)
      exact ⟨_, i, rfl, hfirst, by simpa using hi⟩
  · simp [Accepts, distRanges_eq_none h, h]

/-- The keys of a destination are those of `CPU_CORE` divided by the number of uppers ranges. -/
theorem sendTo_eq {n k : ℕ} (hn : n ∣ cpuCore) (hk : k < dataVolume) :
    sendTo n k = some (k / (dataVolume / n)) := by
  have hpos : 0 < cpuCore / n :=
    Nat.div_pos (Nat.le_of_dvd (by decide) hn) (Nat.pos_of_dvd_of_pos hn (by decide))
  have hmul : quarter * (cpuCore / n) = dataVolume / n := by
    rw [show dataVolume = quarter * cpuCore from rfl, Nat.mul_div_assoc _ hn]
  rw [sendTo, firstAbove_ranges2 hk, Option.bind_some, if_neg hpos.ne', Nat.div_div_eq_div_mul, hmul]

/-- A last key with a valid destination leaves one, two or four uppers. -/
theorem dvd_of_sendTo {n d : ℕ} (h : sendTo n (dataVolume - 1) = some d) (hd : d < n) :
    n ∣ cpuCore := by
  rw [sendTo, firstAbove_ranges2 (by decide), Option.bind_some] at h
  split at h
  · cases h
  · next hne =>
    have hle : n ≤ cpuCore := by
      by_contra hlt
      exact hne (Nat.div_eq_of_lt (by omega))
    have hd3 : d = 3 / (cpuCore / n) := (Option.some.inj h).symm
    have h4 : cpuCore = 4 := rfl
    rw [h4] at hle hd3 ⊢
    interval_cases n <;> simp_all

section Arithmetic
variable {th v : ℕ}

/-- The ranges of the last host reach the last key only without a rounding error. -/
theorem covers_last {N : ℕ} (hth : th < v) (h : N ≤ th * N / v + N / v) (hN : 0 < N) :
    v ∣ N ∧ th + 1 = v := by
  have h1 : v * (th * N / v) ≤ th * N := Nat.mul_div_le _ _
  have h2 : v * (N / v) ≤ N := Nat.mul_div_le _ _
  have h3 : v * N ≤ v * (th * N / v) + v * (N / v) := by
    rw [← Nat.mul_add]
    exact Nat.mul_le_mul_left _ h
  have h4 : (th + 1) * N ≤ v * N := Nat.mul_le_mul_right _ hth
  rw [Nat.succ_mul] at h4
  refine ⟨⟨N / v, by omega⟩, ?_⟩
  exact Nat.eq_of_mul_eq_mul_right hN (by rw [Nat.succ_mul]; omega)

theorem last_bound {N : ℕ} (hv : v ∣ N) : th * N / v + N / v = (th + 1) * (N / v) := by
  rw [Nat.mul_div_assoc _ hv, Nat.succ_mul]

theorem ranges_le_iff {n d N : ℕ} (hn : n ∣ N) (hv : v ∣ N) (hN : 0 < N) :
    (d + 1) * (N / n) ≤ (th + 1) * (N / v) ↔ (d + 1) * v ≤ (th + 1) * n := by
  have hna := Nat.div_mul_cancel hn
  have hvb := Nat.div_mul_cancel hv
  have hpos : 0 < n * v :=
    Nat.mul_pos (Nat.pos_of_dvd_of_pos hn hN) (Nat.pos_of_dvd_of_pos hv hN)
  have hleft : (d + 1) * (N / n) * (n * v) = (d + 1) * v * N := by
    calc (d + 1) * (N / n) * (n * v) = (d + 1) * v * (N / n * n) := by ring
      _ = (d + 1) * v * N := by rw [hna]
  have hright : (th + 1) * (N / v) * (n * v) = (th + 1) * n * N := by
    calc (th + 1) * (N / v) * (n * v) = (th + 1) * n * (N / v * v) := by ring
      _ = (th + 1) * n * N := by rw [hvb]
  rw [← Nat.mul_le_mul_right_iff hpos, hleft, hright, Nat.mul_le_mul_right_iff hN]

end Arithmetic

/-- The keys of the destinations end with the last key. -/
theorem dest_le_dataVolume {n d : ℕ} (hn : n ∣ cpuCore) (hd : d < n) :
    (d + 1) * (dataVolume / n) ≤ dataVolume := by
  calc (d + 1) * (dataVolume / n) ≤ n * (dataVolume / n) := Nat.mul_le_mul_right _ hd
    _ = dataVolume := Nat.mul_div_cancel' (hn.trans (by decide))

theorem dest_pos {n : ℕ} (hpos : 0 < n) (hn : n ∣ cpuCore) : 0 < dataVolume / n :=
  Nat.div_pos (Nat.le_of_dvd (by decide) (hn.trans (by decide))) hpos

section Served
variable {U V : List α}

variable (hall : ∀ k < dataVolume, ∃ d, ∃ h : d < U.length,
  sendTo U.length k = some d ∧ Accepts V (U.get ⟨d, h⟩) k)
include hall

theorem uppers_dvd : U.length ∣ cpuCore := by
  obtain ⟨d, hd, hsend, -⟩ := hall (dataVolume - 1) (by decide)
  exact dvd_of_sendTo hsend hd

/-- The last key decides on the number of lowers. -/
theorem lowers_dvd (hV : V ≠ []) : V.length ∣ dataVolume ∧ V.length ≤ 43 := by
  obtain ⟨d, hd, -, hacc⟩ := hall (dataVolume - 1) (by decide)
  obtain ⟨hint, hlast⟩ := accepts_iff.mp hacc
  have hcover : dataVolume ≤
      th V (U.get ⟨d, hd⟩) * dataVolume / V.length + dataVolume / V.length := by omega
  obtain ⟨hv, hth⟩ := covers_last (th_lt hV _) hcover (by decide)
  constructor
  · exact hv
  · by_contra hgt
    have hlarge : 43 * dataVolume ≤ th V (U.get ⟨d, hd⟩) * dataVolume :=
      Nat.mul_le_mul_right _ (by omega)
    have hint' : ¬ 43 * dataVolume ≤ intMax := by decide
    omega

/-- The largest key of a destination decides on the destination's place among the lowers. -/
theorem place_late (hV : V ≠ []) {d : ℕ} (h : d < U.length) :
    (d + 1) * V.length ≤ (th V (U.get ⟨d, h⟩) + 1) * U.length := by
  have hn := uppers_dvd hall
  have hv := (lowers_dvd hall hV).1
  have hle := dest_le_dataVolume hn h
  have hq : 0 < dataVolume / U.length := dest_pos (Nat.zero_lt_of_lt h) hn
  have hpos : 0 < (d + 1) * (dataVolume / U.length) := Nat.mul_pos (Nat.succ_pos d) hq
  obtain ⟨d', hd', hsend, hacc⟩ := hall ((d + 1) * (dataVolume / U.length) - 1) (by omega)
  rw [sendTo_eq hn (by omega), Option.some.injEq] at hsend
  have hde : d' = d := by
    rw [← hsend, Nat.succ_mul]
    apply Nat.div_eq_of_lt_le
    · omega
    · rw [Nat.succ_mul]
      omega
  subst hde
  have hk := (accepts_iff.mp hacc).2
  rw [last_bound hv] at hk
  exact (ranges_le_iff (hn.trans (by decide)) hv (by decide)).mp (by omega)

end Served

/-- Enough for the two computations to agree. -/
theorem rangesAgree_of {U V : List α} (hU : U ≠ []) (hV : V ≠ []) (hn : U.length ∣ cpuCore)
    (hv : V.length ∣ dataVolume) (h43 : V.length ≤ 43)
    (hall : ∀ d, ∀ h : d < U.length,
      (d + 1) * V.length ≤ (th V (U.get ⟨d, h⟩) + 1) * U.length) : RangesAgree U V := by
  have hnv : U.length ∣ dataVolume := hn.trans (by decide)
  refine ⟨fun k hk => ?_, fun k hk k' hk' d d' hd hd' hlt => ?_⟩
  · have hd : k / (dataVolume / U.length) < U.length := by
      apply Nat.div_lt_of_lt_mul
      rwa [Nat.div_mul_cancel hnv]
    refine ⟨_, hd, sendTo_eq hn hk, accepts_iff.mpr ⟨?_, ?_⟩⟩
    · have hth := th_lt hV (U.get ⟨k / (dataVolume / U.length), hd⟩)
      calc th V _ * dataVolume ≤ 42 * dataVolume := Nat.mul_le_mul_right _ (by omega)
        _ ≤ intMax := by decide
    · rw [last_bound hv]
      calc k < (k / (dataVolume / U.length) + 1) * (dataVolume / U.length) := by
            rw [Nat.mul_comm]
            exact Nat.lt_mul_div_succ k (dest_pos (List.length_pos_iff.mpr hU) hn)
        _ ≤ _ := (ranges_le_iff hnv hv (by decide)).mpr (hall _ hd)
  · rw [sendTo_eq hn hk, Option.some.injEq] at hd
    rw [sendTo_eq hn hk', Option.some.injEq] at hd'
    subst hd hd'
    by_contra hge
    exact absurd (Nat.div_le_div_right (c := dataVolume / U.length) (Nat.le_of_not_lt hge))
      (Nat.not_le_of_lt hlt)

/-- The two computations agree exactly if there are one, two or four uppers, the number of
lowers divides `DATAVOLUME` and leaves `th*DATAVOLUME` below `INT_MAX`, and every upper has a
place among the lowers that is late enough. -/
theorem rangesAgree_iff {U V : List α} (hU : U ≠ []) (hV : V ≠ []) (_hU : U.Nodup)
    (_hV : V.Nodup) :
    RangesAgree U V ↔ U.length ∣ cpuCore ∧ V.length ∣ dataVolume ∧ V.length ≤ 43 ∧
      ∀ d, ∀ h : d < U.length,
        (d + 1) * V.length ≤ (th V (U.get ⟨d, h⟩) + 1) * U.length := by
  constructor
  · rintro ⟨hall, -⟩
    obtain ⟨hv, h43⟩ := lowers_dvd hall hV
    exact ⟨uppers_dvd hall, hv, h43, fun d h => place_late hall hV h⟩
  · rintro ⟨hn, hv, h43, hall⟩
    exact rangesAgree_of hU hV hn hv h43 hall

/-- Four hosts that are uppers and lowers in the same order. -/
theorem rangesAgree_four : RangesAgree ["a", "b", "c", "d"] ["a", "b", "c", "d"] :=
  (rangesAgree_iff (by simp) (by simp) (by decide) (by decide)).mpr (by decide)

/-- One upper that is the first of two lowers: its sort expects only the first half of the
keys, but it gets them all. -/
theorem rangesAgree_one_two_fails : ¬ RangesAgree ["a"] ["a", "b"] := by
  rintro ⟨hall, -⟩
  obtain ⟨d, hd, -, hacc⟩ := hall 30000000 (by decide)
  obtain rfl : d = 0 := by simpa using hd
  have hlast : ¬ 30000000 < th ["a", "b"] "a" * dataVolume / 2 + dataVolume / 2 := by decide
  exact hlast (accepts_iff.mp hacc).2

end Mosito
