import Mosito.Common.PCBuffer

/-! The tuple that stands for an exhausted column in the merge. Its longs are written at offsets of
their own, not at those of the schema. -/
namespace Mosito
open ByteStore
namespace NewSchema

/-- Where the sentinel gets `ULONG_MAX`, eight bytes each. -/
def sentinelAddrs (ns : NewSchema) : List ℕ :=
  (ns.vd.zipIdx.filter fun d => d.1 = .long).map fun d => 8 * d.2

theorem sentinel_eq (ns : NewSchema) (junk : Memory) : ns.sentinel junk =
    readAt (ns.sentinelAddrs.foldl (fun m a => writeAt m a (leBytes 8 ulongMax)) junk) 0
      ns.totalsize := by
  rw [sentinelAddrs, List.foldl_map, List.foldl_filter]
  simp only [decide_eq_true_eq]
  rfl

theorem mem_sentinelAddrs {ns : NewSchema} {a : ℕ} :
    a ∈ ns.sentinelAddrs ↔ ∃ i, ns.vd[i]? = some .long ∧ 8 * i = a := by
  simp only [sentinelAddrs, List.mem_map, List.mem_filter, decide_eq_true_eq, Prod.exists,
    List.mem_zipIdx_iff_getElem?]
  constructor
  · rintro ⟨d, i, ⟨hi, rfl⟩, ha⟩
    exact ⟨i, hi, ha⟩
  · rintro ⟨i, hi, ha⟩
    exact ⟨.long, i, ⟨hi, rfl⟩, ha⟩

/-- Writes at multiples of 8 change the second eight bytes only if one of them is there. -/
theorem readAt_foldl_writeAt (junk : Memory) {as : List ℕ} (has : ∀ a ∈ as, 8 ∣ a) :
    readAt (as.foldl (fun m a => writeAt m a (leBytes 8 ulongMax)) junk) 8 8 =
      if 8 ∈ as then leBytes 8 ulongMax else readAt junk 8 8 := by
  induction as generalizing junk with
  | nil => simp
  | cons a as ih =>
    rw [List.foldl_cons, ih _ fun b hb => has b (List.mem_cons_of_mem a hb)]
    by_cases hmem : 8 ∈ as
    · simp [hmem]
    · rw [if_neg hmem]
      rcases eq_or_ne a 8 with rfl | hne
      · have hsame := readAt_writeAt_same junk 8 (leBytes 8 ulongMax)
        rw [leBytes_length] at hsame
        simpa using hsame
      · rw [if_neg (by simp [hmem, hne.symm])]
        obtain ⟨k, rfl⟩ := has a (List.mem_cons_self ..)
        refine readAt_congr fun i hi hi' => ?_
        rcases Nat.lt_or_ge i (8 * k) with hlt | hge
        · exact writeAt_of_lt _ _ hlt
        · refine writeAt_of_ge _ _ ?_
          rw [leBytes_length]
          omega

/-- The key of the sentinel is that of column 1 if this is a long, and else what was there. -/
theorem key_sentinel {ns : NewSchema} (h16 : 16 ≤ ns.totalsize) (junk : Memory) :
    key (ns.sentinel junk) =
      if ns.vd[1]? = some .long then ulongMax else leValue (readAt junk 8 8) := by
  have hdvd : ∀ a ∈ ns.sentinelAddrs, 8 ∣ a := by
    intro a ha
    obtain ⟨i, -, rfl⟩ := mem_sentinelAddrs.mp ha
    exact Nat.dvd_mul_right 8 i
  have hmem : 8 ∈ ns.sentinelAddrs ↔ ns.vd[1]? = some .long := by
    rw [mem_sentinelAddrs]
    constructor
    · rintro ⟨i, hi, h8⟩
      obtain rfl : i = 1 := by omega
      exact hi
    · exact fun h1 => ⟨1, h1, rfl⟩
  rw [sentinel_eq, key, readAt_drop, readAt_take, min_eq_left (by omega), Nat.zero_add,
    readAt_foldl_writeAt junk hdvd]
  by_cases hlong : ns.vd[1]? = some .long
  · rw [if_pos (hmem.mpr hlong), if_pos hlong]
    exact leValue_leBytes_of_lt (by decide)
  · rw [if_neg (mt hmem.mp hlong), if_neg hlong]

end NewSchema

theorem key_le_ulongMax (x : Tuple) : key x ≤ ulongMax := by
  have hlt := leValue_lt ((x.drop 8).take 8)
  have hpow : 256 ^ ((x.drop 8).take 8).length ≤ 2 ^ 64 := by
    calc 256 ^ ((x.drop 8).take 8).length ≤ 256 ^ 8 :=
          Nat.pow_le_pow_right (by decide) (List.length_take_le _ _)
      _ = 2 ^ 64 := by decide
  unfold key ulongMax
  omega

/-- A column with the tuple `x` never wins against one with a key below `ULONG_MAX`. -/
def NeverWins (x : Tuple) : Prop :=
  ∀ (junk : ℕ → ℕ) (A : ℕ → Tuple) (n : ℕ) (news : List Tuple), 2 ≤ n →
    let t := news.foldl (LoserTree.advance compareTemp)
      (LoserTree.initializeTree compareTemp junk A n)
    ∀ i j, 1 ≤ i → i ≤ n → key (t.L i) < ulongMax → t.L j = x → t.winner ≠ j

theorem neverWins_of_key {x : Tuple} (hx : key x = ulongMax) : NeverWins x := by
  intro junk A n news hn t i j h1 hi hlt hj hwin
  obtain ⟨hv, -, hsize⟩ := LoserTree.initializeTree_valid compareTemp_iff junk A hn
  obtain ⟨hvalid, hkeep⟩ := LoserTree.advances_valid compareTemp_iff hv news
  have hle : key (t.L t.winner) ≤ key (t.L i) :=
    hvalid.winning_le h1 (hi.trans_eq (hkeep.trans hsize).symm)
  rw [hwin, hj, hx] at hle
  omega

namespace NewSchema

/-- What the sentinel is for: it is written inside of its bytes, it comes after every tuple, and an
exhausted column never wins against a smaller key. -/
structure SentinelMaximal (ns : NewSchema) (junk : Memory) : Prop where
  inside : ∀ a ∈ ns.sentinelAddrs, a + 8 ≤ ns.totalsize
  key_eq : key (ns.sentinel junk) = ulongMax
  compare : ∀ x, compareTemp x (ns.sentinel junk) = true
  loses : NeverWins (ns.sentinel junk)

/-- The sentinel is maximal exactly if the longs, at eight bytes for each column, end inside of the
tuple, and column 1 is a long or the allocated bytes there happen to be maximal. -/
theorem sentinelMaximal_iff (vd : List DataType) (junk : Memory)
    (h16 : 16 ≤ (make vd).totalsize) : SentinelMaximal (make vd) junk ↔
      (∀ i, (make vd).vd[i]? = some .long → 8 * (i + 1) ≤ (make vd).totalsize) ∧
        ((make vd).vd[1]? = some .long ∨ leValue (readAt junk 8 8) = ulongMax) := by
  have hinside : (∀ a ∈ (make vd).sentinelAddrs, a + 8 ≤ (make vd).totalsize) ↔
      ∀ i, (make vd).vd[i]? = some .long → 8 * (i + 1) ≤ (make vd).totalsize := by
    constructor
    · exact fun h i hi => h (8 * i) (mem_sentinelAddrs.mpr ⟨i, hi, rfl⟩)
    · intro h a ha
      obtain ⟨i, hi, rfl⟩ := mem_sentinelAddrs.mp ha
      exact h i hi
  have hkey : key ((make vd).sentinel junk) = ulongMax ↔
      (make vd).vd[1]? = some .long ∨ leValue (readAt junk 8 8) = ulongMax := by
    rw [key_sentinel h16]
    split_ifs with hlong
    · simp [hlong]
    · simp [hlong]
  rw [← hinside, ← hkey]
  refine ⟨fun h => ⟨h.inside, h.key_eq⟩, fun h => ⟨h.1, h.2, fun x => ?_, neverWins_of_key h.2⟩⟩
  rw [compareTemp_iff, h.2]
  exact key_le_ulongMax x

/-- The schema of two longs. -/
theorem sentinelMaximal_twoLongs : SentinelMaximal (make [.long, .long]) fun _ => 0 := by
  refine (sentinelMaximal_iff [.long, .long] (fun _ => 0) (by decide)).mpr ⟨fun i hi => ?_, ?_⟩
  · have hlt : i < 2 := (List.getElem?_eq_some_iff.mp hi).1
    change 8 * (i + 1) ≤ 16
    omega
  · exact Or.inl rfl

/-- Behind a long, two integers leave the key of the sentinel unset; in front of it, they push the
write of the long out of the tuple. -/
theorem not_sentinelMaximal_integers :
    ¬ SentinelMaximal (make [.long, .int, .int]) (fun _ => 0) ∧
      ¬ ∀ a ∈ (make [.int, .int, .long]).sentinelAddrs,
        a + 8 ≤ (make [.int, .int, .long]).totalsize := by
  constructor
  · rw [sentinelMaximal_iff _ _ (by decide)]
    rintro ⟨-, hlong | hjunk⟩
    · exact absurd hlong (by decide)
    · exact absurd hjunk (by decide)
  · decide

end NewSchema
end Mosito
