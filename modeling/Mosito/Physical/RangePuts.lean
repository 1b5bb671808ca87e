import Mosito.Lib.History
import Mosito.Physical.RangeAgreement

/-! The puts of the range shuffle in their order, and the tuples in the blocks that are put. -/
namespace Mosito
open ByteStore History

namespace ShuffleLower1

/-- The put of a round of the loop over the tuples, if there is one. -/
def roundPuts (tuple : Tuple) (s : ShuffleLower1) : List (ℕ × Image) :=
  match partition tuple (if s.exchangeId = 10 then ranges1 else ranges2) with
  | none => []
  | some r =>
      match (s.buffers r).allocateTuple with
      | some _ => []
      | none =>
          if s.exchangeId ≠ 10 then
            [(r / s.mul, ((s.buffers r).assembling blockSize s.totalsize).image)]
          else []

/-- The puts of the rounds for one child block. -/
def tuplesPuts : List Tuple → ShuffleLower1 → List (ℕ × Image)
  | [], _ => []
  | tuple :: tuples, s => roundPuts tuple s ++ ((route tuple s).map (tuplesPuts tuples)).getD []

/-- The puts of the rounds in which the child gives a block. -/
def childPuts : List Image → ShuffleLower1 → List (ℕ × Image)
  | [], _ => []
  | img :: child, s =>
      let buffer := s.buffer.storeBlock img.mem blockSize
      tuplesPuts buffer.tuples { s with buffer := buffer } ++
        ((routeAll buffer.tuples { s with buffer := buffer }).map (childPuts child)).getD []

/-- The puts of the round in which the child returns false. -/
def closePuts : ℕ → ShuffleLower1 → List (ℕ × Image)
  | 0, _ => []
  | k + 1, s => closePuts k s ++ [(k, ((close k s).buffer.build blockSize 0).image)]

/-- All puts of `execute`, in order. -/
def puts (child : List Image) (s : ShuffleLower1) : List (ℕ × Image) :=
  childPuts child s ++ ((executeChild child s).map fun s => closePuts s.n s).getD []

section Puts
variable {s s' : ShuffleLower1}

theorem part_append {ι α : Type} [DecidableEq ι] (t : ι) (l l' : List (ι × α)) :
    part t (l ++ l') = part t l ++ part t l' := by
  simp [part]

theorem columns_put (b : Block) (c d : ℕ) (s : ShuffleLower1) :
    (s.put b c).columns d = s.columns d ++ part d [(c, b.image)] := by
  by_cases hd : d = c
  · subst hd
    simp [put, part]
  · simp [put, part, hd, Ne.symm hd]

theorem columns_route {tuple : Tuple} (h : route tuple s = some s') (d : ℕ) :
    s'.columns d = s.columns d ++ part d (roundPuts tuple s) := by
  obtain ⟨r, hr, rfl⟩ := Option.map_eq_some_iff.mp h
  rw [roundPuts, hr]
  dsimp only
  cases hall : (s.buffers r).allocateTuple with
  | some desc => simp [setBuffer]
  | none =>
    by_cases he : s.exchangeId = 10
    · simp [setBuffer, he]
    · simp only [he, ne_eq, not_false_eq_true, if_true]
      exact columns_put _ _ _ _

theorem columns_routeAll {tuples : List Tuple} (h : routeAll tuples s = some s') (d : ℕ) :
    s'.columns d = s.columns d ++ part d (tuplesPuts tuples s) := by
  induction tuples generalizing s with
  | nil =>
    cases h
    simp [tuplesPuts]
  | cons x tuples ih =>
    rw [routeAll, List.foldlM_cons] at h
    obtain ⟨t, ht, h⟩ := Option.bind_eq_some_iff.mp h
    rw [ih h, columns_route ht, tuplesPuts, ht, Option.map_some, Option.getD_some, part_append,
      List.append_assoc]

theorem columns_executeChild {child : List Image} (h : executeChild child s = some s') (d : ℕ) :
    s'.columns d = s.columns d ++ part d (childPuts child s) := by
  induction child generalizing s with
  | nil =>
    cases h
    simp [childPuts]
  | cons img child ih =>
    rw [executeChild, List.foldlM_cons] at h
    obtain ⟨t, ht, h⟩ := Option.bind_eq_some_iff.mp h
    rw [ih h, columns_routeAll ht, childPuts, ht, Option.map_some, Option.getD_some, part_append,
      List.append_assoc]

theorem columns_close (k : ℕ) (s : ShuffleLower1) (d : ℕ) :
    (close k s).columns d = s.columns d ++ part d (closePuts k s) := by
  induction k with
  | zero => simp [close, closePuts]
  | succ k ih =>
    rw [close, columns_put, closePuts, part_append, ← List.append_assoc, ← ih]

/-- The columns are what the puts leave in them. -/
theorem execute_puts {child : List Image} (h : execute child s = some s') (d : ℕ) :
    s'.columns d = s.columns d ++ part d (puts child s) := by
  obtain ⟨t, ht, rfl⟩ := Option.map_eq_some_iff.mp h
  rw [columns_close, columns_executeChild ht, puts, ht, Option.map_some, Option.getD_some,
    part_append, List.append_assoc]

end Puts

/-! The tuples in the blocks. -/

/-- A full buffer is put with the first of its tuples. -/
theorem tuples_assembling {b : Block} {ts : List Tuple} (h : b.Stored ts)
    (hfull : b.allocateTuple = none) (hsize : b.size = blockSize) :
    ((b.assembling blockSize b.tupleSize).image.tuples b.tupleSize) =
      ts.take ((blockSize - 4) / b.tupleSize) := by
  have hlen := h.full_length hfull
  rw [hsize] at hlen
  have hle : (blockSize - 4) / b.tupleSize ≤ ts.length := by
    rw [hlen]
    exact Nat.div_le_div_right (Nat.sub_le _ _)
  have hfits : (b.assembling blockSize b.tupleSize).image.Fits b.tupleSize := by
    rw [Image.Fits, count_assembling]
    exact (Nat.div_mul_le_self _ _).trans (Nat.sub_le _ _)
  have himage := Block.image_tuples (b := b.assembling blockSize b.tupleSize) rfl hfits
  exact himage.trans (h.assembling_tuples (by decide) hle)

/-- `ts` are the tuples routed so far, `held r` lie in buffer `r`. A column has its destination's
tuples only, each at most as often as it was routed. -/
structure Held (n t : ℕ) (ts : List Tuple) (s : ShuffleLower1) (held : ℕ → List Tuple) :
    Prop where
  n_eq : s.n = n
  totalsize : s.totalsize = t
  exchange : s.exchangeId ≠ 10
  buffer : s.buffer.size = blockSize ∧ s.buffer.tupleSize = t
  buffers : ∀ r, (s.buffers r).Stored (held r) ∧ (s.buffers r).size = blockSize ∧
    (s.buffers r).tupleSize = t
  counts : ∀ d, ∀ b ∈ s.columns d, b.count = (blockSize - 4) / t
  bound : ∀ d x, ((s.columns d).flatMap (Image.tuples t)).count x +
    ∑ r ∈ Finset.range cpuCore, (if r / (cpuCore / n) = d then (held r).count x else 0) ≤
      (ts.filter fun y => destination n y = some d).count x

section Held
variable {n t : ℕ} {ts : List Tuple} {s s' : ShuffleLower1} {held : ℕ → List Tuple}

theorem held_make (n t : ℕ) {exchangeId : ℕ} (he : exchangeId ≠ 10) (junk : Memory) :
    Held n t [] (make n t exchangeId junk) fun _ => [] where
  n_eq := rfl
  totalsize := rfl
  exchange := he
  buffer := ⟨rfl, rfl⟩
  buffers _ := ⟨Block.stored_reset (Block.make junk blockSize t), rfl, rfl⟩
  counts _ _ hb := by cases hb
  bound d x := by simp [make]

/-- Its column gains what a buffer loses. -/
theorem sum_held (n : ℕ) (held : ℕ → List Tuple) {r : ℕ} (hr : r < cpuCore) (l : List Tuple)
    (d : ℕ) (x : Tuple) :
    (∑ j ∈ Finset.range cpuCore, if j / (cpuCore / n) = d then
        (Function.update held r l j).count x else 0) +
      (if r / (cpuCore / n) = d then (held r).count x else 0) =
    (∑ j ∈ Finset.range cpuCore, if j / (cpuCore / n) = d then (held j).count x else 0) +
      if r / (cpuCore / n) = d then l.count x else 0 :=
  sum_update hr (fun j l => if j / (cpuCore / n) = d then l.count x else 0) held l

theorem Held.route (h : Held n t ts s held) {tuple : Tuple} {r : ℕ}
    (hr : partition tuple ranges2 = some r) (hlen : tuple.length = t)
    (hs : route tuple s = some s') : ∃ held', Held n t (ts ++ [tuple]) s' held' := by
  have hlt := partition_lt hr
  obtain ⟨hstored, hsize, htup⟩ := h.buffers r
  have hgoal (d : ℕ) (x : Tuple) :
      ((ts ++ [tuple]).filter fun y => destination n y = some d).count x =
        (ts.filter fun y => destination n y = some d).count x +
          if r / (cpuCore / n) = d then [tuple].count x else 0 := by
    rw [List.filter_append, List.count_append]
    congr 1
    by_cases hd : r / (cpuCore / n) = d
    · simp [destination, hr, hd]
    · simp [destination, hr, hd]
  rw [ShuffleLower1.route, if_neg h.exchange, hr, Option.map_some, Option.some.injEq] at hs
  cases hall : (s.buffers r).allocateTuple with
  | some desc =>
    rw [hall] at hs
    subst hs
    refine ⟨Function.update held r (held r ++ [tuple]), h.n_eq, h.totalsize, h.exchange, h.buffer,
      fun j => ?_, h.counts, fun d x => ?_⟩
    · by_cases hj : j = r
      · subst hj
        simp only [setBuffer, Function.update_self]
        exact ⟨hstored.storeTuple hall (hlen.trans htup.symm), hsize, htup⟩
      · simpa [setBuffer, hj] using h.buffers j
    · have hb := h.bound d x
      have hu := sum_held n held hlt (held r ++ [tuple]) d x
      rw [hgoal, List.count_append] at *
      change ((s.columns d).flatMap (Image.tuples t)).count x + _ ≤ _
      split_ifs at hu ⊢ <;> omega
  | none =>
    have hmul : s.mul = cpuCore / n := by rw [mul, h.n_eq]
    have htuples := tuples_assembling hstored hall hsize
    rw [htup] at htuples
    simp only [hall, h.exchange, ne_eq, not_false_eq_true, if_true, hmul, h.totalsize] at hs
    subst hs
    refine ⟨Function.update held r [], h.n_eq, h.totalsize, h.exchange, h.buffer, fun j => ?_,
      fun d b hb => ?_, fun d x => ?_⟩
    · by_cases hj : j = r
      · subst hj
        simp only [setBuffer, Function.update_self]
        exact ⟨Block.stored_reset _, rfl, htup⟩
      · simpa [setBuffer, put, hj] using h.buffers j
    · by_cases hd : d = r / (cpuCore / n)
      · subst hd
        simp only [setBuffer, put, Function.update_self, List.mem_append, List.mem_singleton] at hb
        rcases hb with hb | rfl
        · exact h.counts _ b hb
        · exact count_assembling t
      · simp only [setBuffer, put, Function.update_of_ne hd] at hb
        exact h.counts d b hb
    · have hb := h.bound d x
      have hu := sum_held n held hlt [] d x
      have htake : ((held r).take ((blockSize - 4) / t)).count x ≤ (held r).count x :=
        (List.take_sublist _ _).count_le x
      rw [hgoal]
      by_cases hd : r / (cpuCore / n) = d
      · subst hd
        simp only [setBuffer, put, Function.update_self, List.flatMap_append, List.flatMap_singleton,
          List.count_append, htuples, if_true, List.count_nil] at hb hu ⊢
        omega
      · simp only [setBuffer, put, Function.update_of_ne (Ne.symm hd), hd, if_false] at hb hu ⊢
        omega

theorem Held.routeAll (h : Held n t ts s held) {tuples : List Tuple}
    (hkeys : ∀ x ∈ tuples, key x < dataVolume) (hlen : ∀ x ∈ tuples, x.length = t)
    (hs : routeAll tuples s = some s') : ∃ held', Held n t (ts ++ tuples) s' held' := by
  induction tuples generalizing ts s held with
  | nil =>
    cases hs
    exact ⟨held, by simpa using h⟩
  | cons x tuples ih =>
    rw [ShuffleLower1.routeAll, List.foldlM_cons] at hs
    obtain ⟨s1, hs1, hs⟩ := Option.bind_eq_some_iff.mp hs
    obtain ⟨r, hr⟩ := partition_isSome (hkeys x (by simp))
    obtain ⟨held1, h1⟩ := h.route hr (hlen x (by simp)) hs1
    obtain ⟨held', h'⟩ := ih h1 (fun y hy => hkeys y (by simp [hy]))
      (fun y hy => hlen y (by simp [hy])) hs
    exact ⟨held', by simpa using h'⟩

theorem Held.executeChild (h : Held n t ts s held) {child : List Image}
    (hfits : ∀ img ∈ child, img.Fits t)
    (hkeys : ∀ x ∈ child.flatMap (Image.tuples t), key x < dataVolume)
    (hs : executeChild child s = some s') :
    ∃ held', Held n t (ts ++ child.flatMap (Image.tuples t)) s' held' := by
  induction child generalizing ts s held with
  | nil =>
    cases hs
    exact ⟨held, by simpa using h⟩
  | cons img child ih =>
    rw [ShuffleLower1.executeChild, List.foldlM_cons] at hs
    obtain ⟨s1, hs1, hs⟩ := Option.bind_eq_some_iff.mp hs
    have htup : (s.buffer.storeBlock img.mem blockSize).tuples = img.tuples t :=
      Block.tuples_storeBlock h.buffer.1 h.buffer.2 (hfits img (by simp))
    have hstored : Held n t ts { s with buffer := s.buffer.storeBlock img.mem blockSize } held :=
      { h with buffer := h.buffer, buffers := h.buffers }
    dsimp only at hs1
    rw [htup] at hs1
    obtain ⟨held1, h1⟩ := hstored.routeAll (fun x hx => hkeys x (by simp [hx]))
      (fun x hx => Image.length_of_mem_tuples hx) hs1
    obtain ⟨held', h'⟩ := ih h1 (fun i hi => hfits i (by simp [hi]))
      (fun x hx => hkeys x (by rw [List.flatMap_cons]; exact List.mem_append_right _ hx)) hs
    exact ⟨held', by simpa using h'⟩

end Held

/-- The puts of `execute` go to the uppers; each column is closed and has tuples of its
destination only, each at most as often as the child gave it. -/
theorem puts_routed {n t exchangeId : ℕ} (hn : n ∣ cpuCore) (he : exchangeId ≠ 10) (ht : 1 ≤ t)
    (hroom : t ≤ blockSize - 4) {child : List Image} (hfits : ∀ img ∈ child, img.Fits t)
    (hkeys : ∀ x ∈ child.flatMap (Image.tuples t), key x < dataVolume) (junk : Memory) :
    (∀ p ∈ puts child (make n t exchangeId junk), p.1 < n) ∧ ∀ d < n,
      Closed (part d (puts child (make n t exchangeId junk))) ∧
      (∀ b ∈ part d (puts child (make n t exchangeId junk)), b.count ≤ (blockSize - 4) / t) ∧
      ((part d (puts child (make n t exchangeId junk))).flatMap (Image.tuples t)).Subperm
        ((child.flatMap (Image.tuples t)).filter fun x => destination n x = some d) := by
  obtain ⟨s, k, hs, hinv⟩ := (inv_make n t he junk).executeChild hfits hkeys
  obtain ⟨held, hheld⟩ := (held_make n t he junk).executeChild hfits hkeys hs
  rw [List.nil_append] at hheld
  have hexec : execute child (make n t exchangeId junk) = some (close n s) := by
    rw [execute, hs, Option.map_some, hinv.n_eq]
  obtain ⟨-, hclose, hrest⟩ := close_columns hheld.buffer.1 n
  have hpos : 0 < (blockSize - 4) / t := Nat.div_pos hroom ht
  have hcolumns (d : ℕ) : part d (puts child (make n t exchangeId junk)) =
      (close n s).columns d := by
    rw [execute_puts hexec d]
    rfl
  constructor
  · intro p hp
    by_contra hge
    have hmem : p.2 ∈ s.columns p.1 := by
      rw [← hrest p.1 (by omega), ← hcolumns, mem_part]
      exact hp
    have hcount := hheld.counts p.1 p.2 hmem
    obtain ⟨x, hx⟩ : ∃ x, x ∈ p.2.tuples t :=
      List.exists_mem_of_length_pos (by rw [Image.tuples_length, hcount]; exact hpos)
    have hin : x ∈ (s.columns p.1).flatMap (Image.tuples t) :=
      List.mem_flatMap.mpr ⟨p.2, hmem, hx⟩
    have hbound := hheld.bound p.1 x
    have hone := List.count_pos_iff.mpr hin
    have hdest : x ∈ (child.flatMap (Image.tuples t)).filter fun y =>
        destination n y = some p.1 := List.count_pos_iff.mp (by omega)
    obtain ⟨hchild, hd⟩ := List.mem_filter.mp hdest
    obtain ⟨d, hlt, hd'⟩ := destination_lt hn (hkeys x hchild)
    simp only [hd', Option.some.injEq, decide_eq_true_eq] at hd
    omega
  · intro d hd
    obtain ⟨z, hz, hz0⟩ := hclose d hd
    rw [hcolumns, hz]
    refine ⟨⟨s.columns d, z, rfl, hz0, fun b hb => ?_⟩, fun b hb => ?_, ?_⟩
    · rw [hheld.counts d b hb]
      exact hpos.ne'
    · rcases List.mem_append.mp hb with hb | hb
      · exact (hheld.counts d b hb).le
      · rw [List.mem_singleton.mp hb, hz0]
        exact Nat.zero_le _
    · have hnone : z.tuples t = [] := List.length_eq_zero_iff.mp (by rw [Image.tuples_length, hz0])
      rw [List.flatMap_append, List.flatMap_singleton, hnone, List.append_nil,
        List.subperm_ext_iff]
      intro x _
      have hbound := hheld.bound d x
      omega

end ShuffleLower1
end Mosito
