import Mosito.Physical.MergeJoin
import Mosito.Common.BlockFormat

/-! When the merge loop combines exactly the pairs with equal keys. A pair that the cursors have
passed without combining it is lost for good. -/
namespace Mosito
open ByteStore Runs
namespace MergeJoin

section Pairs
variable {L R : Block} {i j : ℕ} {ps : List (JoinPtr × JoinPtr)}

/-- The only pair of its key, and not at the last two positions. -/
structure Alone (L R : Block) (i j : ℕ) : Prop where
  equal : Match L R i j
  left : i + 2 < L.getSize
  right : j + 2 < R.getSize
  only_left : ∀ i', Match L R i' j → i' = i
  only_right : ∀ j', Match L R i j' → j' = j

theorem sparse_iff : Sparse L R ↔ ∀ i j, Match L R i j → Alone L R i j :=
  ⟨fun h i j hm => ⟨hm, (h i j hm).1, (h i j hm).2.1, (h i j hm).2.2.1, (h i j hm).2.2.2⟩,
    fun h i j hm => ⟨(h i j hm).left, (h i j hm).right, (h i j hm).only_left,
      (h i j hm).only_right⟩⟩

/-- All pairs with a position before the cursors are combined, and all of them are alone. -/
structure Listed (L R : Block) (i j : ℕ) (ps : List (JoinPtr × JoinPtr)) : Prop where
  sound : ∀ p ∈ ps, ∃ a b, p = pair L R a b ∧ Alone L R a b ∧ a < i ∧ b < j
  complete : ∀ a b, Match L R a b → a < i ∨ b < j → pair L R a b ∈ ps
  nodup : ps.Nodup

/-- A pair with a position before the cursors is not combined. -/
def Lost (L R : Block) (i j : ℕ) (ps : List (JoinPtr × JoinPtr)) : Prop :=
  ∃ a b, Match L R a b ∧ pair L R a b ∉ ps ∧ (a < i ∨ b < j)

theorem listed_start : Listed L R 0 0 [] := by
  constructor <;> simp

theorem Listed.skip_left (h : Listed L R i j ps) (hR : SortedBlock R)
    (hlt : keyOf L i < keyOf R j) : Listed L R (i + 1) j ps := by
  refine ⟨fun p hp => ?_, fun a b hm hab => ?_, h.nodup⟩
  · obtain ⟨a, b, rfl, halone, ha, hb⟩ := h.sound p hp
    exact ⟨a, b, rfl, halone, by omega, hb⟩
  · refine h.complete a b hm ?_
    rcases hab with ha | hb
    · rcases Nat.lt_succ_iff_lt_or_eq.mp ha with ha | rfl
      · exact Or.inl ha
      · -- the keys from position `j` on are too large for `a`
        refine Or.inr (Nat.lt_of_not_le fun hjb => ?_)
        have := hR j b hjb hm.2.1
        have := hm.2.2
        omega
    · exact Or.inr hb

theorem Listed.skip_right (h : Listed L R i j ps) (hL : SortedBlock L)
    (hlt : keyOf R j < keyOf L i) : Listed L R i (j + 1) ps := by
  refine ⟨fun p hp => ?_, fun a b hm hab => ?_, h.nodup⟩
  · obtain ⟨a, b, rfl, halone, ha, hb⟩ := h.sound p hp
    exact ⟨a, b, rfl, halone, ha, by omega⟩
  · refine h.complete a b hm ?_
    rcases hab with ha | hb
    · exact Or.inl ha
    · rcases Nat.lt_succ_iff_lt_or_eq.mp hb with hb | rfl
      · exact Or.inr hb
      · refine Or.inl (Nat.lt_of_not_le fun hia => ?_)
        have := hL i a hia hm.1
        have := hm.2.2
        omega

variable (hl : 0 < L.tupleSize) (hr : 0 < R.tupleSize)
include hl hr

theorem Listed.before (h : Listed L R i j ps) {a b : ℕ} (hp : pair L R a b ∈ ps) :
    a < i ∧ b < j := by
  obtain ⟨a', b', heq, -, ha, hb⟩ := h.sound _ hp
  obtain ⟨rfl, rfl⟩ := (pair_inj hl hr).mp heq
  exact ⟨ha, hb⟩

/-- Both positions of a pair are passed at once. -/
theorem Listed.lt_iff (h : Listed L R i j ps) {a b : ℕ} (hm : Match L R a b) : a < i ↔ b < j :=
  ⟨fun ha => (h.before hl hr (h.complete a b hm (Or.inl ha))).2,
    fun hb => (h.before hl hr (h.complete a b hm (Or.inr hb))).1⟩

theorem Listed.alone (h : Listed L R i j ps) (hL : SortedBlock L) (hR : SortedBlock R)
    (hm : Match L R i j) (hi : i + 2 < L.getSize) (hj : j + 2 < R.getSize)
    (hnext : ¬ Match L R (i + 1) j) (hnext' : ¬ Match L R i (j + 1)) : Alone L R i j := by
  refine ⟨hm, hi, hj, fun a ha => ?_, fun b hb => ?_⟩
  · -- a later position with the same key would leave none between with another one
    rcases lt_trichotomy a i with hlt | heq | hgt
    · exact absurd ((h.lt_iff hl hr ha).mp hlt) (lt_irrefl j)
    · exact heq
    · refine absurd ⟨by omega, hm.2.1, ?_⟩ hnext
      have := hL i (i + 1) (by omega) (by omega)
      have := hL (i + 1) a hgt ha.1
      have := hm.2.2
      have := ha.2.2
      omega
  · rcases lt_trichotomy b j with hlt | heq | hgt
    · exact absurd ((h.lt_iff hl hr hb).mpr hlt) (lt_irrefl i)
    · exact heq
    · refine absurd ⟨hm.1, by omega, ?_⟩ hnext'
      have := hR j (j + 1) (by omega) (by omega)
      have := hR (j + 1) b hgt hb.2.1
      have := hm.2.2
      have := hb.2.2
      omega

theorem Listed.add (h : Listed L R i j ps) (halone : Alone L R i j) :
    Listed L R (i + 1) (j + 1) (ps ++ [pair L R i j]) := by
  refine ⟨fun p hp => ?_, fun a b hm hab => ?_, ?_⟩
  · rcases List.mem_append.mp hp with hp | hp
    · obtain ⟨a, b, rfl, hab, ha, hb⟩ := h.sound p hp
      exact ⟨a, b, rfl, hab, by omega, by omega⟩
    · exact ⟨i, j, List.mem_singleton.mp hp, halone, by omega, by omega⟩
  · rw [List.mem_append, List.mem_singleton, pair_inj hl hr]
    by_cases hbefore : a < i ∨ b < j
    · exact Or.inl (h.complete a b hm hbefore)
    · right
      push Not at hbefore
      rcases hab with ha | hb
      · obtain rfl : a = i := by omega
        exact ⟨rfl, halone.only_right b hm⟩
      · obtain rfl : b = j := by omega
        exact ⟨halone.only_left a hm, rfl⟩
  · refine h.nodup.append (List.nodup_singleton _) ?_
    simpa using fun hp => lt_irrefl i (h.before hl hr hp).1

end Pairs

section Phase
variable {L R : Block} {outBytes i j : ℕ} {s s' : MergeJoin} {caller : Caller}

/-- All pairs so far are in one block. -/
structure Room (outBytes : ℕ) (s : MergeJoin) : Prop where
  size : s.block.size = blockSize
  tuple : s.block.tupleSize = outBytes
  free : s.block.free = s.pairs.length * outBytes
  fits : s.pairs.length * outBytes ≤ blockSize

def Good (L R : Block) (outBytes i j : ℕ) (s : MergeJoin) : Prop :=
  Listed L R i j s.pairs ∧ Room outBytes s

/-- The pair at the cursors has just been combined, and its neighbours are none. -/
structure Matched (L R : Block) (outBytes i j : ℕ) (s : MergeJoin) : Prop where
  equal : Match L R i j
  left : ¬ Match L R (i + 1) j
  right : ¬ Match L R i (j + 1)
  listed : ∃ ps, Listed L R i j ps ∧ s.pairs = ps ++ [pair L R i j]
  room : Room outBytes s

/-- While the fake cursors run from `i + 2` and `j + 2`, the neighbours of the pair at the
cursors are lost like those before them. -/
def Skipped (L R : Block) (i j : ℕ) (ps : List (JoinPtr × JoinPtr)) : Prop :=
  ∃ a b, Match L R a b ∧ pair L R a b ∉ ps ∧
    (a < i ∨ b < j ∨ (a = i + 1 ∧ b = j) ∨ (a = i ∧ b = j + 1))

/-- What holds in the states of a run. -/
inductive Phase (L R : Block) (outBytes : ℕ) (s : MergeJoin) : Prop where
  | main (i j : ℕ) (hpc : s.pc = .main) (hat : At L R i j s)
      (hfake : s.lfbItr.fakeCount = 0 ∧ s.rfbItr.fakeCount = 0)
      (h : Good L R outBytes i j s ∨ Lost L R i j s.pairs)
  | fakeLeft (i j f : ℕ) (hpc : s.pc = .fakeLeft) (hat : At L R i j s) (hi : i < L.getSize)
      (hj : j < R.getSize) (hf : i + 2 ≤ f) (hfakeL : s.fakeL = ⟨.left, f * L.tupleSize⟩)
      (hfakeR : s.fakeR = ⟨.right, (j + 2) * R.tupleSize⟩)
      (h : f = i + 2 ∧ Matched L R outBytes i j s ∨ Skipped L R i j s.pairs)
  | fakeRight (i j : ℕ) (hpc : s.pc = .fakeRight) (hat : At L R i j s) (hi : i < L.getSize)
      (hj : j < R.getSize)
      (hfakeR : s.fakeR = ⟨.right, (j + 2) * R.tupleSize⟩ ∨ s.fakeR.side = .left)
      (h : s.fakeR = ⟨.right, (j + 2) * R.tupleSize⟩ ∧ i + 2 < L.getSize ∧
        Matched L R outBytes i j s ∨ Skipped L R i j s.pairs)
  | returned (i j : ℕ) (hpc : s.pc = .returned) (hend : L.getSize ≤ i ∨ R.getSize ≤ j)
      (h : Good L R outBytes i j s ∨ Lost L R i j s.pairs)

theorem Lost.mono {i' j' : ℕ} {ps : List (JoinPtr × JoinPtr)} (h : Lost L R i j ps)
    (hi : i ≤ i') (hj : j ≤ j') : Lost L R i' j' ps := by
  obtain ⟨a, b, hm, hp, hab⟩ := h
  exact ⟨a, b, hm, hp, by omega⟩

theorem Skipped.lost {ps : List (JoinPtr × JoinPtr)} (h : Skipped L R i j ps) :
    Lost L R (i + 1) (j + 1) ps := by
  obtain ⟨a, b, hm, hp, hab⟩ := h
  exact ⟨a, b, hm, hp, by omega⟩

theorem nextBoth_fake (s : MergeJoin) :
    s.nextBoth.lfbItr.fakeCount = 0 ∧ s.nextBoth.rfbItr.fakeCount = 0 :=
  ⟨getNext_fakeCount _ _, getNext_fakeCount _ _⟩

/-- Behind a full block the pair that did not fit is lost. -/
theorem phase_full (hat : At L R i j s) (hi : i < L.getSize) (hj : j < R.getSize)
    (h : Lost L R (i + 1) (j + 1) s.pairs) : Phase L R outBytes (s.full caller) :=
  .main (i + 1) (j + 1) rfl (hat.full caller hi hj) (nextBoth_fake _) (Or.inr h)

variable (hl : 0 < L.tupleSize) (hr : 0 < R.tupleSize)
include hl hr

/-- A pair that is combined does not bring back a lost one. -/
theorem Skipped.add {ps : List (JoinPtr × JoinPtr)} {f g : ℕ} (h : Skipped L R i j ps)
    (hfg : i + 2 ≤ f ∧ g = j ∨ f = i ∧ j + 2 ≤ g) : Skipped L R i j (ps ++ [pair L R f g]) := by
  obtain ⟨a, b, hm, hp, hab⟩ := h
  refine ⟨a, b, hm, fun hmem => ?_, hab⟩
  rcases List.mem_append.mp hmem with hmem | hmem
  · exact hp hmem
  · have := (pair_inj hl hr).mp (List.mem_singleton.mp hmem)
    omega

theorem Lost.skipped {ps : List (JoinPtr × JoinPtr)} (h : Lost L R i j ps) :
    Skipped L R i j (ps ++ [pair L R i j]) := by
  obtain ⟨a, b, hm, hp, hab⟩ := h
  refine ⟨a, b, hm, fun hmem => ?_, by omega⟩
  rcases List.mem_append.mp hmem with hmem | hmem
  · exact hp hmem
  · have := (pair_inj hl hr).mp (List.mem_singleton.mp hmem)
    omega

theorem Listed.skipped {ps : List (JoinPtr × JoinPtr)} (h : Listed L R i j ps)
    (hnext : Match L R (i + 1) j ∨ Match L R i (j + 1)) :
    Skipped L R i j (ps ++ [pair L R i j]) := by
  have hnot (a b : ℕ) (hab : i ≤ a ∧ j ≤ b) (hne : a ≠ i ∨ b ≠ j) :
      pair L R a b ∉ ps ++ [pair L R i j] := by
    intro hmem
    rcases List.mem_append.mp hmem with hmem | hmem
    · have := h.before hl hr hmem
      omega
    · have := (pair_inj hl hr).mp (List.mem_singleton.mp hmem)
      omega
  rcases hnext with hm | hm
  · exact ⟨i + 1, j, hm, hnot _ _ (by omega) (by omega), by omega⟩
  · exact ⟨i, j + 1, hm, hnot _ _ (by omega) (by omega), by omega⟩

omit hl hr in
theorem Skipped.add_stray {ps : List (JoinPtr × JoinPtr)} {p : JoinPtr × JoinPtr}
    (h : Skipped L R i j ps) (hp : p.2.side = .left) : Skipped L R i j (ps ++ [p]) := by
  obtain ⟨a, b, hm, hnot, hab⟩ := h
  refine ⟨a, b, hm, fun hmem => ?_, hab⟩
  rcases List.mem_append.mp hmem with hmem | hmem
  · exact hnot hmem
  · rw [← List.mem_singleton.mp hmem] at hp
    simp [pair] at hp

omit hl hr in
theorem Room.congr (h : Room outBytes s) (hblock : s'.block = s.block)
    (hpairs : s'.pairs = s.pairs) : Room outBytes s' :=
  ⟨hblock ▸ h.size, hblock ▸ h.tuple, by rw [hblock, hpairs]; exact h.free, hpairs ▸ h.fits⟩

omit hl hr in
theorem Room.combine {desc : ℕ} {p q : JoinPtr} (h : Room outBytes s)
    (hdesc : s.block.allocateTuple = some desc) : Room outBytes (s.combine desc p q) := by
  obtain ⟨hfits, -⟩ := Block.allocateTuple_eq_some.mp hdesc
  rw [h.free, h.size, h.tuple] at hfits
  refine ⟨h.size, h.tuple, ?_, ?_⟩
  · simp [MergeJoin.combine, Block.updateFree, h.free, h.tuple, Nat.succ_mul]
  · simpa [MergeJoin.combine, Nat.succ_mul] using hfits

/-- What the loop does at the cursors `i` and `j`. -/
theorem step_main (hat : At L R i j s) (hpc : s.pc = .main) (hi : i < L.getSize)
    (hj : j < R.getSize) : s.step caller () = some (
      if keyOf L i = keyOf R j then
        s.emit caller (pair L R i j).1 (pair L R i j).2 fun s =>
          { s.nextFakeL.firstFakeR with pc := .fakeLeft }
      else if keyOf L i < keyOf R j then s.nextLeft else s.nextRight) := by
  have hsl : s.l = some (pair L R i j).1 := by rw [hat.l, pointer, if_pos hi]; rfl
  have hsr : s.r = some (pair L R i j).2 := by rw [hat.r, pointer, if_pos hj]; rfl
  simp only [step, hpc, hsl, hsr]
  rw [pair, compare_eq hl hr hat hi hj, Option.map_some]
  split_ifs <;> simp_all

omit hl hr in
theorem step_main_end (hat : At L R i j s) (hpc : s.pc = .main)
    (hend : L.getSize ≤ i ∨ R.getSize ≤ j) :
    s.step caller () = some { s with pc := .returned } := by
  have hnone : s.l = none ∨ s.r = none := by
    rw [hat.l, hat.r, pointer, pointer]
    exact hend.imp (fun h => if_neg (by omega)) fun h => if_neg (by omega)
  simp only [step, hpc]
  split
  · next hsl hsr => simp [hsl, hsr] at hnone
  · rfl

theorem step_fakeLeft {f : ℕ} (hat : At L R i j s) (hpc : s.pc = .fakeLeft) (hj : j < R.getSize)
    (hfakeL : s.fakeL = ⟨.left, f * L.tupleSize⟩) : s.step caller () =
      if f < L.getSize then some (
        if keyOf L f = keyOf R j then
          s.emit caller (pair L R f j).1 (pair L R f j).2 nextFakeL
        else { s with pc := .fakeRight })
      else none := by
  have hsr : s.r = some (pair L R f j).2 := by rw [hat.r, pointer, if_pos hj]; rfl
  simp only [step, hpc, hsr, hfakeL, Option.bind_some]
  by_cases hf : f < L.getSize
  · rw [if_pos hf, pair, compare_eq hl hr hat hf hj, Option.map_some]
    split_ifs <;> simp_all
  · rw [if_neg hf, compare, readKey_left hl hat.left, if_neg hf]
    rfl

theorem step_fakeRight {g : ℕ} (hat : At L R i j s) (hpc : s.pc = .fakeRight)
    (hi : i < L.getSize) (hfakeR : s.fakeR = ⟨.right, g * R.tupleSize⟩) : s.step caller () =
      if g < R.getSize then some (
        if keyOf L i = keyOf R g then
          s.emit caller (pair L R i g).1 (pair L R i g).2 nextFakeR
        else s.nextBoth)
      else none := by
  have hsl : s.l = some (pair L R i g).1 := by rw [hat.l, pointer, if_pos hi]; rfl
  simp only [step, hpc, hsl, hfakeR, Option.bind_some]
  by_cases hg : g < R.getSize
  · rw [if_pos hg, pair, compare_eq hl hr hat hi hg, Option.map_some]
    split_ifs <;> simp_all
  · rw [if_neg hg, compare, readKey_right hr hat.right, if_neg hg]
    simp

/-- The state after the pair at the cursors has been combined. -/
def matched (L R : Block) (i j desc : ℕ) (s : MergeJoin) : MergeJoin :=
  { (s.combine desc (pair L R i j).1 (pair L R i j).2).nextFakeL.firstFakeR with pc := .fakeLeft }

omit hl hr in
/-- The fake cursors start two positions behind the cursors, not one. -/
theorem matched_fakes (hat : At L R i j s) (hi : i < L.getSize) (hj : j < R.getSize)
    (hfake : s.lfbItr.fakeCount = 0 ∧ s.rfbItr.fakeCount = 0) (desc : ℕ) :
    (matched L R i j desc s).fakeL = ⟨.left, (i + 2) * L.tupleSize⟩ ∧
      (matched L R i j desc s).fakeR = ⟨.right, (j + 2) * R.tupleSize⟩ := by
  constructor
  · simp [matched, firstFakeR, nextFakeL, combine, BufferIterator.getNextFake, hat.left,
      hat.lcur hi, hfake.1]
  · simp [matched, firstFakeR, nextFakeL, combine, BufferIterator.getNextFake, hat.right,
      hat.rcur hj, hfake.2]

theorem phase_matched {desc : ℕ} (hat : At L R i j s) (hi : i < L.getSize) (hj : j < R.getSize)
    (hfake : s.lfbItr.fakeCount = 0 ∧ s.rfbItr.fakeCount = 0) (hm : Match L R i j)
    (h : Good L R outBytes i j s ∨ Lost L R i j s.pairs)
    (hdesc : s.block.allocateTuple = some desc) :
    Phase L R outBytes (matched L R i j desc s) := by
  obtain ⟨hfakeL, hfakeR⟩ := matched_fakes hat hi hj hfake desc
  refine .fakeLeft i j (i + 2) rfl (hat.congr rfl rfl rfl rfl rfl rfl) hi hj le_rfl hfakeL hfakeR ?_
  · rcases h with ⟨hlist, hroom⟩ | hlost
    · by_cases hnext : Match L R (i + 1) j ∨ Match L R i (j + 1)
      · exact Or.inr (hlist.skipped hl hr hnext)
      · push Not at hnext
        exact Or.inl ⟨rfl, hm, hnext.1, hnext.2, ⟨s.pairs, hlist, rfl⟩,
          (hroom.combine hdesc).congr rfl rfl⟩
    · exact Or.inr (hlost.skipped hl hr)

variable (hL : SortedBlock L) (hR : SortedBlock R)
include hL hR

theorem phase_main (hat : At L R i j s) (hpc : s.pc = .main)
    (hfake : s.lfbItr.fakeCount = 0 ∧ s.rfbItr.fakeCount = 0)
    (h : Good L R outBytes i j s ∨ Lost L R i j s.pairs) (hs : s.step caller () = some s') :
    Phase L R outBytes s' := by
  by_cases hij : i < L.getSize ∧ j < R.getSize
  · obtain ⟨hi, hj⟩ := hij
    rw [step_main hl hr hat hpc hi hj, Option.some.injEq] at hs
    subst hs
    split_ifs with heq hlt
    · unfold emit
      split
      · next hdesc => exact phase_matched hl hr hat hi hj hfake ⟨hi, hj, heq⟩ h hdesc
      · apply phase_full hat hi hj
        rcases h with ⟨hlist, -⟩ | hlost
        · exact ⟨i, j, ⟨hi, hj, heq⟩, fun hp => lt_irrefl i (hlist.before hl hr hp).1, by omega⟩
        · exact hlost.mono (by omega) (by omega)
    · refine .main (i + 1) j hpc (hat.nextLeft hi) ⟨getNext_fakeCount _ _, hfake.2⟩ ?_
      exact h.imp (fun h => ⟨h.1.skip_left hR hlt, h.2.congr rfl rfl⟩) fun h => h.mono (by omega) le_rfl
    · refine .main i (j + 1) hpc (hat.nextRight hj) ⟨hfake.1, getNext_fakeCount _ _⟩ ?_
      have hgt : keyOf R j < keyOf L i := by omega
      exact h.imp (fun h => ⟨h.1.skip_right hL hgt, h.2.congr rfl rfl⟩) fun h => h.mono le_rfl (by omega)
  · -- one of the cursors is behind its last position
    have hend : L.getSize ≤ i ∨ R.getSize ≤ j := by omega
    rw [step_main_end hat hpc hend, Option.some.injEq] at hs
    subst hs
    exact .returned i j rfl hend (h.imp (fun h => ⟨h.1, h.2.congr rfl rfl⟩) id)

omit hR in
theorem phase_fakeLeft {f : ℕ} (hat : At L R i j s) (hpc : s.pc = .fakeLeft)
    (hi : i < L.getSize) (hj : j < R.getSize) (hf : i + 2 ≤ f)
    (hfakeL : s.fakeL = ⟨.left, f * L.tupleSize⟩)
    (hfakeR : s.fakeR = ⟨.right, (j + 2) * R.tupleSize⟩)
    (h : f = i + 2 ∧ Matched L R outBytes i j s ∨ Skipped L R i j s.pairs)
    (hs : s.step caller () = some s') : Phase L R outBytes s' := by
  rw [step_fakeLeft hl hr hat hpc hj hfakeL] at hs
  by_cases hlt : f < L.getSize
  swap
  · simp [hlt] at hs
  rw [if_pos hlt, Option.some.injEq] at hs
  subst hs
  split_ifs with heq
  · -- then the neighbour at `i + 1` has this key too
    have hskip : Skipped L R i j s.pairs := by
      refine h.resolve_left fun ⟨hfi, hmatched⟩ => hmatched.left ⟨by omega, hj, ?_⟩
      have := hL i (i + 1) (by omega) (by omega)
      have := hL (i + 1) f (by omega) hlt
      have := hmatched.equal.2.2
      omega
    unfold emit
    split
    · refine .fakeLeft i j (i + 1 + (s.lfbItr.fakeCount + 1)) hpc
        (hat.congr rfl rfl rfl rfl rfl rfl) hi hj (by omega) ?_ hfakeR
        (Or.inr (hskip.add hl hr (Or.inl ⟨hf, rfl⟩)))
      simp [nextFakeL, combine, BufferIterator.getNextFake, hat.left, hat.lcur hi]
    · exact phase_full hat hi hj hskip.lost
  · refine .fakeRight i j rfl (hat.congr rfl rfl rfl rfl rfl rfl) hi hj (Or.inl hfakeR) ?_
    exact h.imp (fun ⟨hfi, hm⟩ =>
      ⟨hfakeR, by omega, hm.equal, hm.left, hm.right, hm.listed, hm.room.congr rfl rfl⟩) id

theorem phase_fakeRight (hat : At L R i j s) (hpc : s.pc = .fakeRight)
    (hi : i < L.getSize) (hj : j < R.getSize)
    (hfakeR : s.fakeR = ⟨.right, (j + 2) * R.tupleSize⟩ ∨ s.fakeR.side = .left)
    (h : s.fakeR = ⟨.right, (j + 2) * R.tupleSize⟩ ∧ i + 2 < L.getSize ∧
      Matched L R outBytes i j s ∨ Skipped L R i j s.pairs)
    (hs : s.step caller () = some s') : Phase L R outBytes s' := by
  rcases hfakeR with hfakeR | hstray
  · rw [step_fakeRight hl hr hat hpc hi hfakeR] at hs
    by_cases hlt : j + 2 < R.getSize
    swap
    · simp [hlt] at hs
    rw [if_pos hlt, Option.some.injEq] at hs
    subst hs
    split_ifs with heq
    · have hskip : Skipped L R i j s.pairs := by
        refine h.resolve_left fun ⟨_, _, hmatched⟩ => hmatched.right ⟨hi, by omega, ?_⟩
        have := hR j (j + 1) (by omega) (by omega)
        have := hR (j + 1) (j + 2) (by omega) hlt
        have := hmatched.equal.2.2
        omega
      unfold emit
      split
      · exact .fakeRight i j hpc (hat.congr rfl rfl rfl rfl rfl rfl) hi hj (Or.inr rfl)
          (Or.inr (hskip.add hl hr (Or.inr ⟨rfl, le_rfl⟩)))
      · exact phase_full hat hi hj hskip.lost
    · refine .main (i + 1) (j + 1) rfl (hat.nextBoth hi hj) (nextBoth_fake s) ?_
      rcases h with ⟨-, hi2, hm⟩ | hskip
      · obtain ⟨ps, hlist, hps⟩ := hm.listed
        have halone := hlist.alone hl hr hL hR hm.equal hi2 hlt hm.left hm.right
        refine Or.inl ⟨?_, hm.room.congr rfl rfl⟩
        change Listed L R (i + 1) (j + 1) s.pairs
        rw [hps]
        exact hlist.add hl hr halone
      · exact Or.inr hskip.lost
  · -- `fake_r` has left its partition
    have hskip : Skipped L R i j s.pairs :=
      h.resolve_left fun ⟨hright, _⟩ => by simp [hright] at hstray
    have hsl : s.l = some (pair L R i j).1 := by rw [hat.l, pointer, if_pos hi]; rfl
    simp only [step, hpc, hsl, Option.bind_some] at hs
    obtain ⟨c, -, rfl⟩ := Option.map_eq_some_iff.mp hs
    split_ifs
    · unfold emit
      split
      · exact .fakeRight i j hpc (hat.congr rfl rfl rfl rfl rfl rfl) hi hj (Or.inr rfl)
          (Or.inr (hskip.add_stray hstray))
      · exact phase_full hat hi hj hskip.lost
    · exact .main (i + 1) (j + 1) rfl (hat.nextBoth hi hj) (nextBoth_fake s) (Or.inr hskip.lost)

theorem step_phase (h : Phase L R outBytes s) (hs : s.step caller () = some s') :
    Phase L R outBytes s' := by
  cases h with
  | main i j hpc hat hfake h => exact phase_main hl hr hL hR hat hpc hfake h hs
  | fakeLeft i j f hpc hat hi hj hf hfakeL hfakeR h =>
    exact phase_fakeLeft hl hr hL hat hpc hi hj hf hfakeL hfakeR h hs
  | fakeRight i j hpc hat hi hj hfakeR h =>
    exact phase_fakeRight hl hr hL hR hat hpc hi hj hfakeR h hs
  | returned i j hpc => simp [step, hpc] at hs

omit hl hr hL hR in
theorem good_start (L R : Block) (outBytes : ℕ) (junk : ℕ → Memory) :
    Good L R outBytes 0 0 (start L R outBytes junk) :=
  ⟨listed_start, rfl, rfl, by simp [start, nextBoth, nextLeft, nextRight, Block.make],
    by simp [start, nextBoth, nextLeft, nextRight]⟩

omit hl hr hL hR in
theorem mem_equiPairs {p : JoinPtr × JoinPtr} :
    p ∈ equiPairs L R ↔ ∃ a b, p = pair L R a b ∧ Match L R a b := by
  simp only [equiPairs, List.mem_map, List.mem_filter, List.mem_product, List.mem_range,
    decide_eq_true_eq, Prod.exists]
  constructor
  · rintro ⟨a, b, ⟨-, hm⟩, rfl⟩
    exact ⟨a, b, rfl, hm⟩
  · rintro ⟨a, b, rfl, hm⟩
    exact ⟨a, b, ⟨⟨hm.1, hm.2.1⟩, hm⟩, rfl⟩

omit hL hR in
theorem nodup_equiPairs : (equiPairs L R).Nodup := by
  refine List.Nodup.map (fun p q h => ?_) ((List.nodup_range.product List.nodup_range).filter _)
  exact Prod.ext_iff.mpr ((pair_inj hl hr).mp h)

omit hL hR in
/-- Behind the last position of a side all pairs are before the cursors. -/
theorem Listed.perm (h : Listed L R i j s.pairs) (hend : L.getSize ≤ i ∨ R.getSize ≤ j) :
    s.pairs.Perm (equiPairs L R) := by
  rw [List.perm_ext_iff_of_nodup h.nodup (nodup_equiPairs hl hr)]
  intro p
  rw [mem_equiPairs]
  constructor
  · intro hp
    obtain ⟨a, b, rfl, halone, -⟩ := h.sound p hp
    exact ⟨a, b, rfl, halone.equal⟩
  · rintro ⟨a, b, rfl, hm⟩
    have := hm.1
    have := hm.2.1
    exact h.complete a b hm (by omega)

/-- Whoever combines exactly the pairs with equal keys met sparse ones that fit into a block. -/
theorem sparse_of_exact {junk : ℕ → Memory} (h : Exact caller L R outBytes junk) :
    Sparse L R ∧ (equiPairs L R).length * outBytes ≤ blockSize := by
  obtain ⟨k, s, hrun, hret, hperm⟩ := h
  have hphase : Phase L R outBytes s :=
    Runs.inv (fun _ _ _ h hs => step_phase hl hr hL hR h hs) hrun
      (.main 0 0 rfl (at_start L R outBytes junk) (nextBoth_fake _)
        (Or.inl (good_start L R outBytes junk)))
  cases hphase with
  | main _ _ hpc => simp [hpc] at hret
  | fakeLeft _ _ _ hpc => simp [hpc] at hret
  | fakeRight _ _ hpc => simp [hpc] at hret
  | returned i j _ hend h =>
    rcases h with ⟨hlist, hroom⟩ | ⟨a, b, hm, hnot, -⟩
    · refine ⟨sparse_iff.mpr fun a b hm => ?_, hperm.length_eq ▸ hroom.fits⟩
      have := hm.1
      have := hm.2.1
      obtain ⟨a', b', heq, halone, -⟩ := hlist.sound _ (hlist.complete a b hm (by omega))
      obtain ⟨rfl, rfl⟩ := (pair_inj hl hr).mp heq
      exact halone
    · exact absurd (hperm.mem_iff.mpr (mem_equiPairs.mpr ⟨a, b, rfl, hm⟩)) hnot

/-- From this state the loop ends with all pairs. -/
def Ends (caller : Caller) (L R : Block) (s : MergeJoin) : Prop :=
  ∃ k s', run (step caller) s (List.replicate k ()) = some s' ∧ s'.pc = .returned ∧
    s'.pairs.Perm (equiPairs L R)

omit hl hr hL hR in
theorem Ends.of_step {s₁ : MergeJoin} (hs : s.step caller () = some s₁) (h : Ends caller L R s₁) :
    Ends caller L R s := by
  obtain ⟨k, s', hrun, hret⟩ := h
  exact ⟨k + 1, s', run_cons.mpr ⟨s₁, hs, hrun⟩, hret⟩

omit hL hR in
theorem Good.allocate (h : Good L R outBytes i j s) (hm : Match L R i j)
    (hfits : (equiPairs L R).length * outBytes ≤ blockSize) :
    ∃ desc, s.block.allocateTuple = some desc := by
  obtain ⟨hlist, hroom⟩ := h
  have hnodup : (s.pairs ++ [pair L R i j]).Nodup :=
    hlist.nodup.append (List.nodup_singleton _)
      (by simpa using fun hp => lt_irrefl i (hlist.before hl hr hp).1)
  have hsub : s.pairs ++ [pair L R i j] ⊆ equiPairs L R := by
    intro p hp
    rcases List.mem_append.mp hp with hp | hp
    · obtain ⟨a, b, rfl, halone, -⟩ := hlist.sound p hp
      exact mem_equiPairs.mpr ⟨a, b, rfl, halone.equal⟩
    · exact mem_equiPairs.mpr ⟨i, j, List.mem_singleton.mp hp, hm⟩
  have hle : s.pairs.length + 1 ≤ (equiPairs L R).length := by
    simpa using (List.subperm_of_subset hnodup hsub).length_le
  refine ⟨s.block.free, Block.allocateTuple_eq_some.mpr ⟨?_, rfl⟩⟩
  rw [hroom.free, hroom.size, hroom.tuple, ← Nat.succ_mul]
  exact (Nat.mul_le_mul_right _ hle).trans hfits

omit hL hR in
/-- The fake cursors find no other tuple with the key of a pair that is alone. -/
theorem Ends.of_fakes (hat : At L R i j s) (hpc : s.pc = .fakeLeft) (halone : Alone L R i j)
    (hfakeL : s.fakeL = ⟨.left, (i + 2) * L.tupleSize⟩)
    (hfakeR : s.fakeR = ⟨.right, (j + 2) * R.tupleSize⟩)
    (h : Ends caller L R (nextBoth { s with pc := .fakeRight })) : Ends caller L R s := by
  obtain ⟨hi, hj, -⟩ := halone.equal
  have hneL : keyOf L (i + 2) ≠ keyOf R j := fun hk => by
    have := halone.only_left (i + 2) ⟨halone.left, hj, hk⟩
    omega
  have hneR : keyOf L i ≠ keyOf R (j + 2) := fun hk => by
    have := halone.only_right (j + 2) ⟨hi, halone.right, hk⟩
    omega
  have hleft : s.step caller () = some { s with pc := .fakeRight } := by
    rw [step_fakeLeft hl hr hat hpc hj hfakeL, if_pos halone.left, if_neg hneL]
  have hat' : At L R i j { s with pc := .fakeRight } := hat.congr rfl rfl rfl rfl rfl rfl
  have hright : step caller { s with pc := .fakeRight } () =
      some (nextBoth { s with pc := .fakeRight }) := by
    rw [step_fakeRight hl hr hat' rfl hi hfakeR, if_pos halone.right, if_neg hneR]
  exact .of_step hleft (.of_step hright h)

omit hl hr hL hR in
/-- The next round starts with the pair combined. -/
theorem Good.next {desc : ℕ} (h : Good L R outBytes i j s)
    (hdesc : s.block.allocateTuple = some desc)
    (hlist : Listed L R (i + 1) (j + 1) (s.pairs ++ [pair L R i j])) :
    Good L R outBytes (i + 1) (j + 1)
      (nextBoth { matched L R i j desc s with pc := .fakeRight }) := by
  have hroom : Room outBytes (s.combine desc (pair L R i j).1 (pair L R i j).2) :=
    h.2.combine hdesc
  exact ⟨hlist, hroom.congr rfl rfl⟩

theorem ends_of_sparse (hsparse : Sparse L R)
    (hfits : (equiPairs L R).length * outBytes ≤ blockSize) (m : ℕ) {i j : ℕ} {s : MergeJoin}
    (hm : L.getSize - i + (R.getSize - j) < m) (hpc : s.pc = .main) (hat : At L R i j s)
    (hfake : s.lfbItr.fakeCount = 0 ∧ s.rfbItr.fakeCount = 0) (h : Good L R outBytes i j s) :
    Ends caller L R s := by
  induction m generalizing i j s with
  | zero => omega
  | succ m ih =>
    by_cases hij : i < L.getSize ∧ j < R.getSize
    swap
    · have hend : L.getSize ≤ i ∨ R.getSize ≤ j := by omega
      exact ⟨1, _, run_cons.mpr ⟨_, step_main_end hat hpc hend, rfl⟩, rfl, h.1.perm hl hr hend⟩
    obtain ⟨hi, hj⟩ := hij
    have hstep : s.step caller () = _ := step_main hl hr hat hpc hi hj
    rcases lt_trichotomy (keyOf L i) (keyOf R j) with hlt | heq | hgt
    · rw [if_neg hlt.ne, if_pos hlt] at hstep
      exact .of_step hstep (ih (by omega) hpc (hat.nextLeft hi)
        ⟨getNext_fakeCount _ _, hfake.2⟩ ⟨h.1.skip_left hR hlt, h.2.congr rfl rfl⟩)
    · have halone := sparse_iff.mp hsparse i j ⟨hi, hj, heq⟩
      obtain ⟨desc, hdesc⟩ := h.allocate hl hr halone.equal hfits
      obtain ⟨hfakeL, hfakeR⟩ := matched_fakes hat hi hj hfake desc
      have hat' : At L R i j (matched L R i j desc s) := hat.congr rfl rfl rfl rfl rfl rfl
      rw [if_pos heq, emit, hdesc] at hstep
      refine .of_step hstep (.of_fakes hl hr hat' rfl halone hfakeL hfakeR ?_)
      have hat'' : At L R i j { matched L R i j desc s with pc := .fakeRight } :=
        hat'.congr rfl rfl rfl rfl rfl rfl
      exact ih (by omega) rfl (hat''.nextBoth hi hj) (nextBoth_fake _)
        (h.next hdesc (h.1.add hl hr halone))
    · rw [if_neg hgt.ne', if_neg hgt.le.not_gt] at hstep
      exact .of_step hstep (ih (by omega) hpc (hat.nextRight hj)
        ⟨hfake.1, getNext_fakeCount _ _⟩ ⟨h.1.skip_right hL hgt, h.2.congr rfl rfl⟩)

/-- The loop combines exactly the pairs with equal keys, whoever runs it, if and only if every
common key is found once on each side and before the last two positions, and the pairs fit into
one block. -/
theorem exact_iff (caller : Caller) (outBytes : ℕ) (junk : ℕ → Memory) :
    Exact caller L R outBytes junk ↔
      Sparse L R ∧ (equiPairs L R).length * outBytes ≤ blockSize := by
  refine ⟨sparse_of_exact hl hr hL hR, fun ⟨hsparse, hfits⟩ => ?_⟩
  exact ends_of_sparse hl hr hL hR hsparse hfits _ (Nat.lt_succ_self _) rfl
    (at_start L R outBytes junk) (nextBoth_fake _) (good_start L R outBytes junk)

end Phase

/-- A partition of tuples of two longs, the second ones being the keys. -/
def ofKeys (ks : List UInt8) : Block where
  start i := if i = 16 * ks.length then UInt8.ofNat ks.length
    else if i % 16 = 8 then ks.getD (i / 16) 0 else 0
  free := 0
  size := 16 * ks.length + 4
  tupleSize := 16

private theorem sorted_ofKeys {ks : List UInt8} (hsize : (ofKeys ks).getSize = ks.length)
    (h : ∀ j < ks.length, ∀ i ≤ j, keyOf (ofKeys ks) i ≤ keyOf (ofKeys ks) j) :
    SortedBlock (ofKeys ks) := fun i j hij hj => h j (hsize ▸ hj) i hij

/-- One common key, in front. -/
theorem exact_one_key : Exact .gatherMerge (ofKeys [1, 2, 3]) (ofKeys [1, 4, 5]) 32 fun _ _ => 0 := by
  have hL : SortedBlock (ofKeys [1, 2, 3]) := sorted_ofKeys (by decide) (by decide)
  have hR : SortedBlock (ofKeys [1, 4, 5]) := sorted_ofKeys (by decide) (by decide)
  refine (exact_iff (by decide) (by decide) hL hR _ _ _).mpr ⟨?_, by decide +kernel⟩
  have hall : ∀ i < 3, ∀ j < 3, Match (ofKeys [1, 2, 3]) (ofKeys [1, 4, 5]) i j → i = 0 ∧ j = 0 := by
    decide +kernel
  have hzero (i j : ℕ) (hm : Match (ofKeys [1, 2, 3]) (ofKeys [1, 4, 5]) i j) : i = 0 ∧ j = 0 :=
    hall i hm.1 j hm.2.1 hm
  intro i j hm
  obtain ⟨rfl, rfl⟩ := hzero i j hm
  exact ⟨by decide, by decide, fun i' h => (hzero i' 0 h).1, fun j' h => (hzero 0 j' h).2⟩

/-- The second of two equal keys is passed over: the loop ends with one pair of two. -/
theorem exact_two_keys_fails :
    SortedBlock (ofKeys [1, 1, 2, 3]) ∧ SortedBlock (ofKeys [1, 4, 5]) ∧
      (run (step .gatherMerge) (start (ofKeys [1, 1, 2, 3]) (ofKeys [1, 4, 5]) 32 fun _ _ => 0)
        (List.replicate 7 ())).map (fun s => (s.pc, s.pairs)) =
          some (.returned, [pair (ofKeys [1, 1, 2, 3]) (ofKeys [1, 4, 5]) 0 0]) ∧
      ∀ caller, ¬ Exact caller (ofKeys [1, 1, 2, 3]) (ofKeys [1, 4, 5]) 32 fun _ _ => 0 := by
  have hL : SortedBlock (ofKeys [1, 1, 2, 3]) := sorted_ofKeys (by decide) (by decide)
  have hR : SortedBlock (ofKeys [1, 4, 5]) := sorted_ofKeys (by decide) (by decide)
  refine ⟨hL, hR, by decide +kernel, fun caller h => ?_⟩
  have hsparse := (sparse_of_exact (by decide) (by decide) hL hR h).1
  have hfirst : Match (ofKeys [1, 1, 2, 3]) (ofKeys [1, 4, 5]) 0 0 := by decide +kernel
  have hsecond : Match (ofKeys [1, 1, 2, 3]) (ofKeys [1, 4, 5]) 1 0 := by decide +kernel
  exact absurd ((hsparse 0 0 hfirst).2.2.1 1 hsecond) (by decide)

end MergeJoin
end Mosito
