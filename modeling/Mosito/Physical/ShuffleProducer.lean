import Mosito.Physical.SortProducer

/-! What the blocks of the ordered shuffle announce, in all of its runs. -/
namespace Mosito
open ByteStore ShuffleLower

namespace ShuffleLower
open Runs KWayMerge

/-- A run of `execute` with the tuples stored into each buffer since its last reset, and all
data blocks that `put` accepted with the tuples stored into them. -/
structure Traced where
  state : ShuffleLower
  held : ℕ → List Tuple
  sent : List (List Tuple × Image)

namespace Traced

def start (s : ShuffleLower) : Traced := ⟨s, fun _ => [], []⟩

/-- The tuples that the gather phase stores for destination `i`. -/
def taken (s : ShuffleLower) (i : ℕ) : List Tuple :=
  if i < s.n ∧ (s.buffers i).empty ∧ s.newRanges i ≠ [] then
    (s.newRanges i).take ((s.buffers i).fill (s.newRanges i)).2
  else []

/-- The block of destination `i` as it is put, when its buffer is not empty. -/
def record (i : ℕ) (tr : Traced) : List (List Tuple × Image) :=
  tr.sent ++ [(tr.held i, ((tr.state.buffers i).assembling blockSize tr.state.totalsize).image)]

/-- A step of `execute`, recorded. The send phase resets an accepted buffer, the flush a
refused one. -/
def step (tr : Traced) (accepted : Bool) : Option Traced :=
  (tr.state.step accepted).map fun s =>
    match tr.state.pc with
    | .gather => { tr with state := s, held := fun i => tr.held i ++ taken tr.state i }
    | .send i =>
        if i < tr.state.n ∧ (tr.state.buffers i).empty = false ∧ accepted = true then
          ⟨s, Function.update tr.held i [], tr.record i⟩
        else { tr with state := s }
    | .flush i =>
        if i < tr.state.n ∧ (tr.state.buffers i).empty = false then
          if accepted then { tr with state := s, sent := tr.record i }
          else { tr with state := s, held := Function.update tr.held i [] }
        else { tr with state := s }
    | _ => { tr with state := s }

end Traced

/-- What even shares keep: the buffers hold what they will announce. -/
structure Evenly (t : ℕ) (tr : Traced) : Prop where
  totalsize : tr.state.totalsize = t
  held : tr.state.pc.closing = false → ∀ i < tr.state.n, Held t (tr.state.buffers i) (tr.held i)
  rest : ∀ i < tr.state.n, FillsEvenly t (tr.state.newRanges i).length ∧
    ∀ x ∈ tr.state.newRanges i, x.length = t
  sent : ∀ x ∈ tr.sent, Truthful t x.2 x.1

section Evenly
variable {t i : ℕ} {tr tr' : Traced} {accepted : Bool} (ht : 0 < t)

include ht in
/-- A buffer that is not empty makes a truthful block. -/
theorem Evenly.record (h : Evenly t tr) (hi : i < tr.state.n) (hpc : tr.state.pc.closing = false)
    (hempty : (tr.state.buffers i).empty = false) : ∀ x ∈ tr.record i, Truthful t x.2 x.1 := by
  intro x hx
  rcases List.mem_append.mp hx with hx | hx
  · exact h.sent x hx
  · rw [List.mem_singleton.mp hx, h.totalsize]
    have hheld := h.held hpc i hi
    apply (truthful_assembling hheld.stored hheld.size hheld.tupleSize).mpr
    apply hheld.full.resolve_left
    intro hnil
    rw [(hheld.empty_iff ht).mpr hnil] at hempty
    cases hempty

/-- The gather phase keeps the shares even. -/
theorem Evenly.gather (h : Evenly t tr) (hpc : tr.state.pc.closing = false) (ht : 0 < t)
    (hi : i < tr.state.n) :
    Held t ((tr.state.gather tr.state.n).buffers i) (tr.held i ++ Traced.taken tr.state i) ∧
      FillsEvenly t ((tr.state.gather tr.state.n).newRanges i).length ∧
      ∀ x ∈ (tr.state.gather tr.state.n).newRanges i, x.length = t := by
  obtain ⟨hbuf, hrange⟩ := gather_at tr.state tr.state.n i
  have hheld := h.held hpc i hi
  obtain ⟨heven, hsizes⟩ := h.rest i hi
  rw [hbuf, hrange, Traced.taken]
  split
  · next hfill =>
    have hk : (tr.state.newRanges i).length ≠ 0 := by simpa using hfill.2.2
    have heven' := heven.resolve_left hk
    have hpos := heven'.announced_pos hk
    have hnil := (hheld.empty_iff ht).mp hfill.2.1
    rw [hnil] at hheld ⊢
    obtain ⟨htaken, hnew⟩ := hheld.fill hfill.2.2 hpos hsizes heven'
    rw [htaken, List.nil_append]
    refine ⟨hnew, ?_, fun x hx => hsizes x (List.mem_of_mem_drop hx)⟩
    rw [List.length_drop]
    exact heven'.drop.symm
  · rw [List.append_nil]
    exact ⟨hheld, heven, hsizes⟩

/-- A step that leaves the ranges alone and changes at most the buffer of destination `i`. -/
theorem Evenly.move (h : Evenly t tr) {s : ShuffleLower} {held : ℕ → List Tuple}
    {sent : List (List Tuple × Image)} (hn : s.n = tr.state.n)
    (htotal : s.totalsize = tr.state.totalsize) (hranges : s.newRanges = tr.state.newRanges)
    (hpc : s.pc.closing = false → tr.state.pc.closing = false)
    (hother : ∀ j, j ≠ i → s.buffers j = tr.state.buffers j ∧ held j = tr.held j)
    (hheld : s.pc.closing = false → Held t (tr.state.buffers i) (tr.held i) →
      Held t (s.buffers i) (held i)) (hsent : ∀ x ∈ sent, Truthful t x.2 x.1) :
    Evenly t ⟨s, held, sent⟩ := by
  refine ⟨htotal.trans h.totalsize, fun hc j hj => ?_, fun j hj => ?_, hsent⟩
  · change Held t (s.buffers j) (held j)
    have hold := h.held (hpc hc) j (hn ▸ hj)
    by_cases hji : j = i
    · subst hji
      exact hheld hc hold
    · rw [(hother j hji).1, (hother j hji).2]
      exact hold
  · change FillsEvenly t (s.newRanges j).length ∧ ∀ x ∈ s.newRanges j, x.length = t
    rw [hranges]
    exact h.rest j (hn ▸ hj)

theorem Evenly.jump (h : Evenly t tr) (hopen : tr.state.pc.closing = false) (pc : ShufflePc) :
    Evenly t { tr with state := tr.state.goto pc } :=
  h.move (i := 0) rfl rfl rfl (fun _ => hopen) (fun _ _ => ⟨rfl, rfl⟩) (fun _ hh => hh) h.sent

theorem Evenly.step (ht : 0 < t) (h : Evenly t tr) (hstep : tr.step accepted = some tr') :
    Evenly t tr' := by
  obtain ⟨s, hs, rfl⟩ := Option.map_eq_some_iff.mp hstep
  clear hstep
  cases hpc : tr.state.pc with
  | gather =>
    have hopen : tr.state.pc.closing = false := by rw [hpc]; rfl
    obtain ⟨hn, htotal, -⟩ := gather_frame tr.state tr.state.n
    simp only [ShuffleLower.step, hpc, Option.some.injEq] at hs
    subst hs
    have hlane (i : ℕ) (hi : i < (tr.state.gather tr.state.n).n) :=
      h.gather hopen ht (show i < tr.state.n by rw [← hn]; exact hi)
    exact ⟨htotal.trans h.totalsize, fun _ i hi => (hlane i hi).1, fun i hi => (hlane i hi).2,
      h.sent⟩
  | send i =>
    have hopen : tr.state.pc.closing = false := by rw [hpc]; rfl
    simp only [ShuffleLower.step, hpc] at hs
    split_ifs at hs with hlast hempty hacc <;> rw [Option.some.injEq] at hs <;> subst hs <;>
      dsimp only
    · rw [if_neg (by omega)]
      exact h.jump hopen _
    · rw [if_neg (by simp [hempty])]
      exact h.jump hopen _
    · rw [if_pos ⟨by omega, by simpa using hempty, hacc⟩]
      refine h.move (i := i) rfl rfl rfl (fun _ => hopen) (fun j hj => ?_) (fun _ hh => ?_)
        (h.record ht (by omega) hopen (by simpa using hempty))
      · simp [goto, setBuffer, enqueue, assemble, hj]
      · simpa [goto, setBuffer, enqueue, assemble, h.totalsize] using hh.assembling.reset
    · rw [if_neg (by simp [hacc])]
      refine h.move (i := i) rfl rfl rfl (fun _ => hopen) (fun j hj => ?_) (fun _ hh => ?_) h.sent
      · simp [goto, setBuffer, assemble, hj]
      · simpa [goto, setBuffer, assemble, h.totalsize] using hh.assembling
  | check =>
    have hopen : tr.state.pc.closing = false := by rw [hpc]; rfl
    simp only [ShuffleLower.step, hpc] at hs
    split_ifs at hs with hoks <;> rw [Option.some.injEq] at hs <;> subst hs <;> dsimp only
    · exact h.jump hopen _
    · exact h.jump hopen _
  | flush i =>
    have hopen : tr.state.pc.closing = false := by rw [hpc]; rfl
    simp only [ShuffleLower.step, hpc] at hs
    split_ifs at hs with hlast hempty hacc <;> rw [Option.some.injEq] at hs <;> subst hs <;>
      dsimp only
    · rw [if_neg (by omega)]
      exact h.jump hopen _
    · rw [if_neg (by simp [hempty])]
      exact h.move (i := i) rfl rfl rfl (fun _ => hopen) (fun _ _ => ⟨rfl, rfl⟩) (fun _ hh => hh)
        h.sent
    · rw [if_pos ⟨by omega, by simpa using hempty⟩, if_pos hacc]
      refine h.move (i := i) rfl rfl rfl (fun _ => hopen) (fun j hj => ?_) (fun _ hh => ?_)
        (h.record ht (by omega) hopen (by simpa using hempty))
      · simp [goto, setBuffer, enqueue, assemble, hj]
      · simpa [goto, setBuffer, enqueue, assemble, h.totalsize] using hh.assembling
    · rw [if_pos ⟨by omega, by simpa using hempty⟩, if_neg hacc]
      refine h.move (i := i) rfl rfl rfl (fun _ => hopen) (fun j hj => ?_) (fun _ hh => ?_) h.sent
      · simp [goto, setBuffer, setOk, assemble, hj]
      · simpa [goto, setBuffer, setOk, assemble, h.totalsize] using hh.assembling.reset
  | close i =>
    simp only [ShuffleLower.step, hpc] at hs
    split_ifs at hs with hlast hacc <;> rw [Option.some.injEq] at hs <;> subst hs <;> dsimp only
    all_goals
      refine h.move (i := i) rfl rfl rfl ?_ (fun j hj => ?_) ?_ h.sent
      · simp [goto, setBuffer, enqueue, hpc]
      · simp [goto, setBuffer, enqueue, hj]
      · simp [goto, setBuffer, enqueue, hpc]
  | returned => simp [ShuffleLower.step, hpc] at hs

end Evenly

section Uneven
variable {t i j : ℕ} {s : ShuffleLower} {tr tr' : Traced}

/-- A range that becomes empty is counted once; one that was never filled not at all. -/
def Emptied (s : ShuffleLower) : Prop :=
  s.emptys ≤ exhausted s.n s.newRanges ∧ (s.oneEmpty = true → ∀ i < s.n, s.newRanges i = [])

theorem Emptied.gatherOne (h : Emptied s) (hi : i < s.n) : Emptied (s.gatherOne i) := by
  unfold ShuffleLower.gatherOne
  split_ifs with hfill
  swap
  · exact h
  have hcard := exhausted_update hi hfill.2
    ((s.newRanges i).drop ((s.buffers i).fill (s.newRanges i)).2)
  have hmost := exhausted_le s.n (Function.update s.newRanges i
    ((s.newRanges i).drop ((s.buffers i).fill (s.newRanges i)).2))
  have hcount := h.1
  refine ⟨?_, fun hone j hj => ?_⟩
  · dsimp only
    rw [hcard]
    split_ifs <;> omega
  · simp only [Bool.or_eq_true, Bool.and_eq_true, decide_eq_true_eq] at hone
    rcases hone with hone | ⟨hrest, hall⟩
    · exact absurd (h.2 hone i hi) hfill.2
    · rw [if_pos hrest] at hcard
      refine total_eq_nil_iff.mp (exhausted_eq_iff.mp ?_) j hj
      dsimp only
      omega

theorem Emptied.gather (h : Emptied s) (k : ℕ) (hk : k ≤ s.n) : Emptied (s.gather k) := by
  induction k with
  | zero => exact h
  | succ k ih =>
    apply (ih (by omega)).gatherOne
    rw [(gather_frame s k).1]
    omega

/-- What the steps for other destinations leave as it is. -/
structure Same (i : ℕ) (tr tr' : Traced) : Prop where
  n : tr'.state.n = tr.state.n
  totalsize : tr'.state.totalsize = tr.state.totalsize
  newRanges : tr'.state.newRanges = tr.state.newRanges
  emptys : tr'.state.emptys = tr.state.emptys
  oneEmpty : tr'.state.oneEmpty = tr.state.oneEmpty
  ok : tr'.state.oks i = tr.state.oks i
  buffer : tr'.state.buffers i = tr.state.buffers i
  held : tr'.held i = tr.held i

theorem Same.trans {tr'' : Traced} (h : Same i tr tr') (h' : Same i tr' tr'') : Same i tr tr'' :=
  ⟨h'.n.trans h.n, h'.totalsize.trans h.totalsize, h'.newRanges.trans h.newRanges,
    h'.emptys.trans h.emptys, h'.oneEmpty.trans h.oneEmpty, h'.ok.trans h.ok,
    h'.buffer.trans h.buffer, h'.held.trans h.held⟩

theorem send_other (hpc : tr.state.pc = .send j) (hj : j < tr.state.n) (hne : j ≠ i) :
    ∃ tr', tr.step true = some tr' ∧ tr'.state.pc = .send (j + 1) ∧ Same i tr tr' := by
  have hj' : ¬ tr.state.n ≤ j := Nat.not_le.mpr hj
  simp only [Traced.step, ShuffleLower.step, hpc, if_neg hj', hj, true_and, and_true, ↓reduceIte]
  cases hempty : (tr.state.buffers j).empty with
  | true => exact ⟨_, rfl, rfl, rfl, rfl, rfl, rfl, rfl, rfl, rfl, rfl⟩
  | false =>
    refine ⟨_, rfl, rfl, rfl, rfl, rfl, rfl, rfl, rfl, ?_, ?_⟩
    · simp [goto, setBuffer, enqueue, assemble, hne.symm]
    · simp [hne.symm]

/-- A loop of `execute` goes through `k` other destinations. -/
theorem pass_others {loop : ℕ → ShufflePc}
    (hloop : ∀ tr : Traced, ∀ j, tr.state.pc = loop j → j < tr.state.n → j ≠ i →
      ∃ tr', tr.step true = some tr' ∧ tr'.state.pc = loop (j + 1) ∧ Same i tr tr')
    (k : ℕ) (hpc : tr.state.pc = loop j) (hk : ∀ m, j ≤ m → m < j + k → m < tr.state.n ∧ m ≠ i) :
    ∃ outcomes tr', run Traced.step tr outcomes = some tr' ∧ tr'.state.pc = loop (j + k) ∧
      Same i tr tr' := by
  induction k generalizing tr j with
  | zero => exact ⟨[], tr, rfl, hpc, rfl, rfl, rfl, rfl, rfl, rfl, rfl, rfl⟩
  | succ k ih =>
    obtain ⟨hj, hne⟩ := hk j le_rfl (by omega)
    obtain ⟨tr₁, hstep, hpc₁, hsame⟩ := hloop tr j hpc hj hne
    obtain ⟨outcomes, tr₂, hrun, hpc₂, hsame₂⟩ := ih hpc₁ fun m hle hlt => by
      rw [hsame.n]
      exact hk m (by omega) (by omega)
    refine ⟨true :: outcomes, tr₂, run_cons.mpr ⟨tr₁, hstep, hrun⟩, ?_, hsame.trans hsame₂⟩
    rw [hpc₂]
    congr 1
    omega

/-- The tuples `q` were stored into the buffer of destination `i`, which waits to be put. -/
structure Loaded (t i : ℕ) (q : List Tuple) (tr : Traced) : Prop where
  index : i < tr.state.n
  totalsize : tr.state.totalsize = t
  ok : tr.state.oks i = false
  held : tr.held i = q
  full : (tr.state.buffers i).empty = false
  stored : (tr.state.buffers i).Stored q
  size : (tr.state.buffers i).size = blockSize
  tupleSize : (tr.state.buffers i).tupleSize = t

theorem Loaded.same {q : List Tuple} (h : Loaded t i q tr) (hs : Same i tr tr') :
    Loaded t i q tr' := by
  refine ⟨by rw [hs.n]; exact h.index, hs.totalsize.trans h.totalsize, hs.ok.trans h.ok,
    hs.held.trans h.held, ?_, ?_, ?_, ?_⟩
  all_goals rw [hs.buffer]
  exacts [h.full, h.stored, h.size, h.tupleSize]

/-- The step that puts the buffer of destination `i`. -/
theorem Loaded.put {q : List Tuple} (h : Loaded t i q tr)
    (hpc : tr.state.pc = .send i ∨ tr.state.pc = .flush i) :
    ∃ tr', tr.step true = some tr' ∧ tr'.sent = tr.record i := by
  have hi : ¬ tr.state.n ≤ i := Nat.not_le.mpr h.index
  rcases hpc with hpc | hpc
  · simp only [Traced.step, ShuffleLower.step, hpc, if_neg hi, h.full, Bool.false_eq_true,
      ↓reduceIte, Option.map_some, h.index, and_self]
    exact ⟨_, rfl, rfl⟩
  · simp only [Traced.step, ShuffleLower.step, hpc, if_neg hi, h.full, Bool.false_eq_true,
      ↓reduceIte, Option.map_some, h.index, and_self]
    exact ⟨_, rfl, rfl⟩

/-- The send phase resets the buffer of destination `i`, whose put succeeds, and ends. -/
theorem Loaded.accepted {q : List Tuple} (h : Loaded t i q tr) (hpc : tr.state.pc = .send i) :
    ∃ outcomes tr', run Traced.step tr outcomes = some tr' ∧ tr'.state.pc = .gather ∧
      tr'.state.buffers i = ((tr.state.buffers i).assembling blockSize t).reset ∧
      tr'.held i = [] ∧ tr'.state.n = tr.state.n ∧ tr'.state.totalsize = tr.state.totalsize ∧
      tr'.state.newRanges = tr.state.newRanges ∧ tr'.state.emptys = tr.state.emptys ∧
      tr'.state.oneEmpty = tr.state.oneEmpty ∧ tr'.state.oks i = tr.state.oks i := by
  have hi : ¬ tr.state.n ≤ i := Nat.not_le.mpr h.index
  let s₁ := (((tr.state.assemble i).enqueue i).setBuffer i
    ((tr.state.assemble i).buffers i).reset).goto (.send (i + 1))
  let tr₁ : Traced := ⟨s₁, Function.update tr.held i [], tr.record i⟩
  have hstep : tr.step true = some tr₁ := by
    simp only [Traced.step, ShuffleLower.step, hpc, if_neg hi, h.full, Bool.false_eq_true,
      ↓reduceIte, Option.map_some, h.index, and_self]
    rfl
  obtain ⟨outcomes, tr₂, hrun, hpc₂, hsame⟩ := pass_others (i := i) (fun _ _ => send_other)
    (tr.state.n - (i + 1)) (show tr₁.state.pc = .send (i + 1) from rfl)
    fun m hle hlt => ⟨show m < tr.state.n by omega, by omega⟩
  have hlast : tr₂.state.n ≤ i + 1 + (tr.state.n - (i + 1)) := by
    rw [hsame.n]
    change tr.state.n ≤ _
    omega
  have hdone : tr₂.step true = some { tr₂ with state := tr₂.state.goto .gather } := by
    simp only [Traced.step, ShuffleLower.step, hpc₂, if_pos hlast, Option.map_some]
    rw [if_neg fun hlt => Nat.not_lt.mpr hlast hlt.1]
  refine ⟨true :: (outcomes ++ [true]), { tr₂ with state := tr₂.state.goto .gather },
    run_cons.mpr ⟨tr₁, hstep, ?_⟩, rfl, ?_, ?_, hsame.n, hsame.totalsize, hsame.newRanges,
    hsame.emptys, hsame.oneEmpty, hsame.ok⟩
  · rw [run_append, hrun, Option.bind_some]
    exact run_cons.mpr ⟨_, hdone, rfl⟩
  · refine hsame.buffer.trans ?_
    simp [tr₁, s₁, goto, setBuffer, assemble, h.totalsize]
  · refine hsame.held.trans ?_
    simp [tr₁]

/-- Before a gather phase: the buffer of destination `i` is empty, and its tuples do not fill
blocks evenly. -/
structure Uneven (t i : ℕ) (tr : Traced) : Prop where
  pc : tr.state.pc = .gather
  index : i < tr.state.n
  totalsize : tr.state.totalsize = t
  emptied : Emptied tr.state
  ok : tr.state.oks i = false
  held : tr.held i = []
  buffer : Held t (tr.state.buffers i) []
  uneven : ¬ FillsEvenly t (tr.state.newRanges i).length
  sizes : ∀ x ∈ tr.state.newRanges i, x.length = t

/-- The tuples behind a first full block do not fill blocks evenly if all of them do not. -/
theorem fillsEvenly_of_sub {k : ℕ} (hcap : capacity t = announced t) (hle : announced t ≤ k)
    (h : FillsEvenly t (k - announced t)) : FillsEvenly t k := by
  refine Or.inr (Or.inl ⟨hcap, ?_⟩)
  rw [hcap, ← Nat.sub_add_cancel hle]
  refine Nat.dvd_add ?_ dvd_rfl
  rcases h with hzero | ⟨-, hdvd⟩ | heq
  · rw [hzero]
    exact dvd_zero _
  · rwa [hcap] at hdvd
  · rw [heq]

/-- The state after the gather phase, at `pc`. -/
def Traced.gathered (pc : ShufflePc) (tr : Traced) : Traced :=
  ⟨(tr.state.gather tr.state.n).goto pc, fun i => tr.held i ++ taken tr.state i, tr.sent⟩

/-- The gather phase fills the buffer; if it then holds what it announces, tuples are left, and
they do not fill blocks evenly either. -/
theorem Uneven.fill (h : Uneven t i tr) (ht : 0 < t) (hle : t ≤ blockSize) (pc : ShufflePc) :
    ∃ m, (tr.state.gather tr.state.n).newRanges i = (tr.state.newRanges i).drop m ∧ 0 < m ∧
      Loaded t i ((tr.state.newRanges i).take m) (tr.gathered pc) ∧
      (((tr.state.newRanges i).take m).length = announced t →
        ¬ FillsEvenly t ((tr.state.newRanges i).drop m).length) := by
  obtain ⟨hbuf, hrange⟩ := gather_at tr.state tr.state.n i
  obtain ⟨hn, htotal, -⟩ := gather_frame tr.state tr.state.n
  have hne : tr.state.newRanges i ≠ [] := fun hnil => h.uneven (Or.inl (by rw [hnil]; rfl))
  have hfill := And.intro h.index (And.intro ((h.buffer.empty_iff ht).mpr rfl) hne)
  rw [if_pos hfill] at hbuf hrange
  have hsizes : ∀ x ∈ tr.state.newRanges i, x.length = (tr.state.buffers i).tupleSize := by
    rw [h.buffer.tupleSize]
    exact h.sizes
  obtain ⟨hst, hlen⟩ := Block.fill_stored h.buffer.stored hsizes
  obtain ⟨hsize, htup⟩ := Block.fill_size (tr.state.buffers i) (tr.state.newRanges i)
  have hcount := List.length_take_of_le hlen
  rw [h.buffer.size, ← hbuf] at hsize
  rw [h.buffer.tupleSize, ← hbuf] at htup
  rw [List.nil_append, ← hbuf] at hst
  have hstop : ((tr.state.buffers i).fill (tr.state.newRanges i)).2 = capacity t ∨
      ((tr.state.buffers i).fill (tr.state.newRanges i)).2 = (tr.state.newRanges i).length := by
    rcases Block.fill_stops (tr.state.buffers i) (tr.state.newRanges i) with hfull | hall
    · left
      rw [← hcount, hst.full_length (by rwa [hbuf]), hsize, htup, capacity]
    · exact Or.inr hall
  have hpos : 0 < ((tr.state.buffers i).fill (tr.state.newRanges i)).2 := by
    have hcap : 0 < capacity t := Nat.div_pos hle ht
    have hlen := List.length_pos_iff.mpr hne
    omega
  refine ⟨_, hrange, hpos, ⟨hn ▸ h.index, htotal.trans h.totalsize, ?_, ?_, ?_, hst, hsize, htup⟩,
    fun heq heven => h.uneven ?_⟩
  · change (tr.state.gather tr.state.n).oks i = false
    rw [gather_oks]
    exact h.ok
  · change tr.held i ++ Traced.taken tr.state i = _
    rw [h.held, Traced.taken, if_pos hfill, List.nil_append]
  · change ((tr.state.gather tr.state.n).buffers i).empty = false
    rw [Block.empty, decide_eq_false_iff_not, hst.free_eq, hcount, htup]
    exact (Nat.mul_pos hpos ht).ne'
  · rw [hcount] at heq
    rw [List.length_drop, heq] at heven
    rcases hstop with hcap | hall
    · exact fillsEvenly_of_sub (hcap.symm.trans heq) (heq ▸ hlen) heven
    · exact Or.inr (Or.inr (hall.symm.trans heq))

end Uneven

section Shares
variable {t n i : ℕ} {sort : List Tuple → List Tuple}

end Shares

end ShuffleLower

end Mosito
