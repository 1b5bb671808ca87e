import Mosito.Analysis.KM

/-! The labels between two searches for one row. -/
namespace Mosito
open Assignment
namespace KM

section Labels
variable {s s' s₀ : KM} {x : ℕ} {found : Bool} {done : List ℕ} {B : ℤ}

/-- `d` is the least slack of the columns that are not visited, or `INF`. -/
theorem minSlack_spec (s : KM) :
    (∀ j ∈ s.columns, s.visy j = false → s.minSlack ≤ s.slack j) ∧
      (s.minSlack = inf ∨ ∃ j ∈ s.columns, s.visy j = false ∧ s.minSlack = s.slack j) := by
  have hbest (d : ℤ) (i : ℕ) :
      (if s.visy i = false ∧ d > s.slack i then s.slack i else d) ≤ d ∧
        (s.visy i = false →
          (if s.visy i = false ∧ d > s.slack i then s.slack i else d) ≤ s.slack i) := by
    split_ifs with hless
    · exact ⟨hless.2.le, fun _ => le_rfl⟩
    · exact ⟨le_rfl, fun hv => not_lt.mp fun hlt => hless ⟨hv, hlt⟩⟩
  refine (foldl_best le_refl le_trans hbest (fun d i => ?_) s.columns inf).2
  split_ifs with hless
  · exact Or.inr ⟨hless.1, rfl⟩
  · exact Or.inl rfl

theorem minSlack_nonneg (h : s.Ready) : 0 ≤ s.minSlack := by
  rcases s.minSlack_spec.2 with he | ⟨j, hj, -, he⟩
  · rw [he]
    decide
  · rw [he]
    exact h.slack j hj

/-- The reduced costs after the labels have changed. -/
theorem cost_relabel {i j : ℕ} (hi : i ∈ s.rows) (hj : j ∈ s.columns) :
    s.relabel.cost i j = s.cost i j - (if s.visx i = true then s.minSlack else 0) +
      if s.visy j = true then s.minSlack else 0 := by
  simp only [cost, relabel, hi, hj, true_and]
  split_ifs <;> omega

/-- A search of row `x` in vain, begun with nothing visited. -/
structure Failed (x : ℕ) (s₀ s : KM) : Prop where
  step : Step x s₀ false s
  startx : ∀ i, s₀.visx i = false
  starty : ∀ j, s₀.visy j = false
  root : s.visx x = true
  scanned : ∀ j ∈ s₀.columns, s.Scanned x j

/-- Every visited row has scanned all columns. -/
theorem Failed.scanned_all (h : Failed x s₀ s) {i j : ℕ} (hi : s.visx i = true)
    (hj : j ∈ s.columns) : s.Scanned i j := by
  rw [h.step.columns_eq] at hj
  rcases h.step.scanned rfl i hi with hold | rfl | hall
  · rw [h.startx] at hold
    cases hold
  · exact h.scanned j hj
  · exact hall j hj

/-- Of two linked ones both are visited or none. -/
theorem Failed.visited_iff (h : Failed x s₀ s) (hnd : (mates s.columns s.link).Nodup)
    (hx : x ∉ mates s.columns s.link) {i j : ℕ} (hj : j ∈ s.columns) (hlink : s.link j = some i) :
    s.visx i = true ↔ s.visy j = true := by
  have hsame : s₀.link = s.link := (h.step.same rfl).symm
  constructor
  · intro hi
    rcases h.step.source rfl i hi with hold | rfl | ⟨j', hj', hv, hl⟩
    · rw [h.startx] at hold
      cases hold
    · exact absurd (mem_mates.mpr ⟨j, hj, hlink⟩) hx
    · rw [hsame] at hl
      rw [← h.step.columns_eq] at hj'
      rwa [eq_of_mates_nodup hnd hj hj' hlink hl]
  · intro hv
    rcases h.step.partner rfl j hv with hold | ⟨i', hl, hi'⟩
    · rw [h.starty] at hold
      cases hold
    · rw [hsame, hlink, Option.some.injEq] at hl
      rwa [hl]

/-- The new labels cover all weights, and the links stay tight. -/
theorem Failed.relabel_ready (h : Failed x s₀ s) (hnd : (mates s.columns s.link).Nodup)
    (hx : x ∉ mates s.columns s.link) : s.relabel.Ready := by
  have hready := h.step.ready
  have hd := minSlack_nonneg hready
  refine ⟨fun i hi j hj => ?_, fun j hj i hlink => ?_, fun j hj => ?_⟩
  · replace hi : i ∈ s.rows := hi
    replace hj : j ∈ s.columns := hj
    have hcost := hready.feasible i hi j hj
    rw [cost_relabel hi hj]
    split_ifs with hvi hvj hvj
    · omega
    · have hle := s.minSlack_spec.1 j hj (by simpa using hvj)
      have hscan := (h.scanned_all hvi hj (by simpa using hvj)).2
      omega
    · omega
    · omega
  · replace hj : j ∈ s.columns := hj
    obtain ⟨hi, hcost⟩ := hready.tight j hj i hlink
    refine ⟨hi, ?_⟩
    have hiff := h.visited_iff hnd hx hj hlink
    rw [cost_relabel hi hj, hcost]
    split_ifs with hvi hvj hvj
    · omega
    · exact absurd (hiff.mp hvi) hvj
    · exact absurd (hiff.mpr hvj) hvi
    · omega
  · have hslack := hready.slack j hj
    change 0 ≤ if j ∈ s.columns ∧ s.visy j = false then s.slack j - s.minSlack else s.slack j
    split_ifs with hv
    · have hle := s.minSlack_spec.1 j hj hv.2
      omega
    · exact hslack

/-- Weights between `-B` and `B`, and the labels that come from them: no row is above `B`, and a
column without a partner is at 0. -/
structure Level (B : ℤ) (s : KM) : Prop where
  weights : ∀ i ∈ s.rows, ∀ j ∈ s.columns, -B ≤ s.w i j ∧ s.w i j ≤ B
  rows_le : ∀ i ∈ s.rows, s.lx i ≤ B
  free : ∀ j ∈ s.columns, s.link j = none → s.ly j = 0

theorem Level.step (h : Level B s) (hs : Step x s found s') : Level B s' := by
  obtain ⟨-, -, hw, hlx, hly⟩ := hs.fixed
  refine ⟨?_, ?_, fun j hj hnone => ?_⟩
  · rw [hs.rows_eq, hs.columns_eq, hw]
    exact h.weights
  · rw [hs.rows_eq, hlx]
    exact h.rows_le
  · rw [hs.columns_eq] at hj
    rw [hly]
    exact h.free j hj (hs.stay j hnone)

/-- A free column is not visited. -/
theorem Failed.free_unvisited (h : Failed x s₀ s) {j : ℕ} (hnone : s.link j = none) :
    s.visy j = false := by
  by_contra hv
  rcases h.step.partner rfl j (by simpa using hv) with hold | ⟨i, hlink, -⟩
  · rw [h.starty] at hold
    cases hold
  · rw [← h.step.same rfl, hnone] at hlink
    cases hlink

/-- The new labels of rows are lower, and a visited column has a partner. -/
theorem Level.relabel (h : Level B s) (hf : Failed x s₀ s) : Level B s.relabel := by
  have hd := minSlack_nonneg hf.step.ready
  refine ⟨h.weights, fun i hi => ?_, fun j hj hnone => ?_⟩
  · have hle := h.rows_le i hi
    change (if i ∈ s.rows ∧ s.visx i = true then s.lx i - s.minSlack else s.lx i) ≤ B
    split_ifs
    · omega
    · exact hle
  · have hvis := hf.free_unvisited hnone
    change (if j ∈ s.columns ∧ s.visy j = true then s.ly j + s.minSlack else s.ly j) = 0
    rw [if_neg (by simp [hvis])]
    exact h.free j hj hnone

theorem Ready.unvisit (h : s.Ready) : s.unvisit.Ready := ⟨h.feasible, h.tight, h.slack⟩

theorem Level.unvisit (h : Level B s) : Level B s.unvisit := ⟨h.weights, h.rows_le, h.free⟩

/-- Row `x` has its turn when the rows `done` have partners. -/
structure Waiting (done : List ℕ) (x : ℕ) (s : KM) : Prop where
  ready : s.Ready
  matched : (mates s.columns s.link).Perm done
  nodup : done.Nodup
  row : x ∈ s.rows
  new : x ∉ done

/-- A search in vain that begins a round. -/
theorem Waiting.failed (h : Waiting done x s₀)
    (hs : search (s₀.ny + 1) s₀.unvisit x = some (false, s)) : Failed x s₀.unvisit s := by
  obtain ⟨hstep, hfail⟩ := search_step h.ready.unvisit h.row hs
  exact ⟨hstep, fun _ => rfl, fun _ => rfl, (hfail rfl).1, (hfail rfl).2⟩

/-- After a search in vain the row still waits, with the old labels and the new ones. -/
theorem Waiting.stay (h : Waiting done x s₀) (hf : Failed x s₀.unvisit s) : Waiting done x s := by
  refine ⟨hf.step.ready, ?_, h.nodup, ?_, h.new⟩
  · rw [hf.step.same rfl, hf.step.columns_eq]
    exact h.matched
  · rw [hf.step.rows_eq]
    exact h.row

theorem Waiting.mates_nodup (h : Waiting done x s) : (mates s.columns s.link).Nodup :=
  h.matched.nodup_iff.mpr h.nodup

theorem Waiting.not_mem (h : Waiting done x s) : x ∉ mates s.columns s.link := fun hmem =>
  h.new (h.matched.mem_iff.mp hmem)

theorem Waiting.relabel (h : Waiting done x s₀) (hf : Failed x s₀.unvisit s) :
    Waiting done x s.relabel := by
  have hs := h.stay hf
  exact ⟨hf.relabel_ready hs.mates_nodup hs.not_mem, hs.matched, hs.nodup, hs.row, hs.new⟩

/-- When row `x` is matched, so are the rows before it. -/
theorem augment_matched {fuel : ℕ} (h : Waiting done x s₀) (ha : augment fuel s₀ x = some s) :
    s.Ready ∧ (mates s.columns s.link).Perm (x :: done) ∧ s.nx = s₀.nx ∧ s.ny = s₀.ny ∧
      s.w = s₀.w ∧ (Level B s₀ → Level B s) := by
  induction fuel generalizing s₀ with
  | zero => cases ha
  | succ fuel ih =>
    obtain ⟨⟨found, s₁⟩, hs, hrest⟩ := Option.bind_eq_some_iff.mp ha
    obtain ⟨hstep, -⟩ := search_step h.ready.unvisit h.row hs
    obtain ⟨hnx, hny, hw, -⟩ := hstep.fixed
    cases found with
    | true =>
      cases hrest
      exact ⟨hstep.ready, (hstep.matched rfl).trans (h.matched.cons x), hnx, hny, hw,
        fun hl => hl.unvisit.step hstep⟩
    | false =>
      have hfail := h.failed hs
      obtain ⟨hr, hp, hnx', hny', hw', hlevel⟩ := ih (h.relabel hfail) hrest
      exact ⟨hr, hp, hnx'.trans hnx, hny'.trans hny, hw'.trans hw,
        fun hl => hlevel ((hl.unvisit.step hstep).relabel hfail)⟩

end Labels

section Returns
variable {s s₀ s₂ : KM} {x : ℕ} {done : List ℕ} {B : ℤ}

/-- As long as a column is free, no row is below `-B`. -/
theorem Level.rows_ge (h : Level B s) (hr : s.Ready) (hfree : ∃ j ∈ s.columns, s.link j = none)
    {i : ℕ} (hi : i ∈ s.rows) : -B ≤ s.lx i := by
  obtain ⟨j, hj, hnone⟩ := hfree
  have hcost := hr.feasible i hi j hj
  have hw := h.weights i hi j hj
  rw [cost, h.free j hj hnone] at hcost
  omega

/-- A column's label is 0 or the difference of a weight and a row's label. -/
theorem Level.column_bounds (h : Level B s) (hr : s.Ready)
    (hfree : ∃ j ∈ s.columns, s.link j = none) {j : ℕ} (hj : j ∈ s.columns) :
    s.ly j = 0 ∨ -(2 * B) ≤ s.ly j ∧ s.ly j ≤ 2 * B := by
  cases hlink : s.link j with
  | none => exact Or.inl (h.free j hj hlink)
  | some i =>
    obtain ⟨hi, htight⟩ := hr.tight j hj i hlink
    have hlow := h.rows_ge hr hfree hi
    have hhigh := h.rows_le i hi
    have hw := h.weights i hi j hj
    rw [cost] at htight
    omega

/-- As long as a column is free, the reduced costs are bounded. -/
theorem Level.cost_le (h : Level B s) (hr : s.Ready) (hfree : ∃ j ∈ s.columns, s.link j = none)
    {i j : ℕ} (hi : i ∈ s.rows) (hj : j ∈ s.columns) : s.cost i j ≤ 4 * B := by
  have hw := h.weights i hi j hj
  have hlx := h.rows_le i hi
  rw [cost]
  rcases h.column_bounds hr hfree hj with hly | hly
  · rw [hly]
    omega
  · omega

/-- The slack of a column that is not visited is the cost of its pair with a visited row. -/
def Attained (s : KM) : Prop :=
  ∀ j ∈ s.columns, s.visy j = false → ∃ i, s.visx i = true ∧ s.slack j = s.cost i j

theorem Failed.visited_row (h : Failed x s₀ s) (hx : x ∈ s.rows) {i : ℕ} (hi : s.visx i = true) :
    i ∈ s.rows := by
  rcases h.step.source rfl i hi with hold | rfl | ⟨j, hj, -, hlink⟩
  · rw [h.startx] at hold
    cases hold
  · exact hx
  · rw [← h.step.columns_eq] at hj
    rw [← h.step.same rfl] at hlink
    exact (h.step.ready.tight j hj i hlink).1

/-- Below `INF`, every slack was lowered to a reduced cost. -/
theorem Failed.attained (h : Failed x s₀ s) (hx : x ∈ s.rows)
    (hlt : ∀ i ∈ s.rows, ∀ j ∈ s.columns, s.cost i j < inf)
    (hstart : ∀ j ∈ s.columns, s.visy j = false → s₀.slack j = inf ∨
      ∃ i, s.visx i = true ∧ s₀.slack j = s.cost i j) : s.Attained := by
  intro j hj hv
  rcases h.step.lowered j with he | ⟨i, hi, he⟩
  · rcases hstart j hj hv with hinf | ⟨i, hi, he'⟩
    · have hle := (h.scanned_all h.root hj hv).2
      have hcost := hlt x hx j hj
      omega
    · exact ⟨i, hi, he.trans he'⟩
  · exact ⟨i, hi, by rw [he, h.step.cost_eq]⟩

/-- `d` is the reduced cost of a pair on the rim: the row was visited and the column was not. -/
theorem Failed.minSlack_attained (h : Failed x s₀ s) (hx : x ∈ s.rows) (hatt : s.Attained)
    (hfree : ∃ j ∈ s.columns, s.link j = none)
    (hlt : ∀ i ∈ s.rows, ∀ j ∈ s.columns, s.cost i j < inf) :
    ∃ i j, s.visx i = true ∧ j ∈ s.columns ∧ s.visy j = false ∧ s.minSlack = s.cost i j := by
  rcases s.minSlack_spec.2 with hinf | ⟨j, hj, hv, he⟩
  · obtain ⟨j, hj, hnone⟩ := hfree
    have hv := h.free_unvisited hnone
    obtain ⟨i, hi, he⟩ := hatt j hj hv
    have hle := s.minSlack_spec.1 j hj hv
    have hcost := hlt i (h.visited_row hx hi) j hj
    omega
  · obtain ⟨i, hi, hcost⟩ := hatt j hj hv
    exact ⟨i, j, hi, hj, hv, he.trans hcost⟩

/-- A pair that is tight now is followed by the next search. -/
theorem Failed.follows (h₂ : Failed x s.relabel.unvisit s₂) {i j : ℕ} (hi : s₂.visx i = true)
    (hj : j ∈ s.columns) (hcost : s.relabel.cost i j = 0) : s₂.visy j = true := by
  by_contra hv
  refine (h₂.scanned_all hi ?_ (by simpa using hv)).1 ?_
  · rw [h₂.step.columns_eq]
    exact hj
  · rw [h₂.step.cost_eq]
    exact hcost

section Again
variable (h : Failed x s₀ s) (h₂ : Failed x s.relabel.unvisit s₂)
  (hnd : (mates s.columns s.link).Nodup) (hnew : x ∉ mates s.columns s.link) (hx : x ∈ s.rows)
include h h₂ hnd hnew hx

omit h hx in
theorem Failed.again_iff {i j : ℕ} (hj : j ∈ s.columns) (hlink : s.link j = some i) :
    s₂.visx i = true ↔ s₂.visy j = true := by
  have hsame : s₂.link = s.link := h₂.step.same rfl
  have hcols : s₂.columns = s.columns := h₂.step.columns_eq
  refine h₂.visited_iff ?_ ?_ (by rwa [hcols]) (by rwa [hsame])
  · rwa [hcols, hsame]
  · rwa [hcols, hsame]

/-- The next search visits all rows that this one has visited. -/
theorem Failed.again_row {i : ℕ} (hi : s.visx i = true) : s₂.visx i = true := by
  refine (h.step.least rfl (fun i => s₂.visx i = true) h₂.root ?_ i hi).resolve_left ?_
  · intro i j i' hi₂ hv hj hvj hcost hlink
    refine (again_iff h₂ hnd hnew hj hlink).mpr (h₂.follows hi₂ hj ?_)
    rw [cost_relabel (h.visited_row hx hv) hj, hv, hvj, hcost]
    simp
  · rw [h.startx]
    exact Bool.false_ne_true

theorem Failed.again_column {j : ℕ} (hj : j ∈ s.columns) (hv : s.visy j = true) :
    s₂.visy j = true := by
  rcases h.step.partner rfl j hv with hold | ⟨i, hlink, hi⟩
  · rw [h.starty] at hold
    cases hold
  · rw [← h.step.same rfl] at hlink
    exact (again_iff h₂ hnd hnew hj hlink).mp (h.again_row h₂ hnd hnew hx hi)

/-- The next search visits a column more. -/
theorem Failed.again_more (hatt : s.Attained) (hfree : ∃ j ∈ s.columns, s.link j = none)
    (hlt : ∀ i ∈ s.rows, ∀ j ∈ s.columns, s.cost i j < inf) :
    s₂.unvisited.card < s.unvisited.card := by
  have hcols : s₂.columns = s.columns := h₂.step.columns_eq
  obtain ⟨i, j, hi, hj, hv, hmin⟩ := h.minSlack_attained hx hatt hfree hlt
  have hvisited : s₂.visy j = true := by
    refine h₂.follows (h.again_row h₂ hnd hnew hx hi) hj ?_
    rw [cost_relabel (h.visited_row hx hi) hj, hi, hv, hmin]
    simp
  refine Finset.card_lt_card (Finset.ssubset_iff_of_subset (fun k hk => ?_) |>.mpr ⟨j, ?_, ?_⟩)
  · simp only [unvisited, hcols, Finset.mem_filter, List.mem_toFinset] at hk ⊢
    refine ⟨hk.1, ?_⟩
    by_contra hold
    rw [h.again_column h₂ hnd hnew hx hk.1 (by simpa using hold)] at hk
    cases hk.2
  · simpa [unvisited, hv] using hj
  · simp [unvisited, hvisited]

/-- What the slacks kept from this search are for the next one. -/
theorem Failed.again_slack (hatt : s.Attained) {j : ℕ} (hj : j ∈ s.columns)
    (hv : s₂.visy j = false) :
    ∃ i, s₂.visx i = true ∧ s.relabel.unvisit.slack j = s₂.cost i j := by
  have hold : s.visy j = false := by
    by_contra hvis
    rw [h.again_column h₂ hnd hnew hx hj (by simpa using hvis)] at hv
    cases hv
  obtain ⟨i, hi, he⟩ := hatt j hj hold
  refine ⟨i, h.again_row h₂ hnd hnew hx hi, ?_⟩
  rw [h₂.step.cost_eq]
  change (if j ∈ s.columns ∧ s.visy j = false then s.slack j - s.minSlack else s.slack j) =
    s.relabel.cost i j
  rw [if_pos ⟨hj, hold⟩, cost_relabel (h.visited_row hx hi) hj, hi, hold, he]
  simp

end Again

/-- Every reduced cost is below `INF`. -/
def Below (s : KM) : Prop := ∀ i ∈ s.rows, ∀ j ∈ s.columns, s.cost i j < inf

/-- Search number `k` of the `while(1)` for row `x` that is entered in state `s` begins in `t`. -/
inductive Round (x : ℕ) (s : KM) : ℕ → KM → Prop
  | first : Round x s 0 s
  | next {k : ℕ} {t t' : KM} : Round x s k t →
      search (t.ny + 1) t.unvisit x = some (false, t') → Round x s (k + 1) t'.relabel

section Rounds
variable {k : ℕ} {t t' : KM}

/-- What holds at the beginning of each search. -/
theorem Round.waiting (h : Waiting done x s) (hr : Round x s k t) :
    Waiting done x t ∧ t.nx = s.nx ∧ t.ny = s.ny ∧ t.w = s.w ∧ t.link = s.link ∧
      (Level B s → Level B t) := by
  induction hr with
  | first => exact ⟨h, rfl, rfl, rfl, rfl, id⟩
  | next hr hs ih =>
    obtain ⟨hwait, hnx, hny, hw, hlink, hlevel⟩ := ih
    have hf := hwait.failed hs
    obtain ⟨hnx', hny', hw', -⟩ := hf.step.fixed
    exact ⟨hwait.relabel hf, hnx'.trans hnx, hny'.trans hny, hw'.trans hw,
      (hf.step.same rfl).trans hlink, fun hl => ((hlevel hl).unvisit.step hf.step).relabel hf⟩

theorem Round.columns_eq (h : Waiting done x s) (hr : Round x s k t) : t.columns = s.columns := by
  rw [columns, (hr.waiting (B := 0) h).2.2.1, columns]

theorem Round.free (h : Waiting done x s) (hfree : ∃ j ∈ s.columns, s.link j = none)
    (hr : Round x s k t) : ∃ j ∈ t.columns, t.link j = none := by
  rw [hr.columns_eq h, (hr.waiting (B := 0) h).2.2.2.2.1]
  exact hfree

/-- With weights that are small beside `INF`, so are the reduced costs. -/
theorem Round.cost_lt (h : Waiting done x s) (hfree : ∃ j ∈ s.columns, s.link j = none)
    (hl : Level B s) (hB : 4 * B < inf) (hr : Round x s k t) : t.Below := by
  obtain ⟨hwait, -, -, -, -, hlevel⟩ := hr.waiting h
  intro i hi j hj
  exact ((hlevel hl).cost_le hwait.ready (hr.free h hfree) hi hj).trans_lt hB

theorem Failed.below (h : Failed x s₀ s) (hb : s₀.Below) : s.Below := by
  intro i hi j hj
  rw [h.step.cost_eq]
  exact hb i (by rwa [← h.step.rows_eq]) j (by rwa [← h.step.columns_eq])

/-- After each search in vain the slacks are exact, and one more column was visited. -/
theorem Round.progress (h : Waiting done x s) (hfree : ∃ j ∈ s.columns, s.link j = none)
    (hslack : ∀ j ∈ s.columns, s.slack j = inf) (hbelow : ∀ k t, Round x s k t → t.Below)
    (hr : Round x s k t) (hs : search (t.ny + 1) t.unvisit x = some (false, t')) :
    t'.Attained ∧ t'.unvisited.card + k ≤ s.ny := by
  induction hr generalizing t' with
  | first =>
    have hf := h.failed hs
    have hb₀ := hbelow 0 s .first
    have hb := hf.below hb₀
    refine ⟨hf.attained (h.stay hf).row hb fun j hj _ => Or.inl (hslack j ?_), ?_⟩
    · rwa [hf.step.columns_eq] at hj
    · have hcard := t'.unvisited_card_le
      rw [hf.step.fixed.2.1] at hcard
      exact hcard
  | next hr hs₁ ih =>
    rename_i k t₀ t₁
    obtain ⟨hatt, hcard⟩ := ih hs₁
    have hwait₀ := (hr.waiting (B := 0) h).1
    have hf₁ := hwait₀.failed hs₁
    have hwait₁ := hwait₀.stay hf₁
    have hf := (hwait₀.relabel hf₁).failed hs
    have hfree₁ := (hr.next hs₁).free h hfree
    have hb₀ := hbelow _ _ hr
    have hb₁ := hf₁.below hb₀
    have hmore := hf₁.again_more hf hwait₁.mates_nodup hwait₁.not_mem hwait₁.row hatt hfree₁ hb₁
    have hb₂ := hbelow _ _ (hr.next hs₁)
    refine ⟨hf.attained ((hwait₀.relabel hf₁).stay hf).row (hf.below hb₂)
      fun j hj hv => Or.inr ?_, by omega⟩
    rw [hf.step.columns_eq] at hj
    exact hf₁.again_slack hf hwait₁.mates_nodup hwait₁.not_mem hwait₁.row hatt hj hv

/-- A search in vain leaves a column. -/
theorem Failed.unvisited_pos (h : Failed x s₀ s) (hfree : ∃ j ∈ s.columns, s.link j = none) :
    0 < s.unvisited.card := by
  obtain ⟨j, hj, hnone⟩ := hfree
  refine Finset.card_pos.mpr ⟨j, ?_⟩
  rw [unvisited, Finset.mem_filter, List.mem_toFinset]
  exact ⟨hj, h.free_unvisited hnone⟩

/-- No more searches fail than there are columns. -/
theorem Round.le_ny (h : Waiting done x s) (hfree : ∃ j ∈ s.columns, s.link j = none)
    (hslack : ∀ j ∈ s.columns, s.slack j = inf) (hbelow : ∀ k t, Round x s k t → t.Below)
    (hr : Round x s k t) : k ≤ s.ny := by
  cases hr with
  | first => exact Nat.zero_le _
  | next hr hs =>
    have hcard := (hr.progress h hfree hslack hbelow hs).2
    have hf := (hr.waiting (B := 0) h).1.failed hs
    have hleft := (hr.next hs).free h hfree
    have hpos := hf.unvisited_pos hleft
    omega

/-- The `while(1)` ends after at most `ny + 1` searches. -/
theorem augment_returns {fuel : ℕ} (h : Waiting done x s)
    (hfree : ∃ j ∈ s.columns, s.link j = none) (hslack : ∀ j ∈ s.columns, s.slack j = inf)
    (hbelow : ∀ k t, Round x s k t → t.Below) (hr : Round x s k t) (hk : s.ny + 1 ≤ fuel + k) :
    ∃ s', augment fuel t x = some s' := by
  induction fuel generalizing k t with
  | zero =>
    have hle := hr.le_ny h hfree hslack hbelow
    omega
  | succ fuel ih =>
    have hwait := (hr.waiting (B := 0) h).1
    obtain ⟨⟨found, t'⟩, hs⟩ := search_returns hwait.ready.unvisit hwait.row
      (Nat.lt_succ_of_le t.unvisit.unvisited_card_le)
    cases found with
    | true => exact ⟨t', by rw [augment]; exact congrArg (Option.bind · _) hs⟩
    | false =>
      obtain ⟨s', hs'⟩ := ih (hr.next hs) (by omega)
      exact ⟨s', by rw [augment]; exact (congrArg (Option.bind · _) hs).trans hs'⟩

end Rounds

end Returns

end KM
end Mosito
