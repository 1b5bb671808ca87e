import Mosito.Lib.Assignment

/-! The matching of maximum weight, after Kuhn and Munkres. Integers are exact here. Rows and
columns are counted from 1; a column without a partner has the link -1, which is `none`. -/
namespace Mosito
open Assignment

/-- `INF`. -/
def inf : ℤ := 2147483647

structure KM where
  nx : ℕ
  ny : ℕ
  w : ℕ → ℕ → ℤ
  lx : ℕ → ℤ
  ly : ℕ → ℤ
  link : ℕ → Option ℕ
  visx : ℕ → Bool
  visy : ℕ → Bool
  slack : ℕ → ℤ

namespace KM

def rows (s : KM) : List ℕ := List.range' 1 s.nx

def columns (s : KM) : List ℕ := List.range' 1 s.ny

/-- `lx[x] + ly[y] - w[x][y]`, the reduced cost. -/
def cost (s : KM) (x y : ℕ) : ℤ := s.lx x + s.ly y - s.w x y

/-- The loop of `search(x)` over the columns from `y` on; `again` is the recursive call. -/
def scan (again : KM → ℕ → Option (Bool × KM)) (x : ℕ) : List ℕ → KM → Option (Bool × KM)
  | [], s => some (false, s)
  | y :: ys, s =>
      if s.visy y then scan again x ys s
      else if s.cost x y = 0 then
        let s := { s with visy := Function.update s.visy y true }
        match s.link y with
        | none => some (true, { s with link := Function.update s.link y (some x) })
        | some x' =>
            (again s x').bind fun r =>
              if r.1 then some (true, { r.2 with link := Function.update r.2.link y (some x) })
              else scan again x ys r.2
      else if s.slack y > s.cost x y then
        scan again x ys { s with slack := Function.update s.slack y (s.cost x y) }
      else scan again x ys s

/-- `search`; a call visits a new column before it calls again. -/
def search : ℕ → KM → ℕ → Option (Bool × KM)
  | 0, _, _ => none
  | fuel + 1, s, x =>
      scan (search fuel) x s.columns { s with visx := Function.update s.visx x true }

/-- `d`. -/
def minSlack (s : KM) : ℤ :=
  s.columns.foldl (fun d i => if s.visy i = false ∧ d > s.slack i then s.slack i else d) inf

/-- The new labels after a search that failed. -/
def relabel (s : KM) : KM :=
  { s with
    lx := fun i => if i ∈ s.rows ∧ s.visx i then s.lx i - s.minSlack else s.lx i
    ly := fun i => if i ∈ s.columns ∧ s.visy i then s.ly i + s.minSlack else s.ly i
    slack := fun i => if i ∈ s.columns ∧ s.visy i = false then s.slack i - s.minSlack else s.slack i }

/-- `memset (visx,0,sizeof(visx)); memset (visy,0,sizeof(visy));` -/
def unvisit (s : KM) : KM := { s with visx := fun _ => false, visy := fun _ => false }

/-- The `while(1)` for row `x`. -/
def augment : ℕ → KM → ℕ → Option KM
  | 0, _, _ => none
  | fuel + 1, s, x =>
      (search (s.ny + 1) s.unvisit x).bind fun r =>
        if r.1 then some r.2 else augment fuel r.2.relabel x

/-- The labels and links before the first row. -/
def init (s : KM) : KM :=
  { s with
    link := fun _ => none
    ly := fun _ => 0
    lx := fun i => if i ∈ s.rows then
      s.columns.foldl (fun l j => if s.w i j > l then s.w i j else l) (-inf) else s.lx i }

/-- One round of the loop over the rows. -/
def row (fuel : ℕ) (s : KM) (x : ℕ) : Option KM :=
  augment fuel { s with slack := fun i => if i ∈ s.columns then inf else s.slack i } x

/-- `run`, if each row takes fewer than `fuel` searches. -/
def run (fuel : ℕ) (s : KM) : Option (ℤ × KM) :=
  (s.rows.foldlM (row fuel) s.init).map fun s =>
    (s.columns.foldl (fun res i => (s.link i).elim res fun x => res + s.w x i) 0, s)

section Search

/-- The labels cover every weight. -/
def Feasible (s : KM) : Prop := ∀ x ∈ s.rows, ∀ y ∈ s.columns, 0 ≤ s.cost x y

/-- Every link joins a row to a column along a tight pair. -/
def Tight (s : KM) : Prop :=
  ∀ y ∈ s.columns, ∀ x, s.link y = some x → x ∈ s.rows ∧ s.cost x y = 0

/-- What a search needs. -/
structure Ready (s : KM) : Prop where
  feasible : s.Feasible
  tight : s.Tight
  slack : ∀ y ∈ s.columns, 0 ≤ s.slack y

/-- Row `x` has met column `y`: it was visited then, or the pair is not tight and the slack is
at most its cost. -/
def Scanned (s : KM) (x y : ℕ) : Prop :=
  s.visy y = false → s.cost x y ≠ 0 ∧ s.slack y ≤ s.cost x y

/-- `S` has the rows that are linked to columns which a visited row of `S` reaches. -/
def ClosedUnder (s : KM) (S : ℕ → Prop) : Prop :=
  ∀ i j i', S i → s.visx i = true → j ∈ s.columns → s.visy j = true → s.cost i j = 0 →
    s.link j = some i' → S i'

/-- What a part of `search(x)` does between two states. While nothing was found, the links
stay, and the visited rows and columns other than `x` are linked to each other. -/
structure Step (x : ℕ) (s : KM) (found : Bool) (s' : KM) : Prop where
  fixed : s'.nx = s.nx ∧ s'.ny = s.ny ∧ s'.w = s.w ∧ s'.lx = s.lx ∧ s'.ly = s.ly
  ready : s'.Ready
  visx : ∀ i, s.visx i = true → s'.visx i = true
  visy : ∀ j, s.visy j = true → s'.visy j = true
  slack : ∀ j, s'.slack j ≤ s.slack j
  kept : ∀ j, s.visy j = true → s'.link j = s.link j
  stay : ∀ j, s'.link j = none → s.link j = none
  matched : found = true → (mates s'.columns s'.link).Perm (x :: mates s.columns s.link)
  same : found = false → s'.link = s.link
  partner : found = false → ∀ j, s'.visy j = true → s.visy j = true ∨
    ∃ i, s.link j = some i ∧ s'.visx i = true
  source : found = false → ∀ i, s'.visx i = true → s.visx i = true ∨ i = x ∨
    ∃ j ∈ s.columns, s'.visy j = true ∧ s.link j = some i
  scanned : found = false → ∀ i, s'.visx i = true → s.visx i = true ∨ i = x ∨
    ∀ j ∈ s.columns, s'.Scanned i j
  lowered : ∀ j, s'.slack j = s.slack j ∨ ∃ i, s'.visx i = true ∧ s'.slack j = s.cost i j
  least : found = false → ∀ S : ℕ → Prop, S x → s'.ClosedUnder S → ∀ i, s'.visx i = true →
    s.visx i = true ∨ S i

variable {x y : ℕ} {s s' s'' : KM} {found : Bool} {ys : List ℕ}

theorem Step.columns_eq (h : Step x s found s') : s'.columns = s.columns := by
  rw [columns, h.fixed.2.1, columns]

theorem Step.rows_eq (h : Step x s found s') : s'.rows = s.rows := by
  rw [rows, h.fixed.1, rows]

theorem Step.cost_eq (h : Step x s found s') (i j : ℕ) : s'.cost i j = s.cost i j := by
  rw [cost, h.fixed.2.2.1, h.fixed.2.2.2.1, h.fixed.2.2.2.2, cost]

theorem Step.refl (h : s.Ready) : Step x s false s where
  fixed := ⟨rfl, rfl, rfl, rfl, rfl⟩
  ready := h
  visx _ := id
  visy _ := id
  slack _ := le_rfl
  kept _ _ := rfl
  stay _ := id
  matched hf := by cases hf
  same _ := rfl
  partner _ _ := Or.inl
  source _ _ := Or.inl
  scanned _ _ := Or.inl
  lowered _ := Or.inl rfl
  least _ _ _ _ _ := Or.inl

/-- What was scanned stays so. -/
theorem Step.scanned_mono (h : Step x s found s') {i j : ℕ} (hs : s.Scanned i j) :
    s'.Scanned i j := by
  intro hv
  have hold : s.visy j = false := by
    by_contra hvis
    rw [h.visy j (by simpa using hvis)] at hv
    cases hv
  rw [h.cost_eq]
  exact ⟨(hs hold).1, (h.slack j).trans (hs hold).2⟩

/-- What is closed at the end is closed before. -/
theorem Step.closedUnder (h : Step x s found s') (hf : found = false) {S : ℕ → Prop}
    (hS : s'.ClosedUnder S) : s.ClosedUnder S := by
  intro i j i' hi hv hj hvj hcost hlink
  refine hS i j i' hi (h.visx i hv) (by rwa [h.columns_eq]) (h.visy j hvj) ?_ ?_
  · rwa [h.cost_eq]
  · rwa [h.same hf]

theorem Step.trans (h : Step x s false s') (h' : Step x s' found s'') : Step x s found s'' := by
  obtain ⟨hnx, hny, hw, hlx, hly⟩ := h.fixed
  obtain ⟨hnx', hny', hw', hlx', hly'⟩ := h'.fixed
  refine ⟨⟨hnx'.trans hnx, hny'.trans hny, hw'.trans hw, hlx'.trans hlx, hly'.trans hly⟩, h'.ready,
    fun i hi => h'.visx i (h.visx i hi), fun j hj => h'.visy j (h.visy j hj),
    fun j => (h'.slack j).trans (h.slack j), fun j hj => ?_, fun j hj => h.stay j (h'.stay j hj),
    fun hf => ?_, fun hf => ?_,
    fun hf j hj => ?_, fun hf i hi => ?_, fun hf i hi => ?_, fun j => ?_,
    fun hf S hx hclosed i hi => ?_⟩
  · rw [h'.kept j (h.visy j hj), h.same rfl]
  · have hm := h'.matched hf
    rwa [h.same rfl, h.columns_eq] at hm
  · rw [h'.same hf, h.same rfl]
  · rcases h'.partner hf j hj with hj | ⟨i, hl, hi⟩
    · refine (h.partner rfl j hj).imp_right ?_
      rintro ⟨i, hl, hi⟩
      exact ⟨i, hl, h'.visx i hi⟩
    · exact Or.inr ⟨i, by rwa [h.same rfl] at hl, hi⟩
  · rcases h'.source hf i hi with hi | rfl | ⟨j, hj, hv, hl⟩
    · refine (h.source rfl i hi).imp_right (Or.imp_right ?_)
      rintro ⟨j, hj, hv, hl⟩
      exact ⟨j, hj, h'.visy j hv, hl⟩
    · exact Or.inr (Or.inl rfl)
    · exact Or.inr (Or.inr ⟨j, h.columns_eq ▸ hj, hv, by rwa [h.same rfl] at hl⟩)
  · rcases h'.scanned hf i hi with hi | rfl | hall
    · refine (h.scanned rfl i hi).imp_right (Or.imp_right ?_)
      exact fun hall j hj => h'.scanned_mono (hall j hj)
    · exact Or.inr (Or.inl rfl)
    · exact Or.inr (Or.inr fun j hj => hall j (by rwa [h.columns_eq]))
  · rcases h'.lowered j with he | ⟨i, hi, he⟩
    · rw [he]
      refine (h.lowered j).imp_right ?_
      rintro ⟨i, hi, he'⟩
      exact ⟨i, h'.visx i hi, he'⟩
    · exact Or.inr ⟨i, hi, by rw [he, h.cost_eq]⟩
  · rcases h'.least hf S hx hclosed i hi with hi | hS
    · exact h.least rfl S hx (h'.closedUnder hf hclosed) i hi
    · exact Or.inr hS

/-- The slack of a column is lowered to the reduced cost. -/
theorem Step.lower (h : s.Ready) (hx : x ∈ s.rows) (hv : s.visx x = true) (hy : y ∈ s.columns)
    (hgt : s.slack y > s.cost x y) :
    Step x s false { s with slack := Function.update s.slack y (s.cost x y) } where
  fixed := ⟨rfl, rfl, rfl, rfl, rfl⟩
  ready := by
    refine ⟨h.feasible, h.tight, fun j hj => ?_⟩
    change 0 ≤ Function.update s.slack y (s.cost x y) j
    rcases eq_or_ne j y with rfl | hne
    · rw [Function.update_self]
      exact h.feasible x hx j hy
    · rw [Function.update_of_ne hne]
      exact h.slack j hj
  visx _ := id
  visy _ := id
  slack j := by
    change Function.update s.slack y (s.cost x y) j ≤ s.slack j
    rcases eq_or_ne j y with rfl | hj
    · rw [Function.update_self]
      exact hgt.le
    · rw [Function.update_of_ne hj]
  kept _ _ := rfl
  stay _ := id
  matched hf := by cases hf
  same _ := rfl
  partner _ _ := Or.inl
  source _ _ := Or.inl
  scanned _ _ := Or.inl
  lowered j := by
    rcases eq_or_ne j y with rfl | hj
    · exact Or.inr ⟨x, hv, Function.update_self _ _ _⟩
    · exact Or.inl (Function.update_of_ne hj _ _)
  least _ _ _ _ _ := Or.inl

/-- A column that was visited stays so when `y` is visited. -/
theorem visy_update {j : ℕ} (hj : s.visy j = true) : Function.update s.visy y true j = true := by
  rcases eq_or_ne j y with rfl | hne
  · exact Function.update_self _ _ _
  · rwa [Function.update_of_ne hne]

/-- The column `y` is visited and its partner has searched in vain. -/
theorem Step.visit {x' : ℕ} (hv : s.visx x = true) (hy : y ∈ s.columns) (hcost : s.cost x y = 0)
    (hlink : s.link y = some x')
    (h : Step x' { s with visy := Function.update s.visy y true } false s')
    (hx' : s'.visx x' = true) (hall : ∀ j ∈ s.columns, s'.Scanned x' j) : Step x s false s' := by
  have hvy : s'.visy y = true := h.visy y (Function.update_self _ _ _)
  refine ⟨h.fixed, h.ready, h.visx, fun j hj => h.visy j (visy_update hj), h.slack,
    fun j hj => h.kept j (visy_update hj), h.stay, fun hf => absurd hf Bool.false_ne_true, h.same,
    fun _ j hj => ?_, fun _ i hi => ?_, fun _ i hi => ?_, h.lowered, fun _ S hx hclosed i hi => ?_⟩
  · rcases h.partner rfl j hj with hj | hj
    · rcases eq_or_ne j y with rfl | hne
      · exact Or.inr ⟨x', hlink, hx'⟩
      · exact Or.inl ((Function.update_of_ne hne true s.visy).symm.trans hj)
    · exact Or.inr hj
  · rcases h.source rfl i hi with hi | rfl | hj
    · exact Or.inl hi
    · exact Or.inr (Or.inr ⟨y, hy, hvy, hlink⟩)
    · exact Or.inr (Or.inr hj)
  · rcases h.scanned rfl i hi with hi | rfl | hi
    · exact Or.inl hi
    · exact Or.inr (Or.inr hall)
    · exact Or.inr (Or.inr hi)
  · refine h.least rfl S ?_ hclosed i hi
    refine hclosed x y x' hx (h.visx x hv) (by rwa [h.columns_eq]) hvy ?_ ?_
    · rw [h.cost_eq]
      exact hcost
    · rw [h.same rfl]
      exact hlink

/-- The links when column `y` is given to row `x`, along a path that starts at `x`. -/
theorem Step.link {s₁ : KM} {x' : Option ℕ} (h : s₁.Ready)
    (hfixed : s₁.nx = s.nx ∧ s₁.ny = s.ny ∧ s₁.w = s.w ∧ s₁.lx = s.lx ∧ s₁.ly = s.ly)
    (hvisx : ∀ i, s.visx i = true → s₁.visx i = true)
    (hvisy : ∀ j, s.visy j = true → s₁.visy j = true) (hslack : ∀ j, s₁.slack j ≤ s.slack j)
    (hkept : ∀ j, s.visy j = true → s₁.link j = s.link j)
    (hstay : ∀ j, s₁.link j = none → s.link j = none)
    (hlowered : ∀ j, s₁.slack j = s.slack j ∨ ∃ i, s₁.visx i = true ∧ s₁.slack j = s.cost i j)
    (hx : x ∈ s.rows) (hy : y ∈ s.columns) (hnew : s.visy y = false) (hcost : s.cost x y = 0)
    (hold : s₁.link y = x')
    (hmates : (mates s.columns s₁.link).Perm (x'.toList ++ mates s.columns s.link)) :
    Step x s true { s₁ with link := Function.update s₁.link y (some x) } := by
  have hcolumns : s₁.columns = s.columns := by rw [columns, hfixed.2.1, columns]
  have hrows : s₁.rows = s.rows := by rw [rows, hfixed.1, rows]
  have hcosts (i j : ℕ) : s₁.cost i j = s.cost i j := by
    rw [cost, hfixed.2.2.1, hfixed.2.2.2.1, hfixed.2.2.2.2, cost]
  refine ⟨hfixed, ⟨h.feasible, fun j hj i hi => ?_, h.slack⟩, hvisx, hvisy, hslack, fun j hj => ?_,
    fun j hj => ?_, fun _ => ?_, fun hf => ?_, fun hf => ?_, fun hf => ?_, fun hf => ?_, hlowered,
    fun hf => ?_⟩
  · change Function.update s₁.link y (some x) j = some i at hi
    rcases eq_or_ne j y with rfl | hne
    · rw [Function.update_self, Option.some.injEq] at hi
      subst hi
      exact ⟨by rwa [← hrows] at hx, (hcosts x j).trans hcost⟩
    · rw [Function.update_of_ne hne] at hi
      exact h.tight j hj i hi
  · have hne : j ≠ y := fun he => by
      rw [he, hnew] at hj
      cases hj
    exact (Function.update_of_ne hne _ _).trans (hkept j hj)
  · change Function.update s₁.link y (some x) j = none at hj
    rcases eq_or_ne j y with rfl | hne
    · rw [Function.update_self] at hj
      cases hj
    · rw [Function.update_of_ne hne] at hj
      exact hstay j hj
  · change (mates s₁.columns (Function.update s₁.link y (some x))).Perm _
    rw [hcolumns]
    have hnd : s.columns.Nodup := List.nodup_range'
    cases x' with
    | none => exact (mates_of_none hnd hy hold).trans (hmates.cons x)
    | some x' =>
      refine (List.perm_cons x').mp ((mates_of_some hnd hy hold).trans ?_)
      exact (hmates.cons x).trans (List.Perm.swap _ _ _)
  all_goals cases hf

/-- The loop over the columns. -/
theorem scan_step {again : KM → ℕ → Option (Bool × KM)}
    (hagain : ∀ s x found s', s.Ready → x ∈ s.rows → again s x = some (found, s') →
      Step x s found s' ∧ (found = false → s'.visx x = true ∧ ∀ j ∈ s.columns, s'.Scanned x j))
    (h : s.Ready) (hx : x ∈ s.rows) (hv : s.visx x = true) (hys : ∀ y ∈ ys, y ∈ s.columns)
    (hs : scan again x ys s = some (found, s')) :
    Step x s found s' ∧ (found = false → ∀ j ∈ ys, s'.Scanned x j) := by
  induction ys generalizing s with
  | nil =>
    cases hs
    exact ⟨.refl h, by simp⟩
  | cons y ys ih =>
    -- the column is dealt with by a step after which nothing is found, and the rest follows
    have hrest {s₁ : KM} (h₁ : Step x s false s₁) (hscan : s₁.Scanned x y)
        (hs₁ : scan again x ys s₁ = some (found, s')) :
        Step x s found s' ∧ (found = false → ∀ j ∈ y :: ys, s'.Scanned x j) := by
      obtain ⟨h₂, hall⟩ := ih h₁.ready (by rwa [h₁.rows_eq]) (h₁.visx x hv)
        (fun j hj => by rw [h₁.columns_eq]; exact hys j (by simp [hj])) hs₁
      refine ⟨h₁.trans h₂, fun hf j hj => ?_⟩
      rcases List.mem_cons.mp hj with rfl | hj
      · exact h₂.scanned_mono hscan
      · exact hall hf j hj
    have hy : y ∈ s.columns := hys y (by simp)
    rw [scan] at hs
    split_ifs at hs with hvis hcost hgt
    · exact hrest (.refl h) (fun hf => by rw [hvis] at hf; cases hf) hs
    · have hnew : s.visy y = false := by simpa using hvis
      have hready : KM.Ready { s with visy := Function.update s.visy y true } :=
        ⟨h.feasible, h.tight, h.slack⟩
      cases hlink : s.link y with
      | none =>
        simp only [hlink, Option.some.injEq, Prod.mk.injEq] at hs
        obtain ⟨rfl, rfl⟩ := hs
        have hstep := Step.link (s := s) hready ⟨rfl, rfl, rfl, rfl, rfl⟩ (fun _ => id)
          (fun _ => visy_update) (fun _ => le_rfl) (fun _ _ => rfl) (fun _ => id)
          (fun _ => Or.inl rfl) hx hy hnew hcost hlink (List.Perm.refl _)
        exact ⟨hstep, fun hf => by cases hf⟩
      | some x' =>
        simp only [hlink] at hs
        obtain ⟨⟨found', s₂⟩, hagain₂, hs⟩ := Option.bind_eq_some_iff.mp hs
        obtain ⟨h₂, hfail⟩ := hagain _ _ _ _ hready (h.tight y hy x' hlink).1 hagain₂
        split_ifs at hs with hfound
        · simp only [Option.some.injEq, Prod.mk.injEq] at hs
          obtain ⟨rfl, rfl⟩ := hs
          have hm := h₂.matched hfound
          rw [h₂.columns_eq] at hm
          refine ⟨Step.link h₂.ready h₂.fixed h₂.visx (fun j hj => h₂.visy j (visy_update hj))
            h₂.slack (fun j hj => h₂.kept j (visy_update hj)) h₂.stay h₂.lowered hx hy hnew hcost
            ((h₂.kept y (Function.update_self _ _ _)).trans hlink) hm, fun hf => by cases hf⟩
        · have hf : found' = false := by simpa using hfound
          subst hf
          obtain ⟨hx', hall⟩ := hfail rfl
          refine hrest (.visit hv hy hcost hlink h₂ hx' hall) (fun hf => ?_) hs
          rw [h₂.visy y (Function.update_self _ _ _)] at hf
          cases hf
    · refine hrest (.lower h hx hv hy hgt) (fun _ => ⟨hcost, ?_⟩) hs
      exact (Function.update_self (f := s.slack) y (s.cost x y)).le
    · exact hrest (.refl h) (fun _ => ⟨hcost, not_lt.mp hgt⟩) hs

/-- What `search(x)` does. -/
theorem search_step {fuel : ℕ} (h : s.Ready) (hx : x ∈ s.rows)
    (hs : search fuel s x = some (found, s')) :
    Step x s found s' ∧ (found = false → s'.visx x = true ∧ ∀ j ∈ s.columns, s'.Scanned x j) := by
  induction fuel generalizing s x found s' with
  | zero => cases hs
  | succ fuel ih =>
    let s₁ : KM := { s with visx := Function.update s.visx x true }
    have hvx : s₁.visx x = true := Function.update_self _ _ _
    have hold (i : ℕ) (hi : s₁.visx i = true) : s.visx i = true ∨ i = x := by
      rcases eq_or_ne i x with rfl | hne
      · exact Or.inr rfl
      · exact Or.inl ((Function.update_of_ne hne true s.visx).symm.trans hi)
    obtain ⟨h₁, hall⟩ := scan_step (s := s₁) (fun s x found s' => ih)
      ⟨h.feasible, h.tight, h.slack⟩ hx hvx (fun _ => id) hs
    refine ⟨⟨h₁.fixed, h₁.ready, fun i hi => h₁.visx i ?_, h₁.visy, h₁.slack, h₁.kept, h₁.stay,
      h₁.matched, h₁.same, h₁.partner, fun hf i hi => ?_, fun hf i hi => ?_, h₁.lowered,
      fun hf S hS hclosed i hi => ?_⟩, fun hf => ⟨h₁.visx x hvx, hall hf⟩⟩
    · change Function.update s.visx x true i = true
      rcases eq_or_ne i x with rfl | hne
      · exact Function.update_self _ _ _
      · rwa [Function.update_of_ne hne]
    · rcases h₁.source hf i hi with hi | hi
      · exact (hold i hi).imp_right Or.inl
      · exact Or.inr hi
    · rcases h₁.scanned hf i hi with hi | hi
      · exact (hold i hi).imp_right Or.inl
      · exact Or.inr hi
    · rcases h₁.least hf S hS hclosed i hi with hi | hi
      · refine (hold i hi).imp_right ?_
        rintro rfl
        exact hS
      · exact Or.inr hi

/-- The columns that are not visited. -/
def unvisited (s : KM) : Finset ℕ := s.columns.toFinset.filter fun j => s.visy j = false

theorem unvisited_card_le (s : KM) : s.unvisited.card ≤ s.ny := by
  refine (Finset.card_filter_le _ _).trans ((List.toFinset_card_le _).trans ?_)
  exact (List.length_range' ..).le

theorem Step.unvisited_subset (h : Step x s found s') : s'.unvisited ⊆ s.unvisited := by
  intro j hj
  simp only [unvisited, h.columns_eq, Finset.mem_filter] at hj ⊢
  refine ⟨hj.1, ?_⟩
  by_contra hvis
  rw [h.visy j (by simpa using hvis)] at hj
  cases hj.2

theorem unvisited_visit (hy : y ∈ s.columns) (hnew : s.visy y = false) :
    (unvisited { s with visy := Function.update s.visy y true }).card < s.unvisited.card := by
  refine Finset.card_lt_card (Finset.ssubset_iff_of_subset ?_ |>.mpr ⟨y, ?_, ?_⟩)
  · intro j hj
    simp only [unvisited, Finset.mem_filter] at hj ⊢
    refine ⟨hj.1, ?_⟩
    rcases eq_or_ne j y with rfl | hne
    · exact hnew
    · exact (Function.update_of_ne hne true s.visy).symm.trans hj.2
  · simpa [unvisited, hnew] using hy
  · simp [unvisited]

/-- The depth of the recursion is bounded by the columns that are left. -/
theorem search_returns {fuel : ℕ} (h : s.Ready) (hx : x ∈ s.rows) (hfuel : s.unvisited.card < fuel) :
    ∃ r, search fuel s x = some r := by
  induction fuel generalizing s x with
  | zero => omega
  | succ fuel ih =>
    have hscan (ys : List ℕ) (t : KM) (ht : t.Ready) (hxt : x ∈ t.rows) (hv : t.visx x = true)
        (hys : ∀ y ∈ ys, y ∈ t.columns) (hfew : t.unvisited.card ≤ fuel) :
        ∃ r, scan (search fuel) x ys t = some r := by
      induction ys generalizing t with
      | nil => exact ⟨_, rfl⟩
      | cons y ys ihy =>
        have hy : y ∈ t.columns := hys y (by simp)
        have hrest {found : Bool} {t' : KM} {x₀ : ℕ} (h₁ : Step x₀ t found t') :
            ∃ r, scan (search fuel) x ys t' = some r :=
          ihy t' h₁.ready (by rwa [h₁.rows_eq]) (h₁.visx x hv)
            (fun j hj => by rw [h₁.columns_eq]; exact hys j (by simp [hj]))
            ((Finset.card_le_card h₁.unvisited_subset).trans hfew)
        rw [scan]
        split_ifs with hvis hcost hgt
        · exact hrest (.refl (x := x) ht)
        · have hnew : t.visy y = false := by simpa using hvis
          cases hlink : t.link y with
          | none =>
            simp only [hlink]
            exact ⟨_, rfl⟩
          | some x' =>
            have hready : KM.Ready { t with visy := Function.update t.visy y true } :=
              ⟨ht.feasible, ht.tight, ht.slack⟩
            have hx' := (ht.tight y hy x' hlink).1
            obtain ⟨⟨found, t₂⟩, hr⟩ := ih hready hx' ((unvisited_visit hy hnew).trans_le hfew)
            obtain ⟨h₂, hfail⟩ := search_step hready hx' hr
            simp only [hlink, hr, Option.bind_some]
            split_ifs with hfound
            · exact ⟨_, rfl⟩
            · have hf : found = false := by simpa using hfound
              subst hf
              obtain ⟨hv', hall⟩ := hfail rfl
              exact hrest (.visit hv hy hcost hlink h₂ hv' hall)
        · exact hrest (.lower ht hxt hv hy hgt)
        · exact hrest (.refl (x := x) ht)
    exact hscan s.columns _ ⟨h.feasible, h.tight, h.slack⟩ hx (Function.update_self _ _ _)
      (fun _ => id) (Nat.lt_succ_iff.mp hfuel)

end Search

end KM
end Mosito
