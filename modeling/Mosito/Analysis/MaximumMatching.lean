import Mosito.Analysis.Relabelling
import Mathlib.Algebra.Order.Ring.Int
import Mathlib.Order.Interval.Finset.Nat

/-! A whole run ends with an assignment of maximum weight. -/
namespace Mosito
open Assignment
namespace KM

section Run
variable {s s' : KM} {fuel x : ℕ} {xs done : List ℕ} {B : ℤ}

/-- The state in which the `while(1)` for a row is entered. -/
def refill (s : KM) : KM :=
  { s with slack := fun i => if i ∈ s.columns then inf else s.slack i }

/-- What holds between two rows: the rows `done` have partners. -/
structure Partial (done : List ℕ) (s : KM) : Prop where
  feasible : s.Feasible
  tight : s.Tight
  matched : (mates s.columns s.link).Perm done
  nodup : done.Nodup

theorem Partial.perm {done' : List ℕ} (h : Partial done s) (hp : done.Perm done') :
    Partial done' s :=
  ⟨h.feasible, h.tight, h.matched.trans hp, hp.nodup_iff.mp h.nodup⟩

theorem Partial.waiting (h : Partial done s) (hx : x ∈ s.rows) (hnew : x ∉ done) :
    Waiting done x s.refill := by
  refine ⟨⟨h.feasible, h.tight, fun j hj => ?_⟩, h.matched, h.nodup, hx, hnew⟩
  change 0 ≤ if j ∈ s.columns then inf else s.slack j
  rw [if_pos (show j ∈ s.columns from hj)]
  decide

/-- A column is left while there are fewer rows with partners. -/
theorem Partial.free (h : Partial done s) (hlt : done.length < s.ny) :
    ∃ j ∈ s.columns, s.link j = none := by
  by_contra hall
  push Not at hall
  have hfull : (mates s.columns s.link).length = s.columns.length :=
    List.filterMap_length_eq_length.mpr fun j hj => Option.isSome_iff_ne_none.mpr (hall j hj)
  rw [h.matched.length_eq, columns, List.length_range'] at hfull
  omega

theorem Level.refill (h : Level B s) : Level B s.refill := ⟨h.weights, h.rows_le, h.free⟩

theorem Partial.row (h : Partial done s) (hx : x ∈ s.rows) (hnew : x ∉ done)
    (hr : row fuel s x = some s') :
    Partial (x :: done) s' ∧ s'.nx = s.nx ∧ s'.ny = s.ny ∧ s'.w = s.w ∧
      (Level B s → Level B s') := by
  obtain ⟨hready, hm, hnx, hny, hw, hlevel⟩ := augment_matched (h.waiting hx hnew) hr
  exact ⟨⟨hready.feasible, hready.tight, hm, List.nodup_cons.mpr ⟨hnew, h.nodup⟩⟩, hnx, hny, hw,
    fun hl => hlevel hl.refill⟩

/-- One row after the other is matched. -/
theorem rows_matched (h : Partial done s) (hnd : (xs ++ done).Nodup) (hxs : ∀ x ∈ xs, x ∈ s.rows)
    (hr : xs.foldlM (KM.row fuel) s = some s') :
    Partial (xs ++ done) s' ∧ s'.nx = s.nx ∧ s'.ny = s.ny ∧ s'.w = s.w ∧
      (Level B s → Level B s') := by
  induction xs generalizing s done with
  | nil =>
    cases hr
    exact ⟨h, rfl, rfl, rfl, id⟩
  | cons x xs ih =>
    rw [List.foldlM_cons] at hr
    obtain ⟨s₁, hrow, hrest⟩ := Option.bind_eq_some_iff.mp hr
    have hnew : x ∉ done := fun hmem =>
      (List.nodup_cons.mp hnd).1 (List.mem_append_right _ hmem)
    obtain ⟨h₁, hnx, hny, hw, hl⟩ := h.row (hxs x (by simp)) hnew hrow
    have hrows : s₁.rows = s.rows := by rw [rows, hnx, rows]
    have hperm : (x :: (xs ++ done)).Perm (xs ++ x :: done) := List.perm_middle.symm
    obtain ⟨h', hnx', hny', hw', hl'⟩ := ih h₁ (hperm.nodup_iff.mp hnd)
      (fun i hi => by rw [hrows]; exact hxs i (by simp [hi])) hrest
    exact ⟨h'.perm hperm.symm, hnx'.trans hnx, hny'.trans hny, hw'.trans hw, fun h => hl' (hl h)⟩

/-- Every row finds a partner if a column is left for it and all reduced costs are below `INF`. -/
theorem rows_return (h : Partial done s) (hnd : (xs ++ done).Nodup) (hxs : ∀ x ∈ xs, x ∈ s.rows)
    (hbelow : ∀ ys x zs t, xs = ys ++ x :: zs → ys.foldlM (KM.row fuel) s = some t →
      ∀ k u, Round x t.refill k u → u.Below)
    (hlen : (xs ++ done).length ≤ s.ny) (hfuel : s.ny + 1 ≤ fuel) :
    ∃ s', xs.foldlM (KM.row fuel) s = some s' := by
  induction xs generalizing s done with
  | nil => exact ⟨s, rfl⟩
  | cons x xs ih =>
    have hnew : x ∉ done := fun hmem =>
      (List.nodup_cons.mp hnd).1 (List.mem_append_right _ hmem)
    have hx : x ∈ s.rows := hxs x (by simp)
    have hlt : done.length < s.ny := by
      simp only [List.cons_append, List.length_cons, List.length_append] at hlen
      omega
    obtain ⟨s₁, hrow⟩ : ∃ s₁, KM.row fuel s x = some s₁ :=
      augment_returns (h.waiting hx hnew) (h.free hlt) (fun j hj => if_pos hj)
        (hbelow [] x xs s rfl rfl) .first hfuel
    obtain ⟨h₁, hnx, hny, hw, -⟩ := h.row (B := 0) hx hnew hrow
    have hrows : s₁.rows = s.rows := by rw [rows, hnx, rows]
    have hperm : (x :: (xs ++ done)).Perm (xs ++ x :: done) := List.perm_middle.symm
    obtain ⟨s', hrest⟩ := ih h₁ (hperm.nodup_iff.mp hnd)
      (fun i hi => by rw [hrows]; exact hxs i (by simp [hi]))
      (fun ys y zs t he ht => hbelow (x :: ys) y zs t (by rw [he]; rfl) (by
        rw [List.foldlM_cons, hrow]
        exact ht))
      (by rw [← hperm.length_eq, hny]; exact hlen) (by rwa [hny])
    refine ⟨s', ?_⟩
    rw [List.foldlM_cons, hrow]
    exact hrest

/-- A row's first label is the greatest of its weights, or `-INF`. -/
theorem init_spec {i : ℕ} (hi : i ∈ s.rows) :
    (∀ j ∈ s.columns, s.w i j ≤ s.init.lx i) ∧
      (s.init.lx i = -inf ∨ ∃ j ∈ s.columns, s.init.lx i = s.w i j) := by
  have hbest (l : ℤ) (j : ℕ) : l ≤ (if s.w i j > l then s.w i j else l) ∧
      (True → s.w i j ≤ if s.w i j > l then s.w i j else l) := by
    split_ifs with hgt
    · exact ⟨hgt.le, fun _ => le_rfl⟩
    · exact ⟨le_rfl, fun _ => not_lt.mp hgt⟩
  have hatt (l : ℤ) (j : ℕ) : (if s.w i j > l then s.w i j else l) = l ∨
      True ∧ (if s.w i j > l then s.w i j else l) = s.w i j := by
    split_ifs
    · exact Or.inr ⟨trivial, rfl⟩
    · exact Or.inl rfl
  obtain ⟨-, hall, hsome⟩ := foldl_best (r := (· ≥ ·)) le_refl ge_trans hbest hatt s.columns (-inf)
  simp only [init, if_pos hi]
  refine ⟨fun j hj => hall j hj trivial, hsome.imp_right ?_⟩
  rintro ⟨j, hj, -, he⟩
  exact ⟨j, hj, he⟩

/-- The first labels cover all weights. -/
theorem init_feasible (s : KM) : s.init.Feasible := by
  intro i hi j hj
  have hle : s.w i j ≤ s.init.lx i := (init_spec (s := s) hi).1 j hj
  change 0 ≤ s.init.lx i + 0 - s.w i j
  omega

theorem init_level (h : ∀ i ∈ s.rows, ∀ j ∈ s.columns, -B ≤ s.w i j ∧ s.w i j ≤ B)
    (hsq : s.rows = s.columns) : Level B s.init := by
  refine ⟨h, fun i hi => ?_, fun _ _ _ => rfl⟩
  replace hi : i ∈ s.rows := hi
  rcases (init_spec hi).2 with he | ⟨j, hj, he⟩
  · have hw := h i hi i (hsq ▸ hi)
    have hinf : (0 : ℤ) ≤ inf := by decide
    omega
  · rw [he]
    exact (h i hi j hj).2

theorem init_tight (s : KM) : s.init.Tight := fun _ _ _ hlink => by cases hlink

/-- At the beginning no row has a partner. -/
theorem init_partial (s : KM) : Partial [] s.init :=
  ⟨s.init_feasible, s.init_tight, by simp [mates, init], List.nodup_nil⟩

theorem rows_nodup (s : KM) : (s.rows ++ []).Nodup := by
  rw [List.append_nil]
  exact List.nodup_range'

/-- `res` adds up the weights of the links. -/
theorem sum_links {σ : ℕ → ℕ} {ys : List ℕ} (hlink : ∀ y ∈ ys, s.link y = some (σ y)) (res : ℤ) :
    ys.foldl (fun res i => (s.link i).elim res fun x => res + s.w x i) res =
      res + (ys.map fun y => s.w (σ y) y).sum := by
  induction ys generalizing res with
  | nil => simp
  | cons y ys ih =>
    rw [List.foldl_cons, hlink y (by simp), Option.elim_some, ih fun z hz => hlink z (by simp [hz]),
      List.map_cons, List.sum_cons, add_assoc]

theorem mem_range'_one {n y : ℕ} : y ∈ List.range' 1 n ↔ y ∈ Finset.Icc 1 n := by
  rw [List.mem_range'_1, Finset.mem_Icc]
  omega

/-- Search number `k` for row `x` of a run begins in state `t`. -/
def Begins (s : KM) (x k : ℕ) (t : KM) : Prop :=
  x ∈ s.rows ∧ ∃ fuel t₀, (List.range' 1 (x - 1)).foldlM (row fuel) s.init = some t₀ ∧
    Round x t₀.refill k t

/-- The state in which the `while(1)` for row `x` was entered. -/
theorem Begins.entered {k : ℕ} {t : KM} (hb : Begins s x k t) (hsq : s.nx ≤ s.ny) :
    ∃ t₀, Round x t₀ k t ∧ Waiting (List.range' 1 (x - 1)) x t₀ ∧
      (∃ j ∈ t₀.columns, t₀.link j = none) ∧ (∀ j ∈ t₀.columns, t₀.slack j = inf) ∧
      (∀ k u, Round x t₀ k u → Begins s x k u) ∧
      t₀.nx = s.nx ∧ t₀.ny = s.ny ∧ t₀.w = s.w ∧ (Level B s.init → Level B t₀) := by
  obtain ⟨hx, fuel, t₀, hrows, hr⟩ := hb
  have hxs := List.mem_range'_1.mp hx
  have hsub : ∀ i ∈ List.range' 1 (x - 1), i ∈ s.init.rows := by
    intro i hi
    have hlt := List.mem_range'_1.mp hi
    exact List.mem_range'_1.mpr ⟨hlt.1, by change i < 1 + s.nx; omega⟩
  obtain ⟨h, hnx, hny, hw, hl⟩ := rows_matched s.init_partial
    (by rw [List.append_nil]; exact List.nodup_range') hsub hrows
  rw [List.append_nil] at h
  have hrow : x ∈ t₀.rows := by
    rw [rows, hnx]
    exact hx
  have hnew : x ∉ List.range' 1 (x - 1) := fun hmem => by
    have hlt := List.mem_range'_1.mp hmem
    omega
  have hfree := h.free (by
    rw [List.length_range', hny]
    change x - 1 < s.ny
    omega)
  exact ⟨t₀.refill, hr, h.waiting hrow hnew, hfree, fun j hj => if_pos hj,
    fun _ _ hr => ⟨hx, fuel, t₀, hrows, hr⟩, hnx, hny, hw, fun h₀ => (hl h₀).refill⟩

/-- With weights that are small beside `INF`, so are the reduced costs. -/
theorem Begins.cost_lt {k : ℕ} {t : KM} (hb : Begins s x k t) (hsq : s.nx ≤ s.ny)
    (hl : Level B s.init) (hB : 4 * B < inf) : t.Below := by
  obtain ⟨t₀, hr, hwait, hfree, -, -, -, -, -, hlevel⟩ := hb.entered hsq
  exact hr.cost_lt hwait hfree (hlevel hl) hB

/-- A run returns if all reduced costs that occur are below `INF`. -/
theorem run_some (hsq : s.nx ≤ s.ny) (hbelow : ∀ x k t, Begins s x k t → t.Below)
    (hfuel : s.ny + 1 ≤ fuel) : ∃ r, s.run fuel = some r := by
  have hlen : (s.rows ++ []).length ≤ s.init.ny := by
    rw [List.append_nil, rows, List.length_range']
    exact hsq
  have hrounds (ys : List ℕ) (x : ℕ) (zs : List ℕ) (t : KM) (he : s.rows = ys ++ x :: zs)
      (ht : ys.foldlM (row fuel) s.init = some t) (k : ℕ) (u : KM) (hr : Round x t.refill k u) :
      u.Below := by
    obtain ⟨m, -, rfl, hcons⟩ := List.range'_eq_append_iff.mp he
    obtain ⟨rfl, -⟩ := List.range'_eq_cons_iff.mp hcons.symm
    refine hbelow _ k u ⟨he ▸ by simp, fuel, t, ?_, hr⟩
    simpa using ht
  obtain ⟨s₁, hs₁⟩ := rows_return s.init_partial s.rows_nodup (fun _ => id) hrounds hlen hfuel
  exact ⟨_, Option.map_eq_some_iff.mpr ⟨s₁, hs₁, rfl⟩⟩

theorem level_of_weights {n : ℕ} (hx : s.nx = n) (hy : s.ny = n)
    (hw : ∀ x ∈ Finset.Icc 1 n, ∀ y ∈ Finset.Icc 1 n, -B ≤ s.w x y ∧ s.w x y ≤ B) :
    Level B s.init := by
  have hrows : s.rows = List.range' 1 n := by rw [rows, hx]
  have hcols : s.columns = List.range' 1 n := by rw [columns, hy]
  refine init_level (fun i hi j hj => ?_) (hrows.trans hcols.symm)
  rw [hrows, mem_range'_one] at hi
  rw [hcols, mem_range'_one] at hj
  exact hw i hi j hj

/-- With weights that are small beside `INF`, `run` returns. -/
theorem run_returns {n : ℕ} (hx : s.nx = n) (hy : s.ny = n) (hB : 4 * B < inf)
    (hw : ∀ x ∈ Finset.Icc 1 n, ∀ y ∈ Finset.Icc 1 n, -B ≤ s.w x y ∧ s.w x y ≤ B) :
    ∃ r, s.run (n + 2) = some r := by
  have hsq : s.nx ≤ s.ny := (hx.trans hy.symm).le
  exact run_some hsq (fun x k t hb => hb.cost_lt hsq (level_of_weights hx hy hw) hB) (by omega)

/-- When `run` returns, the links are an assignment, and none has more weight. -/
theorem run_links {n : ℕ} {res : ℤ} (hx : s.nx = n) (hy : s.ny = n)
    (hrun : s.run fuel = some (res, s')) :
    ∃ σ : ℕ → ℕ, (∀ y ∈ Finset.Icc 1 n, s'.link y = some (σ y)) ∧
      Set.BijOn σ (Finset.Icc 1 n) (Finset.Icc 1 n) ∧
      res = ∑ y ∈ Finset.Icc 1 n, s.w (σ y) y ∧
      ∀ p : ℕ → ℕ, Set.BijOn p (Finset.Icc 1 n) (Finset.Icc 1 n) →
        ∑ y ∈ Finset.Icc 1 n, s.w (p y) y ≤ res := by
  obtain ⟨s₁, hrows, he⟩ := Option.map_eq_some_iff.mp hrun
  simp only [Prod.mk.injEq] at he
  obtain ⟨hres, rfl⟩ := he
  obtain ⟨⟨hf, ht, hm, -⟩, hnx, hny, hw, -⟩ := rows_matched (B := 0) s.init_partial s.rows_nodup
    (fun _ => id) hrows
  replace hnx : s₁.nx = n := hnx.trans hx
  replace hny : s₁.ny = n := hny.trans hy
  replace hw : s₁.w = s.w := hw
  rw [List.append_nil] at hm
  have hcols : s₁.columns = List.range' 1 n := by rw [columns, hny]
  have hrows₁ : s₁.rows = List.range' 1 n := by rw [rows, hnx]
  have hrows₀ : s.rows = List.range' 1 n := by rw [rows, hx]
  rw [hcols, hrows₀] at hm
  obtain ⟨hlink, hbij⟩ := bijOn_of_mates (σ := fun y => (s₁.link y).getD 0) hm List.nodup_range' rfl
    fun y x hyx => by rw [hyx, Option.getD_some]
  have hset : { y | y ∈ List.range' 1 n } = (Finset.Icc 1 n : Set ℕ) := by
    ext y
    exact mem_range'_one
  rw [hset] at hbij
  have hcover : ∀ x ∈ Finset.Icc 1 n, ∀ y ∈ Finset.Icc 1 n, s.w x y ≤ s₁.lx x + s₁.ly y := by
    intro x hx y hy
    have hcost := hf x (by rwa [hrows₁, mem_range'_one]) y (by rwa [hcols, mem_range'_one])
    rw [cost, hw] at hcost
    omega
  have htight : ∀ y ∈ Finset.Icc 1 n, s.w ((s₁.link y).getD 0) y =
      s₁.lx ((s₁.link y).getD 0) + s₁.ly y := by
    intro y hy
    have hcost := (ht y (by rwa [hcols, mem_range'_one]) _ (hlink y (mem_range'_one.mpr hy))).2
    rw [cost, hw] at hcost
    omega
  have hsum : res = ∑ y ∈ Finset.Icc 1 n, s.w ((s₁.link y).getD 0) y := by
    have hfin : (List.range' 1 n).toFinset = Finset.Icc 1 n := by
      ext y
      rw [List.mem_toFinset, mem_range'_one]
    rw [← hfin, List.sum_toFinset _ List.nodup_range', ← hres, hcols, sum_links hlink, hw, zero_add]
  refine ⟨_, fun y hy => hlink y (mem_range'_one.mpr hy), hbij, hsum, fun p hp => ?_⟩
  rw [hsum, sum_eq_labels htight hbij]
  exact sum_le_labels hcover hp

/-- The matching of a square is of maximum weight. With weights of absolute value below a quarter
of `INF` it is found. -/
theorem run_maximum {n : ℕ} (hx : s.nx = n) (hy : s.ny = n) :
    (∀ fuel res s', s.run fuel = some (res, s') →
      ∃ σ : ℕ → ℕ, (∀ y ∈ Finset.Icc 1 n, s'.link y = some (σ y)) ∧
        Set.BijOn σ (Finset.Icc 1 n) (Finset.Icc 1 n) ∧
        res = ∑ y ∈ Finset.Icc 1 n, s.w (σ y) y ∧
        ∀ p : ℕ → ℕ, Set.BijOn p (Finset.Icc 1 n) (Finset.Icc 1 n) →
          ∑ y ∈ Finset.Icc 1 n, s.w (p y) y ≤ res) ∧
    ∀ B, 4 * B < inf →
      (∀ x ∈ Finset.Icc 1 n, ∀ y ∈ Finset.Icc 1 n, -B ≤ s.w x y ∧ s.w x y ≤ B) →
      ∃ r, s.run (n + 2) = some r :=
  ⟨fun _ _ _ => run_links hx hy, fun _ => run_returns hx hy⟩

/-- Two rows that prefer one column: 3, 4 and 2, 4. -/
def contested : KM where
  nx := 2
  ny := 2
  w := fun x y => if y = 2 then 4 else if x = 1 then 3 else 2
  lx := fun _ => 0
  ly := fun _ => 0
  link := fun _ => none
  visx := fun _ => false
  visy := fun _ => false
  slack := fun _ => 0

theorem run_maximum_contested : (contested.run 4).map Prod.fst = some 7 ∧
    ∀ p : ℕ → ℕ, Set.BijOn p (Finset.Icc 1 2) (Finset.Icc 1 2) →
      ∑ y ∈ Finset.Icc 1 2, contested.w (p y) y ≤ 7 := by
  have hseven : (contested.run 4).map Prod.fst = some 7 := by decide +kernel
  obtain ⟨⟨res, s'⟩, hrun, rfl⟩ := Option.map_eq_some_iff.mp hseven
  obtain ⟨σ, -, -, -, hmax⟩ := (run_maximum rfl rfl).1 4 7 s' hrun
  exact ⟨hseven, hmax⟩

end Run

end KM
end Mosito
