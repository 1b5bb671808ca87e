import Mosito.Analysis.SearchCount
import Mathlib.Algebra.Order.Group.Abs

/-! The run with the 32-bit integers of the source. An overflow is undefined, and so is here a
reduced cost that is not below `INF`: such a run has no result. -/
namespace Mosito
open Assignment

/-- The values of an `int`. -/
def Fits (v : ℤ) : Prop := -2147483648 ≤ v ∧ v ≤ 2147483647
  deriving Decidable

/-- The result of an operation on `int`s. -/
def int32 (v : ℤ) : Option ℤ := if Fits v then some v else none

theorem int32_of_fits {v : ℤ} (h : Fits v) : int32 v = some v := if_pos h

namespace KM

/-- `t`. -/
def cost32 (s : KM) (x y : ℕ) : Option ℤ :=
  (int32 (s.lx x + s.ly y)).bind fun a => (int32 (a - s.w x y)).bind fun t =>
    if t < inf then some t else none

def scan32 (again : KM → ℕ → Option (Bool × KM)) (x : ℕ) : List ℕ → KM → Option (Bool × KM)
  | [], s => some (false, s)
  | y :: ys, s =>
      if s.visy y then scan32 again x ys s
      else (s.cost32 x y).bind fun t =>
        if t = 0 then
          let s := { s with visy := Function.update s.visy y true }
          match s.link y with
          | none => some (true, { s with link := Function.update s.link y (some x) })
          | some x' =>
              (again s x').bind fun r =>
                if r.1 then some (true, { r.2 with link := Function.update r.2.link y (some x) })
                else scan32 again x ys r.2
        else if s.slack y > t then
          scan32 again x ys { s with slack := Function.update s.slack y t }
        else scan32 again x ys s

def search32 : ℕ → KM → ℕ → Option (Bool × KM)
  | 0, _, _ => none
  | fuel + 1, s, x =>
      scan32 (search32 fuel) x s.columns { s with visx := Function.update s.visx x true }

/-- The new labels and slacks, if all of them and `d` fit. -/
def relabel32 (s : KM) : Option KM :=
  if Fits s.minSlack ∧ (∀ i ∈ s.rows, s.visx i = true → Fits (s.lx i - s.minSlack)) ∧
      (∀ i ∈ s.columns, s.visy i = true → Fits (s.ly i + s.minSlack)) ∧
      ∀ i ∈ s.columns, s.visy i = false → Fits (s.slack i - s.minSlack) then some s.relabel
  else none

def augment32 : ℕ → KM → ℕ → Option KM
  | 0, _, _ => none
  | fuel + 1, s, x =>
      (search32 (s.ny + 1) s.unvisit x).bind fun r =>
        if r.1 then some r.2 else (relabel32 r.2).bind fun s => augment32 fuel s x

def row32 (fuel : ℕ) (s : KM) (x : ℕ) : Option KM := augment32 fuel s.refill x

def run32 (fuel : ℕ) (s : KM) : Option (ℤ × KM) :=
  (s.rows.foldlM (row32 fuel) s.init).bind fun s =>
    (s.columns.foldlM (fun res i => (s.link i).elim (some res) fun x => int32 (res + s.w x i)) 0).map
      fun res => (res, s)

section Search
variable {s s' : KM} {x : ℕ} {found : Bool}

/-- The labels of every pair can be added, and its reduced cost is below `INF`. -/
def LabelsFit (s : KM) : Prop :=
  ∀ i ∈ s.rows, ∀ j ∈ s.columns, Fits (s.lx i + s.ly j) ∧ Fits (s.cost i j) ∧ s.cost i j < inf

theorem LabelsFit.cost32 (h : s.LabelsFit) {y : ℕ} (hx : x ∈ s.rows) (hy : y ∈ s.columns) :
    s.cost32 x y = some (s.cost x y) := by
  obtain ⟨hsum, hcost, hlt⟩ := h x hx y hy
  rw [KM.cost32, int32_of_fits hsum, Option.bind_some]
  change (int32 (s.cost x y)).bind _ = _
  rw [int32_of_fits hcost, Option.bind_some, if_pos hlt]

theorem LabelsFit.step (h : s.LabelsFit) (hs : Step x s found s') : s'.LabelsFit := by
  obtain ⟨-, -, -, hlx, hly⟩ := hs.fixed
  intro i hi j hj
  rw [hs.rows_eq] at hi
  rw [hs.columns_eq] at hj
  rw [hlx, hly, hs.cost_eq]
  exact h i hi j hj

/-- A search is the exact one. -/
theorem search32_eq {fuel : ℕ} (h : s.Ready) (hfit : s.LabelsFit) (hx : x ∈ s.rows) :
    search32 fuel s x = search fuel s x := by
  induction fuel generalizing s x with
  | zero => rfl
  | succ fuel ih =>
    have hscan (ys : List ℕ) (t : KM) (ht : t.Ready) (hf : t.LabelsFit) (hxt : x ∈ t.rows)
        (hv : t.visx x = true) (hys : ∀ y ∈ ys, y ∈ t.columns) :
        scan32 (search32 fuel) x ys t = scan (search fuel) x ys t := by
      induction ys generalizing t with
      | nil => rfl
      | cons y ys ihy =>
        have hy : y ∈ t.columns := hys y (by simp)
        have hrest {t' : KM} {x₀ : ℕ} (h₁ : Step x₀ t false t') :
            scan32 (search32 fuel) x ys t' = scan (search fuel) x ys t' :=
          ihy t' h₁.ready (hf.step h₁) (by rwa [h₁.rows_eq]) (h₁.visx x hv)
            fun j hj => by rw [h₁.columns_eq]; exact hys j (by simp [hj])
        rw [scan32, scan, hf.cost32 hxt hy, Option.bind_some]
        split_ifs with hvis hcost hgt
        · exact hrest (.refl (x := x) ht)
        · cases hlink : t.link y with
          | none => simp only [hlink]
          | some x' =>
            have hready : KM.Ready { t with visy := Function.update t.visy y true } :=
              ⟨ht.feasible, ht.tight, ht.slack⟩
            have hx' := (ht.tight y hy x' hlink).1
            have hagain := ih (s := { t with visy := Function.update t.visy y true }) hready hf hx'
            simp only [hlink, hagain]
            refine Option.bind_congr fun r hr => ?_
            obtain ⟨found, t₂⟩ := r
            obtain ⟨h₂, hfail⟩ := search_step hready hx' hr
            cases found with
            | true => rfl
            | false =>
              obtain ⟨hv', hall⟩ := hfail rfl
              exact hrest (.visit hv hy hcost hlink h₂ hv' hall)
        · exact hrest (.lower ht hxt hv hy hgt)
        · exact hrest (.refl (x := x) ht)
    exact hscan s.columns { s with visx := Function.update s.visx x true }
      ⟨h.feasible, h.tight, h.slack⟩ hfit hx (Function.update_self _ _ _) fun _ => id

end Search

section Run
variable {s s' : KM} {fuel x n : ℕ} {xs done : List ℕ} {B : ℤ}

theorem Level.labelsFit (h : Level B s) (hr : s.Ready) (hfree : ∃ j ∈ s.columns, s.link j = none)
    (hB : 4 * B < inf) : s.LabelsFit := by
  intro i hi j hj
  have hlow := h.rows_ge hr hfree hi
  have hhigh := h.rows_le i hi
  have hcost := hr.feasible i hi j hj
  have hle := h.cost_le hr hfree hi hj
  have hinf : inf = 2147483647 := rfl
  refine ⟨⟨?_, ?_⟩, ⟨by omega, by omega⟩, by omega⟩ <;>
    rcases h.column_bounds hr hfree hj with hly | hly <;> omega

/-- No slack is above `INF`. -/
def SlackLe (s : KM) : Prop := ∀ j ∈ s.columns, s.slack j ≤ inf

theorem SlackLe.step {found : Bool} (h : s.SlackLe) (hs : Step x s found s') : s'.SlackLe := by
  intro j hj
  rw [hs.columns_eq] at hj
  exact (hs.slack j).trans (h j hj)

theorem SlackLe.relabel (h : s.SlackLe) (hr : s.Ready) : s.relabel.SlackLe := by
  intro j hj
  have hd := minSlack_nonneg hr
  have hle := h j hj
  change (if j ∈ s.columns ∧ s.visy j = false then s.slack j - s.minSlack else s.slack j) ≤ inf
  split_ifs
  · omega
  · exact hle

theorem relabel32_eq (hr : s.Ready) (hr' : s.relabel.Ready) (hl : Level B s.relabel)
    (hfree : ∃ j ∈ s.columns, s.link j = none) (hslack : s.SlackLe)
    (hB : 4 * B < inf) : relabel32 s = some s.relabel := by
  have hinf : inf = 2147483647 := rfl
  have hd := minSlack_nonneg hr
  have hd' : s.minSlack ≤ inf := by
    rcases s.minSlack_spec.2 with he | ⟨j, hj, -, he⟩
    · exact he.le
    · rw [he]
      exact hslack j hj
  refine if_pos ⟨⟨by omega, by omega⟩, fun i hi hv => ?_, fun j hj hv => ?_, fun j hj hv => ?_⟩
  · have hlow := hl.rows_ge hr' hfree hi
    have hhigh := hl.rows_le i hi
    have hlx : s.relabel.lx i = s.lx i - s.minSlack := if_pos ⟨hi, hv⟩
    rw [hlx] at hlow hhigh
    exact ⟨by omega, by omega⟩
  · have hly : s.relabel.ly j = s.ly j + s.minSlack := if_pos ⟨hj, hv⟩
    rcases hl.column_bounds hr' hfree hj with hb | hb <;> rw [hly] at hb <;>
      exact ⟨by omega, by omega⟩
  · have hle := s.minSlack_spec.1 j hj hv
    have hle' := hslack j hj
    exact ⟨by omega, by omega⟩

/-- The `while(1)` for a row is the exact one. -/
theorem augment32_eq (h : Waiting done x s) (hfree : ∃ j ∈ s.columns, s.link j = none)
    (hl : Level B s) (hslack : s.SlackLe) (hB : 4 * B < inf) :
    augment32 fuel s x = augment fuel s x := by
  induction fuel generalizing s with
  | zero => rfl
  | succ fuel ih =>
    have hfit : s.unvisit.LabelsFit := hl.labelsFit h.ready hfree hB
    rw [augment32, augment, search32_eq h.ready.unvisit hfit h.row]
    refine Option.bind_congr fun r hs => ?_
    obtain ⟨found, s₁⟩ := r
    cases found with
    | true => rfl
    | false =>
      have hf := h.failed hs
      have hwait := h.relabel hf
      have hslack₁ : s₁.SlackLe := SlackLe.step (s := s.unvisit) hslack hf.step
      have hl₁ := (hl.unvisit.step hf.step).relabel hf
      have hfree₁ : ∃ j ∈ s₁.columns, s₁.link j = none := by
        rw [hf.step.columns_eq, hf.step.same rfl]
        exact hfree
      have hr := relabel32_eq hf.step.ready hwait.ready hl₁ hfree₁ hslack₁ hB
      change (relabel32 s₁).bind _ = _
      rw [hr, Option.bind_some]
      exact ih hwait hfree₁ hl₁ (hslack₁.relabel hf.step.ready)

/-- So is the loop over the rows. -/
theorem rows32_eq (h : Partial done s) (hnd : (xs ++ done).Nodup) (hxs : ∀ x ∈ xs, x ∈ s.rows)
    (hlen : (xs ++ done).length ≤ s.ny) (hl : Level B s) (hB : 4 * B < inf) :
    xs.foldlM (row32 fuel) s = xs.foldlM (row fuel) s := by
  induction xs generalizing s done with
  | nil => rfl
  | cons x xs ih =>
    have hnew : x ∉ done := fun hmem =>
      (List.nodup_cons.mp hnd).1 (List.mem_append_right _ hmem)
    have hx : x ∈ s.rows := hxs x (by simp)
    have hlt : done.length < s.ny := by
      simp only [List.cons_append, List.length_cons, List.length_append] at hlen
      omega
    have hrow : row32 fuel s x = row fuel s x :=
      augment32_eq (h.waiting hx hnew) (h.free hlt) hl.refill (fun j hj => (if_pos hj).le) hB
    rw [List.foldlM_cons, List.foldlM_cons, hrow]
    refine Option.bind_congr fun s₁ hs₁ => ?_
    obtain ⟨h₁, hnx, hny, -, hl₁⟩ := h.row (B := B) hx hnew hs₁
    have hrows : s₁.rows = s.rows := by rw [rows, hnx, rows]
    have hperm : (x :: (xs ++ done)).Perm (xs ++ x :: done) := List.perm_middle.symm
    exact ih h₁ (hperm.nodup_iff.mp hnd) (fun i hi => by rw [hrows]; exact hxs i (by simp [hi]))
      (by rw [← hperm.length_eq, hny]; exact hlen) (hl₁ hl)

/-- `res` stays below the number of links times the greatest weight. -/
theorem sum32_eq (ys : List ℕ) (res : ℤ)
    (hw : ∀ y ∈ ys, ∀ x, s.link y = some x → -B ≤ s.w x y ∧ s.w x y ≤ B) (hpos : 0 ≤ B)
    (hlow : -2147483648 ≤ res - ys.length * B) (hhigh : res + ys.length * B ≤ 2147483647) :
    ys.foldlM (fun res i => (s.link i).elim (some res) fun x => int32 (res + s.w x i)) res =
      some (ys.foldl (fun res i => (s.link i).elim res fun x => res + s.w x i) res) := by
  induction ys generalizing res with
  | nil => rfl
  | cons y ys ih =>
    have hrest : 0 ≤ ys.length * B := Int.mul_nonneg (Int.natCast_nonneg _) hpos
    rw [List.length_cons, Nat.cast_succ, add_one_mul] at hlow hhigh
    have hys : ∀ z ∈ ys, ∀ x, s.link z = some x → -B ≤ s.w x z ∧ s.w x z ≤ B :=
      fun z hz => hw z (by simp [hz])
    rw [List.foldlM_cons, List.foldl_cons]
    cases hlink : s.link y with
    | none => exact ih _ hys (by omega) (by omega)
    | some x =>
      obtain ⟨hlo, hhi⟩ := hw y (by simp) x hlink
      have hfits : Fits (res + s.w x y) := ⟨by omega, by omega⟩
      rw [Option.elim_some, Option.elim_some, int32_of_fits hfits]
      exact ih _ hys (by omega) (by omega)

/-- With at most 309 rows and columns and weights up to 6000000, every `int` of `run` fits and
every reduced cost is below `INF`: the run with 32 bits is the exact one. -/
theorem run32_eq (hx : s.nx = n) (hy : s.ny = n) (hn : n ≤ 309)
    (hw : ∀ x ∈ Finset.Icc 1 n, ∀ y ∈ Finset.Icc 1 n, |s.w x y| ≤ 6000000) :
    ∃ r, s.run32 (n + 1) = some r ∧ s.run (n + 1) = some r := by
  have hB : 4 * (6000000 : ℤ) < inf := by decide
  have hsq : s.nx ≤ s.ny := (hx.trans hy.symm).le
  have hlevel : Level 6000000 s.init :=
    level_of_weights hx hy fun x hx y hy => abs_le.mp (hw x hx y hy)
  obtain ⟨⟨res, s'⟩, hrun⟩ : ∃ r, s.run (n + 1) = some r :=
    run_some hsq (fun x k t hb => hb.cost_lt hsq hlevel hB) (by omega)
  refine ⟨(res, s'), ?_, hrun⟩
  obtain ⟨s₁, hrows, he⟩ := Option.map_eq_some_iff.mp hrun
  simp only [Prod.mk.injEq] at he
  obtain ⟨hres, rfl⟩ := he
  have hlen : (s.rows ++ []).length ≤ s.init.ny := by
    rw [List.append_nil, rows, List.length_range']
    exact hsq
  have hrows32 : s.rows.foldlM (row32 (n + 1)) s.init = some s₁ :=
    (rows32_eq s.init_partial s.rows_nodup (fun _ => id) hlen hlevel hB).trans hrows
  obtain ⟨hpart, -, hny, hw₁, hl₁⟩ := rows_matched s.init_partial s.rows_nodup (fun _ => id) hrows
  have hcols : s₁.columns.length = n := by
    rw [columns, List.length_range', hny]
    exact hy
  have hsum := sum32_eq (s := s₁) (B := 6000000) s₁.columns 0
    (fun y hy x hlink => (hl₁ hlevel).weights x (hpart.tight y hy x hlink).1 y hy) (by decide)
    (by rw [hcols]; omega) (by rw [hcols]; omega)
  rw [run32, hrows32, Option.bind_some, hsum, hres]
  rfl

theorem run32_eq_early : ∃ r, early.run32 3 = some r ∧ early.run 3 = some r :=
  run32_eq (n := 2) rfl rfl (by decide) (by decide)

end Run

end KM
end Mosito
