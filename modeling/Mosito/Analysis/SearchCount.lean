import Mosito.Analysis.MaximumMatching

/-! How often the `while(1)` of `run` searches for one row, and what each search in vain adds. -/
namespace Mosito
open Assignment
namespace KM

section Found
variable {s s' : KM} {x : ℕ}

/-- A search that finds something ends at a column that was free. -/
theorem search_free {fuel : ℕ} (h : s.Ready) (hx : x ∈ s.rows)
    (hs : search fuel s x = some (true, s')) :
    ∃ j ∈ s.columns, s.link j = none ∧ s'.visy j = true := by
  induction fuel generalizing s x s' with
  | zero => cases hs
  | succ fuel ih =>
    have hscan (ys : List ℕ) (t : KM) (ht : t.Ready) (hxt : x ∈ t.rows) (hv : t.visx x = true)
        (hys : ∀ y ∈ ys, y ∈ t.columns) (hr : scan (search fuel) x ys t = some (true, s')) :
        ∃ j ∈ t.columns, t.link j = none ∧ s'.visy j = true := by
      induction ys generalizing t with
      | nil => simp [scan] at hr
      | cons y ys ihy =>
        have hy : y ∈ t.columns := hys y (by simp)
        have hrest {t' : KM} {x₀ : ℕ} (h₁ : Step x₀ t false t')
            (hr' : scan (search fuel) x ys t' = some (true, s')) :
            ∃ j ∈ t.columns, t.link j = none ∧ s'.visy j = true := by
          obtain ⟨j, hj, hnone, hvj⟩ := ihy t' h₁.ready (by rwa [h₁.rows_eq]) (h₁.visx x hv)
            (fun j hj => by rw [h₁.columns_eq]; exact hys j (by simp [hj])) hr'
          rw [h₁.columns_eq] at hj
          rw [h₁.same rfl] at hnone
          exact ⟨j, hj, hnone, hvj⟩
        rw [scan] at hr
        split_ifs at hr with hvis hcost hgt
        · exact hrest (.refl (x := x) ht) hr
        · cases hlink : t.link y with
          | none =>
            simp only [hlink, Option.some.injEq, Prod.mk.injEq, true_and] at hr
            subst hr
            exact ⟨y, hy, hlink, Function.update_self _ _ _⟩
          | some x' =>
            simp only [hlink] at hr
            obtain ⟨⟨found, t₂⟩, hagain, hr⟩ := Option.bind_eq_some_iff.mp hr
            have hready : KM.Ready { t with visy := Function.update t.visy y true } :=
              ⟨ht.feasible, ht.tight, ht.slack⟩
            have hx' := (ht.tight y hy x' hlink).1
            split_ifs at hr with hfound
            · simp only [Option.some.injEq, Prod.mk.injEq, true_and] at hr
              subst hr
              rw [show found = true from hfound] at hagain
              obtain ⟨j, hj, hnone, hvj⟩ :=
                ih (s := { t with visy := Function.update t.visy y true }) hready hx' hagain
              exact ⟨j, hj, hnone, hvj⟩
            · have hf : found = false := by simpa using hfound
              subst hf
              obtain ⟨h₂, hfail⟩ := search_step hready hx' hagain
              obtain ⟨hv', hall⟩ := hfail rfl
              exact hrest (.visit hv hy hcost hlink h₂ hv' hall) hr
        · exact hrest (.lower ht hxt hv hy hgt) hr
        · exact hrest (.refl (x := x) ht) hr
    exact hscan s.columns { s with visx := Function.update s.visx x true }
      ⟨h.feasible, h.tight, h.slack⟩ hx (Function.update_self _ _ _) (fun _ => id) hs

end Found

section Count
variable {s t t' : KM} {n x k : ℕ} {done : List ℕ}

/-- A search in vain leaves a column, and the labels change by a positive number below `INF`. -/
theorem Failed.minSlack_pos (h : Failed x s t) (hx : x ∈ t.rows) (hatt : t.Attained)
    (hfree : ∃ j ∈ t.columns, t.link j = none) (hb : t.Below) :
    0 < t.minSlack ∧ t.minSlack < inf := by
  obtain ⟨i, j, hi, hj, hv, he⟩ := h.minSlack_attained hx hatt hfree hb
  have hrow := h.visited_row hx hi
  have hcost := h.step.ready.feasible i hrow j hj
  have hne := (h.scanned_all hi hj hv).1
  have hlt := hb i hrow j hj
  omega

/-- The search after one in vain visits a new column, whatever it finds. -/
theorem Failed.again_new {found : Bool} {t₂ : KM} (h : Failed x s t) (hwait : Waiting done x t)
    (hwait' : Waiting done x t.relabel) (hatt : t.Attained)
    (hfree : ∃ j ∈ t.columns, t.link j = none) (hb : t.Below)
    (hs : search (t.relabel.ny + 1) t.relabel.unvisit x = some (found, t₂)) :
    ∃ j ∈ t.columns, t.visy j = false ∧ t₂.visy j = true := by
  cases found with
  | true =>
    obtain ⟨j, hj, hnone, hv⟩ := search_free hwait'.ready.unvisit hwait'.row hs
    exact ⟨j, hj, h.free_unvisited hnone, hv⟩
  | false =>
    have h₂ := hwait'.failed hs
    have hmore := h.again_more h₂ hwait.mates_nodup hwait.not_mem hwait.row hatt hfree hb
    by_contra hall
    push Not at hall
    refine hmore.not_ge (Finset.card_le_card fun j hj => ?_)
    simp only [unvisited, Finset.mem_filter, List.mem_toFinset] at hj ⊢
    have hcols : t₂.columns = t.columns := h₂.step.columns_eq
    exact ⟨hcols ▸ hj.1, by simpa using hall j hj.1 hj.2⟩

/-- Each root is matched after at most `n + 1` searches. A search in vain leaves a column, changes
the labels by a positive number below `INF`, and the next one visits a new column; when it is in
vain too, it visits all that this one has visited. -/
theorem while_exits (hx : s.nx = n) (hy : s.ny = n)
    (hbelow : ∀ x k t, Begins s x k t → t.Below) :
    (∃ r, s.run (n + 1) = some r) ∧ ∀ x k t, Begins s x k t → k ≤ n ∧
      ∃ found t', search (n + 1) t.unvisit x = some (found, t') ∧ (found = false →
        (∃ y ∈ Finset.Icc 1 n, t'.visy y = false) ∧ 0 < t'.minSlack ∧ t'.minSlack < inf ∧
        ∀ found₂ t₂, search (n + 1) t'.relabel.unvisit x = some (found₂, t₂) →
          (∃ y ∈ Finset.Icc 1 n, t'.visy y = false ∧ t₂.visy y = true) ∧
          (found₂ = false → (∀ i ∈ Finset.Icc 1 n, t'.visx i = true → t₂.visx i = true) ∧
            ∀ j ∈ Finset.Icc 1 n, t'.visy j = true → t₂.visy j = true)) := by
  have hsq : s.nx ≤ s.ny := (hx.trans hy.symm).le
  refine ⟨run_some hsq hbelow (by omega), fun x k t hb => ?_⟩
  obtain ⟨t₀, hr, hwait₀, hfree₀, hslack, hbegins, -, hny₀, -⟩ := hb.entered (B := 0) hsq
  have hrounds (k : ℕ) (u : KM) (hr : Round x t₀ k u) : u.Below := hbelow x k u (hbegins k u hr)
  obtain ⟨hwait, -, hny, -⟩ := hr.waiting (B := 0) hwait₀
  replace hny : t.ny = n := hny.trans (hny₀.trans hy)
  have hle := hr.le_ny hwait₀ hfree₀ hslack hrounds
  obtain ⟨⟨found, t'⟩, hs⟩ := search_returns hwait.ready.unvisit hwait.row
    (Nat.lt_succ_of_le t.unvisit.unvisited_card_le)
  have hs' : search (t.ny + 1) t.unvisit x = some (found, t') := hs
  rw [hny] at hs'
  refine ⟨by omega, found, t', hs', ?_⟩
  rintro rfl
  have hf := hwait.failed hs
  have hcols : ∀ j, j ∈ t'.columns ↔ j ∈ Finset.Icc 1 n := fun j => by
    rw [hf.step.columns_eq, ← mem_range'_one, ← hny]
    rfl
  have hwait' := hwait.stay hf
  have hfree := (hr.next hs).free hwait₀ hfree₀
  have hb₀ := hrounds _ _ hr
  have hb' := hf.below hb₀
  obtain ⟨hatt, -⟩ := hr.progress hwait₀ hfree₀ hslack hrounds hs
  obtain ⟨hpos, hlt⟩ := hf.minSlack_pos hwait'.row hatt hfree hb'
  refine ⟨?_, hpos, hlt, fun found₂ t₂ hs₂ => ?_⟩
  · obtain ⟨j, hj, hnone⟩ := hfree
    exact ⟨j, (hcols j).mp hj, hf.free_unvisited hnone⟩
  · have hny' : t'.relabel.ny = n := hf.step.fixed.2.1.trans hny
    rw [← hny'] at hs₂
    have hwait₂ := hwait.relabel hf
    obtain ⟨j, hj, hv, hv₂⟩ := hf.again_new hwait' hwait₂ hatt hfree hb' hs₂
    refine ⟨⟨j, (hcols j).mp hj, hv, hv₂⟩, ?_⟩
    rintro rfl
    have hf₂ := hwait₂.failed hs₂
    exact ⟨fun i _ hi => hf.again_row hf₂ hwait'.mates_nodup hwait'.not_mem hwait'.row hi,
      fun j hj hv => hf.again_column hf₂ hwait'.mates_nodup hwait'.not_mem hwait'.row
        ((hcols j).mpr hj) hv⟩

/-- Two rows with the weights 1, 4 and 3, 4. -/
def early : KM where
  nx := 2
  ny := 2
  w := fun x y => if y = 2 then 4 else if x = 1 then 1 else 3
  lx := fun _ => 0
  ly := fun _ => 0
  link := fun _ => none
  visx := fun _ => false
  visy := fun _ => false
  slack := fun _ => 0

theorem early_below (x k : ℕ) (t : KM) (hb : Begins early x k t) : t.Below := by
  have hw : ∀ x ∈ Finset.Icc 1 2, ∀ y ∈ Finset.Icc 1 2, -4 ≤ early.w x y ∧ early.w x y ≤ 4 := by
    decide
  exact hb.cost_lt le_rfl (level_of_weights rfl rfl hw) (by decide)

theorem while_exits_two : (∃ r, early.run 3 = some r) ∧
    ∀ x k t, Begins early x k t → k ≤ 2 := by
  obtain ⟨hrun, hbegins⟩ := while_exits (n := 2) rfl rfl early_below
  exact ⟨hrun, fun x k t hb => (hbegins x k t hb).1⟩

/-- The second row's first search visits row 1 and column 2 in vain. The next one is over at
column 1, before it comes to them. -/
theorem while_exits_early :
    (∀ x k t, Begins early x k t → t.Below) ∧ ∃ t t' t₂, Begins early 2 0 t ∧
      search 3 t.unvisit 2 = some (false, t') ∧
      search 3 t'.relabel.unvisit 2 = some (true, t₂) ∧
      t'.visx 1 = true ∧ t₂.visx 1 = false ∧ t'.visy 2 = true ∧ t₂.visy 2 = false := by
  refine ⟨early_below, ?_⟩
  have hrow : ((row 3 early.init 1).bind fun t => (search 3 t.refill.unvisit 2).bind fun r =>
      (search 3 r.2.relabel.unvisit 2).map fun r₂ =>
        (r.1, r₂.1, r.2.visx 1, r₂.2.visx 1, r.2.visy 2, r₂.2.visy 2)) =
      some (false, true, true, false, true, false) := by decide +kernel
  obtain ⟨t, ht, hrest⟩ := Option.bind_eq_some_iff.mp hrow
  obtain ⟨⟨found, t'⟩, hs, hrest⟩ := Option.bind_eq_some_iff.mp hrest
  obtain ⟨⟨found₂, t₂⟩, hs₂, he⟩ := Option.map_eq_some_iff.mp hrest
  simp only [Prod.mk.injEq] at he
  obtain ⟨rfl, rfl, hx, hx₂, hy, hy₂⟩ := he
  have hb : Begins early 2 0 t.refill := by
    refine ⟨by decide, 3, t, ?_, .first⟩
    change [1].foldlM (row 3) early.init = some t
    rw [List.foldlM_cons, ht]
    rfl
  exact ⟨t.refill, t', t₂, hb, hs, hs₂, hx, hx₂, hy, hy₂⟩

end Count

end KM
end Mosito
