import Mosito.Lib.Assignment
import Mathlib.Combinatorics.Enumerative.DoubleCounting
import Mathlib.Order.Interval.Finset.Nat

/-! The largest matching of a bipartite graph. Rows and columns are counted from 1; a column
without a partner has the link 0, which is `none`. -/
namespace Mosito
open Assignment

structure BitGraph where
  n : ℕ
  map : ℕ → ℕ → ℤ
  vis : ℕ → Bool
  link1 : ℕ → Option ℕ

namespace BitGraph

def columns (s : BitGraph) : List ℕ := List.range' 1 s.n

/-- `vis[i]=1` -/
def visit (s : BitGraph) (i : ℕ) : BitGraph := { s with vis := Function.update s.vis i true }

/-- `link1[i]=x` -/
def join (s : BitGraph) (i x : ℕ) : BitGraph :=
  { s with link1 := Function.update s.link1 i (some x) }

/-- The loop of `find(x)` over the columns from `i` on; `again` is the recursive call. -/
def findFrom (again : BitGraph → ℕ → Option (Bool × BitGraph)) (x : ℕ) :
    List ℕ → BitGraph → Option (Bool × BitGraph)
  | [], s => some (false, s)
  | i :: is, s =>
      if s.map x i ≠ 0 ∧ s.vis i = false then
        match s.link1 i with
        | none => some (true, (s.visit i).join i x)
        | some x' =>
            (again (s.visit i) x').bind fun r =>
              if r.1 then some (true, r.2.join i x) else findFrom again x is r.2
      else findFrom again x is s

/-- `find`; a call visits a new column before it calls again. -/
def find : ℕ → BitGraph → ℕ → Option (Bool × BitGraph)
  | 0, _, _ => none
  | fuel + 1, s, x => findFrom (find fuel) x s.columns s

/-- `memset(vis,0,sizeof(vis));` -/
def unvisit (s : BitGraph) : BitGraph := { s with vis := fun _ => false }

/-- One round of the loop of `LM`, with the counter `s`. -/
def round (r : ℕ × BitGraph) (i : ℕ) : Option (ℕ × BitGraph) :=
  (find (r.2.n + 1) r.2.unvisit i).map fun f => (if f.1 then r.1 + 1 else r.1, f.2)

/-- The loop of `LM`. -/
def lm (s : BitGraph) : Option (ℕ × BitGraph) := s.columns.foldlM round (0, s)

section Find
variable {s s' s'' : BitGraph} {x x' i : ℕ} {is : List ℕ} {found : Bool}

/-- Every link is an edge. -/
def Linked (s : BitGraph) : Prop := ∀ j ∈ s.columns, ∀ x, s.link1 j = some x → s.map x j ≠ 0

/-- All columns at row `x` are in `D`. -/
def Within (s : BitGraph) (x : ℕ) (D : ℕ → Prop) : Prop := ∀ i ∈ s.columns, s.map x i ≠ 0 → D i

/-- `D` cannot be left: its columns have partners, and all columns at these are in `D`. -/
def Dead (s : BitGraph) (D : ℕ → Prop) : Prop :=
  ∀ j ∈ s.columns, D j → ∃ x, s.link1 j = some x ∧ s.Within x D

/-- What a part of `find(x)` does between two states. When nothing was found, no column that it
has visited leads out of the visited ones; a path that was found avoids all dead columns. -/
structure Path (x : ℕ) (s : BitGraph) (found : Bool) (s' : BitGraph) : Prop where
  fixed : s'.n = s.n ∧ s'.map = s.map
  linked : s'.Linked
  vis : ∀ j, s.vis j = true → s'.vis j = true
  kept : ∀ j, s.vis j = true → s'.link1 j = s.link1 j
  matched : found = true → (mates s'.columns s'.link1).Perm (x :: mates s.columns s.link1)
  same : found = false → s'.link1 = s.link1
  closed : found = false → ∀ j, s'.vis j = true → s.vis j = true ∨
    ∃ x, s.link1 j = some x ∧ s'.Within x fun i => s'.vis i = true
  dead : ∀ D, s.Dead D → ∀ j ∈ s.columns, D j → s'.link1 j = s.link1 j
  outside : ∀ j, j ∉ s.columns → s'.link1 j = s.link1 j

theorem Path.columns_eq (h : Path x s found s') : s'.columns = s.columns := by
  rw [columns, h.fixed.1, columns]

theorem Path.within_iff (h : Path x s found s') {D : ℕ → Prop} :
    s'.Within x' D ↔ s.Within x' D := by
  rw [Within, h.columns_eq, h.fixed.2, Within]

theorem Path.refl (h : s.Linked) : Path x s false s where
  fixed := ⟨rfl, rfl⟩
  linked := h
  vis _ := id
  kept _ _ := rfl
  matched hf := by cases hf
  same _ := rfl
  closed _ _ := Or.inl
  dead _ _ _ _ _ := rfl
  outside _ _ := rfl

/-- What is dead stays so. -/
theorem Path.dead_mono (h : Path x s found s') {D : ℕ → Prop} (hD : s.Dead D) : s'.Dead D := by
  intro j hj hDj
  rw [h.columns_eq] at hj
  obtain ⟨x', hlink, hin⟩ := hD j hj hDj
  exact ⟨x', (h.dead D hD j hj hDj).trans hlink, h.within_iff.mpr hin⟩

theorem Path.trans (h : Path x' s false s') (h' : Path x s' found s'') : Path x s found s'' where
  fixed := ⟨h'.fixed.1.trans h.fixed.1, h'.fixed.2.trans h.fixed.2⟩
  linked := h'.linked
  vis j hj := h'.vis j (h.vis j hj)
  kept j hj := by rw [h'.kept j (h.vis j hj), h.same rfl]
  matched hf := by
    have hm := h'.matched hf
    rwa [h.same rfl, h.columns_eq] at hm
  same hf := by rw [h'.same hf, h.same rfl]
  closed hf j hj := by
    rcases h'.closed hf j hj with hj | ⟨x₁, hlink, hin⟩
    · rcases h.closed rfl j hj with hj | ⟨x₁, hlink, hin⟩
      · exact Or.inl hj
      · refine Or.inr ⟨x₁, hlink, h'.within_iff.mpr fun i hi hmap => h'.vis i (hin i hi hmap)⟩
    · exact Or.inr ⟨x₁, by rwa [h.same rfl] at hlink, hin⟩
  dead D hD j hj hDj := by
    rw [h'.dead D (h.dead_mono hD) j (by rwa [h.columns_eq]) hDj, h.same rfl]
  outside j hj := by rw [h'.outside j (by rwa [h.columns_eq]), h.same rfl]

theorem vis_visit {j : ℕ} (hj : s.vis j = true) : (s.visit i).vis j = true := by
  change Function.update s.vis i true j = true
  rcases eq_or_ne j i with rfl | hne
  · exact Function.update_self _ _ _
  · rwa [Function.update_of_ne hne]

theorem vis_visit_self : (s.visit i).vis i = true := Function.update_self _ _ _

/-- Column `i` is visited, and its partner has searched in vain. -/
theorem Path.visit (hlink : s.link1 i = some x') (h : Path x' (s.visit i) false s')
    (hall : s'.Within x' fun i => s'.vis i = true) : Path x s false s' where
  fixed := h.fixed
  linked := h.linked
  vis j hj := h.vis j (vis_visit hj)
  kept j hj := h.kept j (vis_visit hj)
  matched hf := by cases hf
  same := h.same
  closed _ j hj := by
    rcases h.closed rfl j hj with hj | hj
    · rcases eq_or_ne j i with rfl | hne
      · exact Or.inr ⟨x', hlink, hall⟩
      · change Function.update s.vis i true j = true at hj
        rw [Function.update_of_ne hne] at hj
        exact Or.inl hj
    · exact Or.inr hj
  dead := h.dead
  outside := h.outside

/-- Column `i`, which was not visited, is given to row `x`. -/
theorem Path.join {s₁ : BitGraph} {o : Option ℕ} (hi : i ∈ s.columns) (hnew : s.vis i = false)
    (hmap : s.map x i ≠ 0) (hfixed : s₁.n = s.n ∧ s₁.map = s.map) (hlinked : s₁.Linked)
    (hvis : ∀ j, s.vis j = true → s₁.vis j = true)
    (hkept : ∀ j, s.vis j = true → s₁.link1 j = s.link1 j) (hold : s₁.link1 i = o)
    (hmates : (mates s.columns s₁.link1).Perm (o.toList ++ mates s.columns s.link1))
    (hdead : ∀ D, s.Dead D → ∀ j ∈ s.columns, D j → j ≠ i ∧ s₁.link1 j = s.link1 j)
    (hout : ∀ j, j ∉ s.columns → s₁.link1 j = s.link1 j) :
    Path x s true (s₁.join i x) := by
  have hcols : s₁.columns = s.columns := by rw [columns, hfixed.1, columns]
  refine ⟨hfixed, fun j hj y hy => ?_, hvis, fun j hj => ?_, fun _ => ?_,
    fun hf => absurd hf.symm Bool.false_ne_true, fun hf => absurd hf.symm Bool.false_ne_true,
    fun D hD j hj hDj => ?_, fun j hj => ?_⟩
  · change Function.update s₁.link1 i (some x) j = some y at hy
    rcases eq_or_ne j i with rfl | hne
    · rw [Function.update_self, Option.some.injEq] at hy
      change s₁.map y j ≠ 0
      rwa [hfixed.2, ← hy]
    · rw [Function.update_of_ne hne] at hy
      exact hlinked j hj y hy
  · have hne : j ≠ i := fun he => by
      rw [he, hnew] at hj
      cases hj
    exact (Function.update_of_ne hne _ _).trans (hkept j hj)
  · change (mates s₁.columns (Function.update s₁.link1 i (some x))).Perm _
    rw [hcols]
    have hnd : s.columns.Nodup := List.nodup_range'
    cases o with
    | none => exact (mates_of_none hnd hi hold).trans (hmates.cons x)
    | some x' =>
      refine (List.perm_cons x').mp ((mates_of_some hnd hi hold).trans ?_)
      exact (hmates.cons x).trans (List.Perm.swap _ _ _)
  · obtain ⟨hne, he⟩ := hdead D hD j hj hDj
    exact (Function.update_of_ne hne _ _).trans he
  · have hne : j ≠ i := fun he => hj (he ▸ hi)
    exact (Function.update_of_ne hne _ _).trans (hout j hj)

/-- The columns that are not visited. -/
def unvisited (s : BitGraph) : Finset ℕ := s.columns.toFinset.filter fun j => s.vis j = false

theorem unvisited_card_le (s : BitGraph) : s.unvisited.card ≤ s.n := by
  refine (Finset.card_filter_le _ _).trans ((List.toFinset_card_le _).trans ?_)
  exact (List.length_range' ..).le

theorem Path.unvisited_card_le (h : Path x s found s') : s'.unvisited.card ≤ s.unvisited.card := by
  refine Finset.card_le_card fun j hj => ?_
  simp only [unvisited, h.columns_eq, Finset.mem_filter] at hj ⊢
  refine ⟨hj.1, ?_⟩
  by_contra hvis
  rw [h.vis j (by simpa using hvis)] at hj
  cases hj.2

theorem unvisited_visit (hi : i ∈ s.columns) (hnew : s.vis i = false) :
    (s.visit i).unvisited.card < s.unvisited.card := by
  refine Finset.card_lt_card (Finset.ssubset_iff_of_subset ?_ |>.mpr ⟨i, ?_, ?_⟩)
  · intro j hj
    rw [unvisited, Finset.mem_filter] at hj ⊢
    refine ⟨hj.1, ?_⟩
    by_contra hvis
    rw [vis_visit (by simpa using hvis)] at hj
    cases hj.2
  · simpa [unvisited, hnew] using hi
  · simp [unvisited, vis_visit_self]

/-- What is said of a search of row `x` among the columns `is`: it returns; in vain, it has
visited all columns at `x`; and it is in vain if these are dead. -/
def Searched (x : ℕ) (is : List ℕ) (s : BitGraph) (r : Option (Bool × BitGraph)) : Prop :=
  ∃ found s', r = some (found, s') ∧ Path x s found s' ∧
    (found = false → ∀ i ∈ is, s.map x i ≠ 0 → s'.vis i = true) ∧
    ∀ D, s.Dead D → (∀ i ∈ is, s.map x i ≠ 0 → D i) → found = false

/-- The loop over the columns. -/
theorem findFrom_searched {fuel : ℕ}
    (hagain : ∀ s x, s.Linked → s.unvisited.card < fuel →
      Searched x s.columns s (find fuel s x))
    (h : s.Linked) (his : ∀ i ∈ is, i ∈ s.columns) (hfuel : s.unvisited.card ≤ fuel) :
    Searched x is s (findFrom (find fuel) x is s) := by
  induction is generalizing s with
  | nil => exact ⟨false, s, rfl, .refl h, by simp, fun _ _ _ => rfl⟩
  | cons i is ih =>
    have hi : i ∈ s.columns := his i (by simp)
    -- the column is dealt with in vain, and the rest follows
    have hrest {s₁ : BitGraph} (h₁ : Path x s false s₁) (hvis : s.map x i ≠ 0 → s₁.vis i = true) :
        Searched x (i :: is) s (findFrom (find fuel) x is s₁) := by
      obtain ⟨found, s', he, h₂, hall, hdead⟩ := ih h₁.linked
        (fun j hj => by rw [h₁.columns_eq]; exact his j (by simp [hj]))
        (h₁.unvisited_card_le.trans hfuel)
      rw [h₁.fixed.2] at hall hdead
      refine ⟨found, s', he, h₁.trans h₂, fun hf j hj hmap => ?_, fun D hD hin => ?_⟩
      · rcases List.mem_cons.mp hj with rfl | hj
        · exact h₂.vis j (hvis hmap)
        · exact hall hf j hj hmap
      · exact hdead D (h₁.dead_mono hD) fun j hj => hin j (by simp [hj])
    rw [findFrom]
    split_ifs with hedge
    · obtain ⟨hmap, hnew⟩ := hedge
      cases hlink : s.link1 i with
      | none =>
        have hfree (D : ℕ → Prop) (hD : s.Dead D) : ¬ D i := fun hDi => by
          obtain ⟨x', hx', -⟩ := hD i hi hDi
          rw [hlink] at hx'
          cases hx'
        refine ⟨true, (s.visit i).join i x, rfl, ?_, (fun hf => by cases hf), fun D hD hin => ?_⟩
        · exact .join hi hnew hmap ⟨rfl, rfl⟩ h (fun _ => vis_visit) (fun _ _ => rfl) hlink
            (List.Perm.refl _) (fun D hD j _ hDj => ⟨fun he => hfree D hD (he ▸ hDj), rfl⟩)
            fun _ _ => rfl
        · exact absurd (hin i (by simp) hmap) (hfree D hD)
      | some x' =>
        obtain ⟨found, s₂, he, h₂, hall, hdead⟩ := hagain (s.visit i) x' h
          ((unvisited_visit hi hnew).trans_le hfuel)
        simp only [he, Option.bind_some]
        -- a dead column has a partner that searches in vain
        have hvain (D : ℕ → Prop) (hD : s.Dead D) (hDi : D i) : found = false := by
          obtain ⟨y, hy, hin⟩ := hD i hi hDi
          rw [hlink, Option.some.injEq] at hy
          subst hy
          exact hdead D hD hin
        cases found with
        | true =>
          have hm := h₂.matched rfl
          rw [h₂.columns_eq] at hm
          refine ⟨true, s₂.join i x, rfl, ?_, (fun hf => by cases hf), fun D hD hin => ?_⟩
          · exact .join hi hnew hmap h₂.fixed h₂.linked (fun j hj => h₂.vis j (vis_visit hj))
              (fun j hj => h₂.kept j (vis_visit hj)) ((h₂.kept i vis_visit_self).trans hlink) hm
              (fun D hD j hj hDj =>
                ⟨fun he => (by cases hvain D hD (he ▸ hDj)), h₂.dead D hD j hj hDj⟩) h₂.outside
          · exact hvain D hD (hin i (by simp) hmap)
        | false =>
          refine hrest (.visit hlink h₂ (h₂.within_iff.mpr (hall rfl))) fun _ => ?_
          exact h₂.vis i vis_visit_self
    · refine hrest (.refl h) fun hmap => ?_
      by_contra hvis
      exact hedge ⟨hmap, by simpa using hvis⟩

/-- What `find(x)` does. -/
theorem find_searched {fuel : ℕ} (h : s.Linked) (hfuel : s.unvisited.card < fuel) :
    Searched x s.columns s (find fuel s x) := by
  induction fuel generalizing s x with
  | zero => omega
  | succ fuel ih =>
    exact findFrom_searched (fun s x hs hlt => ih hs hlt) h (fun _ => id) (Nat.le_of_lt_succ hfuel)

end Find

section Loop
variable {s s' : BitGraph} {x c : ℕ} {is done : List ℕ} {D : ℕ → Prop}

/-- What holds after the rows `done`: `c` of them have partners, and those that have none see
only dead columns. -/
structure Tried (done : List ℕ) (D : ℕ → Prop) (c : ℕ) (s : BitGraph) : Prop where
  linked : s.Linked
  nodup : (mates s.columns s.link1).Nodup
  rows : ∀ x ∈ mates s.columns s.link1, x ∈ done
  count : (mates s.columns s.link1).length = c
  dead : s.Dead D
  failed : ∀ x ∈ done, x ∈ mates s.columns s.link1 ∨ s.Within x D
  outside : ∀ j, j ∉ s.columns → s.link1 j = none

/-- After a search in vain the columns that it has visited are dead too. -/
theorem Path.dead_visited (h : Path x s.unvisit false s') (hD : s.Dead D) :
    s'.Dead fun j => D j ∨ s'.vis j = true := by
  intro j hj hor
  rcases hor with hDj | hv
  · obtain ⟨y, hlink, hin⟩ := h.dead_mono (D := D) hD j hj hDj
    exact ⟨y, hlink, fun i hi hmap => Or.inl (hin i hi hmap)⟩
  · rcases h.closed rfl j hv with hold | ⟨y, hlink, hin⟩
    · cases hold
    · exact ⟨y, by rwa [h.same rfl], fun i hi hmap => Or.inr (hin i hi hmap)⟩

/-- One round of the loop. -/
theorem Tried.round (h : Tried done D c s) (hnew : x ∉ done) :
    ∃ c' s' D', round (c, s) x = some (c', s') ∧ Tried (x :: done) D' c' s' ∧
      s'.n = s.n ∧ s'.map = s.map := by
  obtain ⟨found, s', he, hp, hall, -⟩ := find_searched (s := s.unvisit) (x := x) h.linked
    (Nat.lt_succ_of_le s.unvisit.unvisited_card_le)
  have hout (j : ℕ) (hj : j ∉ s'.columns) : s'.link1 j = none := by
    rw [hp.columns_eq] at hj
    exact (hp.outside j hj).trans (h.outside j hj)
  have hround : BitGraph.round (c, s) x = some (if found then c + 1 else c, s') :=
    congrArg (Option.map _) he
  cases found with
  | true =>
    have hm : (mates s'.columns s'.link1).Perm (x :: mates s.columns s.link1) := hp.matched rfl
    refine ⟨c + 1, s', D, hround, ⟨hp.linked, ?_, fun y hy => ?_, ?_, hp.dead_mono h.dead,
      fun y hy => ?_, hout⟩, hp.fixed⟩
    · exact hm.nodup_iff.mpr (List.nodup_cons.mpr ⟨fun hx => hnew (h.rows x hx), h.nodup⟩)
    · rcases List.mem_cons.mp (hm.mem_iff.mp hy) with rfl | hy
      · exact List.mem_cons_self
      · exact List.mem_cons_of_mem _ (h.rows y hy)
    · rw [hm.length_eq, List.length_cons, h.count]
    · rcases List.mem_cons.mp hy with rfl | hy
      · exact Or.inl (hm.mem_iff.mpr List.mem_cons_self)
      · rcases h.failed y hy with hy | hy
        · exact Or.inl (hm.mem_iff.mpr (List.mem_cons_of_mem _ hy))
        · exact Or.inr (hp.within_iff.mpr hy)
  | false =>
    have hm : mates s'.columns s'.link1 = mates s.columns s.link1 := by
      rw [hp.columns_eq, hp.same rfl]
      rfl
    refine ⟨c, s', _, hround, ⟨hp.linked, hm ▸ h.nodup, fun y hy => ?_, hm ▸ h.count,
      hp.dead_visited h.dead, fun y hy => ?_, hout⟩, hp.fixed⟩
    · exact List.mem_cons_of_mem _ (h.rows y (hm ▸ hy))
    · rcases List.mem_cons.mp hy with rfl | hy
      · exact Or.inr (hp.within_iff.mpr fun i hi hmap => Or.inr (hall rfl i hi hmap))
      · rcases h.failed y hy with hy | hy
        · exact Or.inl (hm ▸ hy)
        · exact Or.inr (hp.within_iff.mpr fun i hi hmap => Or.inl (hy i hi hmap))

/-- All rounds. -/
theorem Tried.rounds (h : Tried done D c s) (is : List ℕ) (hnd : (is ++ done).Nodup) :
    ∃ c' s' D', is.foldlM BitGraph.round (c, s) = some (c', s') ∧
      (∃ done', (∀ x, x ∈ done' ↔ x ∈ is ∨ x ∈ done) ∧ Tried done' D' c' s') ∧
      s'.n = s.n ∧ s'.map = s.map := by
  induction is generalizing s done D c with
  | nil => exact ⟨c, s, D, rfl, ⟨done, by simp, h⟩, rfl, rfl⟩
  | cons x is ih =>
    have hnew : x ∉ done := fun hmem =>
      (List.nodup_cons.mp hnd).1 (List.mem_append_right _ hmem)
    obtain ⟨c₁, s₁, D₁, hround, h₁, hn, hmap⟩ := h.round hnew
    have hperm : (x :: (is ++ done)).Perm (is ++ x :: done) := List.perm_middle.symm
    obtain ⟨c', s', D', hrest, ⟨done', hdone, h'⟩, hn', hmap'⟩ := ih h₁ (hperm.nodup_iff.mp hnd)
    refine ⟨c', s', D', ?_, ⟨done', fun y => ?_, h'⟩, hn'.trans hn, hmap'.trans hmap⟩
    · rw [List.foldlM_cons, hround]
      exact hrest
    · rw [hdone, List.mem_cons, List.mem_cons]
      tauto

theorem Tried.card_linked (h : Tried done D c s) :
    (s.columns.toFinset.filter fun j => (s.link1 j).isSome).card = c := by
  have hnd : s.columns.Nodup := List.nodup_range'
  rw [← h.count, mates, List.length_filterMap_eq_countP, List.countP_eq_length_filter,
    ← List.toFinset_card_of_nodup (hnd.filter _), List.toFinset_filter]

/-- A matching: edges of the graph that share no row and no column. -/
structure IsMatching (s : BitGraph) (M : Finset (ℕ × ℕ)) : Prop where
  edge : ∀ e ∈ M, e.1 ∈ s.columns ∧ e.2 ∈ s.columns ∧ s.map e.1 e.2 ≠ 0
  row : Set.InjOn Prod.fst (M : Set (ℕ × ℕ))
  column : Set.InjOn Prod.snd (M : Set (ℕ × ℕ))

/-- Each matched column, if it is dead, or else its partner covers at most one edge of a matching,
and together they cover all. -/
theorem Tried.card_le (h : Tried done D c s) (hdone : ∀ x ∈ s.columns, x ∈ done)
    {M : Finset (ℕ × ℕ)} (hM : s.IsMatching M) : M.card ≤ c := by
  classical
  rw [← h.card_linked]
  refine Finset.card_le_card_of_forall_subsingleton
    (fun e j => D j ∧ e.2 = j ∨ ¬ D j ∧ s.link1 j = some e.1) (fun e he => ?_) fun j _ => ?_
  · obtain ⟨hrow, hcol, hmap⟩ := hM.edge e he
    have hmem {j x : ℕ} (hj : j ∈ s.columns) (hlink : s.link1 j = some x) :
        j ∈ s.columns.toFinset.filter fun j => (s.link1 j).isSome := by
      rw [Finset.mem_filter, List.mem_toFinset]
      exact ⟨hj, by rw [hlink]; rfl⟩
    by_cases hDe : D e.2
    · obtain ⟨x, hlink, -⟩ := h.dead e.2 hcol hDe
      exact ⟨e.2, hmem hcol hlink, Or.inl ⟨hDe, rfl⟩⟩
    · have hout : ¬ s.Within e.1 D := fun hin => hDe (hin e.2 hcol hmap)
      obtain ⟨j, hj, hlink⟩ := mem_mates.mp ((h.failed e.1 (hdone e.1 hrow)).resolve_right hout)
      refine ⟨j, hmem hj hlink, Or.inr ⟨fun hDj => hout ?_, hlink⟩⟩
      obtain ⟨x, hx, hin⟩ := h.dead j hj hDj
      rw [hlink, Option.some.injEq] at hx
      rwa [hx]
  · rintro e ⟨he, hor⟩ e' ⟨he', hor'⟩
    rcases hor with ⟨hD, hj⟩ | ⟨hD, hj⟩ <;> rcases hor' with ⟨hD', hj'⟩ | ⟨hD', hj'⟩
    · exact hM.column he he' (hj.trans hj'.symm)
    · exact absurd hD hD'
    · exact absurd hD' hD
    · exact hM.row he he' (Option.some.inj (hj.symm.trans hj'))

theorem columns_toFinset (s : BitGraph) : s.columns.toFinset = Finset.Icc 1 s.n := by
  ext y
  rw [List.mem_toFinset, columns, List.mem_range'_1, Finset.mem_Icc]
  omega

theorem mem_columns {y : ℕ} : y ∈ s.columns ↔ y ∈ Finset.Icc 1 s.n := by
  rw [← columns_toFinset, List.mem_toFinset]

/-- Before the first row. -/
theorem Tried.first (hlink : ∀ y, s.link1 y = none) : Tried [] (fun _ => False) 0 s := by
  have hm : mates s.columns s.link1 = [] := by simp [mates, hlink]
  refine ⟨fun j _ x hj => ?_, by rw [hm]; exact List.nodup_nil, by simp [hm], by rw [hm]; rfl,
    fun _ _ => False.elim, by simp, fun j _ => hlink j⟩
  rw [hlink] at hj
  cases hj

/-- The loop of `LM` returns. Its links are edges that share no row, `s` counts them, and no
matching has more. -/
theorem lm_largest {n : ℕ} (hn : s.n = n)
    (hmap : ∀ x ∈ Finset.Icc 1 n, ∀ y ∈ Finset.Icc 1 n, s.map x y = 0 ∨ s.map x y = 1)
    (hlink : ∀ y, s.link1 y = none) :
    ∃ c s', s.lm = some (c, s') ∧
      (∀ y x, s'.link1 y = some x → x ∈ Finset.Icc 1 n ∧ y ∈ Finset.Icc 1 n ∧ s.map x y = 1) ∧
      (∀ y y' x, s'.link1 y = some x → s'.link1 y' = some x → y = y') ∧
      ((Finset.Icc 1 n).filter fun y => (s'.link1 y).isSome).card = c ∧
      ∀ M : Finset (ℕ × ℕ),
        (∀ e ∈ M, e.1 ∈ Finset.Icc 1 n ∧ e.2 ∈ Finset.Icc 1 n ∧ s.map e.1 e.2 = 1) →
        Set.InjOn Prod.fst (M : Set (ℕ × ℕ)) → Set.InjOn Prod.snd (M : Set (ℕ × ℕ)) →
        M.card ≤ c := by
  subst hn
  obtain ⟨c, s', D, he, ⟨done, hdone, h⟩, hn, hmap'⟩ := (Tried.first hlink).rounds s.columns
    (by rw [List.append_nil]; exact List.nodup_range')
  have hcols : s'.columns = s.columns := by rw [columns, hn, columns]
  have hcol {y x : ℕ} (hy : s'.link1 y = some x) : y ∈ s'.columns := by
    by_contra hout
    rw [h.outside y hout] at hy
    cases hy
  refine ⟨c, s', he, fun y x hy => ?_, fun y y' x hy hy' => ?_, ?_, fun M hM hrow hcolumn => ?_⟩
  · have hy' : y ∈ s.columns := hcols ▸ hcol hy
    have hx : x ∈ s.columns := by
      have hmem := h.rows x (mem_mates.mpr ⟨y, hcol hy, hy⟩)
      simpa using (hdone x).mp hmem
    have hedge := h.linked y (hcol hy) x hy
    rw [hmap'] at hedge
    rw [mem_columns] at hx hy'
    exact ⟨hx, hy', (hmap x hx y hy').resolve_left hedge⟩
  · exact eq_of_mates_nodup h.nodup (hcol hy) (hcol hy') hy hy'
  · rw [← columns_toFinset, ← hcols]
    exact h.card_linked
  · refine h.card_le (fun x hx => (hdone x).mpr (Or.inl (hcols ▸ hx)))
      ⟨fun e hmem => ?_, hrow, hcolumn⟩
    obtain ⟨hx, hy, hone⟩ := hM e hmem
    rw [hcols, hmap']
    exact ⟨mem_columns.mpr hx, mem_columns.mpr hy, by rw [hone]; decide⟩

/-- Both rows have an edge to column 1, and the first has one to column 2. -/
def shared : BitGraph where
  n := 2
  map := fun x y => if x = 2 ∧ y = 2 then 0 else 1
  vis := fun _ => false
  link1 := fun _ => none

theorem lm_largest_shared : shared.lm.map Prod.fst = some 2 ∧
    ∃ c s', shared.lm = some (c, s') ∧
      ((Finset.Icc 1 2).filter fun y => (s'.link1 y).isSome).card = c := by
  obtain ⟨c, s', he, -, -, hcard, -⟩ := lm_largest (s := shared) (n := 2) rfl (by decide)
    fun _ => rfl
  exact ⟨by decide, c, s', he, hcard⟩

end Loop

end BitGraph
end Mosito
