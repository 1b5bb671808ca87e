import Mosito.Lib.Runs
import Mosito.Sql.NodeHeap
import Mathlib.Algebra.GroupWithZero.Nat
import Mathlib.Data.Finset.Card
import Mathlib.Data.Finset.Range

/-! Which nodes the constructors record for `FreeAllNode`. -/
namespace Mosito.NodeHeap
open Runs

/-- How many of the nodes that a call allocates are not recorded: the statement that is appended to
a list, and the headers. -/
def Call.missed : Call → ℕ
  | .newStmt _ (some _) _ | .newExprlistheader .. | .newTable .. | .newFromList .. => 1
  | _ => 0

namespace Nodes
variable {st st' t : Nodes} {c : Call} {a b k : ℕ} {as : List ℕ} {n : Node}

/-- A call of a constructor whose result is not looked at. -/
def step (st : Nodes) (c : Call) : Option Nodes := (st.call c).map Prod.snd

/-- Every node is recorded once, and nothing else is. -/
def Recorded (st : Nodes) : Prop :=
  ∀ a, st.nodePointer.count a = if (st.heap a).isSome then 1 else 0

/-- `FreeAllNode` frees every node, none of them twice, and leaves `NodePointer` empty. -/
def Released (st : Nodes) : Prop :=
  ∃ st', st.freeAllNode = some st' ∧ (∀ a, st'.heap a = none) ∧ st'.nodePointer = []

/-- `malloc` gave away the addresses of the nodes, and each of them is recorded at most once. -/
structure Inv (st : Nodes) : Prop where
  allocated : ∀ a, (st.heap a).isSome ↔ a < st.used
  once : st.nodePointer.Nodup
  known : ∀ a ∈ st.nodePointer, a < st.used

theorem inv_start : start.Inv := ⟨fun _ => iff_of_false nofun (Nat.not_lt_zero _), .nil, nofun⟩

/-- There are `k` more nodes, and `as` are recorded. -/
structure Adds (k : ℕ) (as : List ℕ) (st st' : Nodes) : Prop where
  used : st'.used = st.used + k
  recorded : st'.nodePointer = st.nodePointer ++ as
  heap : ∀ a, (st'.heap a).isSome ↔ (st.heap a).isSome ∨ st.used ≤ a ∧ a < st.used + k

theorem eq_iff_range {u : ℕ} : b = u ↔ u ≤ b ∧ b < u + 1 := by omega

theorem write_isSome :
    ((st.write a n).heap b).isSome ↔ (st.heap b).isSome ∨ b = a := by
  unfold write
  by_cases hb : b = a
  · simp [hb]
  · simp [hb]

/-- A node is allocated and its fields are set. -/
theorem adds_malloc (st : Nodes) (n : Node) : Adds 1 [] st (st.malloc.2.write st.used n) := by
  refine ⟨rfl, (List.append_nil _).symm, fun b => ?_⟩
  rw [← eq_iff_range]
  exact write_isSome

theorem Adds.insert (h : Adds k as st t) (a : ℕ) :
    Adds k (as ++ [a]) st (t.insertNodePointer a) := by
  refine ⟨h.used, ?_, h.heap⟩
  unfold insertNodePointer
  rw [h.recorded, List.append_assoc]

theorem adds_construct (st : Nodes) (n : Node) : Adds 1 [st.used] st (st.construct n).2 :=
  (adds_malloc st n).insert st.used

theorem adds_newExprlistheader (st : Nodes) (type : Nodetype) (header tail : Ptr) :
    Adds 1 [] st (st.newExprlistheader type header tail).2 :=
  adds_malloc st (.exprListHeader .exprListHeader header tail)

/-- A node is allocated, a header behind it, and then the fields are set. -/
theorem adds_header (st : Nodes) (n : Ptr → Node) :
    let (whcdn, t) := st.malloc.2.newExprlistheader .exprListHeader none none
    Adds 2 [st.used] st ((t.write st.used (n whcdn)).insertNodePointer st.used) := by
  refine ⟨rfl, rfl, fun b => ?_⟩
  have hheader : ((st.malloc.2.newExprlistheader .exprListHeader none none).2.heap b).isSome ↔
      (st.heap b).isSome ∨ st.used + 1 ≤ b ∧ b < st.used + 1 + 1 :=
    (adds_newExprlistheader st.malloc.2 .exprListHeader none none).heap b
  refine write_isSome.trans ((or_congr_left hheader).trans ?_)
  grind

/-- The node at an address is changed. -/
theorem adds_write (ha : (st.heap a).isSome) (n : Node) : Adds 0 [] st (st.write a n) := by
  refine ⟨rfl, (List.append_nil _).symm, fun b => ?_⟩
  rw [write_isSome]
  constructor
  · rintro (hb | rfl)
    · exact .inl hb
    · exact .inl ha
  · rintro (hb | hb)
    · exact .inl hb
    · omega

theorem adds_setNext {p : Ptr} (hs : st.setNext p a = some st') : Adds 0 [] st st' := by
  obtain ⟨l, -, hs⟩ := Option.bind_eq_some_iff.mp hs
  split at hs
  · next hl =>
    cases hs
    exact adds_write (by rw [hl]; rfl) _
  · cases hs

theorem adds_setLast {l : ℕ} (hs : st.setLast l a = some st') : Adds 0 [] st st' := by
  unfold setLast at hs
  split at hs
  · next hl =>
    cases hs
    exact adds_write (by rw [hl]; rfl) _
  · cases hs

theorem Adds.trans_zero (h : Adds k as st t) (h' : Adds 0 [] t st') : Adds k as st st' := by
  constructor
  · rw [h'.used, h.used]
    rfl
  · rw [h'.recorded, h.recorded, List.append_nil]
  · intro b
    rw [h'.heap, h.heap]
    constructor
    · rintro (hb | hb)
      · exact hb
      · omega
    · exact .inl

/-- A statement that is appended to a list is not recorded. -/
theorem adds_newStmt {type : Nodetype} {list newNode p : Ptr}
    (hs : st.newStmt type list newNode = some (p, st')) :
    Adds 1 (if list.isSome then [] else [st.used]) st st' := by
  cases list with
  | none =>
    cases hs
    exact adds_construct st _
  | some l =>
    have hnew := adds_malloc st (.stmt type newNode none (some st.used))
    obtain ⟨last, -, hs⟩ := Option.bind_eq_some_iff.mp hs
    obtain ⟨t, ht, hs⟩ := Option.bind_eq_some_iff.mp hs
    obtain ⟨u, hu, hs⟩ := Option.bind_eq_some_iff.mp hs
    cases hs
    exact (hnew.trans_zero (adds_setNext ht)).trans_zero (adds_setLast hu)

/-- What a call adds: one node, and a header behind those of `newTable` and `newFromList`. -/
theorem adds_of_step (hs : st.step c = some st') :
    Adds (1 + c.missed) [st.used] st st' ∨ c.missed = 1 ∧ Adds 1 [] st st' := by
  obtain ⟨⟨p, t⟩, hc, rfl⟩ := Option.map_eq_some_iff.mp hs
  cases c with
  | newStmt type list newNode =>
    have hadds := adds_newStmt hc
    cases list with
    | none => exact .inl hadds
    | some l => exact .inr ⟨rfl, hadds⟩
  | newExprlistheader type header tail =>
    cases hc
    exact .inr ⟨rfl, adds_newExprlistheader st type header tail⟩
  | newTable type dbname tablename astablename issubquery subquery =>
    cases hc
    exact .inl (adds_header st fun whcdn =>
      .table type dbname tablename astablename issubquery subquery whcdn)
  | newFromList type args next =>
    cases hc
    exact .inl (adds_header st fun whcdn => .fromList type args next whcdn)
  | _ =>
    cases hc
    exact .inl (adds_construct st _)

theorem Inv.step (h : st.Inv) (hs : st.step c = some st') : st'.Inv := by
  have hadds : ∃ k as, Adds k as st st' ∧ as.Nodup ∧ ∀ a ∈ as, st.used ≤ a ∧ a < st.used + k := by
    rcases adds_of_step hs with hadds | ⟨-, hadds⟩
    · refine ⟨_, _, hadds, List.nodup_singleton _, fun a ha => ?_⟩
      rw [List.mem_singleton.mp ha]
      omega
    · exact ⟨_, _, hadds, .nil, nofun⟩
  obtain ⟨k, as, hadds, hnodup, hnew⟩ := hadds
  constructor
  · intro a
    rw [hadds.heap, h.allocated, hadds.used]
    omega
  · rw [hadds.recorded]
    apply h.once.append hnodup
    intro a hold ha
    exact absurd (h.known a hold) (Nat.not_lt.mpr (hnew a ha).1)
  · intro a ha
    rw [hadds.recorded, List.mem_append] at ha
    rw [hadds.used]
    rcases ha with ha | ha
    · exact (h.known a ha).trans_le (Nat.le_add_right ..)
    · exact (hnew a ha).2

/-- The nodes that are not recorded are those that the calls missed. -/
theorem run_missed {cs : List Call} (hr : run Nodes.step st cs = some st') :
    st'.used + st.nodePointer.length =
      st.used + st'.nodePointer.length + (cs.map Call.missed).sum := by
  induction cs generalizing st with
  | nil =>
    cases hr
    rfl
  | cons c cs ih =>
    obtain ⟨t, ht, hr⟩ := run_cons.mp hr
    have htail := ih hr
    have hcall : t.used + st.nodePointer.length =
        st.used + t.nodePointer.length + c.missed := by
      rcases adds_of_step ht with hadds | ⟨hmissed, hadds⟩
      · rw [hadds.used, hadds.recorded, List.length_append, List.length_singleton]
        omega
      · rw [hadds.used, hadds.recorded, List.append_nil, hmissed]
        omega
    rw [List.map_cons, List.sum_cons]
    omega

theorem Inv.all_iff (h : st.Inv) :
    (∀ a < st.used, a ∈ st.nodePointer) ↔ st.nodePointer.length = st.used := by
  have hsub : st.nodePointer.toFinset ⊆ Finset.range st.used := by
    intro a ha
    exact Finset.mem_range.mpr (h.known a (List.mem_toFinset.mp ha))
  rw [← List.toFinset_card_of_nodup h.once]
  constructor
  · intro hall
    have heq : st.nodePointer.toFinset = Finset.range st.used := by
      apply hsub.antisymm
      intro a ha
      exact List.mem_toFinset.mpr (hall a (Finset.mem_range.mp ha))
    rw [heq, Finset.card_range]
  · intro hcard a ha
    have heq : st.nodePointer.toFinset = Finset.range st.used := by
      apply Finset.eq_of_subset_of_card_le hsub
      rw [Finset.card_range, hcard]
    rw [← List.mem_toFinset, heq]
    exact Finset.mem_range.mpr ha

theorem Inv.recorded_iff (h : st.Inv) : st.Recorded ↔ ∀ a < st.used, a ∈ st.nodePointer := by
  constructor
  · intro hrec a ha
    have hcount := hrec a
    rw [if_pos ((h.allocated a).mpr ha)] at hcount
    exact List.count_pos_iff.mp (hcount ▸ Nat.one_pos)
  · intro hall a
    by_cases ha : a < st.used
    · rw [if_pos ((h.allocated a).mpr ha)]
      exact List.count_eq_one_of_mem h.once (hall a ha)
    · rw [if_neg fun hsome => ha ((h.allocated a).mp hsome)]
      exact List.count_eq_zero.mpr fun hmem => ha (h.known a hmem)

/-- Freeing different nodes. -/
theorem foldlM_free (hnodup : as.Nodup) (hsome : ∀ a ∈ as, (st.heap a).isSome) :
    as.foldlM free st = some { st with heap := fun a => if a ∈ as then none else st.heap a } := by
  induction as generalizing st with
  | nil => simp
  | cons a as ih =>
    obtain ⟨hnot, hnodup⟩ := List.nodup_cons.mp hnodup
    obtain ⟨n, hn⟩ := Option.isSome_iff_exists.mp (hsome a List.mem_cons_self)
    have hfree : st.free a = some { st with heap := Function.update st.heap a none } := by
      unfold free
      rw [hn]
      rfl
    rw [List.foldlM_cons, hfree, Option.bind_eq_bind, Option.bind_some, ih hnodup]
    · congr 2
      funext b
      by_cases hb : b = a
      · subst hb
        simp [hnot]
      · simp [hb]
    · intro b hb
      have hne : b ≠ a := fun heq => hnot (heq ▸ hb)
      change (Function.update st.heap a none b).isSome
      rw [Function.update_of_ne hne]
      exact hsome b (List.mem_cons_of_mem a hb)

theorem Inv.released_iff (h : st.Inv) : st.Released ↔ ∀ a < st.used, a ∈ st.nodePointer := by
  have hfree : st.freeAllNode = some { st with
      heap := fun a => if a ∈ st.nodePointer then none else st.heap a, nodePointer := [] } := by
    unfold freeAllNode
    rw [foldlM_free h.once fun a ha => (h.allocated a).mpr (h.known a ha)]
    rfl
  constructor
  · rintro ⟨st', hst', hnone, -⟩ a ha
    cases hfree.symm.trans hst'
    by_contra hmem
    have hsome := (h.allocated a).mpr ha
    have hheap : (if a ∈ st.nodePointer then none else st.heap a) = none := hnone a
    rw [if_neg hmem] at hheap
    rw [hheap] at hsome
    cases hsome
  · intro hall
    refine ⟨_, hfree, fun a => ?_, rfl⟩
    change (if a ∈ st.nodePointer then none else st.heap a) = none
    split_ifs with hmem
    · rfl
    · rw [← Option.not_isSome_iff_eq_none, h.allocated]
      exact fun ha => hmem (hall a ha)

/-- After a sequence of calls, every node is recorded once and `FreeAllNode` frees all of them
exactly if no call missed one. -/
theorem recorded_released_iff {cs : List Call} (hr : run Nodes.step start cs = some st) :
    st.Recorded ∧ st.Released ↔ ∀ c ∈ cs, c.missed = 0 := by
  have hinv : st.Inv := inv (fun s c s' h hs => h.step hs) hr inv_start
  have hmissed := run_missed hr
  have hsum : (cs.map Call.missed).sum = 0 ↔ ∀ c ∈ cs, c.missed = 0 := by
    rw [List.sum_eq_zero_iff_forall_eq_nat, List.forall_mem_map]
  have hlength : start.nodePointer.length = 0 ∧ start.used = 0 := ⟨rfl, rfl⟩
  rw [hinv.recorded_iff, hinv.released_iff, and_self, hinv.all_iff, ← hsum]
  omega

/-- The calls for `select 1;`. -/
def selectOne : List Call :=
  [.newExpr .intnum (.text "1"), .newSelectExpr .selectExpr .null (some 0),
    .newSelectList .selectList 0 (some 1) none,
    .newQueryStmt .queryStmt .null 0 (some 2) none none none none none none none,
    .newStmt .stmt none (some 3)]

theorem recorded_released_selectOne :
    ∃ st, run Nodes.step start selectOne = some st ∧ st.Recorded ∧ st.Released :=
  ⟨_, rfl, (recorded_released_iff (show run Nodes.step start selectOne = some _ from rfl)).mpr (by decide)⟩

/-- The calls for `select a from t;`. -/
def selectFrom : List Call :=
  [.newColumn .name .null (.text "a") none, .newSelectExpr .selectExpr .null (some 0),
    .newSelectList .selectList 0 (some 1) none,
    .newTable .table .null (.text "t") .null 0 none, .newFromList .fromList (some 3) none,
    .newQueryStmt .queryStmt .null 0 (some 2) (some 5) none none none none none none,
    .newStmt .stmt none (some 7)]

/-- The header at 4 is never recorded. -/
theorem not_recorded_selectFrom :
    ¬ ∀ st, run Nodes.step start selectFrom = some st → st.Recorded ∧ st.Released := by
  intro hall
  have hcount := (hall _ rfl).1 4
  exact absurd hcount (by decide)

end Nodes
end Mosito.NodeHeap
