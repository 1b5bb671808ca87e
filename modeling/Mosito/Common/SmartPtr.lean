import Mosito.Lib.Runs
import Mosito.Lib.Ownership
import Mathlib.Algebra.Ring.Int.Defs
import Mathlib.Algebra.Ring.Nat
import Mathlib.Data.Int.Order.Basic

/-! `SmartPtr`. The SmartPtrs that live share the Counters of the heap. There is no result once a
deleted Counter is used or an `int` leaves its range. -/
namespace Mosito
open Ownership Runs

structure Counter (Obj : Type) where
  ptr : Obj
  count : ℤ

/-- The SmartPtrs that live with the Counters that they refer to, the objects that were given to
`SmartPtr(T *t)` so far, and the objects that were deleted so far. -/
structure SmartPtrs (ν Obj : Type) where
  live : Finset ν
  ptr : ν → ℕ
  heap : ℕ → Option (Counter Obj)
  owned : List Obj
  deleted : List Obj

namespace SmartPtrs
variable {ν Obj : Type}

def start : SmartPtrs ν Obj := ⟨∅, fun _ => 0, fun _ => none, [], []⟩

/-- `construct x t c`: `SmartPtr x(t)` whose `new Counter<T>(t)` is at `c`. `copy x p`:
`SmartPtr x(p)`. `assign x p`: `x = p`. `destroy x`: `~SmartPtr` of `x`. -/
inductive Op (ν Obj : Type)
  | construct (x : ν) (t : Obj) (c : ℕ)
  | copy (x p : ν)
  | assign (x p : ν)
  | destroy (x : ν)

/-- `INT_MAX`. -/
def intMax : ℤ := 2 ^ 31 - 1

/-- The value of an `int` expression. -/
def intValue (z : ℤ) : Option ℤ := if -intMax - 1 ≤ z ∧ z ≤ intMax then some z else none

/-- `++ptr->count`. -/
def increment (c : ℕ) (s : SmartPtrs ν Obj) : Option (SmartPtrs ν Obj) := do
  let k ← s.heap c
  let count ← intValue (k.count + 1)
  some { s with heap := Function.update s.heap c (some { k with count := count }) }

/-- `if(--ptr->count==0) delete ptr`. The destructor of the Counter deletes its object. -/
def release (c : ℕ) (s : SmartPtrs ν Obj) : Option (SmartPtrs ν Obj) := do
  let k ← s.heap c
  let count ← intValue (k.count - 1)
  if count = 0 then
    some { s with heap := Function.update s.heap c none, deleted := s.deleted ++ [k.ptr] }
  else some { s with heap := Function.update s.heap c (some { k with count := count }) }

section Step
variable [DecidableEq ν]

def step (s : SmartPtrs ν Obj) : Op ν Obj → Option (SmartPtrs ν Obj)
  | .construct x t c =>
      some { s with
        live := insert x s.live
        ptr := Function.update s.ptr x c
        heap := Function.update s.heap c (some ⟨t, 1⟩)
        owned := s.owned ++ [t] }
  | .copy x p => do
      let s ← s.increment (s.ptr p)
      some { s with live := insert x s.live, ptr := Function.update s.ptr x (s.ptr p) }
  | .assign x p => do
      let s ← s.increment (s.ptr p)
      let s ← s.release (s.ptr x)
      some { s with ptr := Function.update s.ptr x (s.ptr p) }
  | .destroy x => do
      let s ← s.release (s.ptr x)
      some { s with live := s.live.erase x }

/-- New SmartPtrs are constructed, from fresh objects or from SmartPtrs that live; `new` returns a
free address; and only SmartPtrs that live are assigned and destroyed. -/
def Enabled (s : SmartPtrs ν Obj) : Op ν Obj → Prop
  | .construct x t c => x ∉ s.live ∧ t ∉ s.owned ∧ (s.heap c).isNone
  | .copy x p => x ∉ s.live ∧ p ∈ s.live
  | .assign x p => x ∈ s.live ∧ p ∈ s.live
  | .destroy x => x ∈ s.live

/-- The number of live SmartPtrs that refer to a Counter. -/
def refs (s : SmartPtrs ν Obj) (c : ℕ) : ℕ := references s.live s.ptr c

/-- What is copied or assigned is not shared by `INT_MAX` SmartPtrs yet. -/
def Room (s : SmartPtrs ν Obj) : Op ν Obj → Prop
  | .copy _ p | .assign _ p => (s.refs (s.ptr p) : ℤ) < intMax
  | _ => True

/-- `x` refers to the object `t`. -/
def RefersTo (s : SmartPtrs ν Obj) (x : ν) (t : Obj) : Prop :=
  ∃ k, s.heap (s.ptr x) = some k ∧ k.ptr = t

/-- A Counter counts the live SmartPtrs that refer to it, these refer to no deleted Counter, and an
object is deleted once, as soon as no live SmartPtr refers to it. -/
structure Exact (s : SmartPtrs ν Obj) : Prop where
  count : ∀ c k, s.heap c = some k → k.count = s.refs c ∧ 1 ≤ k.count
  alive : ∀ x ∈ s.live, (s.heap (s.ptr x)).isSome
  once : s.deleted.Nodup
  last : ∀ t ∈ s.owned, t ∈ s.deleted ↔ ∀ x ∈ s.live, ¬ s.RefersTo x t

instance [DecidableEq Obj] (s : SmartPtrs ν Obj) : (op : Op ν Obj) → Decidable (s.Enabled op)
  | .construct x t c => inferInstanceAs (Decidable (x ∉ s.live ∧ t ∉ s.owned ∧ (s.heap c).isNone))
  | .copy x p => inferInstanceAs (Decidable (x ∉ s.live ∧ p ∈ s.live))
  | .assign x p => inferInstanceAs (Decidable (x ∈ s.live ∧ p ∈ s.live))
  | .destroy x => inferInstanceAs (Decidable (x ∈ s.live))

instance (s : SmartPtrs ν Obj) : (op : Op ν Obj) → Decidable (s.Room op)
  | .copy _ p | .assign _ p => inferInstanceAs (Decidable ((s.refs (s.ptr p) : ℤ) < intMax))
  | .construct .. | .destroy _ => .isTrue trivial

end Step

/-- The objects of the Counters of the heap. -/
def objects (heap : ℕ → Option (Counter Obj)) (c : ℕ) : Option Obj := (heap c).map Counter.ptr

/-- The counts of the Counters are `n`, and the Counters own the objects that are not deleted. -/
structure Counts (n : ℕ → ℕ) (heap : ℕ → Option (Counter Obj)) (owned deleted : List Obj) : Prop
    where
  count : ∀ c k, heap c = some k → k.count = n c ∧ 1 ≤ n c ∧ (n c : ℤ) ≤ intMax
  free : ∀ c, heap c = none → n c = 0
  objects : Accounts (objects heap) owned deleted

theorem intValue_of_le {z : ℤ} (hlow : 0 ≤ z) (hz : z ≤ intMax) : intValue z = some z := by
  unfold intValue
  rw [if_pos]
  unfold intMax at *
  omega

theorem intValue_of_lt {z : ℤ} (hz : intMax < z) : intValue z = none := by
  unfold intValue
  rw [if_neg]
  omega

section Counts
variable {heap : ℕ → Option (Counter Obj)} {owned deleted : List Obj} {s : SmartPtrs ν Obj}
  {n : ℕ → ℕ} {c m : ℕ} {k : Counter Obj}

theorem objects_update (o : Option (Counter Obj)) :
    objects (Function.update heap c o) =
      Function.update (objects heap) c (o.map Counter.ptr) := by
  funext d
  unfold objects
  by_cases hd : d = c
  · subst hd
    simp only [Function.update_self]
  · simp only [Function.update_of_ne hd]

theorem Counts.counter (h : Counts n heap owned deleted) (hn : 0 < n c) :
    ∃ k, heap c = some k ∧ k.count = n c ∧ (n c : ℤ) ≤ intMax := by
  cases hk : heap c with
  | none =>
    rw [h.free c hk] at hn
    cases hn
  | some k =>
    obtain ⟨hcount, -, hle⟩ := h.count c k hk
    exact ⟨k, rfl, hcount, hle⟩

/-- An address gets another content, with a count that fits to it. -/
theorem Counts.update (h : Counts n heap owned deleted) {owned' deleted' : List Obj}
    {o : Option (Counter Obj)} (hcount : ∀ k, o = some k → k.count = m ∧ 1 ≤ m ∧ (m : ℤ) ≤ intMax)
    (hfree : o = none → m = 0)
    (hobjects : Accounts (Function.update (SmartPtrs.objects heap) c (o.map Counter.ptr)) owned'
      deleted') :
    Counts (Function.update n c m) (Function.update heap c o) owned' deleted' := by
  constructor
  · intro d k hd
    by_cases hdc : d = c
    · subst hdc
      rw [Function.update_self] at hd ⊢
      exact hcount k hd
    · rw [Function.update_of_ne hdc] at hd ⊢
      exact h.count d k hd
  · intro d hd
    by_cases hdc : d = c
    · subst hdc
      rw [Function.update_self] at hd ⊢
      exact hfree hd
    · rw [Function.update_of_ne hdc] at hd ⊢
      exact h.free d hd
  · rw [objects_update]
    exact hobjects

/-- A Counter with a count is put at an address. -/
theorem Counts.put (h : Counts n heap owned deleted) {owned' deleted' : List Obj} (hk : k.count = m)
    (hm : 1 ≤ m) (hle : (m : ℤ) ≤ intMax)
    (hobjects : Accounts (Function.update (SmartPtrs.objects heap) c (some k.ptr)) owned' deleted') :
    Counts (Function.update n c m) (Function.update heap c (some k)) owned' deleted' := by
  refine h.update ?_ ?_ hobjects
  · intro k' hk'
    cases hk'
    exact ⟨hk, hm, hle⟩
  · exact nofun

theorem Counts.recount (h : Counts n heap owned deleted) (hk : heap c = some k) (hm : 1 ≤ m)
    (hle : (m : ℤ) ≤ intMax) :
    Counts (Function.update n c m)
      (Function.update heap c (some { k with count := m })) owned deleted := by
  apply h.put rfl hm hle
  have hsame : Function.update (SmartPtrs.objects heap) c (some k.ptr) = SmartPtrs.objects heap := by
    rw [Function.update_eq_self_iff]
    unfold SmartPtrs.objects
    rw [hk]
    rfl
  rw [hsame]
  exact h.objects

/-- The Counter at an address is deleted. -/
theorem Counts.delete (h : Counts n heap owned deleted) (hk : heap c = some k) :
    Counts (Function.update n c 0) (Function.update heap c none) owned (deleted ++ [k.ptr]) := by
  refine h.update ?_ ?_ ?_
  · exact nofun
  · exact fun _ => rfl
  · apply h.objects.release
    unfold SmartPtrs.objects
    rw [hk]
    rfl

theorem increment_of_le (hk : s.heap c = some k) (hlow : 0 ≤ k.count) (hlt : k.count < intMax) :
    s.increment c = some { s with
      heap := Function.update s.heap c (some { k with count := k.count + 1 }) } := by
  unfold increment
  rw [hk, Option.bind_eq_bind, Option.bind_some, intValue_of_le (by omega) (by omega)]
  rfl

theorem increment_of_lt (hk : s.heap c = some k) (hge : ¬ k.count < intMax) :
    s.increment c = none := by
  unfold increment
  rw [hk, Option.bind_eq_bind, Option.bind_some, intValue_of_lt (by omega)]
  rfl

theorem Counts.increment (h : Counts n s.heap s.owned s.deleted) (hn : 0 < n c)
    (hlt : (n c : ℤ) < intMax) :
    ∃ heap, s.increment c = some { s with heap := heap } ∧
      Counts (Function.update n c (n c + 1)) heap s.owned s.deleted := by
  obtain ⟨k, hk, hcount, -⟩ := h.counter hn
  use Function.update s.heap c (some { k with count := (n c + 1 : ℕ) })
  constructor
  · rw [increment_of_le hk (by omega) (by omega), hcount]
    rfl
  · exact h.recount hk (Nat.le_add_left 1 (n c)) (by omega)

theorem Counts.increment_none (h : Counts n s.heap s.owned s.deleted) (hn : 0 < n c)
    (hge : ¬ (n c : ℤ) < intMax) : s.increment c = none := by
  obtain ⟨k, hk, hcount, -⟩ := h.counter hn
  exact increment_of_lt hk (by omega)

theorem Counts.release (h : Counts n s.heap s.owned s.deleted) (hn : 0 < n c) :
    ∃ heap deleted, s.release c = some { s with heap := heap, deleted := deleted } ∧
      Counts (Function.update n c (n c - 1)) heap s.owned deleted := by
  obtain ⟨k, hk, hcount, hle⟩ := h.counter hn
  have hvalue : intValue (k.count - 1) = some ((n c - 1 : ℕ) : ℤ) := by
    rw [hcount, intValue_of_le (by omega) (by omega)]
    congr 1
    omega
  unfold SmartPtrs.release
  rw [hk, Option.bind_eq_bind, Option.bind_some, hvalue, Option.bind_eq_bind, Option.bind_some]
  by_cases hlast : n c = 1
  · use Function.update s.heap c none, s.deleted ++ [k.ptr]
    rw [hlast]
    exact ⟨rfl, h.delete hk⟩
  · use Function.update s.heap c (some { k with count := (n c - 1 : ℕ) }), s.deleted
    rw [if_neg (by omega)]
    exact ⟨rfl, h.recount hk (by omega) (by omega)⟩

end Counts

section Sound
variable {s s' : SmartPtrs ν Obj} {op : Op ν Obj}

/-- The invariant. -/
def Sound (s : SmartPtrs ν Obj) : Prop := Counts s.refs s.heap s.owned s.deleted

theorem sound_start : Sound (start : SmartPtrs ν Obj) :=
  ⟨nofun, fun _ _ => rfl, .empty⟩

theorem refs_pos {x : ν} (hx : x ∈ s.live) : 0 < s.refs (s.ptr x) := references_pos.mpr ⟨x, hx, rfl⟩

theorem Sound.exact (h : s.Sound) : s.Exact := by
  constructor
  · intro c k hk
    obtain ⟨hcount, hpos, -⟩ := h.count c k hk
    exact ⟨hcount, by omega⟩
  · intro x hx
    obtain ⟨k, hk, -⟩ := h.counter (refs_pos hx)
    rw [hk]
    rfl
  · exact h.objects.once
  · intro t ht
    constructor
    · rintro hdel x - ⟨k, hk, rfl⟩
      refine (h.objects.held (s.ptr x) k.ptr ?_).2 hdel
      unfold objects
      rw [hk]
      rfl
    · intro hnone
      by_contra hdel
      obtain ⟨c, hc⟩ := h.objects.kept t ht hdel
      obtain ⟨k, hk, hkt⟩ := Option.map_eq_some_iff.mp hc
      obtain ⟨-, hpos, -⟩ := h.count c k hk
      obtain ⟨x, hx, rfl⟩ := references_pos.mp hpos
      exact hnone x hx ⟨k, hk, hkt⟩

variable [DecidableEq ν]

/-- What an operation does if there is room for its new reference. -/
theorem Sound.step (h : s.Sound) (hen : s.Enabled op) (hroom : s.Room op) :
    ∃ s', s.step op = some s' ∧ s'.Sound := by
  cases op with
  | construct x t c =>
    obtain ⟨hx, ht, hc⟩ := hen
    refine ⟨_, rfl, ?_⟩
    unfold Sound refs
    rw [references_insert _ _ hx]
    have hzero : references s.live s.ptr c = 0 := h.free c (Option.isNone_iff_eq_none.mp hc)
    rw [hzero]
    apply h.put rfl le_rfl (by decide)
    apply h.objects.take _ ht
    unfold objects
    rw [Option.isNone_iff_eq_none.mp hc]
    rfl
  | copy x p =>
    obtain ⟨hx, hp⟩ := hen
    obtain ⟨heap, hstep, hcounts⟩ := h.increment (refs_pos hp) hroom
    rw [SmartPtrs.step, hstep]
    refine ⟨_, rfl, ?_⟩
    unfold Sound refs
    rw [references_insert _ _ hx]
    exact hcounts
  | assign x p =>
    obtain ⟨hx, hp⟩ := hen
    obtain ⟨heap, hstep, hcounts⟩ := h.increment (refs_pos hp) hroom
    have hpos : 0 < Function.update s.refs (s.ptr p) (s.refs (s.ptr p) + 1) (s.ptr x) := by
      by_cases hsame : s.ptr x = s.ptr p
      · rw [hsame, Function.update_self]
        exact Nat.succ_pos _
      · rw [Function.update_of_ne hsame]
        exact refs_pos hx
    obtain ⟨heap', deleted, hstep', hcounts'⟩ :=
      Counts.release (s := { s with heap := heap }) hcounts hpos
    rw [SmartPtrs.step, hstep, Option.bind_eq_bind, Option.bind_some, hstep']
    refine ⟨_, rfl, ?_⟩
    unfold Sound refs
    rw [references_redirect hx rfl]
    exact hcounts'
  | destroy x =>
    obtain ⟨heap, deleted, hstep, hcounts⟩ := h.release (refs_pos hen)
    rw [SmartPtrs.step, hstep]
    refine ⟨_, rfl, ?_⟩
    unfold Sound refs
    rw [references_erase hen]
    exact hcounts

theorem Sound.step_none (h : s.Sound) (hen : s.Enabled op) (hroom : ¬ s.Room op) :
    s.step op = none := by
  cases op with
  | construct x t c => exact (hroom trivial).elim
  | copy x p =>
    rw [SmartPtrs.step, h.increment_none (refs_pos hen.2) hroom]
    rfl
  | assign x p =>
    rw [SmartPtrs.step, h.increment_none (refs_pos hen.2) hroom]
    rfl
  | destroy x => exact (hroom trivial).elim

theorem Sound.step_isSome_iff (h : s.Sound) (hen : s.Enabled op) :
    (s.step op).isSome ↔ s.Room op := by
  by_cases hroom : s.Room op
  · obtain ⟨s', hs, -⟩ := h.step hen hroom
    rw [hs]
    exact iff_of_true rfl hroom
  · rw [h.step_none hen hroom]
    exact iff_of_false nofun hroom

theorem Sound.of_step (h : s.Sound) (hen : s.Enabled op) (hs : s.step op = some s') : s'.Sound := by
  have hroom : s.Room op := by
    rw [← h.step_isSome_iff hen, hs]
    rfl
  obtain ⟨t, ht, hsound⟩ := h.step hen hroom
  cases hs.symm.trans ht
  exact hsound

/-- All operations of a sequence can be run, and the counts are exact in every state on the way,
exactly if no operation adds a reference to a Counter that has `INT_MAX` of them. -/
theorem run_exact_iff {ops : List (Op ν Obj)} (hops : Along step Enabled start ops) :
    ((run step start ops).isSome ∧
      ∀ ops' s, ops' <+: ops → run step start ops' = some s → s.Exact) ↔
      Along step Room start ops := by
  have hkeep (s : SmartPtrs ν Obj) (op : Op ν Obj) (s' : SmartPtrs ν Obj) (h : s.Sound)
      (hen : s.Enabled op) (hs : s.step op = some s') : s'.Sound := h.of_step hen hs
  have hroom : (run step start ops).isSome ↔ Along step Room start ops :=
    isSome_iff_along hkeep (fun s op h hen => h.step_isSome_iff hen) hops sound_start
  rw [← hroom]
  constructor
  · exact And.left
  · intro hsome
    refine ⟨hsome, fun ops' s hpre hr => ?_⟩
    exact (inv_along hkeep (hops.of_prefix hpre) hr sound_start).exact

/-- Two objects, whose SmartPtrs are assigned to themselves and to each other and destroyed. -/
theorem run_exact_iff_two :
    let ops : List (Op ℕ Bool) :=
      [.construct 0 true 0, .copy 1 0, .assign 0 0, .construct 2 false 1, .assign 0 1, .assign 2 0,
        .destroy 1, .assign 0 0, .destroy 0, .destroy 2]
    (run step start ops).isSome ∧
      ∀ ops' s, ops' <+: ops → run step start ops' = some s → s.Exact :=
  (run_exact_iff (by decide)).mpr (by decide)

end Sound

/-- One SmartPtr from a new object, and copies of it. -/
def copies (n : ℕ) : List (Op ℕ Unit) :=
  .construct 0 () 0 :: (List.range' 1 n).map fun x => .copy x 0

section Copies
variable {s : SmartPtrs ℕ Unit} {m : ℕ}

/-- The SmartPtrs that live are `0 .. m - 1`, and the Counter that they share counts them. -/
structure Shared (m : ℕ) (s : SmartPtrs ℕ Unit) : Prop where
  pos : 0 < m
  live : s.live = Finset.range m
  zero : s.ptr 0 = 0
  counter : s.heap 0 = some ⟨(), m⟩

theorem Shared.copy (h : Shared m s) (hlt : (m : ℤ) < intMax) :
    ∃ s', s.step (.copy m 0) = some s' ∧ Shared (m + 1) s' := by
  rw [SmartPtrs.step, h.zero, increment_of_le h.counter (by simp only; omega) (by simp only; omega)]
  refine ⟨_, rfl, Nat.succ_pos m, ?_, ?_, ?_⟩
  · rw [Finset.range_add_one]
    exact congrArg (insert m) h.live
  · exact (Function.update_of_ne h.pos.ne ..).trans h.zero
  · show Function.update s.heap 0 (some ⟨(), (m : ℤ) + 1⟩) 0 = some ⟨(), (m : ℤ) + 1⟩
    rw [Function.update_self]

theorem Shared.copy_none (h : Shared m s) (hge : ¬ (m : ℤ) < intMax) :
    s.step (.copy m 0) = none := by
  rw [SmartPtrs.step, h.zero, increment_of_lt h.counter (by simp only; omega)]
  rfl

theorem Shared.enabled (h : Shared m s) (n : ℕ) :
    Along step Enabled s ((List.range' m n).map fun x => Op.copy x 0) := by
  induction n generalizing m s with
  | zero => trivial
  | succ n ih =>
    rw [List.range'_succ, List.map_cons]
    refine ⟨⟨?_, ?_⟩, fun t ht => ?_⟩
    · rw [h.live]
      exact Finset.notMem_range_self
    · rw [h.live]
      exact Finset.mem_range.mpr h.pos
    · by_cases hlt : (m : ℤ) < intMax
      · obtain ⟨s', hs, hshared⟩ := h.copy hlt
        cases hs.symm.trans ht
        exact ih hshared
      · rw [h.copy_none hlt] at ht
        cases ht

theorem Shared.run_none (h : Shared m s) (n : ℕ) (hm : (m + n : ℕ) = intMax) :
    run step s ((List.range' m (n + 1)).map fun x => Op.copy x 0) = none := by
  induction n generalizing m s with
  | zero =>
    rw [List.range'_succ, List.map_cons, run, h.copy_none (by omega)]
    rfl
  | succ n ih =>
    obtain ⟨s', hs, hshared⟩ := h.copy (by omega)
    rw [List.range'_succ, List.map_cons, run, hs, Option.bind_some]
    exact ih hshared (by omega)

theorem shared_one : ∃ s, step start (.construct 0 () 0) = some s ∧ Shared 1 s :=
  ⟨_, rfl, Nat.one_pos, rfl, rfl, rfl⟩

/-- The `INT_MAX` copies of one SmartPtr cannot all be made: the last one overflows the count. -/
theorem not_run_copies : ¬ (Along step Enabled start (copies (2 ^ 31 - 1)) →
    (run step start (copies (2 ^ 31 - 1))).isSome ∧ ∀ ops' s, ops' <+: copies (2 ^ 31 - 1) →
      run step start ops' = some s → s.Exact) := by
  obtain ⟨s, hs, hshared⟩ := shared_one
  intro hall
  have hen : Along step Enabled start (copies (2 ^ 31 - 1)) := by
    refine ⟨⟨nofun, nofun, rfl⟩, fun t ht => ?_⟩
    cases hs.symm.trans ht
    exact hshared.enabled _
  have hnone : run step start (copies (2 ^ 31 - 1)) = none := by
    unfold copies
    rw [run, hs, Option.bind_some]
    exact hshared.run_none (2 ^ 31 - 2) rfl
  have hsome := (hall hen).1
  rw [hnone] at hsome
  cases hsome

end Copies
end SmartPtrs
end Mosito
