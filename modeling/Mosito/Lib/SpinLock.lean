import Mosito.Lib.History
import Mosito.Lib.Runs
import Mathlib.Algebra.Order.BigOperators.Group.Finset
import Mathlib.Data.Fintype.Basic

/-! Threads that add to shared cells, each cell under a test-and-set lock of its own. To take the
lock, to read the cell, to write it and to give the lock back are four steps of a thread, and the
steps of all threads come in any order. -/
namespace SpinLock
open History Runs

/-- Where a thread is in the first of its calls: before the lock, with the lock, with the cell
read, with the cell written. -/
inductive Pc (σ : Type) where
  | acquiring
  | entered
  | loaded (v : σ)
  | stored

/-- Between taking the lock and giving it back. -/
def Pc.inside {σ : Type} : Pc σ → Bool
  | acquiring => false
  | _ => true

/-- The steps of the call that are done. -/
def Pc.rank {σ : Type} : Pc σ → ℕ
  | acquiring => 0
  | entered => 1
  | loaded _ => 2
  | stored => 3

/-- `todo` are a thread's calls that have not returned; `log` is the history of the writes. -/
structure Threads (τ ρ α σ : Type) where
  lock : ρ → Bool
  cell : ρ → σ
  pc : τ → Pc σ
  todo : τ → List (ρ × α)
  log : List (τ × ρ × α)

namespace Threads
variable {τ ρ α σ : Type}

def start (cell : ρ → σ) (todo : τ → List (ρ × α)) : Threads τ ρ α σ :=
  ⟨fun _ => false, cell, fun _ => .acquiring, todo, []⟩

/-- The cell whose lock a thread has. -/
def holds (s : Threads τ ρ α σ) (t : τ) : Option ρ :=
  if (s.pc t).inside then (s.todo t).head?.map Prod.fst else none

/-- The calls of a thread whose writes are still to come. -/
def rest (s : Threads τ ρ α σ) (t : τ) : List (ρ × α) :=
  match s.pc t with
  | .stored => (s.todo t).tail
  | _ => s.todo t

def Done (s : Threads τ ρ α σ) : Prop := ∀ t, s.todo t = []

section Holds
variable {s s' : Threads τ ρ α σ} {t u : τ} {r : ρ} {x : α} {calls : List (ρ × α)}

theorem holds_eq (htodo : s.todo t = (r, x) :: calls) (hin : (s.pc t).inside = true) :
    s.holds t = some r := by
  rw [holds, if_pos hin, htodo]
  rfl

theorem holds_none (hout : (s.pc t).inside = false) : s.holds t = none := by
  rw [holds, if_neg (by simp [hout])]

theorem holds_congr (hpc : s'.pc u = s.pc u) (htodo : s'.todo u = s.todo u) :
    s'.holds u = s.holds u := by
  rw [holds, holds, hpc, htodo]

theorem rest_congr (hpc : s'.pc u = s.pc u) (htodo : s'.todo u = s.todo u) :
    s'.rest u = s.rest u := by
  rw [rest, rest, hpc, htodo]

end Holds

variable [DecidableEq τ] [DecidableEq ρ] (push : σ → α → σ)

/-- The next step of a thread. A thread that finds the lock taken tries again. -/
def step (s : Threads τ ρ α σ) (t : τ) : Option (Threads τ ρ α σ) :=
  match s.todo t with
  | [] => none
  | (r, x) :: rest =>
    match s.pc t with
    | .acquiring =>
      if s.lock r then some s else
        some { s with
          lock := Function.update s.lock r true
          pc := Function.update s.pc t .entered }
    | .entered => some { s with pc := Function.update s.pc t (.loaded (s.cell r)) }
    | .loaded v =>
      some { s with
        cell := Function.update s.cell r (push v x)
        pc := Function.update s.pc t .stored
        log := s.log ++ [(t, r, x)] }
    | .stored =>
      some { s with
        lock := Function.update s.lock r false
        pc := Function.update s.pc t .acquiring
        todo := Function.update s.todo t rest }

/-- A lock is taken exactly when one thread has it, who alone reads and writes the cell; the
cells have what was written, and the threads write what they have to, in order. -/
structure Inv (s₀ s : Threads τ ρ α σ) : Prop where
  locked : ∀ r, s.lock r = true ↔ ∃ t, s.holds t = some r
  exclusive : ∀ t u r, s.holds t = some r → s.holds u = some r → t = u
  inside : ∀ t, (s.pc t).inside = true → ∃ r, s.holds t = some r
  loaded : ∀ t v r, s.pc t = .loaded v → s.holds t = some r → v = s.cell r
  cell : ∀ r, s.cell r = (part r (s.log.map Prod.snd)).foldl push (s₀.cell r)
  order : ∀ t, part t s.log ++ s.rest t = s₀.todo t

section Steps
variable {push} {s s' s₀ : Threads τ ρ α σ} {t : τ} {r : ρ} {x : α} {calls : List (ρ × α)}

theorem inv_start (cell : ρ → σ) (todo : τ → List (ρ × α)) :
    Inv push (start cell todo) (start cell todo) := by
  constructor <;> simp [start, holds, rest, Pc.inside]

/-- What a step does, each under its guard. -/
inductive Effect (push : σ → α → σ) (s : Threads τ ρ α σ) (t : τ) : Threads τ ρ α σ → Prop where
  | wait {r : ρ} {x : α} {calls : List (ρ × α)} (htodo : s.todo t = (r, x) :: calls)
    (hpc : s.pc t = .acquiring) (hlock : s.lock r = true) : Effect push s t s
  | enter {r : ρ} {x : α} {calls : List (ρ × α)} (htodo : s.todo t = (r, x) :: calls)
    (hpc : s.pc t = .acquiring) (hlock : s.lock r = false) : Effect push s t
      { s with lock := Function.update s.lock r true, pc := Function.update s.pc t .entered }
  | load {r : ρ} {x : α} {calls : List (ρ × α)} (htodo : s.todo t = (r, x) :: calls)
    (hpc : s.pc t = .entered) : Effect push s t
      { s with pc := Function.update s.pc t (.loaded (s.cell r)) }
  | store {r : ρ} {x : α} {calls : List (ρ × α)} {v : σ} (htodo : s.todo t = (r, x) :: calls)
    (hpc : s.pc t = .loaded v) : Effect push s t
      { s with
        cell := Function.update s.cell r (push v x)
        pc := Function.update s.pc t .stored
        log := s.log ++ [(t, r, x)] }
  | release {r : ρ} {x : α} {calls : List (ρ × α)} (htodo : s.todo t = (r, x) :: calls)
    (hpc : s.pc t = .stored) : Effect push s t
      { s with
        lock := Function.update s.lock r false
        pc := Function.update s.pc t .acquiring
        todo := Function.update s.todo t calls }

theorem effect_of_step (hs : s.step push t = some s') : Effect push s t s' := by
  unfold step at hs
  split at hs
  · cases hs
  · rename_i r x calls htodo
    split at hs
    · rename_i hpc
      split_ifs at hs with hlock
      · cases hs
        exact .wait htodo hpc hlock
      · cases hs
        exact .enter htodo hpc (by simpa using hlock)
    · rename_i hpc
      cases hs
      exact .load htodo hpc
    · rename_i v hpc
      cases hs
      exact .store htodo hpc
    · rename_i hpc
      cases hs
      exact .release htodo hpc

/-- A step of `t` that changes neither the locks nor the calls keeps who has which lock. -/
theorem Inv.within (h : Inv push s₀ s) (hold : s.holds t = some r) (hold' : s'.holds t = some r)
    (hpc : ∀ u, u ≠ t → s'.pc u = s.pc u) (hlock : s'.lock = s.lock) (htodo : s'.todo = s.todo)
    (hother : ∀ r', r' ≠ r → s'.cell r' = s.cell r')
    (hloaded : ∀ v, s'.pc t = .loaded v → v = s'.cell r)
    (hcell : ∀ r', s'.cell r' = (part r' (s'.log.map Prod.snd)).foldl push (s₀.cell r'))
    (hself : part t s'.log ++ s'.rest t = part t s.log ++ s.rest t)
    (hlog : ∀ u, u ≠ t → part u s'.log = part u s.log) : Inv push s₀ s' := by
  have hsame (u : τ) : s'.holds u = s.holds u := by
    rcases eq_or_ne u t with rfl | hne
    · rw [hold, hold']
    · exact holds_congr (hpc u hne) (by rw [htodo])
  refine ⟨?_, ?_, ?_, ?_, hcell, ?_⟩
  · simpa only [hsame, hlock] using h.locked
  · simpa only [hsame] using h.exclusive
  · intro u hu
    rw [hsame]
    rcases eq_or_ne u t with rfl | hne
    · exact ⟨r, hold⟩
    · rw [hpc u hne] at hu
      exact h.inside u hu
  · intro u v r' hv hr
    rw [hsame] at hr
    rcases eq_or_ne u t with rfl | hne
    · cases hold.symm.trans hr
      exact hloaded v hv
    · rw [hpc u hne] at hv
      have hne' : r' ≠ r := by
        rintro rfl
        exact hne (h.exclusive u t _ hr hold)
      rw [hother r' hne']
      exact h.loaded u v r' hv hr
  · intro u
    rcases eq_or_ne u t with rfl | hne
    · rw [hself]
      exact h.order u
    · rw [hlog u hne, rest_congr (hpc u hne) (by rw [htodo])]
      exact h.order u

/-- A thread that had no lock takes a free one. -/
theorem Inv.enter (h : Inv push s₀ s) (hnone : s.holds t = none) (hold' : s'.holds t = some r)
    (hfree : s.lock r = false) (hpc : ∀ u, u ≠ t → s'.pc u = s.pc u)
    (hlock : s'.lock = Function.update s.lock r true) (htodo : s'.todo = s.todo)
    (hcell : s'.cell = s.cell) (hlog : s'.log = s.log) (hloaded : ∀ v, s'.pc t ≠ .loaded v)
    (hrest : s'.rest t = s.rest t) : Inv push s₀ s' := by
  have hother {u : τ} (hu : u ≠ t) : s'.holds u = s.holds u :=
    holds_congr (hpc u hu) (by rw [htodo])
  have hfresh (u : τ) : s.holds u ≠ some r := by
    intro hu
    have htrue := (h.locked r).mpr ⟨u, hu⟩
    rw [hfree] at htrue
    cases htrue
  -- Who has a lock now had it before, or is `t` with this one.
  have hsplit {u : τ} {r' : ρ} (hu : s'.holds u = some r') :
      u = t ∧ r' = r ∨ u ≠ t ∧ s.holds u = some r' := by
    rcases eq_or_ne u t with rfl | hne
    · exact Or.inl ⟨rfl, Option.some.inj (hu.symm.trans hold')⟩
    · exact Or.inr ⟨hne, (hother hne).symm.trans hu⟩
  constructor
  · intro r'
    rw [hlock]
    rcases eq_or_ne r' r with rfl | hr
    · exact iff_of_true (Function.update_self ..) ⟨t, hold'⟩
    · rw [Function.update_of_ne hr, h.locked]
      constructor
      · rintro ⟨u, hu⟩
        have hne : u ≠ t := by
          rintro rfl
          rw [hnone] at hu
          cases hu
        exact ⟨u, (hother hne).trans hu⟩
      · rintro ⟨u, hu⟩
        rcases hsplit hu with ⟨-, rfl⟩ | ⟨-, hu⟩
        · exact absurd rfl hr
        · exact ⟨u, hu⟩
  · intro u w r' hu hw
    rcases hsplit hu with ⟨rfl, rfl⟩ | ⟨-, hu⟩
    · rcases hsplit hw with ⟨rfl, -⟩ | ⟨-, hw⟩
      · rfl
      · exact absurd hw (hfresh w)
    · rcases hsplit hw with ⟨rfl, rfl⟩ | ⟨-, hw⟩
      · exact absurd hu (hfresh u)
      · exact h.exclusive u w r' hu hw
  · intro u hu
    rcases eq_or_ne u t with rfl | hne
    · exact ⟨r, hold'⟩
    · rw [hother hne]
      exact h.inside u (by rwa [hpc u hne] at hu)
  · intro u v r' hv hr
    rw [hcell]
    rcases hsplit hr with ⟨rfl, -⟩ | ⟨hne, hr⟩
    · exact absurd hv (hloaded v)
    · exact h.loaded u v r' (by rwa [hpc u hne] at hv) hr
  · rw [hcell, hlog]
    exact h.cell
  · intro u
    rw [hlog]
    rcases eq_or_ne u t with rfl | hne
    · rw [hrest]
      exact h.order u
    · rw [rest_congr (hpc u hne) (by rw [htodo])]
      exact h.order u

/-- A thread gives its lock back. -/
theorem Inv.release (h : Inv push s₀ s) (hold : s.holds t = some r) (hout : (s'.pc t).inside = false)
    (hpc : ∀ u, u ≠ t → s'.pc u = s.pc u) (hlock : s'.lock = Function.update s.lock r false)
    (htodo : ∀ u, u ≠ t → s'.todo u = s.todo u) (hcell : s'.cell = s.cell) (hlog : s'.log = s.log)
    (hrest : s'.rest t = s.rest t) : Inv push s₀ s' := by
  have hother {u : τ} (hu : u ≠ t) : s'.holds u = s.holds u := holds_congr (hpc u hu) (htodo u hu)
  have hbefore {u : τ} {r' : ρ} (hu : s'.holds u = some r') : u ≠ t ∧ s.holds u = some r' := by
    have hne : u ≠ t := by
      rintro rfl
      rw [holds_none hout] at hu
      cases hu
    exact ⟨hne, (hother hne).symm.trans hu⟩
  constructor
  · intro r'
    rw [hlock]
    rcases eq_or_ne r' r with rfl | hr
    · rw [Function.update_self]
      refine iff_of_false nofun ?_
      rintro ⟨u, hu⟩
      exact (hbefore hu).1 (h.exclusive u t r' (hbefore hu).2 hold)
    · rw [Function.update_of_ne hr, h.locked]
      constructor
      · rintro ⟨u, hu⟩
        have hne : u ≠ t := by
          rintro rfl
          exact hr (Option.some.inj (hu.symm.trans hold))
        exact ⟨u, (hother hne).trans hu⟩
      · rintro ⟨u, hu⟩
        exact ⟨u, (hbefore hu).2⟩
  · intro u w r' hu hw
    exact h.exclusive u w r' (hbefore hu).2 (hbefore hw).2
  · intro u hu
    have hne : u ≠ t := by
      rintro rfl
      rw [hout] at hu
      cases hu
    rw [hother hne]
    exact h.inside u (by rwa [hpc u hne] at hu)
  · intro u v r' hv hr
    rw [hcell]
    exact h.loaded u v r' (by rwa [hpc u (hbefore hr).1] at hv) (hbefore hr).2
  · rw [hcell, hlog]
    exact h.cell
  · intro u
    rw [hlog]
    rcases eq_or_ne u t with rfl | hne
    · rw [hrest]
      exact h.order u
    · rw [rest_congr (hpc u hne) (htodo u hne)]
      exact h.order u

theorem Inv.step (h : Inv push s₀ s) (hs : s.step push t = some s') : Inv push s₀ s' := by
  have hupd {β : Type} (f : τ → β) (b : β) : ∀ u, u ≠ t → Function.update f t b u = f u :=
    fun _ hu => Function.update_of_ne hu _ _
  cases effect_of_step hs with
  | wait => exact h
  | @enter r _ _ htodo hpc hfree =>
    refine h.enter (holds_none (by rw [hpc]; rfl)) (holds_eq htodo ?_) hfree (hupd _ _) rfl rfl rfl
      rfl ?_ ?_ <;> simp [Pc.inside, rest, hpc]
  | @load r _ _ htodo hpc =>
    have hold : s.holds t = some r := holds_eq htodo (by rw [hpc]; rfl)
    refine h.within hold (holds_eq htodo ?_) (hupd _ _) rfl rfl (fun _ _ => rfl) ?_ h.cell ?_
      fun _ _ => rfl
    · simp [Pc.inside]
    · simp
    · simp [rest, hpc]
  | @store r x _ v htodo hpc =>
    have hold : s.holds t = some r := holds_eq htodo (by rw [hpc]; rfl)
    have hv := h.loaded t v r hpc hold
    refine h.within hold (holds_eq htodo ?_) (hupd _ _) rfl rfl
      (fun _ hr => Function.update_of_ne hr _ _) ?_ ?_ ?_ ?_
    · simp [Pc.inside]
    · simp
    · intro r'
      simp only [List.map_append, List.map_cons, List.map_nil]
      rcases eq_or_ne r' r with rfl | hne
      · rw [Function.update_self, hv, h.cell]
        rw [show [(r', x)] = [x].map (Prod.mk r') from rfl, part_append_self, List.foldl_append]
        rfl
      · rw [Function.update_of_ne hne, h.cell]
        rw [show [(r, x)] = [x].map (Prod.mk r) from rfl, part_append_of_ne hne]
    · rw [show [(t, r, x)] = [(r, x)].map (Prod.mk t) from rfl, part_append_self]
      simp [rest, hpc, htodo]
    · intro u hne
      exact part_append_of_ne hne s.log [(r, x)]
  | @release r x calls htodo hpc =>
    refine h.release (holds_eq htodo (by rw [hpc]; rfl)) ?_ (hupd _ _) rfl (hupd _ _) rfl rfl ?_
    · simp [Pc.inside]
    · simp [rest, hpc, htodo]

theorem inv_run {cell : ρ → σ} {todo : τ → List (ρ × α)} {ts : List τ}
    (hrun : run (step push) (start cell todo) ts = some s) : Inv push (start cell todo) s :=
  Runs.inv (fun _ _ _ h hs => h.step hs) hrun (inv_start cell todo)

/-- When all calls have returned, every thread has made its writes, in order, and no lock is
taken. -/
theorem Inv.done (h : Inv push s₀ s) (hdone : s.Done) :
    (∀ t, part t s.log = s₀.todo t) ∧ ∀ r, s.lock r = false := by
  constructor
  · intro t
    have horder := h.order t
    have hrest : s.rest t = [] := by
      unfold rest
      split
      · rw [hdone t, List.tail_nil]
      · exact hdone t
    rwa [hrest, List.append_nil] at horder
  · intro r
    rw [← Bool.not_eq_true, h.locked]
    rintro ⟨t, ht⟩
    simp [holds, hdone t] at ht

end Steps

section Progress
variable {push} [Fintype τ] {s s₀ : Threads τ ρ α σ}

/-- The steps to come when nobody waits. -/
def left (s : Threads τ ρ α σ) : ℕ := ∑ t, (4 * (s.todo t).length - (s.pc t).rank)

omit [DecidableEq τ] [DecidableEq ρ] in
theorem left_lt {s s' : Threads τ ρ α σ} {t : τ} (hpc : ∀ u, u ≠ t → s'.pc u = s.pc u)
    (htodo : ∀ u, u ≠ t → s'.todo u = s.todo u)
    (hlt : 4 * (s'.todo t).length - (s'.pc t).rank < 4 * (s.todo t).length - (s.pc t).rank) :
    s'.left < s.left := by
  apply Finset.sum_lt_sum
  · intro u _
    rcases eq_or_ne u t with rfl | hne
    · exact hlt.le
    · rw [hpc u hne, htodo u hne]
  · exact ⟨t, Finset.mem_univ t, hlt⟩

/-- A step that does not wait brings the end nearer. -/
theorem left_lt_of_step {s s' : Threads τ ρ α σ} {t : τ} (hs : s.step push t = some s')
    (hgo : ∀ r x calls, s.todo t = (r, x) :: calls → s.pc t = .acquiring → s.lock r = false) :
    s'.left < s.left := by
  have hupd {β : Type} (f : τ → β) (b : β) : ∀ u, u ≠ t → Function.update f t b u = f u :=
    fun _ hu => Function.update_of_ne hu _ _
  cases effect_of_step hs with
  | wait htodo hpc hlock =>
    rw [hgo _ _ _ htodo hpc] at hlock
    cases hlock
  | enter htodo hpc =>
    refine left_lt (hupd _ _) (fun _ _ => rfl) ?_
    simp only [hpc, htodo, Pc.rank, Function.update_self, List.length_cons]
    omega
  | load htodo hpc =>
    refine left_lt (hupd _ _) (fun _ _ => rfl) ?_
    simp only [hpc, htodo, Pc.rank, Function.update_self, List.length_cons]
    omega
  | store htodo hpc =>
    refine left_lt (hupd _ _) (fun _ _ => rfl) ?_
    simp only [hpc, htodo, Pc.rank, Function.update_self, List.length_cons]
    omega
  | release htodo hpc =>
    refine left_lt (hupd _ _) (hupd _ _) ?_
    simp only [hpc, htodo, Pc.rank, Function.update_self, List.length_cons]
    omega

omit [Fintype τ] in
theorem step_isSome {t : τ} {c : ρ × α} {calls : List (ρ × α)} (htodo : s.todo t = c :: calls) :
    ∃ s', s.step push t = some s' := by
  unfold step
  rw [htodo]
  dsimp only
  cases s.pc t with
  | acquiring =>
    dsimp only
    split_ifs
    · exact ⟨_, rfl⟩
    · exact ⟨_, rfl⟩
  | entered => exact ⟨_, rfl⟩
  | loaded => exact ⟨_, rfl⟩
  | stored => exact ⟨_, rfl⟩

/-- From every reachable state the threads can finish: one of them can always go on. -/
theorem Inv.finishes (h : Inv push s₀ s) :
    ∃ s', Leads (Threads.step push) (fun _ => True) s s' ∧ Inv push s₀ s' ∧ s'.Done := by
  refine reaches left ?_ h
  intro s h hdone
  obtain ⟨t, c, calls, htodo, hgo⟩ : ∃ t c calls, s.todo t = c :: calls ∧
      ∀ r x calls, s.todo t = (r, x) :: calls → s.pc t = .acquiring → s.lock r = false := by
    by_cases hin : ∃ t, (s.pc t).inside = true
    · obtain ⟨t, ht⟩ := hin
      obtain ⟨r, hr⟩ := h.inside t ht
      rw [holds, if_pos ht, Option.map_eq_some_iff] at hr
      obtain ⟨c, hc, -⟩ := hr
      obtain ⟨calls, htodo⟩ := List.head?_eq_some_iff.mp hc
      refine ⟨t, c, calls, htodo, fun _ _ _ _ hpc => ?_⟩
      rw [hpc] at ht
      cases ht
    · -- Nobody has a lock, so that every lock is free.
      obtain ⟨t, ht⟩ := not_forall.mp hdone
      obtain ⟨c, calls, htodo⟩ := List.exists_cons_of_ne_nil ht
      refine ⟨t, c, calls, htodo, fun r _ _ _ _ => ?_⟩
      rw [← Bool.not_eq_true, h.locked]
      rintro ⟨u, hu⟩
      rw [holds_none (by simpa using not_exists.mp hin u)] at hu
      cases hu
  obtain ⟨s', hs⟩ : ∃ s', s.step push t = some s' := step_isSome htodo
  exact ⟨t, s', trivial, hs, h.step hs, left_lt_of_step hs hgo⟩

end Progress

section Lists
variable {k : ℕ} {todo : Fin k → List (ρ × α)} {s : Threads (Fin k) ρ α (List α)}

end Lists
end Threads
end SpinLock
