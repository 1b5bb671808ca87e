import Mosito.Lib.Runs
import Mathlib.Algebra.BigOperators.Fin
import Mathlib.Algebra.Order.BigOperators.Group.Finset

/-! The barrier. Its counter is never set back, so that it holds up the first round of arrivals
only. -/
namespace Mosito
open Runs
namespace Barrier
variable {n : ℕ}

/-- Where a thread is in `arrive`. -/
inductive Pc where
  | outside
  | locking
  | counting
  | waiting
  | woken
  | unlocking

/-- What a broadcast makes of a thread: if it waits, it now has to get the lock again. -/
def Pc.wake : Pc → Pc
  | .waiting => .woken
  | p => p

/-- The barrier of `n` threads. The counter, which only grows, is a number here; the `int` of the
source overflows with the 2^31st call of `arrive`. -/
@[ext] structure State (n : ℕ) where
  lock : Option (Fin n)
  ncounts : ℕ
  pc : Fin n → Pc
  calls : Fin n → ℕ
  returns : Fin n → ℕ

/-- `Barrier(n)` -/
def make (n : ℕ) : State n := ⟨none, 0, fun _ => .outside, fun _ => 0, fun _ => 0⟩

namespace State

def goto (s : State n) (t : Fin n) (p : Pc) : State n := { s with pc := Function.update s.pc t p }

def call (s : State n) (t : Fin n) : State n :=
  { s with calls := Function.update s.calls t (s.calls t + 1) }

def ret (s : State n) (t : Fin n) : State n :=
  { s with returns := Function.update s.returns t (s.returns t + 1) }

def hold (s : State n) (lock : Option (Fin n)) : State n := { s with lock := lock }

def count (s : State n) : State n := { s with ncounts := s.ncounts + 1 }

def broadcast (s : State n) : State n := { s with pc := fun u => (s.pc u).wake }

end State

/-- The next step of thread `t`, which calls `arrive` no more than `m t` times. -/
def step (m : Fin n → ℕ) (s : State n) (t : Fin n) : Option (State n) :=
  match s.pc t with
  | .outside => if s.calls t < m t then some ((s.call t).goto t .locking) else none
  | .locking => if s.lock = none then some ((s.hold (some t)).goto t .counting) else none
  | .counting =>
      if s.ncounts + 1 < n then some ((s.count.hold none).goto t .waiting)
      else some (s.count.broadcast.goto t .unlocking)
  | .waiting => none
  | .woken => if s.lock = none then some ((s.hold (some t)).goto t .unlocking) else none
  | .unlocking => some (((s.ret t).hold none).goto t .outside)

/-- No thread returns from its `k`-th arrival before all have made their `k`-th call. -/
def Separates (m : Fin n → ℕ) : Prop :=
  ∀ ts s, run (step m) (make n) ts = some s → ∀ t u, s.returns t ≤ s.calls u

/-- The calls that have not returned. -/
def Pc.open : Pc → ℕ
  | .outside => 0
  | _ => 1

/-- Those of them that `ncounts` counts. -/
def Pc.counted : Pc → ℕ
  | .waiting | .woken | .unlocking => 1
  | _ => 0

/-- Behind the test of `ncounts`, and not held up by it. -/
def Pc.Passed (p : Pc) : Prop := p = .woken ∨ p = .unlocking

section Invariant
variable {m : Fin n → ℕ} {s s' : State n} {t : Fin n}

/-- The arrivals of a thread that are counted. -/
def counted (s : State n) (t : Fin n) : ℕ := s.returns t + (s.pc t).counted

/-- What a thread can do. -/
theorem step_cases (hs : step m s t = some s') :
    (s.pc t = .outside ∧ s.calls t < m t ∧ s' = (s.call t).goto t .locking) ∨
      (s.pc t = .locking ∧ s' = (s.hold (some t)).goto t .counting) ∨
      (s.pc t = .counting ∧ s.ncounts + 1 < n ∧ s' = (s.count.hold none).goto t .waiting) ∨
      (s.pc t = .counting ∧ n ≤ s.ncounts + 1 ∧ s' = s.count.broadcast.goto t .unlocking) ∨
      (s.pc t = .woken ∧ s' = (s.hold (some t)).goto t .unlocking) ∨
      (s.pc t = .unlocking ∧ s' = ((s.ret t).hold none).goto t .outside) := by
  unfold step at hs
  cases hpc : s.pc t with
  | outside =>
    rw [hpc] at hs
    obtain ⟨hlt, hs⟩ := Option.ite_none_right_eq_some.mp hs
    exact Or.inl ⟨rfl, hlt, (Option.some.inj hs).symm⟩
  | locking =>
    rw [hpc] at hs
    obtain ⟨-, hs⟩ := Option.ite_none_right_eq_some.mp hs
    exact Or.inr (Or.inl ⟨rfl, (Option.some.inj hs).symm⟩)
  | counting =>
    simp only [hpc] at hs
    by_cases hlt : s.ncounts + 1 < n
    · rw [if_pos hlt] at hs
      exact Or.inr (Or.inr (Or.inl ⟨rfl, hlt, (Option.some.inj hs).symm⟩))
    · rw [if_neg hlt] at hs
      exact Or.inr (Or.inr (Or.inr (Or.inl ⟨rfl, not_lt.mp hlt, (Option.some.inj hs).symm⟩)))
  | waiting =>
    rw [hpc] at hs
    cases hs
  | woken =>
    rw [hpc] at hs
    obtain ⟨-, hs⟩ := Option.ite_none_right_eq_some.mp hs
    exact Or.inr (Or.inr (Or.inr (Or.inr (Or.inl ⟨rfl, (Option.some.inj hs).symm⟩))))
  | unlocking =>
    rw [hpc] at hs
    exact Or.inr (Or.inr (Or.inr (Or.inr (Or.inr ⟨rfl, (Option.some.inj hs).symm⟩))))

/-- What a step of thread `t` leaves of another one. -/
theorem step_other (hs : step m s t = some s') {u : Fin n} (hne : u ≠ t) :
    s'.calls u = s.calls u ∧ s'.returns u = s.returns u ∧
      (s'.pc u = s.pc u ∨ s.pc u = .waiting ∧ s'.pc u = .woken ∧ n ≤ s'.ncounts) := by
  rcases step_cases hs with ⟨-, -, rfl⟩ | ⟨-, rfl⟩ | ⟨-, -, rfl⟩ | ⟨-, hle, rfl⟩ | ⟨-, rfl⟩ |
    ⟨-, rfl⟩
  · simp [State.goto, State.call, hne]
  · simp [State.goto, State.hold, hne]
  · simp [State.goto, State.hold, State.count, hne]
  · cases hpc : s.pc u <;> simp [State.goto, State.count, State.broadcast, Pc.wake, hne, hpc, hle]
  · simp [State.goto, State.hold, hne]
  · simp [State.goto, State.hold, State.ret, hne]

/-- What a step of thread `t` does to its own arrivals. -/
theorem step_self (hs : step m s t = some s') :
    s'.calls t + s.returns t + (s.pc t).open = s.calls t + s'.returns t + (s'.pc t).open ∧
      counted s' t + s.ncounts = counted s t + s'.ncounts ∧
      (s.calls t ≤ m t → s'.calls t ≤ m t) ∧
      ((s'.pc t).Passed → (s.pc t).Passed ∨ n ≤ s'.ncounts) ∧
      (0 < s'.returns t → 0 < s.returns t ∨ (s.pc t).Passed) := by
  rcases step_cases hs with ⟨hpc, hlt, rfl⟩ | ⟨hpc, rfl⟩ | ⟨hpc, hlt, rfl⟩ | ⟨hpc, hle, rfl⟩ |
    ⟨hpc, rfl⟩ | ⟨hpc, rfl⟩
  · simp [State.goto, State.call, hpc, counted, Pc.open, Pc.counted, Pc.Passed]
    omega
  · simp [State.goto, State.hold, hpc, counted, Pc.open, Pc.counted, Pc.Passed]
  · simp [State.goto, State.hold, State.count, hpc, counted, Pc.open, Pc.counted, Pc.Passed]
    omega
  · simp [State.goto, State.count, State.broadcast, hpc, counted, Pc.open, Pc.counted, Pc.Passed]
    omega
  · simp [State.goto, State.hold, hpc, counted, Pc.open, Pc.counted, Pc.Passed]
  · simp [State.goto, State.hold, State.ret, hpc, counted, Pc.open, Pc.counted, Pc.Passed]
    omega

theorem ncounts_le (hs : step m s t = some s') : s.ncounts ≤ s'.ncounts := by
  rcases step_cases hs with ⟨-, -, rfl⟩ | ⟨-, rfl⟩ | ⟨-, -, rfl⟩ | ⟨-, -, rfl⟩ | ⟨-, rfl⟩ |
    ⟨-, rfl⟩
  · exact le_rfl
  · exact le_rfl
  · exact Nat.le_succ _
  · exact Nat.le_succ _
  · exact le_rfl
  · exact le_rfl

theorem calls_mono (hs : step m s t = some s') (u : Fin n) : s.calls u ≤ s'.calls u := by
  rcases eq_or_ne u t with rfl | hne
  · rcases step_cases hs with ⟨-, -, rfl⟩ | ⟨-, rfl⟩ | ⟨-, -, rfl⟩ | ⟨-, -, rfl⟩ | ⟨-, rfl⟩ |
      ⟨-, rfl⟩
    · simp [State.goto, State.call]
    · exact le_rfl
    · exact le_rfl
    · exact le_rfl
    · exact le_rfl
    · exact le_rfl
  · exact (step_other hs hne).1.ge

/-- What holds in every state: the counter counts, and once it has got to `n`, all threads have
made a call. -/
structure Inv (m : Fin n → ℕ) (s : State n) : Prop where
  calls_eq : ∀ t, s.calls t = s.returns t + (s.pc t).open
  calls_le : ∀ t, s.calls t ≤ m t
  ncounts_eq : s.ncounts = ∑ t, counted s t
  passed : ∀ t, 0 < s.returns t ∨ (s.pc t).Passed → n ≤ s.ncounts
  all_called : n ≤ s.ncounts → ∀ t, 0 < s.calls t

theorem inv_make (m : Fin n → ℕ) : Inv m (make n) := by
  constructor
  · exact fun t => rfl
  · exact fun t => Nat.zero_le _
  · exact Finset.sum_const_zero.symm
  · rintro t (hret | hpc | hpc)
    · exact absurd hret (Nat.lt_irrefl 0)
    · cases hpc
    · cases hpc
  · intro hn t
    have hpos := t.pos
    exact absurd hn (Nat.not_le_of_lt hpos)

theorem counted_le (h : ∀ t, s.calls t = s.returns t + (s.pc t).open) (u : Fin n) :
    counted s u ≤ s.calls u := by
  rw [h u]
  unfold counted
  cases s.pc u <;> simp [Pc.counted, Pc.open]

/-- Of `n` threads that are counted once at most, all are counted when the counter is at `n`. -/
theorem counted_pos (hle : ∀ u, counted s u ≤ 1) (hsum : n ≤ ∑ u, counted s u) (t : Fin n) :
    0 < counted s t := by
  have hrest : ∑ u ∈ Finset.univ.erase t, counted s u ≤ n - 1 := by
    calc ∑ u ∈ Finset.univ.erase t, counted s u ≤ ∑ u ∈ Finset.univ.erase t, 1 :=
          Finset.sum_le_sum fun u _ => hle u
      _ = n - 1 := by simp
  have hsplit := Finset.add_sum_erase Finset.univ (counted s) (Finset.mem_univ t)
  have hpos := t.pos
  omega

theorem Inv.calls_eq_step (h : Inv m s) (hs : step m s t = some s') (u : Fin n) :
    s'.calls u = s'.returns u + (s'.pc u).open := by
  have hu := h.calls_eq u
  rcases eq_or_ne u t with rfl | hne
  · have hopen := (step_self hs).1
    omega
  · obtain ⟨hc, hr, hp⟩ := step_other hs hne
    rw [hc, hr, hu]
    rcases hp with hp | ⟨hp, hp', -⟩
    · rw [hp]
    · rw [hp, hp']
      rfl

theorem Inv.ncounts_eq_step (h : Inv m s) (hs : step m s t = some s') :
    s'.ncounts = ∑ u, counted s' u := by
  have hrest :
      ∑ u ∈ Finset.univ.erase t, counted s' u = ∑ u ∈ Finset.univ.erase t, counted s u := by
    apply Finset.sum_congr rfl
    intro u hu
    obtain ⟨-, hr, hp⟩ := step_other hs (Finset.ne_of_mem_erase hu)
    unfold counted
    rw [hr]
    rcases hp with hp | ⟨hp, hp', -⟩
    · rw [hp]
    · rw [hp, hp']
      rfl
  have hcount := (step_self hs).2.1
  have hold := Finset.add_sum_erase Finset.univ (counted s) (Finset.mem_univ t)
  have hnew := Finset.add_sum_erase Finset.univ (counted s') (Finset.mem_univ t)
  have hn := h.ncounts_eq
  omega

theorem Inv.passed_step (h : Inv m s) (hs : step m s t = some s') (u : Fin n)
    (hu : 0 < s'.returns u ∨ (s'.pc u).Passed) : n ≤ s'.ncounts := by
  have hmono := ncounts_le hs
  obtain ⟨-, -, -, hpass, hret⟩ := step_self hs
  rcases eq_or_ne u t with rfl | hne
  · rcases hu with hu | hu
    · exact (h.passed u (hret hu)).trans hmono
    · rcases hpass hu with hu | hu
      · exact (h.passed u (Or.inr hu)).trans hmono
      · exact hu
  · obtain ⟨-, hr, hp⟩ := step_other hs hne
    rw [hr] at hu
    rcases hp with hp | ⟨-, -, hp⟩
    · rw [hp] at hu
      exact (h.passed u hu).trans hmono
    · exact hp

/-- The step with which the counter gets to `n` is the last of `n` first arrivals. -/
theorem Inv.all_called_step (h : Inv m s) (hs : step m s t = some s') (hn : n ≤ s'.ncounts)
    (u : Fin n) : 0 < s'.calls u := by
  rcases le_or_gt n s.ncounts with hold | hlt
  · exact (h.all_called hold u).trans_le (calls_mono hs u)
  · have hret : ∀ v, s'.returns v = 0 := by
      intro v
      by_contra hv
      have hpos := Nat.pos_of_ne_zero hv
      apply Nat.not_le_of_lt hlt
      rcases eq_or_ne v t with rfl | hne
      · exact h.passed v ((step_self hs).2.2.2.2 hpos)
      · rw [(step_other hs hne).2.1] at hpos
        exact h.passed v (Or.inl hpos)
    have hle : ∀ v, counted s' v ≤ 1 := by
      intro v
      unfold counted
      rw [hret v]
      cases s'.pc v <;> decide
    rw [h.ncounts_eq_step hs] at hn
    exact (counted_pos hle hn u).trans_le (counted_le (h.calls_eq_step hs) u)

theorem Inv.step (h : Inv m s) (hs : step m s t = some s') : Inv m s' := by
  constructor
  · exact h.calls_eq_step hs
  · intro u
    rcases eq_or_ne u t with rfl | hne
    · exact (step_self hs).2.2.1 (h.calls_le u)
    · rw [(step_other hs hne).1]
      exact h.calls_le u
  · exact h.ncounts_eq_step hs
  · exact h.passed_step hs
  · exact h.all_called_step hs

theorem inv_run {ts : List (Fin n)} (hr : run (Barrier.step m) (make n) ts = some s) : Inv m s :=
  inv (I := Inv m) (fun _ _ _ h hs => h.step hs) hr (inv_make m)

/-- The first round is separated: who has returned has seen a call of every thread. -/
theorem Inv.first_round (h : Inv m s) (hret : 0 < s.returns t) (u : Fin n) : 0 < s.calls u :=
  h.all_called (h.passed t (Or.inl hret)) u

end Invariant

section Rounds
variable {m : Fin n → ℕ} {s : State n} {t : Fin n}

/-- A thread that finds the lock free gets to the counter. -/
theorem run_enter (hpc : s.pc t = .outside) (hlock : s.lock = none) (hlt : s.calls t < m t) :
    run (step m) s [t, t] = some (((s.call t).hold (some t)).goto t .counting) := by
  have hcall : step m s t = some ((s.call t).goto t .locking) := by
    unfold step
    rw [hpc]
    exact if_pos hlt
  have henter : step m ((s.call t).goto t .locking) t =
      some (((s.call t).hold (some t)).goto t .counting) := by
    simp [step, State.goto, State.call, State.hold, hlock]
  exact run_cons.mpr ⟨_, hcall, run_cons.mpr ⟨_, henter, rfl⟩⟩

theorem run_wait (hpc : s.pc t = .outside) (hlock : s.lock = none) (hlt : s.calls t < m t)
    (hn : s.ncounts + 1 < n) :
    run (step m) s ([t, t] ++ [t]) = some (((s.call t).count.hold none).goto t .waiting) := by
  rw [run_append, run_enter hpc hlock hlt]
  simp [run, step, State.goto, State.call, State.hold, State.count, hn]

/-- After an arrival of `t` that was not held up. -/
def State.pass (s : State n) (t : Fin n) : State n :=
  (((s.call t).count.broadcast.ret t).hold none).goto t .outside

/-- From the `n`-th arrival on nobody waits. -/
theorem run_pass (hpc : s.pc t = .outside) (hlock : s.lock = none) (hlt : s.calls t < m t)
    (hn : n ≤ s.ncounts + 1) : run (step m) s ([t, t] ++ [t, t]) = some (s.pass t) := by
  have hnot : ¬ s.ncounts + 1 < n := not_lt.mpr hn
  rw [run_append, run_enter hpc hlock hlt]
  simp [run, step, State.pass, State.goto, State.call, State.hold, State.count, State.broadcast,
    State.ret, hnot]
  funext u
  rcases eq_or_ne u t with rfl | hne
  · simp
  · simp [hne]

@[simp] theorem pass_pc (s : State n) (t : Fin n) : (s.pass t).pc t = .outside := by
  simp [State.pass, State.goto]

@[simp] theorem pass_returns (s : State n) (t : Fin n) :
    (s.pass t).returns t = s.returns t + 1 := by
  simp [State.pass, State.goto, State.hold, State.ret, State.broadcast, State.count, State.call]

@[simp] theorem pass_calls (s : State n) (t : Fin n) :
    (s.pass t).calls = Function.update s.calls t (s.calls t + 1) := rfl

/-- The threads of `l` wait in their first arrival. -/
def waiters (l : List (Fin n)) : State n where
  lock := none
  ncounts := l.length
  pc u := if u ∈ l then .waiting else .outside
  calls u := if u ∈ l then 1 else 0
  returns _ := 0

theorem run_waiter {l : List (Fin n)} (ht : t ∉ l) (hlen : l.length + 1 < n) (hm : 0 < m t) :
    run (step m) (waiters l) [t, t, t] = some (waiters (t :: l)) := by
  have hpc : (waiters l).pc t = .outside := if_neg ht
  have hcalls : (waiters l).calls t = 0 := if_neg ht
  have hrun := run_wait hpc rfl (hcalls.trans_lt hm) hlen
  apply hrun.trans
  apply congrArg some
  ext u
  · rfl
  · rfl
  · rcases eq_or_ne u t with rfl | hne
    · simp [State.goto, waiters]
    · simp [State.goto, State.hold, State.count, State.call, waiters, hne]
  · rcases eq_or_ne u t with rfl | hne
    · simp [State.goto, State.hold, State.count, State.call, waiters, ht]
    · simp [State.goto, State.hold, State.count, State.call, waiters, hne]
  · rfl

/-- Fewer than `n` threads can all wait. -/
theorem run_waiters (l : List (Fin n)) (hl : l.Nodup) (hlen : l.length < n)
    (hm : ∀ u ∈ l, 0 < m u) : ∃ ts, run (step m) (make n) ts = some (waiters l) := by
  induction l with
  | nil =>
    use []
    simp [run, make, waiters]
  | cons t l ih =>
    obtain ⟨ht, hl⟩ := List.nodup_cons.mp hl
    obtain ⟨ts, hr⟩ := ih hl (by simp at hlen; omega) fun u hu => hm u (List.mem_cons_of_mem t hu)
    use ts ++ [t, t, t]
    rw [run_append, hr]
    exact run_waiter ht hlen (hm t List.mem_cons_self)

/-- A thread that arrives last in the first round can go through the second one alone. -/
theorem overtakes {t u : Fin n} (hne : t ≠ u) (ht : 2 ≤ m t) (hm : ∀ v, 0 < m v) :
    ∃ ts s, run (step m) (make n) ts = some s ∧ s.returns t = 2 ∧ s.calls u = 1 := by
  let l := (List.finRange n).erase t
  have hnodup : (List.finRange n).Nodup := List.nodup_finRange n
  have hlen : l.length + 1 = n := by
    have hpos := t.pos
    simp only [l, List.length_erase_of_mem (List.mem_finRange t), List.length_finRange]
    omega
  have hmem : u ∈ l := (List.mem_erase_of_ne hne.symm).mpr (List.mem_finRange u)
  have hnot : t ∉ l := hnodup.not_mem_erase
  obtain ⟨ts, hr⟩ := run_waiters l (hnodup.erase t) (by omega) fun v _ => hm v
  have hpc : (waiters l).pc t = .outside := if_neg hnot
  have hcalls : (waiters l).calls t = 0 := if_neg hnot
  have hfirst : run (step m) (waiters l) ([t, t] ++ [t, t]) = some ((waiters l).pass t) := by
    apply run_pass hpc rfl
    · omega
    · exact hlen.ge
  have hsecond : run (step m) ((waiters l).pass t) ([t, t] ++ [t, t]) =
      some (((waiters l).pass t).pass t) := by
    apply run_pass (pass_pc _ t) rfl
    · rw [pass_calls, Function.update_self]
      omega
    · change n ≤ l.length + 1 + 1
      omega
  use ts ++ ([t, t] ++ [t, t]) ++ ([t, t] ++ [t, t]), ((waiters l).pass t).pass t
  constructor
  · rw [run_append, run_append, hr]
    change (run (step m) (waiters l) _).bind _ = _
    rw [hfirst]
    exact hsecond
  · constructor
    · rw [pass_returns, pass_returns]
      rfl
    · rw [pass_calls, pass_calls, Function.update_of_ne hne.symm, Function.update_of_ne hne.symm]
      exact if_pos hmem

end Rounds

/-- The barrier separates the rounds exactly if there is no second round: for one thread, if no
thread calls twice, or if some thread never calls. -/
theorem separates_iff (m : Fin n → ℕ) :
    Separates m ↔ n = 1 ∨ (∀ t, m t ≤ 1) ∨ ∃ t, m t = 0 := by
  constructor
  · intro h
    by_contra hnot
    push Not at hnot
    obtain ⟨hone, ⟨t, ht⟩, hm⟩ := hnot
    have hpos := t.pos
    have : Nontrivial (Fin n) := Fin.nontrivial_iff_two_le.mpr (by omega)
    obtain ⟨u, hne⟩ := exists_ne t
    obtain ⟨ts, s, hr, hret, hcall⟩ := overtakes hne.symm ht fun v => Nat.pos_of_ne_zero (hm v)
    have hle := h ts s hr t u
    omega
  · intro h ts s hr t u
    have hinv := inv_run hr
    have hcalls := hinv.calls_eq t
    have hbound := hinv.calls_le t
    rcases Nat.eq_zero_or_pos (s.returns t) with hzero | hpos
    · omega
    · have hcall := hinv.first_round hpos
      rcases h with rfl | hm | ⟨v, hv⟩
      · rw [Subsingleton.elim u t]
        omega
      · have hu := hcall u
        have hmt := hm t
        omega
      · have hle := hinv.calls_le v
        have hpos' := hcall v
        omega

/-- Two threads that arrive twice each. -/
theorem not_separates_two : ¬ Separates (n := 2) fun _ => 2 := by
  rw [separates_iff]
  decide

end Barrier
end Mosito
