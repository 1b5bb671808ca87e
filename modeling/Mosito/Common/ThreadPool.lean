import Mosito.Common.CircleQueue
import Mosito.Lib.History
import Mosito.Lib.Runs

/-! The thread pools: workers wait for tasks in a bounded queue, and producers push tasks into it,
all under one lock. `ThreadPool` and `TaskThreadPool` differ in the type of the tasks only. -/
namespace Mosito
open Runs History
namespace ThreadPool
variable {n c : ℕ} {Q : Type}

/-- Workers run `single_thread`, producers call `add_into_thread_pool`. -/
inductive Thread (n : ℕ) where
  | worker (i : Fin n)
  | producer (j : ℕ)
  deriving DecidableEq

def Thread.isWorker : Thread n → Bool
  | .worker _ => true
  | .producer _ => false

/-- Where a thread is: a worker in its loop, or a producer outside of or in its call. -/
inductive Pc (Q : Type) where
  | locking
  | testing
  | waiting
  | woken
  | popping
  | unlocking (task : Option Q)
  | running (task : Option Q)
  | idle
  | adding (task : Q)
  | pushing (task : Q)
  | signalling
  | leaving

namespace Pc

/-- The thread has `lock_`. -/
def holds : Pc Q → Bool
  | .testing | .popping | .unlocking _ | .pushing _ | .signalling | .leaving => true
  | _ => false

def isWaiting : Pc Q → Bool
  | .waiting => true
  | _ => false

/-- A place in `single_thread`. -/
def ofWorker : Pc Q → Bool
  | .idle | .adding _ | .pushing _ | .signalling | .leaving => false
  | _ => true

/-- The pointer that a worker has popped and not yet run. -/
def inHand : Pc Q → List (Option Q)
  | .unlocking task | .running task => [task]
  | _ => []

end Pc

/-- The pool, with the histories of the accepted tasks, of what `pop` returned to whom, and of the
tasks that were run by whom. -/
structure State (n : ℕ) (Q : Type) where
  queue : CircleQueue Q
  lock : Option (Thread n)
  pc : Thread n → Pc Q
  pushed : List Q
  popped : List (Thread n × Option Q)
  ran : List (Thread n × Q)

/-- After `init_thread_pool`. -/
def init (n : ℕ) (queue : CircleQueue Q) : State n Q where
  queue := queue
  lock := none
  pc
    | .worker _ => .locking
    | .producer _ => .idle
  pushed := []
  popped := []
  ran := []

/-- A producer calls, a thread takes its next step, a producer signals to worker `i` or to nobody,
a worker wakes up by itself. -/
inductive Event (n : ℕ) (Q : Type) where
  | add (j : ℕ) (task : Q)
  | go (t : Thread n)
  | signal (j : ℕ) (i : Option (Fin n))
  | wake (i : Fin n)

namespace State

def goto (s : State n Q) (t : Thread n) (p : Pc Q) : State n Q :=
  { s with pc := Function.update s.pc t p }

/-- `pthread_mutex_lock(&lock_)`, or the end of `pthread_cond_wait`; `none` while it is locked. -/
def acquire (s : State n Q) (t : Thread n) (p : Pc Q) : Option (State n Q) :=
  if s.lock = none then some { s with lock := some t, pc := Function.update s.pc t p } else none

def release (s : State n Q) (t : Thread n) (p : Pc Q) : State n Q :=
  { s with lock := none, pc := Function.update s.pc t p }

/-- `task=queue_->pop()` -/
def pop (s : State n Q) (t : Thread n) (task : Option Q) (queue : CircleQueue Q) : State n Q :=
  { s with queue := queue, popped := s.popped ++ [(t, task)] }

/-- `queue_->push(task)==true` -/
def push (s : State n Q) (task : Q) (queue : CircleQueue Q) : State n Q :=
  { s with queue := queue, pushed := s.pushed ++ [task] }

/-- `task->run()` -/
def finish (s : State n Q) (t : Thread n) (task : Q) : State n Q :=
  { s with ran := s.ran ++ [(t, task)] }

/-- The next step of a thread that does not wait; null is not dereferenced. -/
def go (s : State n Q) (t : Thread n) : Option (State n Q) :=
  match s.pc t with
  | .locking | .woken => s.acquire t .testing
  | .testing => if s.queue.empty then some (s.release t .waiting) else some (s.goto t .popping)
  | .popping => s.queue.pop.map fun r => (s.pop t r.1 r.2).goto t (.unlocking r.1)
  | .unlocking task => some (s.release t (.running task))
  | .running task => task.map fun x => (s.finish t x).goto t .locking
  | .adding task => s.acquire t (.pushing task)
  | .pushing task => (s.queue.push task).map fun r =>
      if r.1 then (s.push task r.2).goto t .signalling else { s with queue := r.2 }
  | .leaving => some (s.release t .idle)
  | .waiting | .idle | .signalling => none

/-- Worker `i` is woken. -/
def wake (s : State n Q) (i : Fin n) : Option (State n Q) :=
  if (s.pc (.worker i)).isWaiting then some (s.goto (.worker i) .woken) else none

/-- `pthread_cond_signal` wakes one of those that wait. -/
def signal (s : State n Q) : Option (Fin n) → Option (State n Q)
  | some i => s.wake i
  | none => if ∀ i, (s.pc (.worker i)).isWaiting = false then some s else none

end State

def step (s : State n Q) : Event n Q → Option (State n Q)
  | .add j task =>
      match s.pc (.producer j) with
      | .idle => some (s.goto (.producer j) (.adding task))
      | _ => none
  | .go t => s.go t
  | .signal j i =>
      match s.pc (.producer j) with
      | .signalling => (s.signal i).map fun u => u.goto (.producer j) .leaving
      | _ => none
  | .wake i => s.wake i

/-- What an event can do. -/
inductive Moves (s : State n Q) : Event n Q → State n Q → Prop where
  | add {j : ℕ} {x : Q} (hpc : s.pc (.producer j) = .idle) :
      Moves s (.add j x) (s.goto (.producer j) (.adding x))
  | lock {t : Thread n} (hpc : s.pc t = .locking ∨ s.pc t = .woken) (hl : s.lock = none) :
      Moves s (.go t) { s with lock := some t, pc := Function.update s.pc t .testing }
  | wait {t : Thread n} (hpc : s.pc t = .testing) (he : s.queue.empty = true) :
      Moves s (.go t) (s.release t .waiting)
  | found {t : Thread n} (hpc : s.pc t = .testing) (he : s.queue.empty = false) :
      Moves s (.go t) (s.goto t .popping)
  | pop {t : Thread n} {x : Option Q} {q : CircleQueue Q} (hpc : s.pc t = .popping)
      (hq : s.queue.pop = some (x, q)) : Moves s (.go t) ((s.pop t x q).goto t (.unlocking x))
  | unlock {t : Thread n} {x : Option Q} (hpc : s.pc t = .unlocking x) :
      Moves s (.go t) (s.release t (.running x))
  | finish {t : Thread n} {x : Q} (hpc : s.pc t = .running (some x)) :
      Moves s (.go t) ((s.finish t x).goto t .locking)
  | lockAdd {t : Thread n} {x : Q} (hpc : s.pc t = .adding x) (hl : s.lock = none) :
      Moves s (.go t) { s with lock := some t, pc := Function.update s.pc t (.pushing x) }
  | push {t : Thread n} {x : Q} {q : CircleQueue Q} (hpc : s.pc t = .pushing x)
      (hq : s.queue.push x = some (true, q)) : Moves s (.go t) ((s.push x q).goto t .signalling)
  | full {t : Thread n} {x : Q} {q : CircleQueue Q} (hpc : s.pc t = .pushing x)
      (hq : s.queue.push x = some (false, q)) : Moves s (.go t) { s with queue := q }
  | leave {t : Thread n} (hpc : s.pc t = .leaving) : Moves s (.go t) (s.release t .idle)
  | signal {j : ℕ} {i : Fin n} (hpc : s.pc (.producer j) = .signalling)
      (hi : s.pc (.worker i) = .waiting) : Moves s (.signal j (some i))
        ((s.goto (.worker i) .woken).goto (.producer j) .leaving)
  | signalNobody {j : ℕ} (hpc : s.pc (.producer j) = .signalling)
      (hn : ∀ i, (s.pc (.worker i)).isWaiting = false) :
      Moves s (.signal j none) (s.goto (.producer j) .leaving)
  | wake {i : Fin n} (hi : s.pc (.worker i) = .waiting) :
      Moves s (.wake i) (s.goto (.worker i) .woken)

theorem Pc.eq_waiting {p : Pc Q} (h : p.isWaiting = true) : p = .waiting := by
  cases p <;> first | rfl | cases h

section Step
variable {s s' : State n Q} {e : Event n Q} {t : Thread n}

theorem wake_eq_some {i : Fin n} (h : s.wake i = some s') :
    s.pc (.worker i) = .waiting ∧ s' = s.goto (.worker i) .woken := by
  obtain ⟨hi, h⟩ := Option.ite_none_right_eq_some.mp h
  exact ⟨Pc.eq_waiting hi, (Option.some.inj h).symm⟩

theorem acquire_eq_some {p : Pc Q} (h : s.acquire t p = some s') :
    s.lock = none ∧ s' = { s with lock := some t, pc := Function.update s.pc t p } := by
  obtain ⟨hl, h⟩ := Option.ite_none_right_eq_some.mp h
  exact ⟨hl, (Option.some.inj h).symm⟩

theorem moves_of_go (hs : s.go t = some s') : Moves s (.go t) s' := by
  unfold State.go at hs
  cases hpc : s.pc t with
  | locking =>
    rw [hpc] at hs
    obtain ⟨hl, rfl⟩ := acquire_eq_some hs
    exact .lock (Or.inl hpc) hl
  | woken =>
    rw [hpc] at hs
    obtain ⟨hl, rfl⟩ := acquire_eq_some hs
    exact .lock (Or.inr hpc) hl
  | testing =>
    simp only [hpc] at hs
    cases he : s.queue.empty with
    | true =>
      rw [he] at hs
      cases hs
      exact .wait hpc he
    | false =>
      rw [he] at hs
      cases hs
      exact .found hpc he
  | popping =>
    simp only [hpc] at hs
    obtain ⟨⟨x, q⟩, hq, rfl⟩ := Option.map_eq_some_iff.mp hs
    exact .pop hpc hq
  | unlocking x =>
    rw [hpc] at hs
    cases hs
    exact .unlock hpc
  | running x =>
    simp only [hpc] at hs
    obtain ⟨y, rfl, rfl⟩ := Option.map_eq_some_iff.mp hs
    exact .finish hpc
  | adding x =>
    rw [hpc] at hs
    obtain ⟨hl, rfl⟩ := acquire_eq_some hs
    exact .lockAdd hpc hl
  | pushing x =>
    simp only [hpc] at hs
    obtain ⟨⟨ok, q⟩, hq, rfl⟩ := Option.map_eq_some_iff.mp hs
    cases ok with
    | true => exact .push hpc hq
    | false => exact .full hpc hq
  | leaving =>
    rw [hpc] at hs
    cases hs
    exact .leave hpc
  | waiting =>
    rw [hpc] at hs
    cases hs
  | idle =>
    rw [hpc] at hs
    cases hs
  | signalling =>
    rw [hpc] at hs
    cases hs

theorem moves_of_step (hs : step s e = some s') : Moves s e s' := by
  cases e with
  | add j x =>
    simp only [step] at hs
    split at hs
    · next hpc =>
      cases hs
      exact .add hpc
    · cases hs
  | go t => exact moves_of_go hs
  | signal j i =>
    simp only [step] at hs
    split at hs
    · next hpc =>
      obtain ⟨u, hu, rfl⟩ := Option.map_eq_some_iff.mp hs
      cases i with
      | some i =>
        obtain ⟨hi, rfl⟩ := wake_eq_some hu
        exact .signal hpc hi
      | none =>
        obtain ⟨hn, hu⟩ := Option.ite_none_right_eq_some.mp hu
        cases hu
        exact .signalNobody hpc hn
    · cases hs
  | wake i =>
    obtain ⟨hi, rfl⟩ := wake_eq_some hs
    exact .wake hi

/-- `lock_` is held by the thread that is where it has to be held. -/
def Locked (s : State n Q) : Prop := ∀ t, (s.pc t).holds = true ↔ s.lock = some t

theorem Locked.goto (h : Locked s) {p : Pc Q} (hp : p.holds = (s.pc t).holds) :
    Locked (s.goto t p) := by
  intro u
  change (Function.update s.pc t p u).holds = true ↔ s.lock = some u
  rcases eq_or_ne u t with rfl | hne
  · rw [Function.update_self, hp]
    exact h u
  · rw [Function.update_of_ne hne]
    exact h u

theorem Locked.acquire (h : Locked s) (hl : s.lock = none) {p : Pc Q} (hp : p.holds = true) :
    Locked { s with lock := some t, pc := Function.update s.pc t p } := by
  intro u
  change (Function.update s.pc t p u).holds = true ↔ some t = some u
  rcases eq_or_ne u t with rfl | hne
  · rw [Function.update_self]
    exact iff_of_true hp rfl
  · rw [Function.update_of_ne hne, h u, hl, Option.some.injEq]
    exact iff_of_false nofun hne.symm

theorem Locked.release (h : Locked s) (ht : (s.pc t).holds = true) {p : Pc Q}
    (hp : p.holds = false) : Locked (s.release t p) := by
  intro u
  change (Function.update s.pc t p u).holds = true ↔ none = some u
  rcases eq_or_ne u t with rfl | hne
  · rw [Function.update_self, hp]
    exact iff_of_false nofun nofun
  · rw [Function.update_of_ne hne, h u, (h t).mp ht, Option.some.injEq]
    exact iff_of_false hne.symm nofun

/-- Only one thread can be where the lock has to be held. -/
theorem Locked.eq (h : Locked s) {u : Thread n} (ht : (s.pc t).holds = true)
    (hu : (s.pc u).holds = true) : u = t := by
  have hlock := (h t).mp ht
  rw [(h u).mp hu] at hlock
  exact Option.some.inj hlock

/-- The queue holds what was accepted and not yet popped, and every worker has run or holds what it
has popped. -/
structure Inv (c : ℕ) (s : State n Q) : Prop where
  locked : Locked s
  roles : ∀ t, (s.pc t).ofWorker = t.isWorker
  fifo : ∃ h xs, s.queue.Queued c h xs ∧
    s.pushed.map some = s.popped.map Prod.snd ++ xs.map some
  found : ∀ t, s.pc t = .popping → s.queue.empty = false
  byWorkers : ∀ p ∈ s.popped, p.1.isWorker = true
  hands : ∀ t, part t s.popped = (part t s.ran).map some ++ (s.pc t).inHand

theorem inv_init (n : ℕ) {q : CircleQueue Q} (hq : q.Queued c 0 []) : Inv c (init n q) := by
  constructor
  · intro t
    cases t <;> exact iff_of_false nofun nofun
  · intro t
    cases t <;> rfl
  · exact ⟨0, [], hq, rfl⟩
  · intro t ht
    cases t <;> cases ht
  · exact nofun
  · intro t
    cases t <;> rfl

theorem Inv.roles_update (h : Inv c s) {p : Pc Q} (hrole : p.ofWorker = (s.pc t).ofWorker)
    (u : Thread n) : (Function.update s.pc t p u).ofWorker = u.isWorker := by
  rcases eq_or_ne u t with rfl | hne
  · rw [Function.update_self, hrole]
    exact h.roles u
  · rw [Function.update_of_ne hne]
    exact h.roles u

theorem Inv.found_update (h : Inv c s) {p : Pc Q} (hfound : p = .popping → s.queue.empty = false)
    (u : Thread n) (hu : Function.update s.pc t p u = .popping) : s.queue.empty = false := by
  rcases eq_or_ne u t with rfl | hne
  · rw [Function.update_self] at hu
    exact hfound hu
  · rw [Function.update_of_ne hne] at hu
    exact h.found u hu

/-- While a thread holds the lock, no other is about to pop. -/
theorem Inv.not_popping (h : Inv c s) (hholds : (s.pc t).holds = true) {p : Pc Q}
    (hp : p ≠ .popping) (u : Thread n) : Function.update s.pc t p u ≠ .popping := by
  intro hu
  rcases eq_or_ne u t with rfl | hne
  · rw [Function.update_self] at hu
    exact hp hu
  · rw [Function.update_of_ne hne] at hu
    apply hne
    apply h.locked.eq hholds
    rw [hu]
    rfl

/-- A thread moves on, with what it holds in hand. -/
theorem Inv.move (h : Inv c s) {l : Option (Thread n)} {p : Pc Q}
    (hl : Locked { s with lock := l, pc := Function.update s.pc t p })
    (hrole : p.ofWorker = (s.pc t).ofWorker) (hhand : p.inHand = (s.pc t).inHand)
    (hfound : p = .popping → s.queue.empty = false) :
    Inv c { s with lock := l, pc := Function.update s.pc t p } := by
  constructor
  · exact hl
  · exact h.roles_update hrole
  · exact h.fifo
  · exact h.found_update hfound
  · exact h.byWorkers
  · intro u
    change _ = _ ++ (Function.update s.pc t p u).inHand
    rcases eq_or_ne u t with rfl | hne
    · rw [Function.update_self, hhand]
      exact h.hands u
    · rw [Function.update_of_ne hne]
      exact h.hands u

theorem empty_iff {q : CircleQueue Q} {i : ℕ} {xs : List Q} (hq : q.Queued c i xs) :
    q.empty = true ↔ xs = [] := by
  rw [← hq.empty_iff]
  exact decide_eq_true_iff

/-- A worker that has found the queue not empty pops its oldest task. -/
theorem Inv.pop (h : Inv c s) (hpc : s.pc t = .popping) {x : Option Q} {q : CircleQueue Q}
    (hq : s.queue.pop = some (x, q)) : Inv c ((s.pop t x q).goto t (.unlocking x)) := by
  have hholds : (s.pc t).holds = true := by
    rw [hpc]
    rfl
  have hrole : (s.pc t).ofWorker = true := by
    rw [hpc]
    rfl
  obtain ⟨i, xs, hqueued, hfifo⟩ := h.fifo
  cases xs with
  | nil =>
    have hempty := (empty_iff hqueued).mpr rfl
    rw [h.found t hpc] at hempty
    cases hempty
  | cons y ys =>
    obtain ⟨q', hpop, hqueued', -⟩ := hqueued.pop_ok
    rw [hq] at hpop
    cases hpop
    constructor
    · apply Locked.goto (s := s.pop t (some y) q) h.locked
      exact hholds.symm
    · exact h.roles_update hrole.symm
    · use i + 1, ys, hqueued'
      simp [State.goto, State.pop, hfifo]
    · exact fun u hu => absurd hu (h.not_popping (p := .unlocking (some y)) hholds nofun u)
    · intro p hp
      rcases List.mem_append.mp hp with hp | hp
      · exact h.byWorkers p hp
      · rw [List.mem_singleton.mp hp]
        exact (h.roles t).symm.trans hrole
    · intro u
      have hhand := h.hands u
      change part u (s.popped ++ [some y].map (Prod.mk t)) =
        _ ++ (Function.update s.pc t (.unlocking (some y)) u).inHand
      rcases eq_or_ne u t with rfl | hne
      · rw [hpc] at hhand
        rw [part_append_self, hhand, Function.update_self, List.append_assoc]
        rfl
      · rw [part_append_of_ne hne, Function.update_of_ne hne]
        exact hhand

theorem Inv.finish (h : Inv c s) {x : Q} (hpc : s.pc t = .running (some x)) :
    Inv c ((s.finish t x).goto t .locking) := by
  constructor
  · apply Locked.goto (s := s.finish t x) h.locked
    change _ = (s.pc t).holds
    rw [hpc]
    rfl
  · apply h.roles_update
    rw [hpc]
    rfl
  · exact h.fifo
  · exact h.found_update nofun
  · exact h.byWorkers
  · intro u
    have hhand := h.hands u
    change part u s.popped = (part u (s.ran ++ [x].map (Prod.mk t))).map some ++
      (Function.update s.pc t .locking u).inHand
    rcases eq_or_ne u t with rfl | hne
    · rw [hpc] at hhand
      rw [part_append_self, hhand, Function.update_self, List.map_append]
      simp [Pc.inHand]
    · rw [part_append_of_ne hne, Function.update_of_ne hne]
      exact hhand

/-- An accepted task is behind the others. -/
theorem Inv.push (h : Inv c s) {x : Q} (hpc : s.pc t = .pushing x) {q : CircleQueue Q}
    (hq : s.queue.push x = some (true, q)) : Inv c ((s.push x q).goto t .signalling) := by
  have hholds : (s.pc t).holds = true := by
    rw [hpc]
    rfl
  obtain ⟨i, xs, hqueued, hfifo⟩ := h.fifo
  by_cases hlen : xs.length = c
  · rw [hqueued.push_full hlen] at hq
    cases hq
  · obtain ⟨q', hpush, hqueued', -⟩ := hqueued.push_ok (x := x) hlen
    rw [hq] at hpush
    cases hpush
    constructor
    · apply Locked.goto (s := s.push x q) h.locked
      exact hholds.symm
    · apply h.roles_update
      rw [hpc]
      rfl
    · use i, xs ++ [x], hqueued'
      simp [State.goto, State.push, hfifo]
    · exact fun u hu => absurd hu (h.not_popping (p := .signalling) hholds nofun u)
    · exact h.byWorkers
    · intro u
      have hhand := h.hands u
      change part u s.popped = _ ++ (Function.update s.pc t .signalling u).inHand
      rcases eq_or_ne u t with rfl | hne
      · rw [hpc] at hhand
        rw [Function.update_self]
        exact hhand
      · rw [Function.update_of_ne hne]
        exact hhand

/-- A refused task leaves the queue as it is. -/
theorem Inv.full (h : Inv c s) {x : Q} {q : CircleQueue Q}
    (hq : s.queue.push x = some (false, q)) : q = s.queue := by
  obtain ⟨i, xs, hqueued, -⟩ := h.fifo
  by_cases hlen : xs.length = c
  · rw [hqueued.push_full hlen] at hq
    cases hq
    rfl
  · obtain ⟨q', hpush, -⟩ := hqueued.push_ok (x := x) hlen
    rw [hq] at hpush
    cases hpush

/-- A thread goes on without the lock changing hands. -/
theorem Inv.goto (h : Inv c s) {p : Pc Q} (hholds : p.holds = (s.pc t).holds)
    (hrole : p.ofWorker = (s.pc t).ofWorker) (hhand : p.inHand = (s.pc t).inHand)
    (hfound : p = .popping → s.queue.empty = false) : Inv c (s.goto t p) :=
  h.move (h.locked.goto hholds) hrole hhand hfound

theorem Inv.release (h : Inv c s) {p : Pc Q} (ht : (s.pc t).holds = true) (hp : p.holds = false)
    (hrole : p.ofWorker = (s.pc t).ofWorker) (hhand : p.inHand = (s.pc t).inHand) :
    Inv c (s.release t p) := by
  apply h.move (h.locked.release ht hp) hrole hhand
  rintro rfl
  cases hp

theorem Inv.wake (h : Inv c s) {i : Fin n} (hi : s.pc (.worker i) = .waiting) :
    Inv c (s.goto (.worker i) .woken) := by
  apply h.goto
  · rw [hi]
    rfl
  · rw [hi]
    rfl
  · rw [hi]
    rfl
  · exact nofun

theorem Inv.step (h : Inv c s) (hs : step s e = some s') : Inv c s' := by
  cases moves_of_step hs with
  | add hpc => apply h.goto <;> simp [hpc, Pc.holds, Pc.ofWorker, Pc.inHand]
  | lock hpc hl =>
    apply h.move (h.locked.acquire hl rfl)
    · rcases hpc with hpc | hpc <;> simp [hpc, Pc.ofWorker]
    · rcases hpc with hpc | hpc <;> simp [hpc, Pc.inHand]
    · exact nofun
  | wait hpc he => apply h.release <;> simp [hpc, Pc.holds, Pc.ofWorker, Pc.inHand]
  | found hpc he => apply h.goto <;> simp [hpc, he, Pc.holds, Pc.ofWorker, Pc.inHand]
  | pop hpc hq => exact h.pop hpc hq
  | unlock hpc => apply h.release <;> simp [hpc, Pc.holds, Pc.ofWorker, Pc.inHand]
  | finish hpc => exact h.finish hpc
  | lockAdd hpc hl =>
    apply h.move (h.locked.acquire hl rfl) <;> simp [hpc, Pc.ofWorker, Pc.inHand]
  | push hpc hq => exact h.push hpc hq
  | full hpc hq =>
    rw [h.full hq]
    exact h
  | leave hpc => apply h.release <;> simp [hpc, Pc.holds, Pc.ofWorker, Pc.inHand]
  | @signal j i hpc hi =>
    have hpc' : (s.goto (.worker i) .woken).pc (.producer j) = .signalling := by
      simpa [State.goto] using hpc
    apply (h.wake hi).goto <;> simp [hpc', Pc.holds, Pc.ofWorker, Pc.inHand]
  | signalNobody hpc hn => apply h.goto <;> simp [hpc, Pc.holds, Pc.ofWorker, Pc.inHand]
  | wake hi => exact h.wake hi

/-- The pool hands out every task once: popped and then queued are the accepted tasks in order, each
is popped by one worker, who has run or holds what it popped, and never null. -/
structure RunsOnce (c : ℕ) (s : State n Q) : Prop where
  fifo : ∃ h xs, s.queue.Queued c h xs ∧
    s.pushed.map some = s.popped.map Prod.snd ++ xs.map some
  byWorkers : ∀ p ∈ s.popped, ∃ i, p.1 = .worker i
  hands : ∀ t, part t s.popped = (part t s.ran).map some ++ (s.pc t).inHand
  not_null : ∀ t, s.pc t ≠ .running none

/-- What a worker holds was accepted. -/
theorem Inv.ne_none (h : Inv c s) {x : Option Q} (hx : x ∈ (s.pc t).inHand) : x ≠ none := by
  obtain ⟨i, xs, -, hfifo⟩ := h.fifo
  have hpart : x ∈ part t s.popped := by
    rw [h.hands t]
    exact List.mem_append_right _ hx
  have hpopped : x ∈ s.popped.map Prod.snd := List.mem_map.mpr ⟨(t, x), mem_part.mp hpart, rfl⟩
  have hpushed : x ∈ s.pushed.map some := by
    rw [hfifo]
    exact List.mem_append_left _ hpopped
  obtain ⟨y, -, rfl⟩ := List.mem_map.mp hpushed
  exact nofun

theorem Inv.runsOnce (h : Inv c s) : RunsOnce c s := by
  constructor
  · exact h.fifo
  · intro p hp
    have hworker := h.byWorkers p hp
    cases ht : p.1 with
    | worker i => exact ⟨i, rfl⟩
    | producer j =>
      rw [ht] at hworker
      cases hworker
  · exact h.hands
  · intro t ht
    apply h.ne_none (t := t) (x := none) _ rfl
    rw [ht]
    exact List.mem_singleton_self none

/-- A new queue of the pool. -/
theorem make_queued (junk : ℕ → CircleNode Q) (hc : 1 ≤ c) :
    ∃ q, CircleQueue.make junk c = some q ∧ q.Queued c 0 [] := by
  obtain ⟨q, hq, hlinked, hfront, hrear⟩ := CircleQueue.make_linked junk hc
  use q, hq
  exact ⟨hlinked, hfront, hrear, Nat.zero_le _, nofun⟩

end Step

/-- In every state of every run of a pool, each task is handed out once. -/
theorem run_runsOnce (n : ℕ) (junk : ℕ → CircleNode Q) (hc : 1 ≤ c) :
    ∃ q, CircleQueue.make junk c = some q ∧
      ∀ es s, run step (init n q) es = some s → RunsOnce c s := by
  obtain ⟨q, hq, hqueued⟩ := make_queued junk hc
  use q, hq
  intro es s hr
  exact (inv (I := Inv c) (fun _ _ _ h hs => h.step hs) hr (inv_init n hqueued)).runsOnce

/-- Two workers and a queue of one task. -/
theorem run_runsOnce_two : ∃ q, CircleQueue.make (fun _ => ⟨none, none⟩) 1 = some q ∧
    ∀ es s, run step (init (Q := ℕ) 2 q) es = some s → RunsOnce 1 s :=
  run_runsOnce 2 (fun _ => ⟨none, none⟩) le_rfl

end ThreadPool
end Mosito
