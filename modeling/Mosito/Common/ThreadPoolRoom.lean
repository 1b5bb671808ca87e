import Mosito.Common.ThreadPool

/-! When the calls of `add_into_thread_pool` return. A producer that finds the queue full tries on
with the lock that the workers need to make room. -/
namespace Mosito
open Runs

namespace CircleQueue
variable {Q : Type}

/-- `rear_->next_==front_` -/
def full (q : CircleQueue Q) : Bool :=
  match q.rear with
  | none => false
  | some r => decide ((q.nodes r).next = q.front)

theorem Queued.full_eq_true {q : CircleQueue Q} {c i : ℕ} {xs : List Q} (hq : q.Queued c i xs) :
    q.full = true ↔ xs.length = c := by
  unfold full
  rw [hq.rear]
  exact decide_eq_true_iff.trans hq.full_iff

end CircleQueue

namespace ThreadPool
variable {n c : ℕ} {Q : Type}

/-- The pool's own steps: no new call, and no worker that wakes up by itself. -/
def Event.Own : Event n Q → Prop
  | .go _ | .signal _ _ => True
  | _ => False

/-- Some way on that takes events of `A` only, the call of producer `j` has returned. -/
def Completes (A : Event n Q → Prop) (s : State n Q) (j : ℕ) : Prop :=
  ∃ s', Leads step A s s' ∧ s'.pc (.producer j) = .idle

/-- A producer that gets the lock finds room. -/
def RoomToAdd (s : State n Q) : Event n Q → Prop
  | .go t =>
      match s.pc t with
      | .adding _ => s.lock = none → s.queue.full = false
      | _ => True
  | _ => True

section Step
variable {s s' : State n Q} {e : Event n Q} {t : Thread n} {x : Q}

/-- A producer that tries to push into a full queue does so forever. -/
theorem Inv.wedged_step (h : Inv c s) (hpc : s.pc t = .pushing x) (hfull : s.queue.full = true)
    (hs : ThreadPool.step s e = some s') : s'.pc t = .pushing x ∧ s'.queue.full = true := by
  have hholds : (s.pc t).holds = true := by
    rw [hpc]
    rfl
  have hlock := (h.locked t).mp hholds
  have hother {u : Thread n} {p : Pc Q} (hu : s.pc u = p) (hp : p.holds = true)
      (hne : p ≠ .pushing x) : False := by
    have hheld : (s.pc u).holds = true := by rwa [hu]
    obtain rfl := h.locked.eq hholds hheld
    exact hne (hu.symm.trans hpc)
  have hkeep {u : Thread n} {p q : Pc Q} (hu : s.pc u = p) (hne : p ≠ .pushing x) :
      Function.update s.pc u q t = .pushing x := by
    rw [Function.update_of_ne]
    · exact hpc
    · rintro rfl
      exact hne (hu.symm.trans hpc)
  cases moves_of_step hs with
  | add hu => exact ⟨hkeep hu nofun, hfull⟩
  | lock hu hl =>
    rw [hl] at hlock
    cases hlock
  | wait hu => exact (hother hu rfl nofun).elim
  | found hu => exact (hother hu rfl nofun).elim
  | pop hu => exact (hother hu rfl nofun).elim
  | unlock hu => exact (hother hu rfl nofun).elim
  | finish hu => exact ⟨hkeep hu nofun, hfull⟩
  | lockAdd hu hl =>
    rw [hl] at hlock
    cases hlock
  | push hu hq =>
    obtain ⟨i, xs, hqueued, -⟩ := h.fifo
    rw [hqueued.push_full (hqueued.full_eq_true.mp hfull)] at hq
    cases hq
  | full hu hq =>
    rw [h.full hq]
    exact ⟨hpc, hfull⟩
  | leave hu => exact (hother hu rfl nofun).elim
  | signal hu => exact (hother hu rfl nofun).elim
  | signalNobody hu => exact (hother hu rfl nofun).elim
  | wake hu => exact ⟨hkeep hu nofun, hfull⟩

/-- Its call never returns then, whatever the other threads do. -/
theorem Inv.wedged (h : Inv c s) {j : ℕ} (hpc : s.pc (.producer j) = .pushing x)
    (hfull : s.queue.full = true) (A : Event n Q → Prop) : ¬ Completes A s j := by
  rintro ⟨s', ⟨es, -, hr⟩, hidle⟩
  have hforever : Inv c s' ∧ s'.pc (.producer j) = .pushing x ∧ s'.queue.full = true := by
    apply inv (I := fun u => Inv c u ∧ u.pc (.producer j) = .pushing x ∧ u.queue.full = true) _ hr
    · exact ⟨h, hpc, hfull⟩
    · rintro u e u' ⟨hu, hupc, hufull⟩ hs
      exact ⟨hu.step hs, hu.wedged_step hupc hufull hs⟩
  rw [hforever.2.1] at hidle
  cases hidle

/-- If all workers wait, there is no task for them, or a producer is about to signal. -/
def Signalled (s : State n Q) : Prop :=
  (∀ i, s.pc (.worker i) = .waiting) → s.queue.empty = true ∨ ∃ j, s.pc (.producer j) = .signalling

/-- No producer tries to push into a full queue, and waiting workers are signalled. -/
structure Open (c : ℕ) (s : State n Q) : Prop extends Inv c s where
  signalled : Signalled s
  room : ∀ t x, s.pc t = .pushing x → s.queue.full = false

theorem Inv.worker (h : Inv c s) (ht : (s.pc t).ofWorker = true) : ∃ i, t = .worker i := by
  rw [h.roles t] at ht
  cases t with
  | worker i => exact ⟨i, rfl⟩
  | producer j => cases ht

theorem Inv.producer (h : Inv c s) (ht : (s.pc t).ofWorker = false) : ∃ j, t = .producer j := by
  rw [h.roles t] at ht
  cases t with
  | worker i => cases ht
  | producer j => exact ⟨j, rfl⟩

/-- A worker that moved on does not wait. -/
theorem signalled_of_worker {i : Fin n} {p : Pc Q}
    (hpc : s'.pc = Function.update s.pc (.worker i) p) (hp : p ≠ .waiting) : Signalled s' := by
  intro hall
  have hi := hall i
  rw [hpc, Function.update_self] at hi
  exact absurd hi hp

theorem Signalled.of_producer (h : Signalled s) {j : ℕ} {p : Pc Q}
    (hpc : s'.pc = Function.update s.pc (.producer j) p) (hq : s'.queue = s.queue)
    (hj : s.pc (.producer j) ≠ .signalling) : Signalled s' := by
  intro hall
  rw [hpc] at hall
  rcases h hall with he | ⟨k, hk⟩
  · rw [hq]
    exact Or.inl he
  · use Or.inr ⟨k, ?_⟩
    rw [hpc, Function.update_of_ne]
    · exact hk
    · intro hkj
      rw [hkj] at hk
      exact hj hk

theorem Open.signalled_step (hn : 1 ≤ n) (h : Open c s) (hs : step s e = some s') :
    Signalled s' := by
  have hworker {u : Thread n} {p q : Pc Q} (hu : s.pc u = p) (hp : p.ofWorker = true)
      (hpc : s'.pc = Function.update s.pc u q) (hq : q ≠ .waiting) : Signalled s' := by
    obtain ⟨i, rfl⟩ := h.worker (t := u) (by rwa [hu])
    exact signalled_of_worker hpc hq
  have hproducer {u : Thread n} {p q : Pc Q} (hu : s.pc u = p) (hp : p.ofWorker = false)
      (hpc : s'.pc = Function.update s.pc u q) (hqueue : s'.queue = s.queue)
      (hne : p ≠ .signalling) : Signalled s' := by
    obtain ⟨j, rfl⟩ := h.producer (t := u) (by rwa [hu])
    exact h.signalled.of_producer hpc hqueue (by rwa [hu])
  cases moves_of_step hs with
  | add hu => exact hproducer hu rfl rfl rfl (by simp)
  | lock hu hl =>
    rcases hu with hu | hu
    · exact hworker hu rfl rfl (by simp)
    · exact hworker hu rfl rfl (by simp)
  | wait hu he => exact fun _ => Or.inl he
  | found hu => exact hworker hu rfl rfl (by simp)
  | pop hu => exact hworker hu rfl rfl (by simp)
  | unlock hu => exact hworker hu rfl rfl (by simp)
  | finish hu => exact hworker hu rfl rfl (by simp)
  | lockAdd hu hl => exact hproducer hu rfl rfl rfl (by simp)
  | @push u y q hu hq =>
    obtain ⟨j, rfl⟩ := h.producer (t := u) (by rw [hu]; rfl)
    exact fun _ => Or.inr ⟨j, Function.update_self _ _ _⟩
  | full hu hq =>
    rw [h.full hq]
    exact h.signalled
  | leave hu => exact hproducer hu rfl rfl rfl (by simp)
  | @signal j i hu hi =>
    intro hall
    have hi := hall i
    simp [State.goto] at hi
  | signalNobody hu hnobody =>
    intro hall
    have hi := hall ⟨0, hn⟩
    have hnot := hnobody ⟨0, hn⟩
    simp only [State.goto, ne_eq, reduceCtorEq, not_false_eq_true, Function.update_of_ne] at hi
    rw [hi] at hnot
    cases hnot
  | wake hi => exact signalled_of_worker rfl (by simp)

theorem Open.room_step (h : Open c s) (hok : RoomToAdd s e) (hs : step s e = some s')
    (x : Q) (ht : s'.pc t = .pushing x) : s'.queue.full = false := by
  have hmoved {u : Thread n} {p : Pc Q} (hpc : s'.pc = Function.update s.pc u p)
      (hq : s'.queue = s.queue) (hp : p = .pushing x → s.queue.full = false) :
      s'.queue.full = false := by
    rw [hq]
    rw [hpc] at ht
    rcases eq_or_ne t u with rfl | hne
    · rw [Function.update_self] at ht
      exact hp ht
    · rw [Function.update_of_ne hne] at ht
      exact h.room t x ht
  have halone {u : Thread n} {p q : Pc Q} (hu : s.pc u = p) (hp : p.holds = true)
      (hpc : s'.pc = Function.update s.pc u q) (hq : q ≠ .pushing x) : False := by
    rw [hpc] at ht
    rcases eq_or_ne t u with rfl | hne
    · rw [Function.update_self] at ht
      exact hq ht
    · rw [Function.update_of_ne hne] at ht
      apply hne
      apply h.locked.eq
      · rwa [hu]
      · rw [ht]
        rfl
  cases moves_of_step hs with
  | add hu => exact hmoved rfl rfl (by simp)
  | lock hu hl => exact hmoved rfl rfl (by simp)
  | wait hu => exact hmoved rfl rfl (by simp)
  | found hu => exact hmoved rfl rfl (by simp)
  | pop hu => exact (halone hu rfl rfl (by simp)).elim
  | unlock hu => exact hmoved rfl rfl (by simp)
  | finish hu => exact hmoved rfl rfl (by simp)
  | lockAdd hu hl =>
    simp only [RoomToAdd, hu] at hok
    exact hmoved rfl rfl fun _ => hok hl
  | push hu => exact (halone hu rfl rfl (by simp)).elim
  | full hu hq =>
    rw [h.full hq]
    exact h.room t x ht
  | leave hu => exact hmoved rfl rfl (by simp)
  | @signal j i hu hi =>
    apply h.room t x
    rcases eq_or_ne t (.producer j) with rfl | hne
    · simp [State.goto] at ht
    · rcases eq_or_ne t (.worker i) with rfl | hne'
      · simp [State.goto] at ht
      · simpa [State.goto, hne, hne'] using ht
  | signalNobody hu => exact hmoved rfl rfl (by simp)
  | wake hi => exact hmoved rfl rfl (by simp)

theorem Open.step (hn : 1 ≤ n) (h : Open c s) (hok : RoomToAdd s e)
    (hs : ThreadPool.step s e = some s') : Open c s' :=
  ⟨h.toInv.step hs, h.signalled_step hn hs, fun _ => h.room_step hok hs⟩

/-- The steps of a thread until it releases the lock. -/
def Pc.held : Pc Q → ℕ
  | .testing | .pushing _ => 3
  | .popping | .signalling => 2
  | .unlocking _ | .leaving => 1
  | _ => 0

/-- The steps until the lock is released. -/
def held (s : State n Q) : ℕ :=
  match s.lock with
  | none => 0
  | some t => (s.pc t).held

theorem held_of_lock {u : State n Q} (hl : u.lock = some t) : held u = (u.pc t).held := by
  unfold held
  rw [hl]

/-- After a step of its holder, the lock is released sooner. -/
theorem held_lt {u : State n Q} (hl : s.lock = some t) (hul : u.lock = none ∨ u.lock = some t)
    (hlt : (u.pc t).held < (s.pc t).held) : held u < held s := by
  rw [held_of_lock hl]
  rcases hul with hul | hul
  · unfold held
    rw [hul]
    exact (Nat.zero_le _).trans_lt hlt
  · rwa [held_of_lock hul]

theorem roomToAdd_of_locked (hl : s.lock = some t) (e : Event n Q) : RoomToAdd s e := by
  cases e with
  | go u =>
    simp only [RoomToAdd]
    split
    · intro hnone
      rw [hl] at hnone
      cases hnone
    · trivial
  | _ => trivial

/-- An own step that brings the release of the lock closer. -/
structure Advance (s : State n Q) (e : Event n Q) (s' : State n Q) : Prop where
  own : e.Own
  step : ThreadPool.step s e = some s'
  room : RoomToAdd s e
  held : held s' < held s

theorem Advance.of_go (hs : s.go t = some s') (hl : s.lock = some t)
    {p : Pc Q} (hpc : s'.pc = Function.update s.pc t p) (hl' : s'.lock = none ∨ s'.lock = some t)
    (hlt : p.held < (s.pc t).held) : Advance s (.go t) s' := by
  constructor
  · trivial
  · exact hs
  · exact roomToAdd_of_locked hl (.go t)
  · apply held_lt hl hl'
    rwa [hpc, Function.update_self]

/-- A signal goes to a worker that waits, if there is one. -/
theorem exists_signal (s : State n Q) :
    ∃ i u, s.signal i = some u ∧ u.lock = s.lock := by
  by_cases hany : ∃ i, (s.pc (.worker i)).isWaiting = true
  · obtain ⟨i, hi⟩ := hany
    exact ⟨some i, _, if_pos hi, rfl⟩
  · have hnone : ∀ i, (s.pc (.worker i)).isWaiting = false := by simpa using hany
    exact ⟨none, s, if_pos hnone, rfl⟩

theorem step_signal {j : ℕ} {i : Option (Fin n)} {u : State n Q}
    (hpc : s.pc (.producer j) = .signalling) (hs : s.signal i = some u) :
    step s (.signal j i) = some (u.goto (.producer j) .leaving) := by
  simp only [step, hpc, hs]
  rfl

/-- A task that waits is popped. -/
theorem Inv.pop_ok (h : Inv c s) (he : s.queue.empty = false) :
    ∃ x q, s.queue.pop = some (some x, q) ∧ q.full = false := by
  obtain ⟨i, xs, hqueued, -⟩ := h.fifo
  cases xs with
  | nil =>
    rw [(empty_iff hqueued).mpr rfl] at he
    cases he
  | cons x xs =>
    obtain ⟨q, hpop, hqueued', -⟩ := hqueued.pop_ok
    use x, q, hpop
    have hlen := hqueued.length_le
    rw [List.length_cons] at hlen
    rw [← Bool.not_eq_true, hqueued'.full_eq_true]
    omega

theorem Inv.push_ok (h : Inv c s) (hroom : s.queue.full = false) (x : Q) :
    ∃ q, s.queue.push x = some (true, q) := by
  obtain ⟨i, xs, hqueued, -⟩ := h.fifo
  have hlen : xs.length ≠ c := by
    rw [Ne, ← hqueued.full_eq_true, hroom]
    exact nofun
  obtain ⟨q, hpush, -⟩ := hqueued.push_ok (x := x) hlen
  exact ⟨q, hpush⟩

/-- A thread that has the lock gets on. -/
theorem Open.advance (h : Open c s) (hl : s.lock = some t) : ∃ e s', Advance s e s' := by
  have hholds := (h.locked t).mpr hl
  cases hpc : s.pc t with
  | testing =>
    cases he : s.queue.empty with
    | true =>
      have hs : s.go t = some (s.release t .waiting) := by simp [State.go, hpc, he]
      exact ⟨_, _, .of_go hs hl rfl (Or.inl rfl) (by simp [hpc, Pc.held])⟩
    | false =>
      have hs : s.go t = some (s.goto t .popping) := by simp [State.go, hpc, he]
      exact ⟨_, _, .of_go hs hl rfl (Or.inr hl) (by simp [hpc, Pc.held])⟩
  | popping =>
    obtain ⟨x, q, hpop, -⟩ := h.pop_ok (h.found t hpc)
    have hs : s.go t = some ((s.pop t (some x) q).goto t (.unlocking (some x))) := by
      simp [State.go, hpc, hpop]
    exact ⟨_, _, .of_go hs hl rfl (Or.inr hl) (by simp [hpc, Pc.held])⟩
  | unlocking x =>
    have hs : s.go t = some (s.release t (.running x)) := by simp [State.go, hpc]
    exact ⟨_, _, .of_go hs hl rfl (Or.inl rfl) (by simp [hpc, Pc.held])⟩
  | pushing x =>
    obtain ⟨q, hpush⟩ := h.push_ok (h.room t x hpc) x
    have hs : s.go t = some ((s.push x q).goto t .signalling) := by simp [State.go, hpc, hpush]
    exact ⟨_, _, .of_go hs hl rfl (Or.inr hl) (by simp [hpc, Pc.held])⟩
  | signalling =>
    obtain ⟨j, rfl⟩ := h.producer (t := t) (by rw [hpc]; rfl)
    obtain ⟨i, u, hs, hu⟩ := exists_signal s
    use .signal j i, u.goto (.producer j) .leaving
    constructor
    · trivial
    · exact step_signal hpc hs
    · trivial
    · apply held_lt (u := u.goto (.producer j) .leaving) hl (Or.inr (hu.trans hl))
      simp [State.goto, hpc, Pc.held]
  | leaving =>
    have hs : s.go t = some (s.release t .idle) := by simp [State.go, hpc]
    exact ⟨_, _, .of_go hs hl rfl (Or.inl rfl) (by simp [hpc, Pc.held])⟩
  | _ =>
    rw [hpc] at hholds
    cases hholds

/-- The lock is released. -/
theorem Open.frees (hn : 1 ≤ n) (h : Open c s) :
    ∃ s', Leads ThreadPool.step Event.Own s s' ∧ Open c s' ∧ s'.lock = none := by
  apply reaches held _ h
  intro u hu hlocked
  obtain ⟨t, ht⟩ := Option.ne_none_iff_exists'.mp hlocked
  obtain ⟨e, u', hadv⟩ := hu.advance ht
  exact ⟨e, u', hadv.own, hadv.step, hu.step hn hadv.room hadv.step, hadv.held⟩

theorem Inv.leads {A : Event n Q → Prop} (h : Inv c s) (hl : Leads ThreadPool.step A s s') :
    Inv c s' := by
  obtain ⟨es, -, hr⟩ := hl
  exact inv (I := Inv c) (fun _ _ _ h hs => h.step hs) hr h

/-- While the lock is free, a call that has not returned waits for it. -/
theorem Inv.call_of_free (h : Inv c s) (hl : s.lock = none) (j : ℕ) :
    s.pc (.producer j) = .idle ∨ ∃ x, s.pc (.producer j) = .adding x := by
  have hrole := h.roles (.producer j)
  have hfree : (s.pc (.producer j)).holds ≠ true := by
    rw [Ne, h.locked, hl]
    exact nofun
  cases hpc : s.pc (.producer j) with
  | idle => exact Or.inl rfl
  | adding x => exact Or.inr ⟨x, rfl⟩
  | _ =>
    rw [hpc] at hrole hfree
    first | exact absurd rfl hfree | cases hrole

/-- While the lock is free, a worker waits, or is on its way to it, or runs a task. -/
theorem Inv.worker_of_free (h : Inv c s) (hl : s.lock = none) (i : Fin n) :
    s.pc (.worker i) = .waiting ∨ (s.pc (.worker i) = .locking ∨ s.pc (.worker i) = .woken) ∨
      ∃ x, s.pc (.worker i) = .running (some x) := by
  have hrole := h.roles (.worker i)
  have hfree : (s.pc (.worker i)).holds ≠ true := by
    rw [Ne, h.locked, hl]
    exact nofun
  cases hpc : s.pc (.worker i) with
  | waiting => exact Or.inl rfl
  | locking => exact Or.inr (Or.inl (Or.inl rfl))
  | woken => exact Or.inr (Or.inl (Or.inr rfl))
  | running x =>
    cases x with
    | none =>
      have hmem : none ∈ (s.pc (.worker i)).inHand := by
        rw [hpc]
        exact List.mem_singleton_self none
      exact absurd rfl (h.ne_none hmem)
    | some x => exact Or.inr (Or.inr ⟨x, rfl⟩)
  | _ =>
    rw [hpc] at hrole hfree
    first | exact absurd rfl hfree | cases hrole

/-- A step of a thread on the way. -/
theorem leads_go {u : State n Q} (hs : step s (.go t) = some s')
    (h : Leads step Event.Own s' u) : Leads step Event.Own s u :=
  .head (e := .go t) trivial hs h

theorem Completes.of_leads {A : Event n Q → Prop} {j : ℕ} (hl : Leads ThreadPool.step A s s')
    (h : Completes A s' j) : Completes A s j := by
  obtain ⟨u, hu, hidle⟩ := h
  exact ⟨u, hl.trans hu, hidle⟩

/-- With the lock free and room in the queue, a call returns. -/
theorem Inv.returns (h : Inv c s) (hl : s.lock = none) {j : ℕ}
    (hpc : s.pc (.producer j) = .adding x) (hroom : s.queue.full = false) :
    Completes Event.Own s j := by
  obtain ⟨q, hpush⟩ := h.push_ok hroom x
  let t : Thread n := .producer j
  let s₁ : State n Q := { s with lock := some t, pc := Function.update s.pc t (.pushing x) }
  let s₂ : State n Q := (s₁.push x q).goto t .signalling
  obtain ⟨i, u, hsignal, -⟩ := exists_signal s₂
  have h₁ : ThreadPool.step s (.go t) = some s₁ := by
    simp [ThreadPool.step, State.go, State.acquire, t, s₁, hpc, hl]
  have h₂ : ThreadPool.step s₁ (.go t) = some s₂ := by
    simp [ThreadPool.step, State.go, s₁, s₂, hpush]
  have h₃ : ThreadPool.step s₂ (.signal j i) = some (u.goto t .leaving) :=
    step_signal (Function.update_self _ _ _) hsignal
  have h₄ : ThreadPool.step (u.goto t .leaving) (.go t) =
      some ((u.goto t .leaving).release t .idle) := by
    simp [ThreadPool.step, State.go, State.goto]
  use (u.goto t .leaving).release t .idle
  constructor
  · apply leads_go h₁
    apply leads_go h₂
    apply Leads.head (e := .signal j i) trivial h₃
    exact leads_go h₄ (.refl _)
  · exact Function.update_self _ _ _

/-- A worker that gets the lock while there are tasks makes room. -/
theorem Inv.worker_pops (h : Inv c s) (hl : s.lock = none)
    (hpc : s.pc t = .locking ∨ s.pc t = .woken) (he : s.queue.empty = false) :
    ∃ s', Leads ThreadPool.step Event.Own s s' ∧ s'.lock = none ∧ s'.queue.full = false := by
  obtain ⟨x, q, hpop, hroom⟩ := h.pop_ok he
  let s₁ : State n Q := { s with lock := some t, pc := Function.update s.pc t .testing }
  let s₂ : State n Q := s₁.goto t .popping
  let s₃ : State n Q := (s₂.pop t (some x) q).goto t (.unlocking (some x))
  have h₁ : ThreadPool.step s (.go t) = some s₁ := by
    rcases hpc with hpc | hpc <;> simp [ThreadPool.step, State.go, State.acquire, s₁, hpc, hl]
  have h₂ : ThreadPool.step s₁ (.go t) = some s₂ := by
    simp [ThreadPool.step, State.go, s₁, s₂, he]
  have h₃ : ThreadPool.step s₂ (.go t) = some s₃ := by
    simp [ThreadPool.step, State.go, State.goto, s₁, s₂, s₃, hpop]
  have h₄ : ThreadPool.step s₃ (.go t) = some (s₃.release t (.running (some x))) := by
    simp [ThreadPool.step, State.go, State.goto, s₃]
  use s₃.release t (.running (some x))
  constructor
  · apply leads_go h₁
    apply leads_go h₂
    apply leads_go h₃
    exact leads_go h₄ (.refl _)
  · exact ⟨rfl, hroom⟩

/-- With the lock free, some worker makes room. -/
theorem Open.makes_room (hc : 1 ≤ c) (h : Open c s) (hl : s.lock = none)
    (hfull : s.queue.full = true) :
    ∃ s', Leads ThreadPool.step Event.Own s s' ∧ s'.lock = none ∧ s'.queue.full = false := by
  have he : s.queue.empty = false := by
    obtain ⟨i, xs, hqueued, -⟩ := h.fifo
    have hlen := hqueued.full_eq_true.mp hfull
    rw [← Bool.not_eq_true, empty_iff hqueued]
    rintro rfl
    simp at hlen
    omega
  have hworker : ∃ i, s.pc (.worker i) ≠ .waiting := by
    by_contra hnot
    push Not at hnot
    rcases h.signalled hnot with hempty | ⟨j, hj⟩
    · rw [he] at hempty
      cases hempty
    · rcases h.call_of_free hl j with hidle | ⟨x, hadd⟩
      · rw [hj] at hidle
        cases hidle
      · rw [hj] at hadd
        cases hadd
  obtain ⟨i, hi⟩ := hworker
  rcases h.worker_of_free hl i with hwait | hpc | ⟨x, hrun⟩
  · exact absurd hwait hi
  · exact h.worker_pops hl hpc he
  · have hfinish : ThreadPool.step s (.go (.worker i)) =
        some ((s.finish (.worker i) x).goto (.worker i) .locking) := by
      simp [ThreadPool.step, State.go, hrun]
    obtain ⟨s', hleads, hl', hroom⟩ := (h.toInv.step hfinish).worker_pops hl
      (Or.inl (Function.update_self _ _ _)) he
    exact ⟨s', leads_go hfinish hleads, hl', hroom⟩

/-- Every call returns by steps of the pool's own. -/
theorem Open.completes (hn : 1 ≤ n) (hc : 1 ≤ c) (h : Open c s) (j : ℕ) :
    Completes Event.Own s j := by
  have hfinal {u : State n Q} (hu : Inv c u) (hl : u.lock = none) (hroom : u.queue.full = false) :
      Completes Event.Own u j := by
    rcases hu.call_of_free hl j with hpc | ⟨x, hpc⟩
    · exact ⟨u, .refl u, hpc⟩
    · exact hu.returns hl hpc hroom
  obtain ⟨u, hleads, hu, hl⟩ := h.frees hn
  apply Completes.of_leads hleads
  cases hfull : u.queue.full with
  | false => exact hfinal hu.toInv hl hfull
  | true =>
    obtain ⟨v, huv, hvl, hroom⟩ := hu.makes_room hc hl hfull
    exact .of_leads huv (hfinal (hu.leads huv) hvl hroom)

theorem open_init (n : ℕ) {q : CircleQueue Q} (hq : q.Queued c 0 []) : Open c (init n q) := by
  constructor
  · exact inv_init n hq
  · exact fun _ => Or.inl ((empty_iff hq).mpr rfl)
  · intro t x ht
    cases t <;> cases ht

/-- A producer that gets the lock while the queue is full keeps it forever. -/
theorem Open.not_completes (h : Open c s) (hok : ¬ RoomToAdd s e)
    (A : Event n Q → Prop) :
    ∃ s', ThreadPool.step s e = some s' ∧ ¬ ∀ j, Completes A s' j := by
  cases e with
  | go t =>
    simp only [RoomToAdd] at hok
    split at hok
    · next x hpc =>
      obtain ⟨hl, hfull⟩ := Classical.not_imp.mp hok
      obtain ⟨j, rfl⟩ := h.producer (t := t) (by rw [hpc]; rfl)
      have hs : ThreadPool.step s (.go (.producer j)) = some { s with
          lock := some (.producer j)
          pc := Function.update s.pc (.producer j) (.pushing x) } := by
        simp [ThreadPool.step, State.go, State.acquire, hpc, hl]
      refine ⟨_, hs, fun hall => ?_⟩
      apply (h.toInv.step hs).wedged (x := x) _ _ A (hall j)
      · exact Function.update_self _ _ _
      · simpa using hfull
    · exact absurd trivial hok
  | _ => exact absurd trivial hok

end Step

/-- In all states of a run every call can return, whichever events besides its own steps the pool
may take, exactly if every producer that gets the lock finds room. -/
theorem run_completes_iff (hn : 1 ≤ n) (hc : 1 ≤ c) (junk : ℕ → CircleNode Q)
    {A : Event n Q → Prop} (hA : ∀ e, e.Own → A e) : ∃ q, CircleQueue.make junk c = some q ∧
      ∀ es : List (Event n Q), (∀ es' s, es' <+: es → run step (init n q) es' = some s →
        ∀ j, Completes A s j) ↔ Along step RoomToAdd (init n q) es := by
  obtain ⟨q, hq, hqueued⟩ := make_queued junk hc
  use q, hq
  intro es
  apply along_iff (I := Open c) (P := fun s => ∀ j, Completes A s j)
  · exact fun s e s' h hok hs => h.step hn hok hs
  · intro s h j
    obtain ⟨s', hleads, hidle⟩ := h.completes hn hc j
    exact ⟨s', hleads.mono hA, hidle⟩
  · exact fun s e h hok => h.not_completes hok A
  · exact open_init n hqueued

/-- One worker and a queue of one task. -/
theorem run_completes_iff_one :
    ∃ q, CircleQueue.make (fun _ => ⟨none, none⟩) 1 = some q ∧
      ∀ es : List (Event 1 ℕ), (∀ es' s, es' <+: es → run step (init 1 q) es' = some s →
        ∀ j, Completes (fun _ => True) s j) ↔ Along step RoomToAdd (init 1 q) es :=
  run_completes_iff le_rfl le_rfl (fun _ => ⟨none, none⟩) fun _ _ => trivial

/-- A first task is pushed into a queue of one task, and another producer gets the lock. -/
def secondTask : List (Event 1 ℕ) :=
  [.add 0 5, .go (.producer 0), .go (.producer 0), .signal 0 none, .go (.producer 0), .add 1 6,
    .go (.producer 1)]

/-- The second call never returns. -/
theorem not_completes_second : ∃ q, CircleQueue.make (fun _ => ⟨none, none⟩) 1 = some q ∧
    ∃ s, run step (init 1 q) secondTask = some s ∧ ¬ Completes (fun _ => True) s 1 := by
  refine ⟨_, rfl, _, rfl, ?_⟩
  obtain ⟨q, hq, hqueued⟩ := make_queued (Q := ℕ) (fun _ => ⟨none, none⟩) (le_refl 1)
  cases hq
  apply Inv.wedged (c := 1) (x := 6)
  · exact Inv.leads (A := fun _ => True) (inv_init 1 hqueued)
      ⟨secondTask, fun _ _ => trivial, rfl⟩
  · rfl
  · rfl

end ThreadPool
end Mosito
