import Mosito.Lib.LinkedRing

/-! The bounded queue of pointers in a ring of nodes. Nodes are named by the order in which they
were allocated; a pointer is such a name or null. Dereferencing null has no result. -/
namespace Mosito
open LinkedRing

structure CircleNode (Q : Type) where
  node : Option Q
  next : Option ℕ

structure CircleQueue (Q : Type) where
  queueCapacity : ℕ
  /-- The nodes `0`, ..., `size - 1` are allocated. -/
  nodes : ℕ → CircleNode Q
  size : ℕ
  head : Option ℕ
  front : Option ℕ
  rear : Option ℕ

namespace CircleQueue
variable {Q : Type}

/-- `temp=malloc(sizeof(CircleNode)); temp->node_=0; temp->next_=0;` -/
def alloc (q : CircleQueue Q) : CircleQueue Q :=
  { q with nodes := Function.update q.nodes q.size ⟨none, none⟩, size := q.size + 1 }

/-- `p->next_=n` -/
def setNext (q : CircleQueue Q) (p : ℕ) (n : Option ℕ) : CircleQueue Q :=
  { q with nodes := Function.update q.nodes p { q.nodes p with next := n } }

/-- The constructor with its local pointers. -/
structure Building (Q : Type) where
  queue : CircleQueue Q
  realHead : Option ℕ
  curTail : Option ℕ

/-- `cur_tail->next_=temp; cur_tail=cur_tail->next_;` -/
def Building.append (b : Building Q) (temp : ℕ) : Option (Building Q) :=
  b.curTail.map fun t =>
    let q := b.queue.setNext t (some temp)
    { b with queue := q, curTail := (q.nodes t).next }

/-- One round of the constructor's loop. -/
def Building.insert (b : Building Q) (i : ℕ) : Option (Building Q) :=
  let temp := b.queue.size
  let q := b.queue.alloc
  if i = 0 then
    append
      { b with queue := { q with front := some temp, rear := some temp }, realHead := some temp } temp
  else if i = q.queueCapacity then append { b with queue := q.setNext temp b.realHead } temp
  else append { b with queue := q } temp

/-- Before the loop there is a head node; `front_` and `rear_` are not set yet. `junk` is what the
memory holds. -/
def Building.start (junk : ℕ → CircleNode Q) (capacity : ℕ) : Building Q where
  queue := alloc
    { queueCapacity := capacity, nodes := junk, size := 0, head := some 0, front := none,
      rear := none }
  realHead := none
  curTail := some 0

/-- `CircleQueue(capacity)` -/
def make (junk : ℕ → CircleNode Q) (capacity : ℕ) : Option (CircleQueue Q) :=
  ((List.range (capacity + 1)).foldlM Building.insert (.start junk capacity)).map Building.queue

/-- False when the queue is full. -/
def push (q : CircleQueue Q) (node : Q) : Option (Bool × CircleQueue Q) :=
  q.rear.map fun r =>
    if (q.nodes r).next = q.front then (false, q)
    else (true, { q with
      nodes := Function.update q.nodes r { q.nodes r with node := some node }
      rear := (q.nodes r).next })

/-- Null when the queue is empty. -/
def pop (q : CircleQueue Q) : Option (Option Q × CircleQueue Q) :=
  if q.rear = q.front then some (none, q)
  else q.front.map fun f => ((q.nodes f).node, { q with front := (q.nodes f).next })

def empty (q : CircleQueue Q) : Bool := decide (q.rear = q.front)

/-- An operation and what it returns. -/
inductive Event (Q : Type) where
  | push (node : Q) (ok : Bool)
  | pop (node : Option Q)

inductive Op (Q : Type) where
  | push (node : Q)
  | pop

def step (q : CircleQueue Q) : Op Q → Option (Event Q × CircleQueue Q)
  | .push node => (q.push node).map fun r => (.push node r.1, r.2)
  | .pop => q.pop.map fun r => (.pop r.1, r.2)

def run (q : CircleQueue Q) : List (Op Q) → Option (List (Event Q) × CircleQueue Q)
  | [] => some ([], q)
  | op :: ops => (q.step op).bind fun r => (run r.2 ops).map fun t => (r.1 :: t.1, t.2)

/-- The pointers that were accepted. -/
def pushed (es : List (Event Q)) : List Q :=
  es.filterMap fun e => match e with
    | .push node true => some node
    | _ => none

/-- The pointers that were returned. -/
def popped (es : List (Event Q)) : List Q :=
  es.filterMap fun e => match e with
    | .pop node => node
    | _ => none

theorem next_setNext (q : CircleQueue Q) (p : ℕ) (n : Option ℕ) (x : ℕ) :
    ((q.setNext p n).nodes x).next = if x = p then n else (q.nodes x).next := by
  simp only [setNext, Function.update_apply]
  split_ifs <;> rfl

theorem next_alloc (q : CircleQueue Q) {x : ℕ} (hx : x < q.size) :
    (q.alloc.nodes x).next = (q.nodes x).next :=
  congrArg CircleNode.next (Function.update_of_ne hx.ne _ _)

theorem Building.append_eq (b : Building Q) {t : ℕ} (h : b.curTail = some t) (temp : ℕ) :
    b.append temp =
      some { b with queue := b.queue.setNext t (some temp), curTail := some temp } := by
  rw [append, h, Option.map_some]
  simp only [next_setNext, if_pos]

section Make
variable {junk : ℕ → CircleNode Q} {c k : ℕ} {b : Building Q}

/-- The nodes from 1 on are linked in a row of `k`. -/
structure Building.Row (c k : ℕ) (b : Building Q) : Prop where
  capacity : b.queue.queueCapacity = c
  size : b.queue.size = k + 1
  front : b.queue.front = some 1
  rear : b.queue.rear = some 1
  realHead : b.realHead = some 1
  curTail : b.curTail = some k
  next : ∀ p, 1 ≤ p → p < k → (b.queue.nodes p).next = some (p + 1)

theorem Building.start_insert (junk : ℕ → CircleNode Q) (c : ℕ) :
    ∃ b, (start junk c).insert 0 = some b ∧ b.Row c 1 := by
  rw [insert, if_pos rfl, append_eq _ rfl]
  exact ⟨_, rfl, ⟨rfl, rfl, rfl, rfl, rfl, rfl, fun p h1 hp => by omega⟩⟩

/-- A node is linked behind the last one. -/
theorem Building.Row.insert (h : b.Row c k) (hk : 1 ≤ k) (hc : k < c) :
    ∃ b', b.insert k = some b' ∧ b'.Row c (k + 1) := by
  have hinsert : b.insert k = Building.append { b with queue := b.queue.alloc } b.queue.size := by
    rw [Building.insert, if_neg (by omega), if_neg]
    change k ≠ b.queue.queueCapacity
    rw [h.capacity]
    omega
  rw [hinsert, append_eq { b with queue := b.queue.alloc } h.curTail]
  refine ⟨_, rfl, ⟨h.capacity, congrArg (· + 1) h.size, h.front, h.rear, h.realHead,
    congrArg some h.size, fun p h1 hp => ?_⟩⟩
  · rw [next_setNext]
    split_ifs with hpk
    · rw [h.size, hpk]
    · rw [next_alloc _ (by rw [h.size]; omega)]
      exact h.next p h1 (by omega)

/-- The last node is linked to the first. -/
theorem Building.Row.close (h : b.Row c c) (hc : 1 ≤ c) :
    ∃ b', b.insert c = some b' ∧ b'.queue.front = some 1 ∧ b'.queue.rear = some 1 ∧
      (∀ p, 1 ≤ p → p ≤ c → (b'.queue.nodes p).next = some (p + 1)) ∧
      (b'.queue.nodes (c + 1)).next = some 1 := by
  have hinsert : b.insert c = Building.append
      { b with queue := b.queue.alloc.setNext b.queue.size b.realHead } b.queue.size := by
    exact (if_neg (by omega)).trans (if_pos h.capacity.symm)
  rw [hinsert, append_eq { b with queue := b.queue.alloc.setNext b.queue.size b.realHead } h.curTail]
  refine ⟨_, rfl, h.front, h.rear, fun p h1 hp => ?_, ?_⟩
  · rw [next_setNext]
    split_ifs with hpc
    · rw [h.size, hpc]
    · rw [next_setNext, if_neg (by rw [h.size]; omega), next_alloc _ (by rw [h.size]; omega)]
      exact h.next p h1 (by omega)
  · rw [next_setNext, if_neg (by omega), next_setNext, if_pos h.size.symm]
    exact h.realHead

theorem Building.rows (junk : ℕ → CircleNode Q) (hk : 1 ≤ k) (hc : k ≤ c) :
    ∃ b, (List.range k).foldlM Building.insert (start junk c) = some b ∧ b.Row c k := by
  induction k, hk using Nat.le_induction with
  | base =>
    obtain ⟨b, hb, hrow⟩ := start_insert junk c
    refine ⟨b, ?_, hrow⟩
    change ((start junk c).insert 0).bind _ = _
    rw [hb]
    rfl
  | succ k hk ih =>
    obtain ⟨b, hb, hrow⟩ := ih (by omega)
    obtain ⟨b', hb', hrow'⟩ := hrow.insert hk (by omega)
    refine ⟨b', ?_, hrow'⟩
    rw [List.range_succ, List.foldlM_append, hb]
    change (b.insert k).bind _ = _
    rw [hb']
    rfl

/-- The cells of the ring, counted on and on. -/
def place (c i : ℕ) : ℕ := i % (c + 1) + 1

theorem place_around (c : ℕ) : Around (c + 1) (place c) := by
  intro i j
  rw [place, place, Nat.add_right_cancel_iff]
  rfl

/-- Each node of the ring is linked to the following one. -/
def Linked (c : ℕ) (q : CircleQueue Q) : Prop :=
  ∀ i, (q.nodes (place c i)).next = some (place c (i + 1))

theorem Linked.reached_eq {q : CircleQueue Q} (hl : q.Linked c) {h : ℕ} :
    reached (fun p => (q.nodes p).next) (some (place c h)) = Set.range (place c) :=
  (place_around c).reached_eq c.succ_pos hl

theorem make_linked (junk : ℕ → CircleNode Q) (hc : 1 ≤ c) :
    ∃ q, make junk c = some q ∧ q.Linked c ∧ q.front = some (place c 0) ∧
      q.rear = some (place c 0) := by
  obtain ⟨b, hb, hrow⟩ := Building.rows junk hc le_rfl
  obtain ⟨b', hb', hfront, hrear, hnext, hlast⟩ := hrow.close hc
  refine ⟨b'.queue, ?_, fun i => ?_, hfront, hrear⟩
  · rw [make, List.range_succ, List.foldlM_append, hb]
    change ((b.insert c).bind _).map _ = _
    rw [hb']
    rfl
  · have hlt : i % (c + 1) < c + 1 := Nat.mod_lt i c.succ_pos
    rw [place, place]
    rcases Nat.lt_or_ge (i % (c + 1)) c with hsmall | hbig
    · rw [hnext _ (by omega) (by omega), Nat.add_mod, Nat.mod_eq_of_lt (show 1 < c + 1 by omega),
        Nat.mod_eq_of_lt (show i % (c + 1) + 1 < c + 1 by omega)]
    · have he : i % (c + 1) = c := by omega
      rw [he, hlast, Nat.add_mod, he, Nat.mod_eq_of_lt (show 1 < c + 1 by omega), Nat.mod_self]

end Make

section Operations
variable {q : CircleQueue Q} {c h : ℕ} {xs : List Q} {x : Q}

/-- The nodes from place `h` on hold `xs`. -/
structure Queued (c h : ℕ) (xs : List Q) (q : CircleQueue Q) : Prop where
  linked : q.Linked c
  front : q.front = some (place c h)
  rear : q.rear = some (place c (h + xs.length))
  length_le : xs.length ≤ c
  holds : Holds (place c) (fun p => (q.nodes p).node) h xs

/-- The links are left alone. -/
def SameLinks (q q' : CircleQueue Q) : Prop := ∀ p, (q'.nodes p).next = (q.nodes p).next

theorem Queued.full_iff (hq : Queued c h xs q) :
    (q.nodes (place c (h + xs.length))).next = q.front ↔ xs.length = c := by
  rw [hq.linked, hq.front, Option.some.injEq, Nat.add_assoc]
  rcases hq.length_le.lt_or_eq with hlt | heq
  · have hne : place c (h + (xs.length + 1)) = place c h ↔ xs.length + 1 = 0 :=
      (place_around c).eq_iff (j := 0) (by omega) c.succ_pos
    rw [hne]
    omega
  · rw [heq]
    exact iff_of_true (place_around c).around rfl

theorem Queued.empty_iff (hq : Queued c h xs q) : q.rear = q.front ↔ xs = [] := by
  have hle := hq.length_le
  have heq : place c (h + xs.length) = place c h ↔ xs.length = 0 :=
    (place_around c).eq_iff (j := 0) (by omega) c.succ_pos
  rw [hq.rear, hq.front, Option.some.injEq, heq, List.length_eq_zero_iff]

theorem Queued.push_full (hq : Queued c h xs q) (hfull : xs.length = c) :
    q.push x = some (false, q) := by
  rw [push, hq.rear, Option.map_some, if_pos (hq.full_iff.mpr hfull)]

theorem Queued.push_ok (hq : Queued c h xs q) (hfull : xs.length ≠ c) :
    ∃ q', q.push x = some (true, q') ∧ Queued c h (xs ++ [x]) q' ∧ SameLinks q q' := by
  have hlen := hq.length_le
  have hsame (p : ℕ) : (Function.update q.nodes (place c (h + xs.length))
      { q.nodes (place c (h + xs.length)) with node := some x } p).next = (q.nodes p).next := by
    rw [Function.update_apply]
    split_ifs with hp
    · rw [hp]
    · rfl
  rw [push, hq.rear, Option.map_some, if_neg fun he => hfull (hq.full_iff.mp he)]
  refine ⟨_, rfl, ⟨fun i => (hsame _).trans (hq.linked i), hq.front, ?_, ?_, ?_⟩, hsame⟩
  · rw [List.length_append]
    exact hq.linked _
  · rw [List.length_append, List.length_singleton]
    omega
  · refine hq.holds.snoc (place_around c) (by omega) ?_ fun p hp => ?_
    · simp
    · simp [Function.update_of_ne hp]

theorem Queued.pop_empty (hq : Queued c h [] q) : q.pop = some (none, q) :=
  if_pos (hq.empty_iff.mpr rfl)

theorem Queued.pop_ok (hq : Queued c h (x :: xs) q) :
    ∃ q', q.pop = some (some x, q') ∧ Queued c (h + 1) xs q' ∧ SameLinks q q' := by
  have hlen := hq.length_le
  rw [List.length_cons] at hlen
  rw [pop, if_neg fun he => List.cons_ne_nil x xs (hq.empty_iff.mp he), hq.front, Option.map_some,
    hq.holds.head]
  refine ⟨_, rfl, ⟨hq.linked, hq.linked h, ?_, by omega, hq.holds.tail⟩, fun _ => rfl⟩
  rw [Nat.add_assoc, Nat.add_comm 1]
  exact hq.rear

/-- One operation. -/
theorem Queued.step (hq : Queued c h xs q) (op : Op Q) :
    ∃ e q' h' ys, q.step op = some (e, q') ∧ Queued c h' ys q' ∧ SameLinks q q' ∧
      xs ++ pushed [e] = popped [e] ++ ys := by
  cases op with
  | push x =>
    by_cases hfull : xs.length = c
    · refine ⟨.push x false, q, h, xs, ?_, hq, fun _ => rfl, by simp [pushed, popped]⟩
      rw [CircleQueue.step, hq.push_full hfull]
      rfl
    · obtain ⟨q', hpush, hq', hsame⟩ := hq.push_ok (x := x) hfull
      refine ⟨.push x true, q', h, xs ++ [x], ?_, hq', hsame, by simp [pushed, popped]⟩
      rw [CircleQueue.step, hpush]
      rfl
  | pop =>
    cases xs with
    | nil =>
      refine ⟨.pop none, q, h, [], ?_, hq, fun _ => rfl, by simp [pushed, popped]⟩
      rw [CircleQueue.step, hq.pop_empty]
      rfl
    | cons x xs =>
      obtain ⟨q', hpop, hq', hsame⟩ := hq.pop_ok
      refine ⟨.pop (some x), q', h + 1, xs, ?_, hq', hsame, by simp [pushed, popped]⟩
      rw [CircleQueue.step, hpop]
      rfl

/-- Any sequence of operations. -/
theorem Queued.run (hq : Queued c h xs q) (ops : List (Op Q)) :
    ∃ es q' h' ys, q.run ops = some (es, q') ∧ Queued c h' ys q' ∧ SameLinks q q' ∧
      xs ++ pushed es = popped es ++ ys := by
  induction ops generalizing q h xs with
  | nil => exact ⟨[], q, h, xs, rfl, hq, fun _ => rfl, by simp [pushed, popped]⟩
  | cons op ops ih =>
    obtain ⟨e, q₁, h₁, ys, hstep, hq₁, hsame, he⟩ := hq.step op
    obtain ⟨es, q', h', zs, hrun, hq', hsame', hes⟩ := ih hq₁
    refine ⟨e :: es, q', h', zs, ?_, hq', fun p => (hsame' p).trans (hsame p), ?_⟩
    · rw [CircleQueue.run, hstep, Option.bind_some, hrun]
      rfl
    · have hpushed : pushed (e :: es) = pushed [e] ++ pushed es :=
        List.filterMap_append (l := [e])
      have hpopped : popped (e :: es) = popped [e] ++ popped es :=
        List.filterMap_append (l := [e])
      rw [hpushed, hpopped, ← List.append_assoc, he, List.append_assoc, hes, List.append_assoc]

/-- A queue of any capacity is a bounded queue in a ring of one node more that stays as it is:
what is popped and then what is queued are the accepted pointers in order, a push is refused
exactly when the queue is full, and a pop returns null exactly when it is empty. -/
theorem run_fifo (junk : ℕ → CircleNode Q) (hc : 1 ≤ c) (ops : List (Op Q)) :
    ∃ q₀ es q, make junk c = some q₀ ∧ q₀.run ops = some (es, q) ∧
      IsRing (fun p => (q.nodes p).next) (c + 1) q.front ∧
      reached (fun p => (q.nodes p).next) q.front = reached (fun p => (q₀.nodes p).next) q₀.front ∧
      (∀ p, (q.nodes p).next = (q₀.nodes p).next) ∧
      ∃ xs, pushed es = popped es ++ xs ∧ (q.empty = true ↔ xs = []) ∧
        (∀ x, ∃ ok q', q.push x = some (ok, q') ∧ (ok = false ↔ xs.length = c) ∧
          (ok = false → q' = q)) ∧
        ∃ x q', q.pop = some (x, q') ∧ (x = none ↔ xs = []) ∧ (x = none → q' = q) := by
  obtain ⟨q₀, hmake, hlinked, hfront, hrear⟩ := make_linked junk hc
  have hq₀ : Queued c 0 [] q₀ := ⟨hlinked, hfront, hrear, Nat.zero_le c, by simp [Holds]⟩
  obtain ⟨es, q, h, xs, hrun, hq, hsame, hes⟩ := hq₀.run ops
  have hring := place_around c
  refine ⟨q₀, es, q, hmake, hrun, ?_, ?_, hsame, xs, hes, ?_, fun x => ?_, ?_⟩
  · rw [hq.front]
    exact hring.isRing hq.linked
  · rw [hq.front, hfront]
    exact hq.linked.reached_eq.trans hlinked.reached_eq.symm
  · rw [empty, decide_eq_true_iff]
    exact hq.empty_iff
  · by_cases hfull : xs.length = c
    · exact ⟨false, q, hq.push_full hfull, iff_of_true rfl hfull, fun _ => rfl⟩
    · obtain ⟨q', hok, -⟩ := hq.push_ok (x := x) hfull
      exact ⟨true, q', hok, by simp [hfull], fun hf => by cases hf⟩
  · cases xs with
    | nil => exact ⟨none, q, hq.pop_empty, by simp, fun _ => rfl⟩
    | cons y ys =>
      obtain ⟨q', hok, -⟩ := hq.pop_ok
      exact ⟨some y, q', hok, by simp, fun hf => by cases hf⟩

/-- Two pointers fill a queue of capacity 2. -/
theorem run_fifo_two : ∃ q₀ es q, make (fun _ => ⟨none, none⟩) 2 = some q₀ ∧
    q₀.run [.push 'a', .push 'b', .push 'c', .pop] = some (es, q) ∧
    IsRing (fun p => (q.nodes p).next) 3 q.front := by
  obtain ⟨q₀, es, q, hmake, hrun, hring, -⟩ := run_fifo (c := 2) (fun _ => ⟨none, none⟩)
    (by decide) [.push 'a', .push 'b', .push 'c', .pop]
  exact ⟨q₀, es, q, hmake, hrun, hring⟩

end Operations
end CircleQueue
end Mosito
