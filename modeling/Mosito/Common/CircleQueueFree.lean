import Mosito.Common.CircleQueue

/-! The destructor of the circle queue: it walks from the head along the links and frees each node
behind it. -/
namespace Mosito
open LinkedRing
namespace CircleQueue
variable {Q : Type}

/-- The nodes that `~CircleQueue()` frees; it goes around in `queue_capacity_+2` rounds. -/
def destroy (q : CircleQueue Q) : Option (List ℕ) :=
  release (fun p => (q.nodes p).next) (q.queueCapacity + 2) q.head []

section Make
variable {junk : ℕ → CircleNode Q} {c k t : ℕ} {b b' : Building Q}

/-- The head and the nodes behind it are linked in a row. -/
structure Building.Chained (c k : ℕ) (b : Building Q) : Prop where
  capacity : b.queue.queueCapacity = c
  head : b.queue.head = some 0
  size : b.queue.size = k + 1
  curTail : b.curTail = some k
  next : ∀ p < k, (b.queue.nodes p).next = some (p + 1)

theorem Building.start_chained (junk : ℕ → CircleNode Q) (c : ℕ) : (start junk c).Chained c 0 :=
  ⟨rfl, rfl, rfl, rfl, fun p hp => absurd hp (Nat.not_lt_zero p)⟩

/-- A node behind the last one leaves the links in front of it. -/
theorem Building.Chained.append {temp : ℕ} (h : b.Chained c k) (htemp : temp = k + 1)
    {d : Building Q} (hd : d.append temp = some b') (hcapacity : d.queue.queueCapacity = c)
    (hhead : d.queue.head = some 0) (hsize : d.queue.size = k + 2) (htail : d.curTail = b.curTail)
    (hnext : ∀ p < k, (d.queue.nodes p).next = (b.queue.nodes p).next) :
    b'.Chained c (k + 1) := by
  rw [append_eq d (htail.trans h.curTail)] at hd
  cases hd
  subst htemp
  refine ⟨hcapacity, hhead, hsize, rfl, fun p hp => ?_⟩
  rw [next_setNext]
  split_ifs with hpk
  · rw [hpk]
  · rw [hnext p (by omega)]
    exact h.next p (by omega)

/-- Every round of the constructor. -/
theorem Building.Chained.insert (h : b.Chained c k) (hb : b.insert k = some b') :
    b'.Chained c (k + 1) := by
  have hsize : b.queue.alloc.size = k + 2 := congrArg (· + 1) h.size
  have hold (p : ℕ) (hp : p < k) : (b.queue.alloc.nodes p).next = (b.queue.nodes p).next :=
    next_alloc _ (by rw [h.size]; omega)
  unfold Building.insert at hb
  dsimp only at hb
  split_ifs at hb
  · exact h.append h.size hb h.capacity h.head hsize rfl hold
  · refine h.append h.size hb h.capacity h.head hsize rfl fun p hp => ?_
    dsimp only
    rw [next_setNext, if_neg (by rw [h.size]; omega)]
    exact hold p hp
  · exact h.append h.size hb h.capacity h.head hsize rfl hold

theorem Building.chained_of_rounds
    (hb : (List.range k).foldlM Building.insert (start junk c) = some b) : b.Chained c k := by
  induction k generalizing b with
  | zero =>
    cases hb
    exact start_chained junk c
  | succ k ih =>
    rw [List.range_succ, List.foldlM_append] at hb
    obtain ⟨b₁, hb₁, hlast⟩ := Option.bind_eq_some_iff.mp hb
    obtain ⟨b₂, hb₂, he⟩ := Option.bind_eq_some_iff.mp hlast
    cases he
    exact (ih hb₁).insert hb₂

end Make

/-- What the constructor allocates and no operation changes. -/
structure Allocated (c : ℕ) (q : CircleQueue Q) : Prop where
  capacity : q.queueCapacity = c
  head : q.head = some 0
  size : q.size = c + 2
  next : ∀ p < c + 1, (q.nodes p).next = some (p + 1)

section Operations
variable {q q' : CircleQueue Q} {c : ℕ} {e : Event Q} {op : Op Q} {ops : List (Op Q)}
  {es : List (Event Q)}

theorem make_allocated {junk : ℕ → CircleNode Q} (h : make junk c = some q) : q.Allocated c := by
  obtain ⟨b, hb, rfl⟩ := Option.map_eq_some_iff.mp h
  have hrow := Building.chained_of_rounds hb
  exact ⟨hrow.capacity, hrow.head, hrow.size, hrow.next⟩

theorem Allocated.push {x : Q} {ok : Bool} (h : q.Allocated c) (hp : q.push x = some (ok, q')) :
    q'.Allocated c := by
  obtain ⟨r, -, he⟩ := Option.map_eq_some_iff.mp hp
  split_ifs at he
  · cases he
    exact h
  · cases he
    refine ⟨h.capacity, h.head, h.size, fun p hp => ?_⟩
    rw [← h.next p hp]
    dsimp only
    rw [Function.update_apply]
    split_ifs with hpr
    · rw [hpr]
    · rfl

theorem Allocated.pop {x : Option Q} (h : q.Allocated c) (hp : q.pop = some (x, q')) :
    q'.Allocated c := by
  unfold CircleQueue.pop at hp
  split_ifs at hp
  · cases hp
    exact h
  · obtain ⟨f, -, he⟩ := Option.map_eq_some_iff.mp hp
    cases he
    exact ⟨h.capacity, h.head, h.size, h.next⟩

theorem Allocated.step (h : q.Allocated c) (hs : q.step op = some (e, q')) : q'.Allocated c := by
  cases op with
  | push x =>
    obtain ⟨r, hr, he⟩ := Option.map_eq_some_iff.mp hs
    cases he
    exact h.push hr
  | pop =>
    obtain ⟨r, hr, he⟩ := Option.map_eq_some_iff.mp hs
    cases he
    exact h.pop hr

theorem Allocated.run (h : q.Allocated c) (hr : q.run ops = some (es, q')) : q'.Allocated c := by
  induction ops generalizing q es with
  | nil =>
    cases hr
    exact h
  | cons op ops ih =>
    obtain ⟨r, hs, hr⟩ := Option.bind_eq_some_iff.mp hr
    obtain ⟨rest, hrest, he⟩ := Option.map_eq_some_iff.mp hr
    cases he
    exact ih (h.step hs) hrest

/-- The destructor frees the nodes in the order in which they were allocated. -/
theorem Allocated.destroy (h : q.Allocated c) : q.destroy = some (List.range q.size) := by
  have hrow : release (fun p => (q.nodes p).next) (c + 2 - 0) (some (id 0))
      ((List.range 0).map id) = some ((List.range (c + 2)).map id) :=
    release_row (fun p hp => h.next p (by omega)) (fun i _ j _ he => he) (by omega)
  rw [List.map_id, List.map_id, List.range_zero] at hrow
  rw [CircleQueue.destroy, h.capacity, h.head, h.size]
  exact hrow

/-- Whatever was pushed and popped, the destructor frees each node that the constructor allocated,
each of them once, and reads no link of a node that it has freed. -/
theorem destroy_frees_once (junk : ℕ → CircleNode Q) (hc : 1 ≤ c) (ops : List (Op Q)) :
    ∃ q₀ es q freed, make junk c = some q₀ ∧ q₀.run ops = some (es, q) ∧
      q.destroy = some freed ∧ freed.Nodup ∧ ∀ p, p ∈ freed ↔ p < q.size := by
  obtain ⟨q₀, hmake, hlinked, hfront, hrear⟩ := make_linked junk hc
  have hq₀ : Queued c 0 [] q₀ := ⟨hlinked, hfront, hrear, Nat.zero_le c, by simp [Holds]⟩
  obtain ⟨es, q, -, -, hrun, -⟩ := hq₀.run ops
  have hallocated := (make_allocated hmake).run hrun
  exact ⟨q₀, es, q, List.range q.size, hmake, hrun, hallocated.destroy, List.nodup_range,
    fun p => List.mem_range⟩

theorem destroy_frees_once_two : ∃ q₀ es q freed, make (fun _ => ⟨none, none⟩) 2 = some q₀ ∧
    q₀.run [.push 'a', .push 'b', .pop] = some (es, q) ∧ q.destroy = some freed ∧ freed.Nodup ∧
      ∀ p, p ∈ freed ↔ p < q.size :=
  destroy_frees_once (fun _ => ⟨none, none⟩) (by decide) [.push 'a', .push 'b', .pop]

end Operations
end CircleQueue
end Mosito
