import Mosito.Common.Buffer

/-! The bounded queue between a producer and a consumer. Its blocks are objects that move
between the free list and the queue; a push and a pop copy the bytes of a block. -/
namespace Mosito

/-- `emptys_` and `blocks_` list the objects, `store` is what they hold. -/
structure BlockCircleQueue where
  queueCapacity : ℕ
  store : ℕ → Block
  emptys : List ℕ
  blocks : List ℕ
  distinct : (emptys ++ blocks).Perm (List.range queueCapacity)

namespace BlockCircleQueue

/-- `BlockCircleQueue(capacity)`; the new blocks hold what `malloc` returns. -/
def make (store : ℕ → Block) (capacity : ℕ) : BlockCircleQueue where
  queueCapacity := capacity
  store := store
  emptys := List.range capacity
  blocks := []
  distinct := by simp

theorem push_distinct {bk : ℕ} {emptys blocks range : List ℕ}
    (h : (bk :: emptys ++ blocks).Perm range) : (emptys ++ (blocks ++ [bk])).Perm range := by
  rw [← List.append_assoc]
  exact (List.perm_append_singleton _ _).trans h

theorem pop_distinct {bk : ℕ} {emptys blocks range : List ℕ}
    (h : (emptys ++ bk :: blocks).Perm range) : (emptys ++ [bk] ++ blocks).Perm range := by
  rwa [List.append_assoc, List.singleton_append]

/-- False when no block is free. -/
def push (q : BlockCircleQueue) (node : Image) : Bool × BlockCircleQueue :=
  match h : q.emptys with
  | [] => (false, q)
  | bk :: emptys =>
      (true, { q with
        store := Function.update q.store bk ((q.store bk).storeBlock node.mem blockSize)
        blocks := q.blocks ++ [bk]
        emptys := emptys
        distinct := push_distinct (h ▸ q.distinct) })

/-- The bytes copied out of the first block, `none` when there is none. -/
def pop (q : BlockCircleQueue) : Option Image × BlockCircleQueue :=
  match h : q.blocks with
  | [] => (none, q)
  | bk :: blocks =>
      (some (q.store bk).image, { q with
        emptys := q.emptys ++ [bk]
        blocks := blocks
        distinct := pop_distinct (h ▸ q.distinct) })

/-- The queued bytes, in order. -/
def contents (q : BlockCircleQueue) : List Image := q.blocks.map fun bk => (q.store bk).image

@[simp] theorem contents_make (store : ℕ → Block) (capacity : ℕ) :
    (make store capacity).contents = [] := rfl

variable (q : BlockCircleQueue)

theorem emptys_length : q.emptys.length + q.contents.length = q.queueCapacity := by
  have h := q.distinct.length_eq
  simpa [contents] using h

/-- A push is refused exactly when the queue is full, and else appends the bytes. -/
theorem push_eq (img : Image) :
    ((q.push img).1 = true ↔ q.contents.length < q.queueCapacity) ∧
      (q.push img).2.queueCapacity = q.queueCapacity ∧
      (q.push img).2.contents = if (q.push img).1 then q.contents ++ [img] else q.contents := by
  have hlen := q.emptys_length
  unfold push
  split
  · next h =>
    rw [h, List.length_nil] at hlen
    simp [← hlen]
  · next bk emptys h =>
    have hnd := q.distinct.nodup_iff.mpr List.nodup_range
    rw [h] at hnd hlen
    have hbk : bk ∉ q.blocks := fun hm => by simp [hm] at hnd
    refine ⟨?_, rfl, ?_⟩
    · simp only [true_iff]
      rw [List.length_cons] at hlen
      omega
    · simp only [contents, List.map_append, List.map_singleton, Function.update_self,
        Block.image_storeBlock, ↓reduceIte, List.append_cancel_right_eq]
      apply List.map_congr_left
      intro i hi
      rw [Function.update_of_ne (ne_of_mem_of_not_mem hi hbk)]

/-- A pop takes the first queued bytes. -/
theorem pop_eq :
    q.pop.1 = q.contents.head? ∧ q.pop.2.queueCapacity = q.queueCapacity ∧
      q.pop.2.contents = q.contents.tail := by
  unfold pop
  split
  · next h => simp [contents, h]
  · next bk blocks h => simp [contents, h]

/-- One operation on a queue, by its producer or its consumer. -/
inductive Op where
  | push (node : Image)
  | pop

/-- The queue after some operations, with the accepted bytes and the outcomes of the pops. -/
structure History where
  queue : BlockCircleQueue
  accepted : List Image
  popped : List (Option Image)

def History.step (h : History) : Op → History
  | .push node =>
      let r := h.queue.push node
      { h with queue := r.2, accepted := if r.1 then h.accepted ++ [node] else h.accepted }
  | .pop =>
      let r := h.queue.pop
      { h with queue := r.2, popped := h.popped ++ [r.1] }

def run (q : BlockCircleQueue) (ops : List Op) : History := ops.foldl History.step ⟨q, [], []⟩

theorem History.step_accepted {h : History} (op : Op)
    (hinv : h.accepted = h.popped.reduceOption ++ h.queue.contents) :
    (h.step op).accepted = (h.step op).popped.reduceOption ++ (h.step op).queue.contents := by
  cases op with
  | push node =>
    obtain ⟨-, -, hc⟩ := h.queue.push_eq node
    simp only [step, hc]
    split <;> simp [hinv]
  | pop =>
    obtain ⟨hp, -, hc⟩ := h.queue.pop_eq
    simp only [step, hp, hc]
    cases hcs : h.queue.contents <;> simp [hinv, hcs, List.reduceOption_append]

/-- In any order of pushes and pops the pops give the accepted bytes in order, each once. -/
theorem run_accepted (store : ℕ → Block) (capacity : ℕ) (ops : List Op) :
    let h := (make store capacity).run ops
    h.accepted = h.popped.reduceOption ++ h.queue.contents := by
  apply List.foldlRecOn ops History.step (motive := fun h : History =>
    h.accepted = h.popped.reduceOption ++ h.queue.contents)
  · simp
  · exact fun h hinv op _ => h.step_accepted op hinv

end BlockCircleQueue
end Mosito
