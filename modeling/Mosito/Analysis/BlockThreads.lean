import Mosito.Common.Buffer
import Mosito.Lib.Runs
import Mosito.Lib.Strided
import Mathlib.Algebra.BigOperators.Fin

/-! The loops over the keys of a list of blocks: the serial one, and that of `CPU_CORE` threads
which take the blocks in turns, in any interleaving. -/
namespace Mosito
open ByteStore Runs Strided History

namespace Block

/-- The `unsigned long` eight bytes behind the tuple's address. -/
def valueAt (b : Block) (addr : ℕ) : ℕ := leValue (readAt b.start (addr + 8) 8)

/-- The values of the tuples that an iterator gives. -/
def values (b : Block) : List ℕ :=
  (List.range b.getSize).map fun k => b.valueAt (k * b.tupleSize)

@[simp] theorem values_length (b : Block) : b.values.length = b.getSize := by simp [values]

theorem values_drop {b : Block} {k : ℕ} (hk : k < b.getSize) :
    b.values.drop k = b.valueAt (k * b.tupleSize) :: b.values.drop (k + 1) := by
  have hlt : k < b.values.length := by rwa [values_length]
  rw [List.drop_eq_getElem_cons hlt]
  simp [values]

/-- In tuples of two longs or more the values are the keys. -/
theorem values_eq_keys {b : Block} (ht : 16 ≤ b.tupleSize) : b.values = b.tuples.map key := by
  unfold values tuples records
  rw [List.map_map]
  apply List.map_congr_left
  intro k _
  simp only [Function.comp_apply, key, valueAt]
  rw [readAt_drop, readAt_take, min_eq_left (by omega)]

end Block

/-- The `unsigned` index `i+n`. -/
def nextIndex (i n : ℕ) : ℕ := (i + n) % 2 ^ 32

/-- The values of all blocks. -/
def allValues (blocks : List Block) : List ℕ := blocks.flatMap Block.values

section Serial
variable {σ : Type} (act : ℕ → σ → Option σ)

/-- `while((tuple=bi->getNext())!=0)`: `act` is the body, `none` where it is undefined. -/
def eachTuple (b : Block) : ℕ → BufferIterator → σ → Option σ
  | 0, _, _ => none
  | fuel + 1, it, x =>
      match it.getNext b with
      | (none, _) => some x
      | (some addr, it') => (act (b.valueAt addr) x).bind (eachTuple b fuel it')

/-- `for(unsigned i=0; i<blocks_.size(); i++)`, `none` if that takes `fuel` blocks or more. -/
def eachBlock (blocks : List Block) : ℕ → ℕ → σ → Option σ
  | 0, _, _ => none
  | fuel + 1, i, x =>
      match blocks[i]? with
      | none => some x
      | some b => (eachTuple act b (b.getSize + 1) .fresh x).bind
          (eachBlock blocks fuel (nextIndex i 1))

/-- The loop over all blocks from the first one on. -/
def serial (blocks : List Block) (x : σ) : Option σ := eachBlock act blocks (blocks.length + 1) 0 x

variable {act}

theorem eachTuple_eq (b : Block) {fuel k f : ℕ} (x : σ) (hk : k ≤ b.getSize)
    (hfuel : b.getSize < fuel + k) :
    eachTuple act b fuel ⟨k, f⟩ x = (b.values.drop k).foldlM (fun x v => act v x) x := by
  induction fuel generalizing k f x with
  | zero => omega
  | succ fuel ih =>
    unfold eachTuple BufferIterator.getNext
    by_cases hend : k = b.getSize
    · have hdrop : b.values.drop k = [] := by simp [hend]
      rw [if_pos hend, hdrop]
      rfl
    · rw [if_neg hend, Block.values_drop (by omega), List.foldlM_cons]
      apply congrArg (Option.bind _)
      funext y
      exact ih (k := k + 1) y (by omega) (by omega)

theorem eachBlock_eq {blocks : List Block} (hlen : blocks.length < 2 ^ 32) {fuel i : ℕ} (x : σ)
    (hi : i ≤ blocks.length) (hfuel : blocks.length < fuel + i) :
    eachBlock act blocks fuel i x =
      (allValues (blocks.drop i)).foldlM (fun x v => act v x) x := by
  induction fuel generalizing i x with
  | zero => omega
  | succ fuel ih =>
    unfold eachBlock
    rcases hi.eq_or_lt with rfl | hlt
    · simp [allValues]
    · have hnext : nextIndex i 1 = i + 1 := Nat.mod_eq_of_lt (by omega)
      rw [List.getElem?_eq_getElem hlt, List.drop_eq_getElem_cons hlt, hnext]
      unfold allValues
      rw [List.flatMap_cons, List.foldlM_append]
      change (eachTuple act _ _ ⟨0, 0⟩ x).bind _ = _
      rw [eachTuple_eq _ _ (Nat.zero_le _) (by omega), List.drop_zero]
      apply congrArg (Option.bind _)
      funext y
      exact ih y (by omega) (by omega)

/-- The loop meets all values, block by block. -/
theorem serial_eq {blocks : List Block} (hlen : blocks.length < 2 ^ 32) (x : σ) :
    serial act blocks x = (allValues blocks).foldlM (fun x v => act v x) x := by
  have hall : serial act blocks x =
      (allValues (blocks.drop 0)).foldlM (fun x v => act v x) x :=
    eachBlock_eq hlen x (Nat.zero_le _) (Nat.lt_succ_self _)
  rwa [List.drop_zero] at hall

end Serial

/-- Where a thread is: before the test of its loop, between two calls of `getNext`, or returned. -/
inductive Pos where
  | next (i : ℕ)
  | inside (i : ℕ) (b : Block) (it : BufferIterator)
  | done

/-- The threads and what they share; `visits` are the blocks that they opened, `read` the values
that they met. -/
structure Threads (σ : Type) where
  pos : Fin cpuCore → Pos
  shared : σ
  visits : List (Fin cpuCore × ℕ)
  read : List (Fin cpuCore × ℕ)

namespace Threads
variable {σ : Type}

/-- Thread `t` is started with its own index. -/
def create (x : σ) : Threads σ := ⟨fun t => .next t, x, [], []⟩

def goto (s : Threads σ) (t : Fin cpuCore) (p : Pos) : Threads σ :=
  { s with pos := Function.update s.pos t p }

def visit (s : Threads σ) (t : Fin cpuCore) (i : ℕ) : Threads σ :=
  { s with visits := s.visits ++ [(t, i)] }

def meet (s : Threads σ) (t : Fin cpuCore) (v : ℕ) (x : σ) : Threads σ :=
  { s with shared := x, read := s.read ++ [(t, v)] }

/-- The loop `for(unsigned i=ar->i; i<blocks_.size(); )` of thread `t` up to its next access;
`act` is the body of the inner loop. -/
def step (act : Fin cpuCore → ℕ → σ → Option σ) (blocks : List Block) (s : Threads σ)
    (t : Fin cpuCore) : Option (Threads σ) :=
  match s.pos t with
  | .next i =>
      match blocks[i]? with
      | none => some (s.goto t .done)
      | some b => some ((s.visit t i).goto t (.inside i b .fresh))
  | .inside i b it =>
      match it.getNext b with
      | (none, _) => some (s.goto t (.next (nextIndex i cpuCore)))
      | (some addr, it') => (act t (b.valueAt addr) s.shared).map fun x =>
          (s.meet t (b.valueAt addr) x).goto t (.inside i b it')
  | .done => none

/-- All threads are joined. -/
def Complete (s : Threads σ) : Prop := ∀ t, s.pos t = .done

variable {act : Fin cpuCore → ℕ → σ → Option σ} {blocks : List Block} {s s' : Threads σ}
  {t : Fin cpuCore} {x₀ : σ}

/-- What a thread can do. -/
theorem step_cases (hs : step act blocks s t = some s') :
    (∃ i, s.pos t = .next i ∧ blocks.length ≤ i ∧ s' = s.goto t .done) ∨
      (∃ i b, s.pos t = .next i ∧ blocks[i]? = some b ∧
        s' = (s.visit t i).goto t (.inside i b .fresh)) ∨
      (∃ i b it, s.pos t = .inside i b it ∧ it.current = b.getSize ∧
        s' = s.goto t (.next (nextIndex i cpuCore))) ∨
      ∃ i b it x, s.pos t = .inside i b it ∧ it.current ≠ b.getSize ∧
        act t (b.valueAt (it.current * b.tupleSize)) s.shared = some x ∧
        s' = (s.meet t (b.valueAt (it.current * b.tupleSize)) x).goto t
          (.inside i b ⟨it.current + 1, 0⟩) := by
  unfold step at hs
  cases hpos : s.pos t with
  | next i =>
    rw [hpos] at hs
    cases hb : blocks[i]? with
    | none =>
      simp only [hb, Option.some.injEq] at hs
      exact Or.inl ⟨i, rfl, List.getElem?_eq_none_iff.mp hb, hs.symm⟩
    | some b =>
      simp only [hb, Option.some.injEq] at hs
      exact Or.inr (Or.inl ⟨i, b, rfl, hb, hs.symm⟩)
  | inside i b it =>
    rw [hpos] at hs
    by_cases hend : it.current = b.getSize
    · simp only [BufferIterator.getNext, hend, if_true, Option.some.injEq] at hs
      exact Or.inr (Or.inr (Or.inl ⟨i, b, it, rfl, hend, hs.symm⟩))
    · simp only [BufferIterator.getNext, hend, if_false, Option.map_eq_some_iff] at hs
      obtain ⟨x, hx, rfl⟩ := hs
      exact Or.inr (Or.inr (Or.inr ⟨i, b, it, x, rfl, hend, hx, rfl⟩))
  | done =>
    rw [hpos] at hs
    cases hs

end Threads

namespace Pos

/-- The values of the blocks from `i` on, in steps of `CPU_CORE`. -/
def work (blocks : List Block) (i : ℕ) : List ℕ :=
  (indices blocks.length cpuCore i).flatMap fun j => (blocks[j]?.map Block.values).getD []

/-- The blocks that a thread still opens. -/
def toVisit (blocks : List Block) : Pos → List ℕ
  | .next i => indices blocks.length cpuCore i
  | .inside i _ _ => indices blocks.length cpuCore (i + cpuCore)
  | .done => []

/-- The values that a thread still meets. -/
def rest (blocks : List Block) : Pos → List ℕ
  | .next i => work blocks i
  | .inside i b it => b.values.drop it.current ++ work blocks (i + cpuCore)
  | .done => []

/-- The open block is the one of its index. -/
def Inside (blocks : List Block) : Pos → Prop
  | .inside i b it => blocks[i]? = some b ∧ it.current ≤ b.getSize
  | _ => True

/-- The steps on the way to the next test of the outer loop. -/
def inLoop : Pos → ℕ
  | .next _ => 1
  | .inside _ _ _ => 2
  | .done => 0

/-- A bound of the steps that a thread still takes. -/
def rank (blocks : List Block) (p : Pos) : ℕ :=
  2 * (p.toVisit blocks).length + (p.rest blocks).length + p.inLoop

/-- On the way through the blocks of thread 0, whose index has wrapped around or not. -/
def Turning : Pos → Prop
  | .next i => cpuCore ∣ i ∧ i < 2 ^ 32
  | .inside i _ _ => cpuCore ∣ i ∧ i < 2 ^ 32
  | .done => False

variable {blocks : List Block}

theorem work_of_le {i : ℕ} (h : blocks.length ≤ i) : work blocks i = [] := by
  unfold work
  rw [indices_of_le h]
  rfl

theorem work_of_some {i : ℕ} {b : Block} (h : blocks[i]? = some b) :
    work blocks i = b.values ++ work blocks (i + cpuCore) := by
  obtain ⟨hlt, -⟩ := List.getElem?_eq_some_iff.mp h
  unfold work
  rw [indices_of_lt hlt (by decide), List.flatMap_cons, h]
  rfl

/-- The threads' shares are all of the values. -/
theorem work_perm (blocks : List Block) :
    ((List.finRange cpuCore).flatMap fun t : Fin cpuCore => work blocks t).Perm
      (allValues blocks) :=
  flatMap_indices_perm blocks Block.values cpuCore (by decide)

theorem mem_allValues {v : ℕ} : v ∈ allValues blocks ↔ ∃ t : Fin cpuCore, v ∈ work blocks t := by
  rw [← (work_perm blocks).mem_iff]
  simp

end Pos

namespace Threads
variable {σ : Type} {act : Fin cpuCore → ℕ → σ → Option σ} {blocks : List Block}
  {s s' : Threads σ} {t : Fin cpuCore} {x₀ : σ}

/-- What a thread did and what it still does is its share, and the shared state is what the met
values made of `x₀`. -/
structure Inv (act : Fin cpuCore → ℕ → σ → Option σ) (blocks : List Block) (x₀ : σ)
    (s : Threads σ) : Prop where
  inside : ∀ t, (s.pos t).Inside blocks
  visits : ∀ t, part t s.visits ++ (s.pos t).toVisit blocks = indices blocks.length cpuCore t
  read : ∀ t, part t s.read ++ (s.pos t).rest blocks = Pos.work blocks t
  shared : s.read.foldlM (fun x p => act p.1 p.2 x) x₀ = some s.shared

theorem inv_create (act : Fin cpuCore → ℕ → σ → Option σ) (blocks : List Block) (x₀ : σ) :
    Inv act blocks x₀ (create x₀) :=
  ⟨fun _ => trivial, fun _ => rfl, fun _ => rfl, rfl⟩

theorem nextIndex_eq (hlen : blocks.length ≤ 2 ^ 32 - cpuCore) {i : ℕ} {b : Block}
    (h : blocks[i]? = some b) : nextIndex i cpuCore = i + cpuCore := by
  obtain ⟨hlt, -⟩ := List.getElem?_eq_some_iff.mp h
  unfold cpuCore at *
  apply Nat.mod_eq_of_lt
  omega

theorem rest_inside {i : ℕ} {b : Block} {it : BufferIterator} (hle : it.current ≤ b.getSize)
    (hend : it.current ≠ b.getSize) : (Pos.inside i b it).rest blocks =
      b.valueAt (it.current * b.tupleSize) ::
        (Pos.inside i b ⟨it.current + 1, 0⟩).rest blocks := by
  change b.values.drop it.current ++ _ = _
  rw [Block.values_drop (by omega)]
  rfl

/-- Thread `t` goes to `p`; on its way it opens the blocks `is` and meets the values `vs`. -/
structure Moves (act : Fin cpuCore → ℕ → σ → Option σ) (blocks : List Block) (s : Threads σ)
    (t : Fin cpuCore) (p : Pos) (is vs : List ℕ) (s' : Threads σ) : Prop where
  pos : s'.pos = Function.update s.pos t p
  visits : s'.visits = s.visits ++ is.map (Prod.mk t)
  read : s'.read = s.read ++ vs.map (Prod.mk t)
  shared : vs.foldlM (fun x v => act t v x) s.shared = some s'.shared
  inside : p.Inside blocks
  toVisit : is ++ p.toVisit blocks = (s.pos t).toVisit blocks
  rest : vs ++ p.rest blocks = (s.pos t).rest blocks
  inLoop : p.inLoop < 2 * is.length + vs.length + (s.pos t).inLoop

/-- A step takes what it opens and meets from the thread's share, if the index does not wrap
around. -/
theorem moves_of_step (hin : (s.pos t).Inside blocks) (hlen : blocks.length ≤ 2 ^ 32 - cpuCore)
    (hs : step act blocks s t = some s') : ∃ p is vs, Moves act blocks s t p is vs s' := by
  rcases step_cases hs with ⟨i, hpos, hle, rfl⟩ | ⟨i, b, hpos, hb, rfl⟩ |
    ⟨i, b, it, hpos, hend, rfl⟩ | ⟨i, b, it, x, hpos, hend, hx, rfl⟩
  · use .done, [], []
    constructor
    · rfl
    · simp [goto]
    · simp [goto]
    · rfl
    · trivial
    · rw [hpos]
      exact (indices_of_le hle).symm
    · rw [hpos]
      exact (Pos.work_of_le hle).symm
    · rw [hpos]
      simp [Pos.inLoop]
  · obtain ⟨hlt, -⟩ := List.getElem?_eq_some_iff.mp hb
    use .inside i b .fresh, [i], []
    constructor
    · rfl
    · rfl
    · simp [goto, visit]
    · rfl
    · exact ⟨hb, Nat.zero_le _⟩
    · rw [hpos]
      exact (indices_of_lt hlt (by decide)).symm
    · rw [hpos]
      exact (Pos.work_of_some hb).symm
    · rw [hpos]
      simp [Pos.inLoop]
  · rw [hpos] at hin
    use .next (nextIndex i cpuCore), [], []
    rw [nextIndex_eq hlen hin.1]
    constructor
    · rfl
    · simp [goto]
    · simp [goto]
    · rfl
    · trivial
    · rw [hpos]
      rfl
    · rw [hpos]
      simp [Pos.rest, hend]
    · rw [hpos]
      simp [Pos.inLoop]
  · rw [hpos] at hin
    use .inside i b ⟨it.current + 1, 0⟩, [], [b.valueAt (it.current * b.tupleSize)]
    constructor
    · rfl
    · simp [goto, meet]
    · rfl
    · simpa [goto, meet] using hx
    · have hle := hin.2
      exact ⟨hin.1, by change it.current + 1 ≤ b.getSize; omega⟩
    · rw [hpos]
      rfl
    · rw [hpos]
      exact (rest_inside hin.2 hend).symm
    · rw [hpos]
      simp [Pos.inLoop]

theorem Inv.moved (h : Inv act blocks x₀ s) {p : Pos} {is vs : List ℕ}
    (hm : Moves act blocks s t p is vs s') : Inv act blocks x₀ s' := by
  constructor
  · intro u
    rw [hm.pos]
    rcases eq_or_ne u t with rfl | hne
    · rw [Function.update_self]
      exact hm.inside
    · rw [Function.update_of_ne hne]
      exact h.inside u
  · intro u
    rw [hm.pos, hm.visits]
    rcases eq_or_ne u t with rfl | hne
    · rw [Function.update_self, part_append_self, List.append_assoc, hm.toVisit]
      exact h.visits u
    · rw [Function.update_of_ne hne, part_append_of_ne hne]
      exact h.visits u
  · intro u
    rw [hm.pos, hm.read]
    rcases eq_or_ne u t with rfl | hne
    · rw [Function.update_self, part_append_self, List.append_assoc, hm.rest]
      exact h.read u
    · rw [Function.update_of_ne hne, part_append_of_ne hne]
      exact h.read u
  · rw [hm.read, List.foldlM_append, h.shared]
    change List.foldlM (fun x p => act p.1 p.2 x) s.shared (vs.map (Prod.mk t)) = _
    rw [List.foldlM_map]
    exact hm.shared

/-- A bound of the steps that all threads still take. -/
def rank (blocks : List Block) (s : Threads σ) : ℕ := ∑ t, (s.pos t).rank blocks

theorem Moves.rank_lt {p : Pos} {is vs : List ℕ} (hm : Moves act blocks s t p is vs s') :
    s'.rank blocks < s.rank blocks := by
  have hvisit := congrArg List.length hm.toVisit
  have hrest := congrArg List.length hm.rest
  rw [List.length_append] at hvisit hrest
  have hlt : p.rank blocks < (s.pos t).rank blocks := by
    have hloop := hm.inLoop
    unfold Pos.rank
    omega
  unfold rank
  rw [hm.pos]
  apply Finset.sum_lt_sum
  · intro u _
    rcases eq_or_ne u t with rfl | hne
    · rw [Function.update_self]
      exact hlt.le
    · rw [Function.update_of_ne hne]
  · use t, Finset.mem_univ t
    rwa [Function.update_self]

theorem Inv.step (h : Inv act blocks x₀ s) (hlen : blocks.length ≤ 2 ^ 32 - cpuCore)
    (hs : step act blocks s t = some s') : Inv act blocks x₀ s' := by
  obtain ⟨p, is, vs, hm⟩ := moves_of_step (h.inside t) hlen hs
  exact h.moved hm

/-- A thread that has not returned takes a step, if `act` is defined for the values of its share. -/
theorem Inv.enabled (h : Inv act blocks x₀ s)
    (hact : ∀ t : Fin cpuCore, ∀ v ∈ Pos.work blocks t, ∀ x, (act t v x).isSome)
    (ht : s.pos t ≠ .done) :
    ∃ s', Threads.step act blocks s t = some s' := by
  unfold Threads.step
  cases hpos : s.pos t with
  | next i =>
    dsimp only
    cases blocks[i]? with
    | none => exact ⟨_, rfl⟩
    | some b => exact ⟨_, rfl⟩
  | inside i b it =>
    by_cases hend : it.current = b.getSize
    · simp only [BufferIterator.getNext, hend, if_true]
      exact ⟨_, rfl⟩
    · have hin := h.inside t
      have hread := h.read t
      rw [hpos] at hin hread
      rw [rest_inside hin.2 hend] at hread
      have hmem : b.valueAt (it.current * b.tupleSize) ∈ Pos.work blocks t := by
        rw [← hread]
        exact List.mem_append_right _ List.mem_cons_self
      obtain ⟨x, hx⟩ := Option.isSome_iff_exists.mp (hact t _ hmem s.shared)
      simp only [BufferIterator.getNext, hend, if_false, hx]
      exact ⟨_, rfl⟩
  | done => exact absurd hpos ht

/-- All threads can be joined. -/
theorem Inv.completes (h : Inv act blocks x₀ s) (hlen : blocks.length ≤ 2 ^ 32 - cpuCore)
    (hact : ∀ t : Fin cpuCore, ∀ v ∈ Pos.work blocks t, ∀ x, (act t v x).isSome) :
    ∃ ts s', run (Threads.step act blocks) s ts = some s' ∧ s'.Complete := by
  obtain ⟨s', ⟨ts, -, hr⟩, -, hc⟩ : ∃ s', Leads (Threads.step act blocks) (fun _ => True) s s' ∧
      Inv act blocks x₀ s' ∧ s'.Complete := by
    apply reaches (rank blocks) _ h
    intro u hu hnot
    obtain ⟨t, ht⟩ := not_forall.mp hnot
    obtain ⟨u', hu'⟩ := hu.enabled hact ht
    obtain ⟨p, is, vs, hm⟩ := moves_of_step (hu.inside t) hlen hu'
    exact ⟨t, u', trivial, hu', hu.moved hm, hm.rank_lt⟩
  exact ⟨ts, s', hr, hc⟩

theorem inv_run (hlen : blocks.length ≤ 2 ^ 32 - cpuCore) {ts : List (Fin cpuCore)}
    (hr : run (Threads.step act blocks) (create x₀) ts = some s) : Inv act blocks x₀ s :=
  inv (I := Inv act blocks x₀) (fun _ _ _ h hs => h.step hlen hs) hr (inv_create act blocks x₀)

/-- When all threads are joined, each has opened and read its share. -/
theorem Inv.part_read (h : Inv act blocks x₀ s) (hc : s.Complete) (t : Fin cpuCore) :
    part t s.read = Pos.work blocks t := by
  have hread := h.read t
  rw [hc t] at hread
  simpa [Pos.rest] using hread

theorem Inv.part_visits (h : Inv act blocks x₀ s) (hc : s.Complete) (t : Fin cpuCore) :
    part t s.visits = indices blocks.length cpuCore t := by
  have hvisits := h.visits t
  rw [hc t] at hvisits
  simpa [Pos.toVisit] using hvisits

/-- Together the threads met all values. -/
theorem Inv.read_perm (h : Inv act blocks x₀ s) (hc : s.Complete) :
    (s.read.map Prod.snd).Perm (allValues blocks) := by
  apply (part_perm s.read).symm.trans
  rw [funext (h.part_read hc)]
  exact Pos.work_perm blocks

/-- Every block was opened once. -/
theorem Inv.visits_perm (h : Inv act blocks x₀ s) (hc : s.Complete) :
    (s.visits.map Prod.snd).Perm (List.range blocks.length) := by
  apply (part_perm s.visits).symm.trans
  rw [funext (h.part_visits hc)]
  exact indices_perm blocks.length cpuCore (by decide)

/-- Thread 0. -/
def first : Fin cpuCore := ⟨0, by decide⟩

/-- With more blocks, thread 0 comes from its last index back to 0. -/
theorem turning_step (hlen : 2 ^ 32 - cpuCore < blocks.length) (h : (s.pos first).Turning)
    (hs : step act blocks s t = some s') : (s'.pos first).Turning := by
  have hgoto (u : Threads σ) (p : Pos) (hu : u.pos = s.pos) (hp : t = first → p.Turning) :
      ((u.goto t p).pos first).Turning := by
    change (Function.update u.pos t p first).Turning
    rcases eq_or_ne first t with ht | hne
    · rw [← ht, Function.update_self]
      exact hp ht.symm
    · rw [Function.update_of_ne hne, hu]
      exact h
  rcases step_cases hs with ⟨i, hpos, hle, rfl⟩ | ⟨i, b, hpos, hb, rfl⟩ |
    ⟨i, b, it, hpos, hend, rfl⟩ | ⟨i, b, it, x, hpos, hend, hx, rfl⟩
  · apply hgoto _ _ rfl
    rintro rfl
    rw [hpos] at h
    obtain ⟨⟨m, rfl⟩, hlt⟩ := h
    unfold cpuCore at *
    omega
  · apply hgoto _ _ rfl
    rintro rfl
    rwa [hpos] at h
  · apply hgoto _ _ rfl
    rintro rfl
    rw [hpos] at h
    obtain ⟨hdvd, hlt⟩ := h
    constructor
    · apply (Nat.dvd_mod_iff (by decide)).mpr
      exact Nat.dvd_add hdvd (Nat.dvd_refl _)
    · exact Nat.mod_lt _ (by decide)
  · apply hgoto _ _ rfl
    rintro rfl
    rwa [hpos] at h

/-- Thread 0 never returns then. -/
theorem not_complete (hlen : 2 ^ 32 - cpuCore < blocks.length) {ts : List (Fin cpuCore)}
    (hr : run (step act blocks) (create x₀) ts = some s) : ¬ s.Complete := by
  have hturning : (s.pos first).Turning := by
    apply inv (I := fun s : Threads σ => (s.pos first).Turning) _ hr
    · exact ⟨Nat.dvd_zero _, by decide⟩
    · exact fun _ _ _ h hs => turning_step hlen h hs
  intro hc
  rwa [hc first] at hturning

end Threads
end Mosito
