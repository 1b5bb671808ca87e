import Mosito.Common.BlockCircleQueue
import Mosito.Common.BlockStream
import Mosito.Lib.Runs

/-! The upper end of the range shuffle polls the columns of its buffer, while the receive
thread puts the blocks of each lower into its column. -/
namespace Mosito
open Runs

/-- Where the consumer is: between two calls of `execute`, in `get` on column `i` after
`seconds` pops that found nothing, or behind the call that returned false. -/
inductive Executing where
  | idle
  | get (i seconds : ℕ)
  | finished
  deriving DecidableEq

/-- A block that `execute` took from a column, and its result. -/
structure Delivery where
  column : ℕ
  block : Image
  ret : Bool

/-- `supply` is still to be put by the receive thread, `returns` is the history of `execute`. -/
structure ShuffleUpper1 where
  ctrl : Executing
  meetZero : ℕ
  data : ℕ → BlockCircleQueue
  supply : ℕ → List Image
  returns : List Delivery

namespace ShuffleUpper1

/-- A successful put of the receive thread, or a step of the consumer. -/
inductive Event where
  | put (i : ℕ)
  | consume

/-- The rest of a call of `execute` that got a block from column `i`. -/
def deliver (n i : ℕ) (block : Image) (s : ShuffleUpper1) : ShuffleUpper1 :=
  if block.count = 0 then
    if s.meetZero + 1 = n then
      { s with
        meetZero := s.meetZero + 1
        ctrl := .finished
        returns := s.returns ++ [⟨i, block, false⟩] }
    else
      { s with
        meetZero := s.meetZero + 1
        ctrl := .idle
        returns := s.returns ++ [⟨i, block, true⟩] }
  else { s with ctrl := .idle, returns := s.returns ++ [⟨i, block, true⟩] }

/-- A step of the consumer: it calls `execute`, or tries a pop on the column it is at. -/
def consume (n : ℕ) (s : ShuffleUpper1) : Option ShuffleUpper1 :=
  match s.ctrl with
  | .idle => some { s with ctrl := .get 0 0 }
  | .get i seconds =>
      match (s.data i).pop with
      | (some block, q) => some (deliver n i block { s with data := Function.update s.data i q })
      | (none, _) =>
          if seconds = 10 then some { s with ctrl := .get (if i + 1 < n then i + 1 else 0) 0 }
          else some { s with ctrl := .get i (seconds + 1) }
  | .finished => none

def step (n : ℕ) (s : ShuffleUpper1) : Event → Option ShuffleUpper1
  | .put i =>
      match s.supply i with
      | [] => none
      | b :: rest =>
          let r := (s.data i).push b
          if r.1 then some { s with
            data := Function.update s.data i r.2
            supply := Function.update s.supply i rest }
          else none
  | .consume => s.consume n

def start (store : ℕ → ℕ → Block) (stream : ℕ → List Image) : ShuffleUpper1 where
  ctrl := .idle
  meetZero := 0
  data i := BlockCircleQueue.make (store i) columnCon
  supply := stream
  returns := []

/-- The blocks that `execute` took from column `i`. -/
def taken (s : ShuffleUpper1) (i : ℕ) : List Image :=
  (s.returns.filter fun r => r.column = i).map Delivery.block

/-- The non-empty blocks of column `i` that `execute` returned with true. -/
def passed (s : ShuffleUpper1) (i : ℕ) : List Image :=
  (s.returns.filter fun r => r.column = i ∧ r.ret = true ∧ r.block.count ≠ 0).map Delivery.block

section Step
variable {n : ℕ} {s s' : ShuffleUpper1} {e : Event}

/-- What a step can do: a put, a poll that finds nothing, or a block taken from a column. -/
inductive Effect (n : ℕ) (s s' : ShuffleUpper1) : Prop where
  | put (i : ℕ) (b : Image) (supply : s.supply i = b :: s'.supply i)
      (contents : (s'.data i).contents = (s.data i).contents ++ [b])
      (others : ∀ j ≠ i, s'.supply j = s.supply j ∧ s'.data j = s.data j)
      (capacity : (s'.data i).queueCapacity = (s.data i).queueCapacity)
      (eq : s' = { s with data := s'.data, supply := s'.supply })
  | poll (i k : ℕ) (column : (∀ j l, s.ctrl = .get j l → j < n ∧ l ≤ 10) → i < n ∧ k ≤ 10)
      (ctrl : s.ctrl ≠ .finished)
      (eq : s' = { s with ctrl := .get i k })
  | take (i k : ℕ) (b : Image) (q : BlockCircleQueue) (ctrl : s.ctrl = .get i k)
      (contents : (s.data i).contents = b :: q.contents)
      (capacity : q.queueCapacity = (s.data i).queueCapacity)
      (eq : s' = deliver n i b { s with data := Function.update s.data i q })

theorem step_effect (hn : 1 ≤ n) (h : step n s e = some s') : Effect n s s' := by
  cases e with
  | put i =>
    rw [step] at h
    split at h
    · cases h
    · next b rest hsup =>
      obtain ⟨-, hcap, hcont⟩ := (s.data i).push_eq b
      dsimp only at h
      split at h
      · next hpush =>
        rw [if_pos hpush] at hcont
        cases h
        refine .put i b (by simpa using hsup) (by simpa using hcont) (fun j hj => ?_)
          (by simpa using hcap) rfl
        simp [hj]
      · cases h
  | consume =>
    change s.consume n = some s' at h
    unfold consume at h
    cases hc : s.ctrl with
    | finished => simp [hc] at h
    | idle =>
      simp only [hc] at h
      cases h
      exact .poll 0 0 (fun _ => ⟨hn, Nat.zero_le _⟩) (by simp [hc]) rfl
    | get i k =>
      obtain ⟨hpop, hcap, hcont⟩ := (s.data i).pop_eq
      simp only [hc] at h
      cases hp : (s.data i).pop with
      | mk img q =>
        rw [hp] at h hpop hcap hcont
        cases img with
        | some b =>
          cases h
          obtain ⟨l, hl⟩ := List.head?_eq_some_iff.mp hpop.symm
          rw [hl] at hcont
          exact .take i k b q hc (hl.trans (congrArg _ hcont.symm)) hcap rfl
        | none =>
          dsimp only at h
          split at h
          · cases h
            refine .poll _ 0 (fun _ => ⟨?_, Nat.zero_le _⟩) (by simp [hc]) rfl
            split <;> omega
          · next hk =>
            cases h
            refine .poll i (k + 1) (fun hcol => ?_) (by simp [hc]) rfl
            obtain ⟨hi, hle⟩ := hcol i k hc
            exact ⟨hi, by omega⟩

/-- A call that got a block returns true, but for the last empty block. -/
theorem deliver_eq (n i : ℕ) (b : Image) (s : ShuffleUpper1) :
    (deliver n i b s).data = s.data ∧ (deliver n i b s).supply = s.supply ∧
      (deliver n i b s).meetZero = s.meetZero + zeros [b] ∧
      ((b.count = 0 ∧ s.meetZero + 1 = n ∧ (deliver n i b s).ctrl = .finished ∧
          (deliver n i b s).returns = s.returns ++ [⟨i, b, false⟩]) ∨
        (s.meetZero + zeros [b] ≠ n ∨ b.count ≠ 0) ∧ (deliver n i b s).ctrl = .idle ∧
          (deliver n i b s).returns = s.returns ++ [⟨i, b, true⟩]) := by
  rw [zeros_singleton]
  unfold deliver
  split
  · next hb =>
    split
    · next hn => simp [hb, hn]
    · next hn => simp [hn]
  · next hb => simp [hb]

theorem taken_append {i j : ℕ} {b : Image} {r : Bool} {t : ShuffleUpper1}
    (h : t.returns = s.returns ++ [⟨i, b, r⟩]) :
    t.taken j = Function.update s.taken i (s.taken i ++ [b]) j := by
  by_cases hj : j = i
  · subst hj
    simp [taken, h]
  · simp [taken, h, hj, Ne.symm hj]

end Step

/-- What holds between two steps, of streams that each end in their only empty block. -/
structure Inv (n : ℕ) (stream : ℕ → List Image) (s : ShuffleUpper1) : Prop where
  flow : ∀ i, stream i = s.taken i ++ ((s.data i).contents ++ s.supply i)
  capacity : ∀ i, (s.data i).queueCapacity = columnCon
  met : s.meetZero = ∑ i ∈ Finset.range n, zeros (s.taken i)
  count : s.meetZero = zeros (s.returns.map Delivery.block)
  column : ∀ i k, s.ctrl = .get i k → i < n ∧ k ≤ 10
  running : s.ctrl ≠ .finished → s.meetZero < n ∧ ∀ r ∈ s.returns, r.ret = true
  ended : s.ctrl = .finished → s.meetZero = n ∧ ∃ init r, s.returns = init ++ [r] ∧
    r.ret = false ∧ r.block.count = 0 ∧ ∀ r ∈ init, r.ret = true

section Run
variable {n : ℕ} {stream : ℕ → List Image} {s s' : ShuffleUpper1} {e : Event}

theorem inv_start (hn : 1 ≤ n) (store : ℕ → ℕ → Block) (stream : ℕ → List Image) :
    Inv n stream (start store stream) where
  flow _ := rfl
  capacity _ := rfl
  met := by simp [taken, start]
  count := rfl
  column _ _ h := by cases h
  running _ := ⟨hn, by simp [start]⟩
  ended h := by cases h

theorem Inv.put (h : Inv n stream s) {i : ℕ} {b : Image} (supply : s.supply i = b :: s'.supply i)
    (contents : (s'.data i).contents = (s.data i).contents ++ [b])
    (others : ∀ j ≠ i, s'.supply j = s.supply j ∧ s'.data j = s.data j)
    (capacity : (s'.data i).queueCapacity = (s.data i).queueCapacity)
    (eq : s' = { s with data := s'.data, supply := s'.supply }) : Inv n stream s' := by
  have htaken (j : ℕ) : s'.taken j = s.taken j := by rw [eq]; rfl
  have hctrl : s'.ctrl = s.ctrl := by rw [eq]
  have hmet : s'.meetZero = s.meetZero := by rw [eq]
  have hret : s'.returns = s.returns := by rw [eq]
  constructor
  · intro j
    rw [htaken, h.flow j]
    by_cases hj : j = i
    · subst hj
      rw [contents, supply]
      simp
    · rw [(others j hj).1, (others j hj).2]
  · intro j
    by_cases hj : j = i
    · subst hj
      rw [capacity, h.capacity]
    · rw [(others j hj).2, h.capacity]
  · rw [hmet, h.met]
    simp only [htaken]
  · rw [hmet, hret, h.count]
  · rw [hctrl]
    exact h.column
  · rw [hctrl, hmet, hret]
    exact h.running
  · rw [hctrl, hmet, hret]
    exact h.ended

theorem Inv.take (h : Inv n stream s) {i k : ℕ} {b : Image} {q : BlockCircleQueue}
    (ctrl : s.ctrl = .get i k) (contents : (s.data i).contents = b :: q.contents)
    (capacity : q.queueCapacity = (s.data i).queueCapacity)
    (eq : s' = deliver n i b { s with data := Function.update s.data i q }) :
    Inv n stream s' := by
  obtain ⟨hdata, hsup, hmet, hcase⟩ :=
    deliver_eq n i b { s with data := Function.update s.data i q }
  rw [← eq] at hdata hsup hmet hcase
  dsimp only at hdata hsup hmet hcase
  obtain ⟨hlt, hall⟩ := h.running (by simp [ctrl])
  have happ : ∃ r, s'.returns = s.returns ++ [⟨i, b, r⟩] := by
    rcases hcase with ⟨-, -, -, hr⟩ | ⟨-, -, hr⟩ <;> exact ⟨_, hr⟩
  obtain ⟨r, hr⟩ := happ
  have htaken := fun j => taken_append (j := j) hr
  constructor
  · intro j
    rw [htaken, hdata, hsup, h.flow j]
    by_cases hj : j = i
    · subst hj
      simp [contents]
    · simp [hj]
  · intro j
    rw [hdata]
    by_cases hj : j = i
    · subst hj
      rw [Function.update_self, capacity, h.capacity]
    · rw [Function.update_of_ne hj, h.capacity]
  · simp only [htaken]
    rw [hmet, h.met, sum_zeros_update (h.column i k ctrl).1]
  · rw [hmet, hr, h.count, List.map_append, zeros_append]
    rfl
  · intro j l hj
    rcases hcase with ⟨-, -, hf, -⟩ | ⟨-, hf, -⟩ <;> rw [hf] at hj <;> cases hj
  · intro hne
    rcases hcase with ⟨-, -, hf, -⟩ | ⟨hmore, -, hr'⟩
    · exact absurd hf hne
    · rw [hr', hmet]
      constructor
      · rw [zeros_singleton] at hmore ⊢
        split
        · next hb =>
          rw [if_pos hb] at hmore
          have := hmore.resolve_right fun hc => hc hb
          omega
        · omega
      · simpa [or_imp, forall_and] using hall
  · intro hf
    rcases hcase with ⟨hb, hm, -, hr'⟩ | ⟨-, hi, -⟩
    · rw [hmet, zeros_singleton, if_pos hb]
      exact ⟨hm, s.returns, _, hr', rfl, hb, hall⟩
    · rw [hi] at hf
      cases hf

theorem Inv.step (hn : 1 ≤ n) (h : Inv n stream s) (hs : step n s e = some s') :
    Inv n stream s' := by
  cases step_effect hn hs with
  | put i b supply contents others capacity eq => exact h.put supply contents others capacity eq
  | poll i k column ctrl eq =>
    rw [eq]
    refine ⟨h.flow, h.capacity, h.met, h.count, fun j l hj => ?_, fun _ => h.running ctrl, by simp⟩
    cases hj
    exact column fun j l => h.column j l
  | take i k b q ctrl contents capacity eq => exact h.take ctrl contents capacity eq

/-- Only an empty block comes with false. -/
theorem Inv.ret_of_count (h : Inv n stream s) {r : Delivery} (hr : r ∈ s.returns)
    (hc : r.block.count ≠ 0) : r.ret = true := by
  by_cases hf : s.ctrl = .finished
  · obtain ⟨-, init, last, hinit, -, hlast, hall⟩ := h.ended hf
    rw [hinit, List.mem_append, List.mem_singleton] at hr
    rcases hr with hr | rfl
    · exact hall r hr
    · exact absurd hlast hc
  · exact (h.running hf).2 r hr

theorem Inv.passed_eq (h : Inv n stream s) (i : ℕ) :
    s.passed i = (s.taken i).filter fun b => b.count ≠ 0 := by
  rw [passed, taken, List.filter_map, List.filter_filter]
  congr 1
  apply List.filter_congr
  intro r hr
  have hret := h.ret_of_count hr
  by_cases hc : r.block.count = 0 <;> simp_all

/-- The call that returns false takes the last empty block, and is the last call. -/
theorem Inv.ret_false (h : Inv n stream s) {pre post : List Delivery} {r : Delivery}
    (hr : s.returns = pre ++ r :: post) (hf : r.ret = false) :
    post = [] ∧ r.block.count = 0 ∧ zeros (pre.map Delivery.block) + 1 = n ∧
      s.ctrl = .finished := by
  have hmem : r ∈ s.returns := by simp [hr]
  have hctrl : s.ctrl = .finished := by
    by_contra hne
    rw [(h.running hne).2 r hmem] at hf
    cases hf
  obtain ⟨hn, init, last, hinit, -, hlast, hall⟩ := h.ended hctrl
  have hpost : post = [] := by
    by_contra hne
    obtain ⟨post', x, rfl⟩ := List.eq_nil_or_concat post |>.resolve_left hne
    have hsplit : init ++ [last] = (pre ++ r :: post') ++ [x] := by
      rw [← hinit, hr]
      simp
    have hin : r ∈ init := by
      rw [(List.append_inj' hsplit rfl).1]
      simp
    rw [hall r hin] at hf
    cases hf
  subst hpost
  obtain ⟨rfl, hl⟩ := List.append_inj' (hinit.symm.trans hr) rfl
  obtain ⟨rfl, -⟩ := List.cons.inj hl
  have hcount := h.count
  rw [hr, List.map_append, zeros_append, List.map_singleton, zeros_singleton, if_pos hlast] at hcount
  exact ⟨rfl, hlast, by omega, hctrl⟩

/-- At the end every column is taken to its last block. -/
theorem Inv.finished (h : Inv n stream s) (hclosed : ∀ i < n, Closed (stream i))
    (hf : s.ctrl = .finished) {i : ℕ} (hi : i < n) :
    s.taken i = stream i ∧ (s.data i).contents = [] ∧ s.supply i = [] := by
  have htaken : s.taken i = stream i := by
    refine taken_all hclosed (fun j _ => ?_) (h.met.symm.trans (h.ended hf).1) hi
    rw [h.flow j]
    exact List.prefix_append _ _
  have hflow := h.flow i
  rw [← htaken, List.self_eq_append_right, List.append_eq_nil_iff] at hflow
  exact ⟨htaken, hflow⟩

/-- The blocks that are not yet taken. -/
def remaining (n : ℕ) (s : ShuffleUpper1) : ℕ :=
  ∑ i ∈ Finset.range n, ((s.data i).contents.length + (s.supply i).length)

/-- Some column has blocks left while the calls go on. -/
theorem Inv.exists_left (h : Inv n stream s) (hclosed : ∀ i < n, Closed (stream i))
    (hne : s.ctrl ≠ .finished) :
    ∃ i < n, (s.data i).contents ≠ [] ∨ s.supply i ≠ [] := by
  by_contra hall
  push Not at hall
  have hlt := (h.running hne).1
  have hone (i : ℕ) (hi : i ∈ Finset.range n) : zeros (s.taken i) = 1 := by
    obtain ⟨hc, hs⟩ := hall i (Finset.mem_range.mp hi)
    have hflow := h.flow i
    rw [hc, hs, List.append_nil, List.append_nil] at hflow
    obtain ⟨data, z, hst, hz, hd⟩ := hclosed i (Finset.mem_range.mp hi)
    have hdata : zeros data = 0 := by simpa [zeros, List.countP_eq_zero] using hd
    rw [← hflow, hst, zeros_append, hdata, zeros_singleton, if_pos hz]
  rw [h.met, Finset.sum_congr rfl hone] at hlt
  simp at hlt

/-- How many polls the consumer needs to come from column `i` to column `j`. -/
def distance (n j i k : ℕ) : ℕ := (if i ≤ j then j - i else n - i + j) * 11 + (10 - k)

/-- One more attempt comes nearer to column `j`. -/
theorem distance_next {n i j k : ℕ} (hi : i < n) (hj : j < n) (hij : i ≠ j)
    (hk : k ≤ 10) :
    (k = 10 → distance n j (if i + 1 < n then i + 1 else 0) 0 < distance n j i k) ∧
      (k ≠ 10 → distance n j i (k + 1) < distance n j i k) := by
  constructor
  · intro h10
    unfold distance
    split_ifs <;> omega
  · intro h10
    unfold distance
    omega

theorem Inv.remaining_take (h : Inv n stream s) {i k : ℕ} {b : Image} {q : BlockCircleQueue}
    (ctrl : s.ctrl = .get i k) (contents : (s.data i).contents = b :: q.contents) :
    remaining n (deliver n i b { s with data := Function.update s.data i q }) + 1 =
      remaining n s := by
  obtain ⟨hdata, hsup, -⟩ := deliver_eq n i b { s with data := Function.update s.data i q }
  have hmem := Finset.mem_range.mpr (h.column i k ctrl).1
  unfold remaining
  rw [hdata, hsup, ← Finset.add_sum_erase _ _ hmem,
    ← Finset.add_sum_erase _ (fun i => (s.data i).contents.length + (s.supply i).length) hmem]
  have hrest : ∑ j ∈ (Finset.range n).erase i, ((Function.update s.data i q j).contents.length +
      (s.supply j).length) =
      ∑ j ∈ (Finset.range n).erase i, ((s.data j).contents.length + (s.supply j).length) := by
    apply Finset.sum_congr rfl
    intro j hj
    rw [Function.update_of_ne (Finset.ne_of_mem_erase hj)]
  dsimp only
  rw [hrest, Function.update_self, contents, List.length_cons]
  omega

/-- With a block in some column the consumer takes one after some polls. -/
theorem Inv.consume_takes (hn : 1 ≤ n) (h : Inv n stream s) {j : ℕ} (hj : j < n)
    (hc : (s.data j).contents ≠ []) {i k : ℕ} (hctrl : s.ctrl = .get i k) :
    ∃ events s', run (ShuffleUpper1.step n) s events = some s' ∧ remaining n s' < remaining n s := by
  generalize hd : distance n j i k = d
  induction d using Nat.strong_induction_on generalizing s i k with
  | _ d ih =>
    obtain ⟨hpop, -, hcont⟩ := (s.data i).pop_eq
    obtain ⟨hi, hk⟩ := h.column i k hctrl
    cases hcs : (s.data i).contents with
    | cons b rest =>
      rw [hcs, List.tail_cons] at hcont
      have hp : (s.data i).pop = (some b, (s.data i).pop.2) :=
        Prod.ext (hpop.trans (by rw [hcs, List.head?_cons])) rfl
      refine ⟨[.consume], deliver n i b { s with
        data := Function.update s.data i (s.data i).pop.2 }, ?_, ?_⟩
      · simp only [run, ShuffleUpper1.step, consume, hctrl]
        rw [hp]
        rfl
      · have := h.remaining_take hctrl (b := b) (q := (s.data i).pop.2) (by rw [hcs, hcont])
        omega
    | nil =>
      have hp : (s.data i).pop = (none, (s.data i).pop.2) :=
        Prod.ext (hpop.trans (by rw [hcs, List.head?_nil])) rfl
      have hij : i ≠ j := by
        rintro rfl
        exact hc hcs
      -- the next poll is one nearer to column `j`
      obtain ⟨i', k', hstep, hlt⟩ : ∃ i' k', ShuffleUpper1.step n s .consume =
          some { s with ctrl := .get i' k' } ∧ distance n j i' k' < distance n j i k := by
        simp only [ShuffleUpper1.step, consume, hctrl]
        rw [hp]
        dsimp only
        by_cases h10 : k = 10
        · refine ⟨_, 0, by rw [if_pos h10], ?_⟩
          unfold distance
          split_ifs <;> omega
        · refine ⟨i, k + 1, by rw [if_neg h10], ?_⟩
          unfold distance
          omega
      obtain ⟨events, s', hrun, hrem⟩ := ih _ (hd ▸ hlt) (h.step hn hstep) hc rfl rfl
      exact ⟨.consume :: events, s', by rw [run, hstep, Option.bind_some, hrun], hrem⟩

/-- From any state some more puts and polls take a block. -/
theorem Inv.progress (hn : 1 ≤ n) (hclosed : ∀ i < n, Closed (stream i)) (h : Inv n stream s)
    (hne : s.ctrl ≠ .finished) :
    ∃ events s', run (ShuffleUpper1.step n) s events = some s' ∧ remaining n s' < remaining n s := by
  -- a put, if all columns are empty
  obtain ⟨events, t, hrun, hrem, hne', j, hj, hcj⟩ : ∃ events t,
      run (ShuffleUpper1.step n) s events = some t ∧ remaining n t = remaining n s ∧
        t.ctrl ≠ .finished ∧ ∃ j < n, (t.data j).contents ≠ [] := by
    obtain ⟨j, hj, hleft⟩ := h.exists_left hclosed hne
    by_cases hc : (s.data j).contents = []
    · obtain ⟨b, rest, hsup⟩ := List.exists_cons_of_ne_nil (hleft.resolve_left fun hn => hn hc)
      obtain ⟨hacc, -, hcont⟩ := (s.data j).push_eq b
      have hpush : ((s.data j).push b).1 = true := by
        rw [hacc, hc, h.capacity]
        decide
      rw [if_pos hpush, hc, List.nil_append] at hcont
      refine ⟨[.put j], { s with
        data := Function.update s.data j ((s.data j).push b).2
        supply := Function.update s.supply j rest }, ?_, ?_, hne, j, hj, by simp [hcont]⟩
      · simp [run, ShuffleUpper1.step, hsup, hpush]
      · apply Finset.sum_congr rfl
        intro i _
        rcases eq_or_ne i j with rfl | hij
        · simp [hcont, hc, hsup, Nat.add_comm]
        · simp [hij]
    · exact ⟨[], s, rfl, rfl, hne, j, hj, hc⟩
  have ht : Inv n stream t := inv (fun t e t' ht => ht.step hn) hrun h
  -- a call, if the consumer is idle
  obtain ⟨events', t', i, k, hrun', hrem', hctrl', hcj'⟩ : ∃ events t' i k,
      run (ShuffleUpper1.step n) t events = some t' ∧ remaining n t' = remaining n t ∧
        t'.ctrl = .get i k ∧ (t'.data j).contents ≠ [] := by
    cases hctrl : t.ctrl with
    | finished => exact absurd hctrl hne'
    | get i k => exact ⟨[], t, i, k, rfl, rfl, hctrl, hcj⟩
    | idle =>
      exact ⟨[.consume], { t with ctrl := .get 0 0 }, 0, 0,
        by simp [run, ShuffleUpper1.step, consume, hctrl], rfl, rfl, hcj⟩
  have ht' : Inv n stream t' := inv (fun t e t' ht => ht.step hn) hrun' ht
  obtain ⟨events'', s', hrun'', hlt⟩ := ht'.consume_takes hn hj hcj' hctrl'
  refine ⟨events ++ (events' ++ events''), s', ?_, by omega⟩
  rw [run_append, hrun, Option.bind_some, run_append, hrun', Option.bind_some, hrun'']

/-- Whatever happened so far, some continuation brings the call that returns false. -/
theorem Inv.can_finish (hn : 1 ≤ n) (hclosed : ∀ i < n, Closed (stream i)) (h : Inv n stream s) :
    ∃ events s', run (ShuffleUpper1.step n) s events = some s' ∧ s'.ctrl = .finished := by
  generalize hm : remaining n s = m
  induction m using Nat.strong_induction_on generalizing s with
  | _ m ih =>
    by_cases hf : s.ctrl = .finished
    · exact ⟨[], s, rfl, hf⟩
    obtain ⟨events, s', hrun, hlt⟩ := h.progress hn hclosed hf
    have h' : Inv n stream s' := inv (fun t e t' ht => ht.step hn) hrun h
    obtain ⟨events', s'', hrun', hf'⟩ := ih _ (hm ▸ hlt) h' rfl
    exact ⟨events ++ events', s'', by rw [run_append, hrun, Option.bind_some, hrun'], hf'⟩

/-- In every interleaving of the puts with the polls, `execute` passes on the data blocks of
each column in order and each once. It returns false only with the last empty block, when all
columns are empty, and this call can always still be reached. -/
theorem execute_exactly_once (hn : 1 ≤ n) {data : ℕ → List Image} {store : ℕ → ℕ → Block}
    {events : List Event} (hstream : ∀ i < n, ∃ z : Image, stream i = data i ++ [z] ∧ z.count = 0)
    (hdata : ∀ i < n, ∀ b ∈ data i, b.count ≠ 0)
    (hrun : run (ShuffleUpper1.step n) (start store stream) events = some s) :
    (∀ i < n, s.passed i <+: data i) ∧
      (∀ pre r post, s.returns = pre ++ r :: post → r.ret = false → post = [] ∧
        r.block.count = 0 ∧ zeros (pre.map Delivery.block) + 1 = n ∧ s.ctrl = .finished) ∧
      (s.ctrl = .finished → ∀ i < n, s.passed i = data i ∧ (s.data i).contents = []) ∧
      ∃ events' s', run (ShuffleUpper1.step n) s events' = some s' ∧ s'.ctrl = .finished := by
  have h : Inv n stream s := inv (fun t e t' ht => ht.step hn) hrun (inv_start hn store stream)
  have hclosed (i : ℕ) (hi : i < n) : Closed (stream i) := by
    obtain ⟨z, hz, h0⟩ := hstream i hi
    exact ⟨data i, z, hz, h0, hdata i hi⟩
  have hfilter (i : ℕ) (hi : i < n) : (stream i).filter (fun b => b.count ≠ 0) = data i := by
    obtain ⟨z, hz, h0⟩ := hstream i hi
    rw [hz, List.filter_append, List.filter_eq_self.mpr fun b hb => by simpa using hdata i hi b hb]
    simp [h0]
  refine ⟨fun i hi => ?_, fun pre r post => h.ret_false, fun hf i hi => ?_, h.can_finish hn hclosed⟩
  · rw [h.passed_eq, ← hfilter i hi, h.flow i]
    exact (List.prefix_append _ _).filter _
  · obtain ⟨htaken, hcont, -⟩ := h.finished hclosed hf hi
    rw [h.passed_eq, htaken, hfilter i hi]
    exact ⟨rfl, hcont⟩

end Run

/-- The puts for two lowers, one of them with a data block, and the polls between them. -/
def lateEvents : List Event :=
  [.put 0, .consume, .put 1, .consume, .consume, .put 0, .consume] ++ List.replicate 13 .consume

/-- The last call of this run finds column 0 empty eleven times, and then returns false. -/
theorem execute_exactly_once_two :
    ∃ s, run (step 2) (start (fun _ _ => Block.make (fun _ => 0) blockSize 0)
        fun i => (if i = 0 then [oneTuple 7] else []) ++ [noTuple]) lateEvents = some s ∧
      s.returns.map Delivery.ret = [true, true, false] ∧
      s.passed 0 = [oneTuple 7] ∧ (s.data 0).contents = [] ∧ (s.data 1).contents = [] := by
  have h : (run (step 2) (start (fun _ _ => Block.make (fun _ => 0) blockSize 0)
      fun i => (if i = 0 then [oneTuple 7] else []) ++ [noTuple]) lateEvents).map
      (fun s => (s.ctrl, s.returns.map Delivery.ret)) =
        some (.finished, [true, true, false]) := by decide +kernel
  obtain ⟨s, hs, he⟩ := Option.map_eq_some_iff.mp h
  obtain ⟨hf, hret⟩ := Prod.mk.inj he
  have hdata (i : ℕ) (_ : i < 2) (b : Image) (hb : b ∈ if i = 0 then [oneTuple 7] else []) :
      b.count ≠ 0 := by
    split at hb
    · rw [List.mem_singleton.mp hb, oneTuple_count]
      decide
    · cases hb
  have hnone : noTuple.count = 0 := by decide
  obtain ⟨-, -, hend, -⟩ := execute_exactly_once (by decide) (fun i _ => ⟨noTuple, rfl, hnone⟩)
    hdata hs
  exact ⟨s, hs, hret, (hend hf 0 (by decide)).1, (hend hf 0 (by decide)).2,
    (hend hf 1 (by decide)).2⟩

end ShuffleUpper1
end Mosito
