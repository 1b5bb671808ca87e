import Mosito.Common.Merger
import Mosito.Physical.ShuffleUpper1

/-! The host of an upper end: the receive thread puts blocks into the columns from which the
calls of `execute` take them. -/
namespace Mosito
open Runs

namespace Merger

instance (s : Merger) (e : Event) : Decidable (s.Patient e) :=
  match e, hc : s.ctrl with
  | .receive, .put _ i k =>
      decidable_of_iff (k = 10 → (s.data i).contents.length < (s.data i).queueCapacity)
        ⟨fun h fds j _ hj => by
          rw [hc] at hj
          cases hj
          exact h rfl, fun h hk => h _ i rfl (hk ▸ hc)⟩
  | .receive, .select | .receive, .scan _ _ | .receive, .returned =>
      isTrue fun _ _ _ hj => by
        rw [hc] at hj
        cases hj
  | .arrive _, _ | .pop _, _ | .select _, _ => isTrue fun _ _ he => by cases he

/-- What waits or is on its way on connection `i`. -/
def coming (s : Merger) (i : ℕ) : List Image := s.arrived i ++ s.carried i

/-- All that was ever sent on connection `i`. -/
def sent (s : Merger) (i : ℕ) : List Image := s.received i ++ s.coming i

/-- A lower sends a block on connection `i`. -/
def carry (i : ℕ) (b : Image) (s : Merger) : Merger :=
  { s with carried := Function.update s.carried i (s.carried i ++ [b]) }

section Merger
variable {n : ℕ} {stream : ℕ → List Image} {s s' : Merger} {settled : ℕ → List Image}

theorem sent_carry (s : Merger) (i : ℕ) (b : Image) :
    (s.carry i b).sent = Function.update s.sent i (s.sent i ++ [b]) := by
  funext j
  by_cases hj : j = i
  · subst hj
    simp [sent, coming, carry]
  · simp [sent, coming, carry, hj]

theorem Inv.flow_sent (h : Inv n stream s settled) : stream = s.sent := funext h.flow

theorem Inv.carry (h : Inv n s.sent s settled) (i : ℕ) (b : Image) :
    Inv n (s.carry i b).sent (s.carry i b) settled :=
  ⟨fun _ => rfl, h.split, h.kept, h.met, h.column, h.final⟩

/-- Only a step of the consumer takes a block from a column. -/
theorem step_frame {e : Event} (hs : step n s e = some s') (he : ∀ i, e ≠ .pop i) :
    s'.popped = s.popped ∧ ∀ i, (s'.data i).queueCapacity = (s.data i).queueCapacity := by
  have hpush (i j : ℕ) : (Function.update s.data i ((s.data i).push s.block).2 j).queueCapacity =
      (s.data j).queueCapacity := by
    by_cases hj : j = i
    · subst hj
      rw [Function.update_self]
      exact ((s.data j).push_eq s.block).2.1
    · rw [Function.update_of_ne hj]
  cases e with
  | pop i => exact absurd rfl (he i)
  | arrive i =>
    rw [step] at hs
    split at hs <;> cases hs
    exact ⟨rfl, fun _ => rfl⟩
  | select fds =>
    rw [step] at hs
    split at hs <;> cases hs
    exact ⟨rfl, fun _ => rfl⟩
  | receive =>
    change s.receive n = some s' at hs
    unfold receive at hs
    split at hs
    · split at hs
      · split at hs
        · split at hs
          · cases hs
            exact ⟨rfl, fun _ => rfl⟩
          · split at hs <;> cases hs
            exact ⟨rfl, fun _ => rfl⟩
        · cases hs
          exact ⟨rfl, fun _ => rfl⟩
      · cases hs
        exact ⟨rfl, fun _ => rfl⟩
    · next fds i k hctrl =>
      obtain ⟨-, -, -, hpop, hdata, -⟩ := afterPut_effect n fds i s
      obtain ⟨-, -, -, hpop', hdata', -⟩ := afterPut_effect n fds i
        { s with data := Function.update s.data i ((s.data i).push s.block).2 }
      dsimp only at hs
      split_ifs at hs <;> cases hs
      · rw [hpop', hdata']
        exact ⟨rfl, hpush i⟩
      · rw [hpop, hdata]
        exact ⟨rfl, fun _ => rfl⟩
      · exact ⟨rfl, fun _ => rfl⟩
    · cases hs
    · cases hs

theorem afterPut_running {t : Merger} (ht : t.meetZero < n) (fds : List ℕ) (i : ℕ)
    (hne : (afterPut n fds i t).ctrl ≠ .returned) : (afterPut n fds i t).meetZero < n := by
  unfold afterPut at hne ⊢
  split_ifs at hne ⊢ with h0 hn
  · exact absurd rfl hne
  · change t.meetZero + 1 < n
    omega
  · exact ht

/-- The receive thread returns as soon as it has counted `n` empty blocks. -/
theorem step_running {e : Event} (hs : step n s e = some s')
    (hr : s.ctrl ≠ .returned → s.meetZero < n) (hne : s'.ctrl ≠ .returned) : s'.meetZero < n := by
  cases e with
  | arrive i =>
    rw [step] at hs
    split at hs <;> cases hs
    exact hr hne
  | pop i =>
    cases hs
    exact hr hne
  | select fds =>
    rw [step] at hs
    split at hs
    · next hc =>
      cases hs
      exact hr (by simp [hc])
    · cases hs
  | receive =>
    change s.receive n = some s' at hs
    unfold receive at hs
    cases hc : s.ctrl with
    | select => simp [hc] at hs
    | returned => simp [hc] at hs
    | scan fds i =>
      have hlt := hr (by simp [hc])
      simp only [hc] at hs
      split at hs
      · split at hs
        · split at hs
          · cases hs
            exact hlt
          · split at hs <;> cases hs
            exact hlt
        · cases hs
          exact hlt
      · cases hs
        exact hlt
    | put fds i k =>
      have hlt := hr (by simp [hc])
      simp only [hc] at hs
      split at hs
      · cases hs
        exact afterPut_running (t := { s with
          ctrl := .put fds i k
          data := Function.update s.data i ((s.data i).push s.block).2 }) hlt fds i hne
      · split at hs
        · cases hs
          exact afterPut_running (t := { s with ctrl := .put fds i k }) hlt fds i hne
        · cases hs
          exact hlt

theorem receive_skip {fds : List ℕ} {j : ℕ} (hc : s.ctrl = .scan fds j) (hj : j < n)
    (hnot : j ∉ fds) : step n s .receive = some { s with ctrl := .scan fds (j + 1) } := by
  simp [step, receive, hc, hj, hnot]

theorem receive_end {fds : List ℕ} {j : ℕ} (hc : s.ctrl = .scan fds j) (hj : ¬ j < n) :
    step n s .receive = some { s with ctrl := .select } := by
  simp [step, receive, hc, hj]

theorem receive_closed {fds : List ℕ} {j : ℕ} (hc : s.ctrl = .scan fds j) (hj : j < n)
    (hmem : j ∈ fds) (hnil : s.coming j = []) :
    step n s .receive = some { s with ctrl := .select } := by
  obtain ⟨harr, hcar⟩ := List.append_eq_nil_iff.mp hnil
  simp [step, receive, hc, hj, hmem, harr, hcar]

theorem receive_block {fds : List ℕ} {j : ℕ} {b : Image} {rest : List Image}
    (hc : s.ctrl = .scan fds j) (hj : j < n) (hmem : j ∈ fds) (harr : s.arrived j = b :: rest) :
    step n s .receive = some { s with
      arrived := Function.update s.arrived j rest
      received := Function.update s.received j (s.received j ++ [b])
      block := b
      ctrl := .put fds j 0 } := by
  simp [step, receive, hc, hj, hmem, harr]

/-- What has arrived goes on through the hand of the receive thread. -/
theorem Complete.sent_eq (hc : Complete n s) {i : ℕ} (hi : i < n) :
    s.sent i = s.enqueued i ++ (s.hand i ++ s.coming i) := by
  rw [sent, hc i hi, List.append_assoc]

end Merger
end Merger

/-- `returns` is the history of `execute`. -/
structure UpperHost where
  merger : Merger
  ctrl : Executing
  meetZero : ℕ
  returns : List Delivery

namespace UpperHost
open ShuffleUpper1

/-- A step of the receive thread and its connections, or of the caller of `execute`. -/
inductive Event where
  | receive (e : Merger.Event)
  | consume

/-- What the calls of `execute` see. -/
def upper (s : UpperHost) : ShuffleUpper1 where
  ctrl := s.ctrl
  meetZero := s.meetZero
  data := s.merger.data
  supply _ := []
  returns := s.returns

/-- `select` returns connections with something to read. -/
def Readable (s : UpperHost) : Merger.Event → Prop
  | .pop _ => False
  | .select fds => ∀ i ∈ fds, s.merger.coming i ≠ []
  | _ => True

instance (s : UpperHost) (e : Merger.Event) : Decidable (s.Readable e) := by
  unfold Readable
  split <;> infer_instance

def receive (n : ℕ) (e : Merger.Event) (s : UpperHost) : Option UpperHost :=
  if s.Readable e then (s.merger.step n e).map fun merger => { s with merger := merger } else none

def consume (n : ℕ) (s : UpperHost) : Option UpperHost :=
  (s.upper.consume n).map fun v =>
    { merger := { s.merger with data := v.data, popped := v.taken }
      ctrl := v.ctrl
      meetZero := v.meetZero
      returns := v.returns }

def step (n : ℕ) (s : UpperHost) : Event → Option UpperHost
  | .receive e => s.receive n e
  | .consume => s.consume n

/-- After the connections are accepted: nothing was sent, and the columns are empty. -/
def start (store : ℕ → ℕ → Block) (block : Image) : UpperHost where
  merger := Merger.start store (fun _ => []) block
  ctrl := .idle
  meetZero := 0
  returns := []

/-- The last try of `put` finds a free block. -/
def Patient (s : UpperHost) : Event → Prop
  | .receive e => s.merger.Patient e
  | .consume => True

instance (s : UpperHost) : (e : Event) → Decidable (s.Patient e)
  | .receive e => inferInstanceAs (Decidable (s.merger.Patient e))
  | .consume => isTrue trivial

structure Inv (n : ℕ) (s : UpperHost) : Prop where
  merger : ∃ settled, Merger.Inv n s.merger.sent s.merger settled
  running : s.merger.ctrl ≠ .returned → s.merger.meetZero < n
  upper : ShuffleUpper1.Inv n s.merger.enqueued s.upper
  columns : ∀ r ∈ s.returns, r.column < n

section Step
variable {n : ℕ} {s s' : UpperHost} {e : Event}

theorem inv_start (hn : 1 ≤ n) (store : ℕ → ℕ → Block) (block : Image) :
    Inv n (start store block) where
  merger := ⟨_, Merger.inv_start store (fun _ => []) block⟩
  running _ := hn
  upper := ShuffleUpper1.inv_start hn store fun _ => []
  columns _ h := by cases h

theorem Inv.popped (h : s.Inv n) : s.merger.popped = s.upper.taken := by
  funext i
  have hflow := h.upper.flow i
  rw [show s.upper.supply i = [] from rfl, List.append_nil] at hflow
  exact List.append_cancel_right hflow

/-- The calls of `execute` have taken the first of the blocks that were put. -/
theorem Inv.taken_initial (h : s.Inv n) (i : ℕ) : s.upper.taken i <+: s.merger.enqueued i := by
  rw [← h.popped]
  exact List.prefix_append _ _

theorem Inv.carry (h : s.Inv n) (i : ℕ) (b : Image) :
    Inv n { s with merger := s.merger.carry i b } := by
  obtain ⟨settled, hm⟩ := h.merger
  exact ⟨⟨settled, hm.carry i b⟩, h.running, h.upper, h.columns⟩

theorem receive_eq_some {e : Merger.Event} (hs : s.receive n e = some s') :
    (∀ i, e ≠ .pop i) ∧ ∃ merger, s.merger.step n e = some merger ∧
      s' = { s with merger := merger } := by
  unfold receive at hs
  split at hs
  · next hr =>
    obtain ⟨merger, hm, rfl⟩ := Option.map_eq_some_iff.mp hs
    refine ⟨?_, merger, hm, rfl⟩
    rintro i rfl
    exact hr
  · cases hs

/-- The receive thread changes nothing that `execute` has taken. -/
theorem Inv.receive (h : s.Inv n) {e : Merger.Event} (hs : s.receive n e = some s') :
    s'.Inv n ∧ s'.merger.sent = s.merger.sent := by
  obtain ⟨hpop, merger, hm, rfl⟩ := receive_eq_some hs
  obtain ⟨settled, hinv⟩ := h.merger
  obtain ⟨settled', hinv'⟩ := hinv.step hm
  obtain ⟨hpopped, hcap⟩ := Merger.step_frame hm hpop
  have hsent := hinv'.flow_sent
  refine ⟨⟨⟨settled', hsent ▸ hinv'⟩, Merger.step_running hm h.running, ?_, h.columns⟩,
    hsent.symm⟩
  refine ⟨fun i => ?_, fun i => (hcap i).trans (h.upper.capacity i), h.upper.met, h.upper.count,
    h.upper.column, h.upper.running, h.upper.ended⟩
  have htaken : merger.popped i = s.upper.taken i := by rw [hpopped, h.popped]
  rw [Merger.enqueued, htaken]
  exact congrArg _ (List.append_nil _).symm

theorem consume_supply {v : ShuffleUpper1} (hv : s.upper.consume n = some v) (i : ℕ) :
    v.supply i = [] := by
  unfold ShuffleUpper1.consume at hv
  split at hv
  · cases hv
    rfl
  · split at hv
    · next b q hp =>
      cases hv
      obtain ⟨-, hsup, -⟩ := deliver_eq n _ b { s.upper with
        data := Function.update s.upper.data _ q }
      rw [hsup]
      rfl
    · split_ifs at hv <;> cases hv <;> rfl
  · cases hv

theorem Inv.consume (hn : 1 ≤ n) (h : s.Inv n) (hs : s.consume n = some s') :
    s'.Inv n ∧ s'.merger.sent = s.merger.sent ∧ s'.merger.enqueued = s.merger.enqueued ∧
      s'.merger.hand = s.merger.hand ∧ s'.merger.ctrl = s.merger.ctrl := by
  obtain ⟨v, hv, rfl⟩ := Option.map_eq_some_iff.mp hs
  have hstep : ShuffleUpper1.step n s.upper .consume = some v := hv
  have hinv := h.upper.step hn hstep
  have hsup := consume_supply hv
  have hsame : Merger.enqueued { s.merger with data := v.data, popped := v.taken } =
      s.merger.enqueued := by
    funext i
    rw [hinv.flow i, hsup i, List.append_nil]
    rfl
  obtain ⟨settled, hm⟩ := h.merger
  have hcolumns : ∀ r ∈ v.returns, r.column < n := by
    intro r hr
    cases step_effect hn hstep with
    | put i b hs _ _ _ _ => cases hs
    | poll i k _ _ heq =>
      rw [heq] at hr
      exact h.columns r hr
    | take i k b q hctrl _ _ heq =>
      obtain ⟨-, -, -, hreturns⟩ :=
        deliver_eq n i b { s.upper with data := Function.update s.upper.data i q }
      rw [← heq] at hreturns
      have hmem : r ∈ s.returns ∨ r.column = i := by
        rcases hreturns with ⟨-, -, -, hret⟩ | ⟨-, -, hret⟩ <;>
          · rw [hret, List.mem_append, List.mem_singleton] at hr
            exact hr.imp id fun heq => by rw [heq]
      rcases hmem with hmem | hcol
      · exact h.columns r hmem
      · rw [hcol]
        exact (h.upper.column i k hctrl).1
  refine ⟨⟨⟨settled, hm.flow, hm.split, fun i => ?_, hm.met, hm.column, hm.final⟩, h.running, ?_,
    hcolumns⟩, rfl, hsame, rfl, rfl⟩
  · rw [hsame]
    exact hm.kept i
  · rw [hsame]
    refine ⟨fun i => ?_, hinv.capacity, hinv.met, hinv.count, hinv.column, hinv.running,
      hinv.ended⟩
    rw [hinv.flow i, hsup i]
    rfl

theorem Inv.step (hn : 1 ≤ n) (h : s.Inv n) (hs : step n s e = some s') :
    s'.Inv n ∧ s'.merger.sent = s.merger.sent := by
  cases e with
  | receive e => exact h.receive hs
  | consume =>
    obtain ⟨h', hsent, -⟩ := h.consume hn hs
    exact ⟨h', hsent⟩

/-- Steps of which no `put` gives up lose nothing. -/
theorem complete_step (hn : 1 ≤ n) (h : s.Inv n) (hc : s.merger.Complete n) (hp : s.Patient e)
    (hs : UpperHost.step n s e = some s') : s'.merger.Complete n := by
  cases e with
  | receive e =>
    obtain ⟨-, merger, hm, rfl⟩ := receive_eq_some hs
    obtain ⟨settled, hinv⟩ := h.merger
    exact hc.step hp hm
  | consume =>
    obtain ⟨-, hsent, henq, hhand, -⟩ := h.consume hn hs
    obtain ⟨v, -, rfl⟩ := Option.map_eq_some_iff.mp hs
    intro i hi
    rw [henq, hhand]
    exact hc i hi

end Step

/-! The way to the end. -/

/-- The hops that the blocks of connection `i` still have to make. -/
def weight (s : UpperHost) (i : ℕ) : ℕ :=
  3 * (s.merger.coming i).length + 2 * (s.merger.hand i).length +
    (s.merger.data i).contents.length

def left (n : ℕ) (s : UpperHost) : ℕ := ∑ i ∈ Finset.range n, s.weight i

/-- Nothing was lost so far. -/
def Sound (n : ℕ) (s : UpperHost) : Prop := s.Inv n ∧ s.merger.Complete n

section Progress
variable {n : ℕ} {s s' : UpperHost} {e : Event}

theorem Sound.step (hn : 1 ≤ n) (h : s.Sound n) (hp : s.Patient e)
    (hs : UpperHost.step n s e = some s') : s'.Sound n :=
  ⟨(h.1.step hn hs).1, complete_step hn h.1 h.2 hp hs⟩

theorem left_lt {i : ℕ} (hi : i < n) (hlt : s'.weight i < s.weight i)
    (hle : ∀ j < n, j ≠ i → s'.weight j ≤ s.weight j) : s'.left n < s.left n := by
  apply Finset.sum_lt_sum
  · intro j hj
    rcases eq_or_ne j i with rfl | hne
    · exact hlt.le
    · exact hle j (Finset.mem_range.mp hj) hne
  · exact ⟨i, Finset.mem_range.mpr hi, hlt⟩

theorem left_carry {i : ℕ} (hi : i < n) (b : Image) :
    left n { s with merger := s.merger.carry i b } = s.left n + 3 := by
  have hsum := sum_update hi (fun j c => 3 * List.length c + 2 * (s.merger.hand j).length +
    (s.merger.data j).contents.length) s.merger.coming (s.merger.coming i ++ [b])
  have hcoming (j : ℕ) : (s.merger.carry i b).coming j =
      Function.update s.merger.coming i (s.merger.coming i ++ [b]) j := by
    by_cases hj : j = i
    · subst hj
      simp [Merger.coming, Merger.carry]
    · simp [Merger.coming, Merger.carry, hj]
  rw [List.length_append, List.length_singleton] at hsum
  change ∑ j ∈ Finset.range n, (3 * ((s.merger.carry i b).coming j).length +
    2 * (s.merger.hand j).length + (s.merger.data j).contents.length) =
    ∑ j ∈ Finset.range n, (3 * (s.merger.coming j).length +
      2 * (s.merger.hand j).length + (s.merger.data j).contents.length) + 3
  simp only [hcoming]
  omega

theorem weight_eq_zero (h : s.left n = 0) {i : ℕ} (hi : i < n) :
    s.merger.coming i = [] ∧ s.merger.hand i = [] ∧ (s.merger.data i).contents = [] := by
  have hw := Finset.sum_eq_zero_iff.mp h i (Finset.mem_range.mpr hi)
  rw [weight] at hw
  refine ⟨List.length_eq_zero_iff.mp ?_, List.length_eq_zero_iff.mp ?_,
    List.length_eq_zero_iff.mp ?_⟩ <;> omega

theorem consume_idle (h : s.Inv n) (hc : s.ctrl = .idle) :
    step n s .consume = some { s with ctrl := .get 0 0 } := by
  have hu : s.upper.ctrl = .idle := hc
  change s.consume n = _
  rw [consume, ShuffleUpper1.consume, hu, Option.map_some]
  change some { s with merger := { s.merger with popped := s.upper.taken }, ctrl := _ } = _
  rw [← h.popped]

/-- An attempt that finds nothing. -/
theorem consume_nil (h : s.Inv n) {i k : ℕ} (hc : s.ctrl = .get i k)
    (hnil : (s.merger.data i).contents = []) : step n s .consume = some { s with
      ctrl := if k = 10 then .get (if i + 1 < n then i + 1 else 0) 0 else .get i (k + 1) } := by
  have hu : s.upper.ctrl = .get i k := hc
  have hpop : (s.upper.data i).pop = (none, (s.merger.data i).pop.2) :=
    Prod.ext ((s.merger.data i).pop_eq.1.trans (by rw [hnil, List.head?_nil])) rfl
  have hmerger : { s.merger with data := s.upper.data, popped := s.upper.taken } = s.merger := by
    rw [← h.popped]
    rfl
  change s.consume n = _
  rw [consume, ShuffleUpper1.consume, hu]
  dsimp only
  rw [hpop]
  dsimp only
  by_cases hk : k = 10
  · rw [if_pos hk, if_pos hk]
    exact congrArg some (congrArg (UpperHost.mk · _ _ _) hmerger)
  · rw [if_neg hk, if_neg hk]
    exact congrArg some (congrArg (UpperHost.mk · _ _ _) hmerger)

/-- An attempt that takes a block. -/
theorem consume_cons {i k : ℕ} (hc : s.ctrl = .get i k) (hi : i < n)
    (hne : (s.merger.data i).contents ≠ []) :
    ∃ s', step n s .consume = some s' ∧ s'.left n < s.left n := by
  have hu : s.upper.ctrl = .get i k := hc
  obtain ⟨hp, -, hcont⟩ := (s.merger.data i).pop_eq
  obtain ⟨b, rest, hbs⟩ := List.exists_cons_of_ne_nil hne
  have hpop : (s.upper.data i).pop = (some b, (s.merger.data i).pop.2) :=
    Prod.ext (hp.trans (by rw [hbs, List.head?_cons])) rfl
  rw [hbs, List.tail_cons] at hcont
  generalize (s.merger.data i).pop.2 = q at hpop hcont
  have hdata (t : ShuffleUpper1) : (deliver n i b t).data = t.data := (deliver_eq n i b t).1
  change ∃ s', s.consume n = some s' ∧ _
  rw [consume, ShuffleUpper1.consume, hu]
  dsimp only
  rw [hpop]
  refine ⟨_, rfl, left_lt hi ?_ fun j _ hj => ?_⟩
  · rw [weight, weight]
    dsimp only
    rw [hdata]
    dsimp only
    rw [Function.update_self, hcont, hbs]
    exact Nat.lt_succ_self _
  · rw [weight, weight]
    dsimp only
    rw [hdata]
    dsimp only
    rw [Function.update_of_ne hj]
    exact le_rfl

/-- How many attempts bring the caller of `execute` to column `j`. -/
def attemptsTo (n j : ℕ) (s : UpperHost) : ℕ :=
  match s.ctrl with
  | .get i k => distance n j i k
  | _ => distance n j 0 0 + 1

/-- With a block in column `j` an attempt takes a block, or comes nearer to this column. -/
theorem Sound.consume_nearer (h : s.Sound n) (hrun : s.ctrl ≠ .finished) {j : ℕ} (hj : j < n)
    (hne : (s.merger.data j).contents ≠ []) :
    ∃ s', UpperHost.step n s .consume = some s' ∧ (s'.left n < s.left n ∨
      s'.merger = s.merger ∧ s'.ctrl ≠ .finished ∧ s'.attemptsTo n j < s.attemptsTo n j) := by
  cases hc : s.ctrl with
  | finished => exact absurd hc hrun
  | idle =>
    refine ⟨_, consume_idle h.1 hc, Or.inr ⟨rfl, by simp, ?_⟩⟩
    simp [attemptsTo, hc]
  | get i k =>
    obtain ⟨hi, hk⟩ := h.1.upper.column i k hc
    by_cases hnil : (s.merger.data i).contents = []
    · have hij : i ≠ j := by
        rintro rfl
        exact hne hnil
      have hnear := distance_next hi hj hij hk
      refine ⟨_, consume_nil h.1 hc hnil, Or.inr ⟨rfl, ?_, ?_⟩⟩
      · dsimp only
        split <;> simp
      · by_cases h10 : k = 10
        · simpa [attemptsTo, hc, h10] using hnear.1 h10
        · simpa [attemptsTo, hc, h10] using hnear.2 h10
    · obtain ⟨s', hs', hlt⟩ := consume_cons hc hi hnil
      exact ⟨s', hs', Or.inl hlt⟩

/-- With a block in some column the calls of `execute` take one after some attempts. -/
theorem Sound.consume_takes (hn : 1 ≤ n) (h : s.Sound n) (hrun : s.ctrl ≠ .finished) {j : ℕ}
    (hj : j < n) (hne : (s.merger.data j).contents ≠ []) :
    ∃ s', Leads (UpperHost.step n) (fun _ => True) s s' ∧ s'.Sound n ∧ s'.left n < s.left n := by
  induction hm : s.attemptsTo n j using Nat.strong_induction_on generalizing s with
  | _ m ih =>
    obtain ⟨t, hstep, hcase⟩ := h.consume_nearer hrun hj hne
    have ht : t.Sound n := h.step hn (e := .consume) trivial hstep
    rcases hcase with hlt | ⟨hmerger, hctrl, hnear⟩
    · exact ⟨t, (Leads.refl t).head trivial hstep, ht, hlt⟩
    · have hleft : t.left n = s.left n := by simp only [left, weight, hmerger]
      obtain ⟨s', hleads, hs', hlt⟩ := ih _ (hm ▸ hnear) ht hctrl (by rwa [hmerger]) rfl
      exact ⟨s', hleads.head trivial hstep, hs', hleft ▸ hlt⟩

theorem receive_of_readable {e : Merger.Event} {merger : Merger} (hr : s.Readable e)
    (hm : s.merger.step n e = some merger) :
    step n s (.receive e) = some { s with merger := merger } := by
  change s.receive n e = _
  rw [receive, if_pos hr, hm, Option.map_some]

/-- The receive thread puts the block in its hand into a column with room. -/
theorem Sound.put_hand (hn : 1 ≤ n) (h : s.Sound n) {i : ℕ} (hi : i < n)
    (hhand : s.merger.hand i ≠ []) (hnil : (s.merger.data i).contents = []) :
    ∃ s', Leads (UpperHost.step n) (fun _ => True) s s' ∧ s'.Sound n ∧ s'.left n < s.left n := by
  obtain ⟨fds, k, hc⟩ : ∃ fds k, s.merger.ctrl = .put fds i k := by
    unfold Merger.hand at hhand
    split at hhand
    · next fds j k hc =>
      split at hhand
      · next hj => exact ⟨fds, k, hj ▸ hc⟩
      · exact absurd rfl hhand
    · exact absurd rfl hhand
  obtain ⟨hacc, -, hcont⟩ := (s.merger.data i).push_eq s.merger.block
  have hroom : (s.merger.data i).contents.length < (s.merger.data i).queueCapacity := by
    have hcap : (s.merger.data i).queueCapacity = columnCon := h.1.upper.capacity i
    rw [hnil, hcap]
    decide
  have hpush := hacc.mpr hroom
  rw [if_pos hpush, hnil, List.nil_append] at hcont
  let put := { s.merger with
    data := Function.update s.merger.data i ((s.merger.data i).push s.merger.block).2 }
  have hstep : s.merger.step n .receive = some (Merger.afterPut n fds i put) := by
    simp only [Merger.step, Merger.receive, hc, hpush, if_true]
    rfl
  have hp : s.Patient (.receive .receive) := by
    intro fds' i' _ hc'
    rw [hc] at hc'
    cases hc'
    exact hroom
  obtain ⟨-, harr, hcar, -, hdata, -, hctrl⟩ := Merger.afterPut_effect n fds i put
  have hdata' : (Merger.afterPut n fds i put).data =
      Function.update s.merger.data i ((s.merger.data i).push s.merger.block).2 := hdata
  have hcoming (j : ℕ) : (Merger.afterPut n fds i put).coming j = s.merger.coming j := by
    rw [Merger.coming, harr, hcar]
    rfl
  have hempty (j : ℕ) : (Merger.afterPut n fds i put).hand j = [] := by
    apply Merger.hand_of_ne
    intro _ _ _ hp'
    rcases hctrl with ⟨l, hl⟩ | ⟨hl, -⟩ <;> rw [hl] at hp' <;> cases hp'
  have hrun := receive_of_readable (s := s) (e := .receive) trivial hstep
  refine ⟨_, (Leads.refl _).head trivial hrun, h.step hn hp hrun, left_lt hi ?_ fun j _ hj => ?_⟩
  · rw [weight, weight]
    dsimp only
    rw [hcoming, hempty, hdata', Function.update_self, hcont, hnil]
    have := List.length_pos_of_ne_nil hhand
    simp only [List.length_nil, List.length_singleton]
    omega
  · rw [weight, weight]
    dsimp only
    rw [hcoming, hempty, hdata', Function.update_of_ne hj]
    simp

/-- In `select`, or in the loop over the connections. -/
def Scanning (s : UpperHost) : Prop :=
  s.merger.ctrl = .select ∨ ∃ fds j, s.merger.ctrl = .scan fds j

theorem Scanning.hand_eq (h : s.Scanning) (i : ℕ) : s.merger.hand i = [] := by
  apply Merger.hand_of_ne
  rcases h with hc | ⟨fds, j, hc⟩ <;> simp [hc]

theorem Scanning.patient (h : s.Scanning) (e : Merger.Event) : s.Patient (.receive e) := by
  intro fds i _ hc
  rcases h with hc' | ⟨fds', j, hc'⟩ <;> cases hc'.symm.trans hc

/-- How many steps bring the receive thread to connection `i`. -/
def stepsTo (n i : ℕ) (s : UpperHost) : ℕ :=
  match s.merger.ctrl with
  | .scan fds j => if fds = [i] ∧ j ≤ i then i - j + 1 else n - j + n + 3
  | _ => n + 2

/-- A block that has arrived is received. -/
theorem Sound.receive_block (hn : 1 ≤ n) (h : s.Sound n) {fds : List ℕ} {j : ℕ}
    (hc : s.merger.ctrl = .scan fds j) (hj : j < n) (hmem : j ∈ fds)
    (harr : s.merger.arrived j ≠ []) :
    ∃ s', Leads (UpperHost.step n) (fun _ => True) s s' ∧ s'.Sound n ∧ s'.left n < s.left n := by
  obtain ⟨b, rest, hb⟩ := List.exists_cons_of_ne_nil harr
  have hscan : s.Scanning := Or.inr ⟨fds, j, hc⟩
  have hrun := receive_of_readable (s := s) (e := .receive) trivial
    (Merger.receive_block hc hj hmem hb)
  refine ⟨_, (Leads.refl _).head trivial hrun, h.step hn (hscan.patient _) hrun,
    left_lt hj ?_ fun l _ hl => ?_⟩
  · rw [weight, weight, hscan.hand_eq, Merger.hand_put rfl, if_pos rfl, Merger.coming,
      Merger.coming]
    dsimp only
    rw [Function.update_self, hb]
    simp only [List.length_append, List.length_cons, List.length_nil]
    omega
  · rw [weight, weight, hscan.hand_eq, Merger.hand_put rfl, if_neg (Ne.symm hl), Merger.coming,
      Merger.coming]
    dsimp only
    rw [Function.update_of_ne hl]

/-- With a block on connection `i`, the receive thread gets a block or comes nearer to it. -/
theorem Sound.fetch_nearer (hn : 1 ≤ n) (h : s.Sound n) (hscan : s.Scanning) {i : ℕ} (hi : i < n)
    (hcoming : s.merger.coming i ≠ []) :
    (∃ s', Leads (UpperHost.step n) (fun _ => True) s s' ∧ s'.Sound n ∧ s'.left n < s.left n) ∨
      ∃ e s', UpperHost.step n s (.receive e) = some s' ∧ s'.Scanning ∧
        s'.merger.coming = s.merger.coming ∧ s'.merger.data = s.merger.data ∧ s'.ctrl = s.ctrl ∧
        s'.stepsTo n i < s.stepsTo n i := by
  rcases hscan with hc | ⟨fds, j, hc⟩
  · right
    have hread : s.Readable (.select [i]) := by
      intro l hl
      rw [List.mem_singleton.mp hl]
      exact hcoming
    have hstep : s.merger.step n (.select [i]) = some { s.merger with ctrl := .scan [i] 0 } := by
      simp [Merger.step, hc]
    refine ⟨_, _, receive_of_readable hread hstep, Or.inr ⟨_, _, rfl⟩, rfl, rfl, rfl, ?_⟩
    simp only [stepsTo, hc, Nat.zero_le, and_self, if_true]
    omega
  by_cases hj : j < n
  · by_cases hmem : j ∈ fds
    · by_cases hnil : s.merger.coming j = []
      · right
        refine ⟨_, _, receive_of_readable (s := s) (e := .receive) trivial
          (Merger.receive_closed hc hj hmem hnil), Or.inl rfl, rfl, rfl, rfl, ?_⟩
        have hne : ¬ (fds = [i] ∧ j ≤ i) := by
          rintro ⟨rfl, -⟩
          rw [List.mem_singleton.mp hmem] at hnil
          exact hcoming hnil
        simp only [stepsTo, hc, if_neg hne]
        omega
      · left
        by_cases harr : s.merger.arrived j = []
        · -- the block has to arrive first
          obtain ⟨b, rest, hb⟩ : ∃ b rest, s.merger.carried j = b :: rest := by
            apply List.exists_cons_of_ne_nil
            intro hcar
            exact hnil (by rw [Merger.coming, harr, hcar]; rfl)
          have hstep : s.merger.step n (.arrive j) = some { s.merger with
              carried := Function.update s.merger.carried j rest
              arrived := Function.update s.merger.arrived j (s.merger.arrived j ++ [b]) } := by
            simp [Merger.step, hb]
          have hrun := receive_of_readable (s := s) (e := .arrive j) trivial hstep
          have hscan : s.Scanning := Or.inr ⟨fds, j, hc⟩
          obtain ⟨s', hleads, hs', hlt⟩ := (h.step hn (hscan.patient _) hrun).receive_block hn hc hj
            hmem (by simp)
          refine ⟨s', hleads.head trivial hrun, hs', lt_of_lt_of_eq hlt ?_⟩
          apply Finset.sum_congr rfl
          intro l _
          rw [weight, weight, hscan.hand_eq, Merger.hand_of_ne (by simp [hc])]
          congr 3
          by_cases hl : l = j
          · subst hl
            simp [Merger.coming, hb]
          · simp [Merger.coming, hl]
        · exact h.receive_block hn hc hj hmem harr
    · right
      refine ⟨_, _, receive_of_readable (s := s) (e := .receive) trivial
        (Merger.receive_skip hc hj hmem), Or.inr ⟨_, _, rfl⟩, rfl, rfl, rfl, ?_⟩
      simp only [stepsTo, hc]
      by_cases hto : fds = [i] ∧ j ≤ i
      · obtain ⟨rfl, hle⟩ := hto
        have hne : j ≠ i := fun heq => hmem (by simp [heq])
        rw [if_pos ⟨rfl, by omega⟩, if_pos ⟨rfl, hle⟩]
        omega
      · rw [if_neg hto, if_neg fun hto' => hto ⟨hto'.1, by omega⟩]
        omega
  · right
    refine ⟨_, _, receive_of_readable (s := s) (e := .receive) trivial
      (Merger.receive_end hc hj), Or.inl rfl, rfl, rfl, rfl, ?_⟩
    have hne : ¬ (fds = [i] ∧ j ≤ i) := by omega
    simp only [stepsTo, hc, if_neg hne]
    omega

theorem Sound.fetch (hn : 1 ≤ n) (h : s.Sound n) (hscan : s.Scanning) {i : ℕ} (hi : i < n)
    (hcoming : s.merger.coming i ≠ []) :
    ∃ s', Leads (UpperHost.step n) (fun _ => True) s s' ∧ s'.Sound n ∧ s'.left n < s.left n := by
  induction hm : s.stepsTo n i using Nat.strong_induction_on generalizing s with
  | _ m ih =>
    rcases h.fetch_nearer hn hscan hi hcoming with hdone | ⟨e, t, hstep, ht, hsame, hdata, -, hnear⟩
    · exact hdone
    · have hleft : t.left n = s.left n := by
        simp only [left, weight, hsame, hdata, ht.hand_eq, hscan.hand_eq]
      obtain ⟨s', hleads, hs', hlt⟩ := ih _ (hm ▸ hnear) (h.step hn (hscan.patient e) hstep) ht
        (by rwa [hsame]) rfl
      exact ⟨s', hleads.head trivial hstep, hs', hleft ▸ hlt⟩

/-- As long as blocks are on their way to the caller of `execute`, some steps bring one of them
a hop further. -/
theorem Sound.progress (hn : 1 ≤ n) (h : s.Sound n) (hrun : s.ctrl ≠ .finished)
    (hopen : s.merger.ctrl = .returned → ∀ i < n, s.merger.coming i = []) (hleft : s.left n ≠ 0) :
    ∃ s', Leads (UpperHost.step n) (fun _ => True) s s' ∧ s'.Sound n ∧ s'.left n < s.left n := by
  by_cases hdata : ∃ j < n, (s.merger.data j).contents ≠ []
  · obtain ⟨j, hj, hne⟩ := hdata
    exact h.consume_takes hn hrun hj hne
  push Not at hdata
  by_cases hhand : ∃ i < n, s.merger.hand i ≠ []
  · obtain ⟨i, hi, hne⟩ := hhand
    exact h.put_hand hn hi hne (hdata i hi)
  push Not at hhand
  obtain ⟨i, hi, hne⟩ : ∃ i < n, s.merger.coming i ≠ [] := by
    by_contra hall
    push Not at hall
    apply hleft
    apply Finset.sum_eq_zero
    intro i hi
    have hi := Finset.mem_range.mp hi
    rw [weight, hall i hi, hhand i hi, hdata i hi]
    rfl
  refine h.fetch hn ?_ hi hne
  cases hc : s.merger.ctrl with
  | select => exact Or.inl hc
  | scan fds j => exact Or.inr ⟨fds, j, hc⟩
  | returned => exact absurd (hopen hc i hi) hne
  | put fds j k =>
    obtain ⟨settled, hm⟩ := h.1.merger
    have hj := hm.column fds j k hc
    have hhand := hhand j hj
    rw [Merger.hand_put hc, if_pos rfl] at hhand
    cases hhand

end Progress
end UpperHost
end Mosito
