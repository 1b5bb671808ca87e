import Mosito.Common.BlockCircleQueue
import Mosito.Common.BlockStream
import Mosito.Lib.Runs

/-! The receive thread that keeps a block for each connection. A connection is listened to again
only when its block was put into the producer-consumer buffer. -/
namespace Mosito
open Runs

/-- Where `m_receive_select1` is: in `select`, before connection `i` of the loop that reads or of
the loop that puts, in `put` after `seconds` refused pushes, returned, or ended by `exit`. -/
inductive Receiving1 where
  | select
  | read (i : ℕ)
  | offer (i : ℕ)
  | put (i seconds : ℕ)
  | returned
  | exited
  deriving DecidableEq

/-- `recvData` is `data_`, `data` are the columns of the buffer. The connections still carry
`carried`; `received` and `popped` are the histories of `recv` and of the consumer. -/
structure Merger1 where
  ctrl : Receiving1
  fds : ℕ → Bool
  blocks : ℕ → Block
  finishes : ℕ → Bool
  countA : ℕ
  meetZero : ℕ
  recvData : Image
  data : ℕ → BlockCircleQueue
  carried : ℕ → List Image
  received : ℕ → List Image
  popped : ℕ → List Image

namespace Merger1

/-- What can happen next: the consumer tries to pop, `select` returns with the connections of
`ready` among those it listens to, or with -1, or the receiver goes on. -/
inductive Event where
  | pop (i : ℕ)
  | select (ready : ℕ → Bool)
  | fail
  | receive

/-- `recv` of connection `i` into `data_`; on a closed connection it leaves `data_` as it is. -/
def recv (i : ℕ) (s : Merger1) : Merger1 :=
  match s.carried i with
  | [] => s
  | b :: rest => { s with
      recvData := b
      carried := Function.update s.carried i rest
      received := Function.update s.received i (s.received i ++ [b]) }

def storeBlock (i : ℕ) (s : Merger1) : Merger1 :=
  { s with blocks := Function.update s.blocks i ((s.blocks i).storeBlock s.recvData.mem blockSize) }

/-- `countA++; FD_SET(map_lower_[i], &fds);` -/
def listen (i : ℕ) (s : Merger1) : Merger1 :=
  { s with countA := s.countA + 1, fds := Function.update s.fds i true }

/-- The rest of a round after a `put` that succeeded. -/
def afterPut (n i : ℕ) (s : Merger1) : Merger1 :=
  if (s.blocks i).getSize = 0 then
    { s with
      finishes := Function.update s.finishes i true
      meetZero := s.meetZero + 1
      ctrl := if s.meetZero + 1 = n then .returned else .offer (i + 1) }
  else
    listen i { s with
      blocks := Function.update s.blocks i (s.blocks i).reset
      ctrl := .offer (i + 1) }

/-- A step of `m_receive_select1`; `none` while it waits. -/
def receive (n : ℕ) (s : Merger1) : Option Merger1 :=
  match s.ctrl with
  | .read i =>
      if i < n then
        if s.fds i then some { storeBlock i (recv i s) with ctrl := .read (i + 1) }
        else some { s with ctrl := .read (i + 1) }
      else some { s with fds := fun _ => false, countA := 0, ctrl := .offer 0 }
  | .offer i =>
      if i < n then
        if s.finishes i then some { s with ctrl := .offer (i + 1) }
        else if (s.blocks i).empty then some { listen i s with ctrl := .offer (i + 1) }
        else some { s with ctrl := .put i 0 }
      else if s.countA ≠ 0 then some { s with ctrl := .select }
      else some { s with ctrl := .offer 0 }
  | .put i seconds =>
      let r := (s.data i).push (s.blocks i).image
      if r.1 then some (afterPut n i { s with data := Function.update s.data i r.2 })
      else if seconds = 10 then some { s with ctrl := .offer (i + 1) }
      else some { s with ctrl := .put i (seconds + 1) }
  | _ => none

def step (n : ℕ) (s : Merger1) : Event → Option Merger1
  | .pop i =>
      let r := (s.data i).pop
      some { s with
        data := Function.update s.data i r.2
        popped := Function.update s.popped i (s.popped i ++ r.1.toList) }
  | .select ready =>
      match s.ctrl with
      | .select => some { s with fds := fun i => s.fds i && ready i, ctrl := .read 0 }
      | _ => none
  | .fail =>
      match s.ctrl with
      | .select => some { s with ctrl := .exited }
      | _ => none
  | .receive => s.receive n

/-- The connections carry `stream`, the columns are empty, and all `n` connections are listened
to. `junk` is what the new blocks hold. -/
def start (n t : ℕ) (junk : ℕ → ByteStore.Memory) (store : ℕ → ℕ → Block)
    (stream : ℕ → List Image) (recvData : Image) : Merger1 where
  ctrl := .select
  fds i := decide (i < n)
  blocks i := Block.make (junk i) blockSize t
  finishes _ := false
  countA := 0
  meetZero := 0
  recvData := recvData
  data i := BlockCircleQueue.make (store i) columnCon
  carried := stream
  received _ := []
  popped _ := []

/-- The blocks that were put into column `i`, those already popped included. -/
def enqueued (s : Merger1) (i : ℕ) : List Image := s.popped i ++ (s.data i).contents

/-- The block of connection `i` that waits to be put. -/
def waiting (s : Merger1) (i : ℕ) : List Image :=
  if s.finishes i || (s.blocks i).empty then [] else [(s.blocks i).image]

/-- The next step reads connection `i`. -/
def Reads (n : ℕ) (s : Merger1) (i : ℕ) : Prop := s.ctrl = .read i ∧ i < n ∧ s.fds i = true

/-- Connection `i` is listened to, and was not yet read since. -/
def Listened (s : Merger1) (i : ℕ) : Prop := s.fds i = true ∧ ∀ k, s.ctrl = .read k → k ≤ i

/-- Nothing of connection `i` waits, and its empty block has not come. -/
def Idle (s : Merger1) (i : ℕ) : Prop := s.finishes i = false ∧ (s.blocks i).empty = true

/-- What links the listened connections, the waiting blocks and the finished connections. -/
structure Inv (n : ℕ) (stream : ℕ → List Image) (s : Merger1) : Prop where
  flow : ∀ i, stream i = s.received i ++ s.carried i
  size : ∀ i, (s.blocks i).size = blockSize
  split : ∀ i < n, s.received i = s.enqueued i ++ s.waiting i
  zero : ∀ i < n, zeros (s.enqueued i) = (s.finishes i).toNat
  met : s.meetZero = ∑ i ∈ Finset.range n, zeros (s.enqueued i)
  listened : ∀ i, s.Listened i → i < n ∧ s.Idle i
  column : ∀ i k, s.ctrl = .put i k → i < n ∧ s.finishes i = false ∧ (s.blocks i).empty = false
  final : s.ctrl = .returned ↔ s.meetZero = n

section Step
variable {n : ℕ} {stream : ℕ → List Image} {s s' : Merger1} {e : Event} {i : ℕ}

theorem inv_start (hn : 1 ≤ n) (t : ℕ) (junk : ℕ → ByteStore.Memory) (store : ℕ → ℕ → Block)
    (stream : ℕ → List Image) (recvData : Image) :
    Inv n stream (start n t junk store stream recvData) where
  flow _ := rfl
  size _ := rfl
  split _ _ := rfl
  zero _ _ := rfl
  met := by simp [start, enqueued]
  listened i h := ⟨of_decide_eq_true h.1, rfl, rfl⟩
  column _ _ h := by cases h
  final := ⟨fun h => (by cases h), fun h => absurd (show 0 = n from h) (by omega)⟩

/-- A step that leaves the blocks and the histories alone. -/
theorem Inv.move (h : Inv n stream s) (hrec : s'.received = s.received)
    (hcar : s'.carried = s.carried) (hblocks : s'.blocks = s.blocks)
    (hfin : s'.finishes = s.finishes) (hmet : s'.meetZero = s.meetZero)
    (henq : ∀ j, s'.enqueued j = s.enqueued j)
    (hopen : ∀ j, s'.Listened j → j < n ∧ s.Idle j)
    (hcol : ∀ j k, s'.ctrl = .put j k → j < n ∧ s.finishes j = false ∧ (s.blocks j).empty = false)
    (hret : s'.ctrl = .returned ↔ s.ctrl = .returned) : Inv n stream s' where
  flow j := by rw [hrec, hcar]; exact h.flow j
  size j := by rw [hblocks]; exact h.size j
  split j hj := by
    rw [hrec, henq, waiting, hfin, hblocks]
    exact h.split j hj
  zero j hj := by rw [henq, hfin]; exact h.zero j hj
  met := by simp only [hmet, henq]; exact h.met
  listened j hj := by rw [Idle, hfin, hblocks]; exact hopen j hj
  column j k hk := by rw [hfin, hblocks]; exact hcol j k hk
  final := by rw [hret, hmet]; exact h.final

/-- A listened connection still carries a block: its stream has not ended. -/
theorem Inv.carried_ne (h : Inv n stream s) (hclosed : ∀ i < n, Closed (stream i)) (hi : i < n)
    (hidle : s.Idle i) : s.received i = s.enqueued i ∧ s.carried i ≠ [] := by
  have hwait : s.waiting i = [] := by simp [waiting, hidle.2]
  have hrec := h.split i hi
  rw [hwait, List.append_nil] at hrec
  refine ⟨hrec, fun hnil => ?_⟩
  have hall := h.flow i
  rw [hnil, List.append_nil, hrec] at hall
  obtain ⟨data, z, hstream, hz, -⟩ := hclosed i hi
  have hzero := h.zero i hi
  rw [← hall, hstream, zeros_append, zeros_singleton, if_pos hz, hidle.1] at hzero
  simp at hzero

/-- Outside of the reading loop every listened connection is idle. -/
theorem Inv.idle (h : Inv n stream s) (hc : ∀ k, s.ctrl ≠ .read k) {j : ℕ} (hj : s.fds j = true) :
    j < n ∧ s.Idle j := h.listened j ⟨hj, fun k hk => absurd hk (hc k)⟩

/-- A connection is read. -/
theorem Inv.read (h : Inv n stream s) (hclosed : ∀ i < n, Closed (stream i))
    (hr : s.Reads n i) : Inv n stream { storeBlock i (recv i s) with ctrl := .read (i + 1) } := by
  obtain ⟨hc, hi, hfd⟩ := hr
  have hread (k : ℕ) (hk : s.ctrl = .read k) : k = i := by
    rw [hc] at hk
    cases hk
    rfl
  obtain ⟨-, hidle⟩ := h.listened i ⟨hfd, fun k hk => (hread k hk).le⟩
  obtain ⟨hrec, hne⟩ := h.carried_ne hclosed hi hidle
  obtain ⟨b, rest, hcar⟩ := List.exists_cons_of_ne_nil hne
  have hrecv : recv i s = { s with
      recvData := b
      carried := Function.update s.carried i rest
      received := Function.update s.received i (s.received i ++ [b]) } := by
    simp only [recv, hcar]
  rw [hrecv]
  refine ⟨fun j => ?_, fun j => ?_, fun j hj => ?_, h.zero, h.met, fun j hj => ?_,
    fun _ _ hk => (by cases hk), ?_⟩
  · rcases eq_or_ne j i with rfl | hji
    · simpa [storeBlock, hcar] using h.flow j
    · simpa [storeBlock, hji] using h.flow j
  · rcases eq_or_ne j i with rfl | hji
    · simpa [storeBlock, Block.storeBlock] using h.size j
    · simpa [storeBlock, hji] using h.size j
  · rcases eq_or_ne j i with rfl | hji
    · have hfull : ((s.blocks j).storeBlock b.mem blockSize).empty = false := rfl
      simp [storeBlock, waiting, hidle.1, hrec, enqueued, hfull]
    · simpa [storeBlock, waiting, enqueued, hji] using h.split j hj
  · have hlt : i + 1 ≤ j := hj.2 (i + 1) rfl
    have hji : j ≠ i := by omega
    have hold := h.listened j ⟨hj.1, fun k hk => by rw [hread k hk]; omega⟩
    simpa [Idle, storeBlock, hji] using hold
  · have hfinal := h.final
    rw [hc] at hfinal
    simpa [storeBlock] using hfinal

/-- A step after which one more block is in column `i` and none waits. -/
theorem Inv.enqueue (h : Inv n stream s) (hi : i < n) {b : Image}
    (hput : s.received i = s.enqueued i ++ [b]) (hrec : s'.received = s.received)
    (hcar : s'.carried = s.carried)
    (henq : s'.enqueued = Function.update s.enqueued i (s.enqueued i ++ [b]))
    (hothers : ∀ j, j ≠ i → s'.finishes j = s.finishes j ∧ s'.blocks j = s.blocks j)
    (hsize : (s'.blocks i).size = blockSize) (hdone : s'.waiting i = [])
    (hzero : zeros (s.enqueued i ++ [b]) = (s'.finishes i).toNat)
    (hmet : s'.meetZero = s.meetZero + zeros [b])
    (hlist : ∀ j, s'.Listened j → j < n ∧ s'.Idle j) (hcol : ∀ j k, s'.ctrl ≠ .put j k)
    (hfinal : s'.ctrl = .returned ↔ s'.meetZero = n) : Inv n stream s' := by
  refine ⟨fun j => by rw [hrec, hcar]; exact h.flow j, fun j => ?_, fun j hj => ?_, fun j hj => ?_,
    ?_, hlist, fun j k hk => absurd hk (hcol j k), hfinal⟩
  · rcases eq_or_ne j i with rfl | hji
    · exact hsize
    · rw [(hothers j hji).2]
      exact h.size j
  · rw [hrec, henq]
    rcases eq_or_ne j i with rfl | hji
    · rw [hdone, Function.update_self, hput, List.append_nil]
    · rw [Function.update_of_ne hji, waiting, (hothers j hji).1, (hothers j hji).2]
      exact h.split j hj
  · rw [henq]
    rcases eq_or_ne j i with rfl | hji
    · rw [Function.update_self, hzero]
    · rw [Function.update_of_ne hji, (hothers j hji).1]
      exact h.zero j hj
  · rw [henq, hmet, h.met, sum_zeros_update hi]

/-- The block of column `i` is put. -/
theorem Inv.put {k : ℕ} (h : Inv n stream s) (hc : s.ctrl = .put i k) {q : BlockCircleQueue}
    (hq : q.contents = (s.data i).contents ++ [(s.blocks i).image]) :
    Inv n stream (afterPut n i { s with data := Function.update s.data i q }) := by
  obtain ⟨hi, hfin, hfull⟩ := h.column i k hc
  have hput : s.received i = s.enqueued i ++ [(s.blocks i).image] := by
    rw [h.split i hi, waiting, hfin, hfull]
    rfl
  have hcount := Block.getSize_eq_count (h.size i)
  have hzero := h.zero i hi
  rw [hfin, Bool.toNat_false] at hzero
  have hopen : s.meetZero ≠ n := fun hmet => by
    rw [← h.final, hc] at hmet
    cases hmet
  have hfds (j : ℕ) (hj : s.fds j = true) : j < n ∧ s.Idle j := h.idle (by simp [hc]) hj
  have henq (t : Merger1) (hpop : t.popped = s.popped)
      (hdata : t.data = Function.update s.data i q) :
      t.enqueued = Function.update s.enqueued i (s.enqueued i ++ [(s.blocks i).image]) := by
    funext j
    rw [enqueued, hpop, hdata]
    rcases eq_or_ne j i with rfl | hji
    · simp [hq, enqueued]
    · simp [hji, enqueued]
  unfold afterPut
  split
  · next hz =>
    replace hz : (s.blocks i).image.count = 0 := hcount.symm.trans hz
    refine h.enqueue hi hput rfl rfl (henq _ rfl rfl) (fun j hji => ?_) (h.size i) ?_ ?_ ?_
      (fun j hj => ?_) (fun j k hk => ?_) ?_
    · exact ⟨Function.update_of_ne hji _ _, rfl⟩
    · simp [waiting]
    · simp [zeros_append, zeros_singleton, hz, hzero]
    · simp [zeros_singleton, hz]
    · -- the connection itself is not listened to, since its block waited
      obtain ⟨hjn, hidle⟩ := hfds j hj.1
      have hji : j ≠ i := fun hji => by
        rw [hji, Idle, hfull] at hidle
        cases hidle.2
      exact ⟨hjn, by simpa [Idle, hji] using hidle⟩
    · dsimp only at hk
      split_ifs at hk
    · dsimp only
      split_ifs with hlast
      · simpa using hlast
      · simpa using hlast
  · next hz =>
    replace hz : (s.blocks i).image.count ≠ 0 := fun hz' => hz (hcount.trans hz')
    refine h.enqueue hi hput rfl rfl (henq _ rfl rfl) (fun j hji => ?_) ?_ ?_ ?_ ?_
      (fun j hj => ?_) (fun j k hk => ?_) ?_
    · exact ⟨rfl, Function.update_of_ne hji _ _⟩
    · simpa [listen, Block.reset] using h.size i
    · simp [waiting, listen, Block.reset, Block.empty]
    · simp [listen, zeros_append, zeros_singleton, hz, hzero, hfin]
    · simp [listen, zeros_singleton, hz]
    · rcases eq_or_ne j i with rfl | hji
      · exact ⟨hi, hfin, by simp [listen, Block.reset, Block.empty]⟩
      · have hfd : s.fds j = true := by simpa [listen, hji] using hj.1
        simpa [Idle, listen, hji] using hfds j hfd
    · cases hk
    · simpa [listen] using hopen

/-- A column is looked at: what it holds is put, or the connection is listened to again. -/
theorem Inv.offer (h : Inv n stream s) (hc : s.ctrl = .offer i) (hs : s.receive n = some s') :
    Inv n stream s' := by
  have hfds (j : ℕ) (hj : s.fds j = true) : j < n ∧ s.Idle j := h.idle (by simp [hc]) hj
  simp only [receive, hc] at hs
  split_ifs at hs with hi hfin hempty hcount <;> rw [Option.some.injEq] at hs <;> subst hs
  · exact h.move rfl rfl rfl rfl rfl (fun _ => rfl) (fun j hj => hfds j hj.1) (by simp)
      (by simp [hc])
  · refine h.move rfl rfl rfl rfl rfl (fun _ => rfl) (fun j hj => ?_) (by simp) (by simp [hc])
    rcases eq_or_ne j i with rfl | hji
    · exact ⟨hi, by simpa using hfin, hempty⟩
    · exact hfds j (by simpa [listen, hji] using hj.1)
  · refine h.move rfl rfl rfl rfl rfl (fun _ => rfl) (fun j hj => hfds j hj.1)
      (fun j k hk => ?_) (by simp [hc])
    cases hk
    exact ⟨hi, by simpa using hfin, by simpa using hempty⟩
  · exact h.move rfl rfl rfl rfl rfl (fun _ => rfl) (fun j hj => hfds j hj.1) (by simp)
      (by simp [hc])
  · exact h.move rfl rfl rfl rfl rfl (fun _ => rfl) (fun j hj => hfds j hj.1) (by simp)
      (by simp [hc])

theorem Inv.receive (h : Inv n stream s) (hclosed : ∀ i < n, Closed (stream i))
    (hs : s.receive n = some s') : Inv n stream s' := by
  cases hc : s.ctrl with
  | select => simp [Merger1.receive, hc] at hs
  | returned => simp [Merger1.receive, hc] at hs
  | exited => simp [Merger1.receive, hc] at hs
  | offer i => exact h.offer hc hs
  | read i =>
    simp only [Merger1.receive, hc] at hs
    split_ifs at hs with hi hfd <;> rw [Option.some.injEq] at hs <;> subst hs
    · exact h.read hclosed ⟨hc, hi, hfd⟩
    · refine h.move rfl rfl rfl rfl rfl (fun _ => rfl) (fun j hj => ?_) (by simp) (by simp [hc])
      refine h.listened j ⟨hj.1, fun k hk => ?_⟩
      have hlt := hj.2 (i + 1) rfl
      rw [hc] at hk
      cases hk
      omega
    · exact h.move rfl rfl rfl rfl rfl (fun _ => rfl) (fun j hj => by cases hj.1) (by simp)
        (by simp [hc])
  | put i k =>
    have hfds (j : ℕ) (hj : s.fds j = true) : j < n ∧ s.Idle j := h.idle (by simp [hc]) hj
    obtain ⟨-, -, hcont⟩ := (s.data i).push_eq (s.blocks i).image
    simp only [Merger1.receive, hc] at hs
    split_ifs at hs with hpush hten <;> rw [Option.some.injEq] at hs <;> subst hs
    · rw [if_pos hpush] at hcont
      exact h.put hc hcont
    · exact h.move rfl rfl rfl rfl rfl (fun _ => rfl) (fun j hj => hfds j hj.1) (by simp)
        (by simp [hc])
    · refine h.move rfl rfl rfl rfl rfl (fun _ => rfl) (fun j hj => hfds j hj.1)
        (fun j k' hk => ?_) (by simp [hc])
      cases hk
      exact h.column i k hc

/-- Every step keeps the links. -/
theorem Inv.step (h : Inv n stream s) (hclosed : ∀ i < n, Closed (stream i))
    (hs : step n s e = some s') : Inv n stream s' := by
  cases e with
  | receive => exact h.receive hclosed hs
  | pop i =>
    obtain ⟨hp, -, hcont⟩ := (s.data i).pop_eq
    rw [Merger1.step, Option.some.injEq] at hs
    subst hs
    refine h.move rfl rfl rfl rfl rfl (fun j => ?_) h.listened h.column Iff.rfl
    rcases eq_or_ne j i with rfl | hji
    · simp only [enqueued, Function.update_self, hp, hcont]
      cases (s.data j).contents <;> simp
    · simp [enqueued, hji]
  | select ready =>
    rw [Merger1.step] at hs
    split at hs
    · next hc =>
      cases hs
      refine h.move rfl rfl rfl rfl rfl (fun _ => rfl) (fun j hj => ?_) (by simp) (by simp [hc])
      have hfd := hj.1
      simp only [Bool.and_eq_true] at hfd
      exact h.idle (by simp [hc]) hfd.1
    · cases hs
  | fail =>
    rw [Merger1.step] at hs
    split at hs
    · next hc =>
      cases hs
      exact h.move rfl rfl rfl rfl rfl (fun _ => rfl)
        (fun j hj => h.idle (by simp [hc]) hj.1) (by simp) (by simp [hc])
    · cases hs

/-- In every run, a connection is read only when nothing of it waits, the columns hold first
blocks of what was received, and the receiver has returned exactly when they hold all. -/
theorem receiveSelect1_backpressured (hn : 1 ≤ n) (hclosed : ∀ i < n, Closed (stream i)) {t : ℕ}
    {junk : ℕ → ByteStore.Memory} {store : ℕ → ℕ → Block} {recvData : Image} {events : List Event}
    (hrun : run (Merger1.step n) (start n t junk store stream recvData) events = some s) :
    (∀ i, s.Reads n i → s.enqueued i = s.received i ∧ s.carried i ≠ []) ∧
      (∀ i < n, s.enqueued i <+: s.received i ∧ s.received i ++ s.carried i = stream i) ∧
      (s.ctrl = .returned ↔ ∀ i < n, s.enqueued i = stream i) := by
  have h : Inv n stream s :=
    inv (fun _ _ _ hi hs => hi.step hclosed hs) hrun (inv_start hn t junk store stream recvData)
  have hpre (i : ℕ) (hi : i < n) : s.enqueued i <+: s.received i := by
    rw [h.split i hi]
    exact List.prefix_append _ _
  refine ⟨fun i hr => ?_, fun i hi => ⟨hpre i hi, (h.flow i).symm⟩, ?_⟩
  · have hlist : s.Listened i := ⟨hr.2.2, fun k hk => by
      rw [hr.1] at hk
      cases hk
      exact le_rfl⟩
    obtain ⟨hrec, hne⟩ := h.carried_ne hclosed hr.2.1 (h.listened i hlist).2
    exact ⟨hrec.symm, hne⟩
  · rw [h.final, h.met]
    constructor
    · intro hmet i hi
      refine taken_all hclosed (fun j hj => (hpre j hj).trans ?_) hmet hi
      rw [h.flow j]
      exact List.prefix_append _ _
    · intro hall
      have hone (i : ℕ) (hi : i ∈ Finset.range n) : zeros (s.enqueued i) = 1 := by
        have hin := Finset.mem_range.mp hi
        obtain ⟨data, z, hstream, hz, hdata⟩ := hclosed i hin
        have hnone : zeros data = 0 := by simpa [zeros, List.countP_eq_zero] using hdata
        rw [hall i hin, hstream, zeros_append, hnone, zeros_singleton, if_pos hz]
      rw [Finset.sum_congr rfl hone]
      simp

end Step

/-- A connection with more data blocks than a column has room for, and one with a single one. -/
def twoStreams (i : ℕ) : List Image :=
  if i = 0 then List.replicate 21 (oneTuple 7) ++ [noTuple] else [oneTuple 3, noTuple]

def twoBlocks : Merger1 := start 2 16 (fun _ _ => 0)
  (fun _ _ => Block.make (fun _ => 0) blockSize 0) twoStreams noTuple

/-- A call of `select`, and the receiver goes on. -/
def goOn (steps : ℕ) : List Event := .select (fun _ => true) :: List.replicate steps .receive

/-- Until the first column refuses the block that it has no room for. -/
def refusedEvents : List Event :=
  goOn 8 ++ goOn 8 ++ (List.replicate 18 (goOn 7)).flatten ++ goOn 14

/-- The consumer makes room for the two blocks that are left. -/
def twoBlocksEvents : List Event :=
  refusedEvents ++ List.replicate 3 .receive ++ .pop 0 :: List.replicate 4 .receive ++
    .pop 0 :: goOn 5

theorem receiveSelect1_backpressured_two :
    ((run (step 2) twoBlocks refusedEvents).map Merger1.ctrl = some (.put 0 10)) ∧
      ∃ s, run (step 2) twoBlocks twoBlocksEvents = some s ∧ s.ctrl = .returned ∧
        s.enqueued 0 = twoStreams 0 ∧ s.enqueued 1 = twoStreams 1 := by
  have hfinal : (run (step 2) twoBlocks twoBlocksEvents).map Merger1.ctrl = some .returned := by
    decide +kernel
  obtain ⟨s, hrun, hret⟩ := Option.map_eq_some_iff.mp hfinal
  have hclosed (i : ℕ) (_ : i < 2) : Closed (twoStreams i) := by
    unfold twoStreams
    split_ifs
    · exact ⟨_, noTuple, rfl, by decide, fun b hb => by
        rw [List.eq_of_mem_replicate hb, oneTuple_count]
        decide⟩
    · exact ⟨[oneTuple 3], noTuple, rfl, by decide, by simp [oneTuple_count]⟩
  obtain ⟨-, -, hiff⟩ := receiveSelect1_backpressured (by decide) hclosed hrun
  have hall := hiff.mp hret
  exact ⟨by decide +kernel, s, hrun, hret, hall 0 (by decide), hall 1 (by decide)⟩

end Merger1
end Mosito
