import Mosito.Lib.Earlier
import Mosito.Lib.Runs
import Mathlib.Data.List.Perm.Basic
import Mathlib.Data.List.TakeWhile
import Mathlib.Data.Nat.Digits.Defs

/-! The registration of workers. A worker opens its endpoint, connects to the coordinator, sends
its address, closes the connection and waits for messages. The coordinator takes the connections
one by one, each up to its end, and tells each new worker of all workers before it, which the new
worker then connects to. -/
namespace Mosito
open Earlier Runs

namespace Registration

/-- The end of a C string. -/
def nul : Char := Char.ofNat 0

/-- `string(p)`: the characters up to the first zero. `none` when there is no zero to stop at. -/
def cString (buffer : List Char) : Option String :=
  if nul ∈ buffer then some (String.ofList (buffer.takeWhile (· ≠ nul))) else none

/-- Where a worker's `Theron` endpoint listens. -/
structure Address where
  ip : Fin 4 → Fin 256
  port : Fin (2 ^ 16)

/-- `tcp://` with the dotted address and the port. -/
def Address.ipPort (a : Address) : String :=
  "tcp://" ++ Nat.repr (a.ip 0) ++ "." ++ Nat.repr (a.ip 1) ++ "." ++ Nat.repr (a.ip 2) ++ "." ++
    Nat.repr (a.ip 3) ++ ":" ++ Nat.repr a.port

/-- The endpoint of a worker, and the actor in it, which messages are addressed to. -/
def workerEndpoint (ipPort : String) : String := "worker_" ++ ipPort

/-- `m_send(ip_port_worker, 32)`: 32 bytes, whatever follows the string in memory. -/
def mSend (ipPort : String) (after : ℕ → Char) : List Char :=
  (ipPort.toList ++ nul :: (List.range 32).map after).take 32

/-- `m_single(ipinfo)`: what arrived replaces the first bytes of the buffer. -/
def mSingle (data ipinfo : List Char) : List Char := data ++ ipinfo.drop data.length

/-- `MessageIP(mesg)`. `none` when `strcpy` leaves the array. -/
def messageIP (mesg : String) : Option String := if mesg.length < 256 then some mesg else none

/-- A round of `register_worker` in its loop: whom it tells, and how many endpoints so far. -/
structure Round where
  newNode : String
  i : ℕ

end Registration

/-- `workers` have their connector on. `opened`, `sent` and `closed` are behind their `m_connect`,
`m_send` and `m_close`, `wire` is what they sent. `queue` are the connections to be accepted,
`receiving` is the one that `recv` waits on. `connects` are the calls of `aconnect` with their
results. `inFlight` are messages with the actor they are for; `handled` are those whose handler
has called `Connect`, with the result, and `undelivered` those that `Theron` has dropped. -/
structure Registration where
  workers : List String
  opened : List String
  sent : List String
  closed : List String
  wire : String → List Char
  queue : List String
  receiving : Option String
  ipinfo : List Char
  round : Option Registration.Round
  endpointsInfo : List String
  connects : List (String × Bool)
  inFlight : List (String × String)
  handled : List ((String × String) × Bool)
  undelivered : List (String × String)

namespace Registration

/-- `ok` is what `Connect` returns, and `n` is how much a `send` that fails has sent. -/
inductive Event where
  | init (a : Address)
  | mConnect (ipPort : String)
  | mSend (ipPort : String) (after : ℕ → Char)
  | mSendFails (ipPort : String) (after : ℕ → Char) (n : ℕ)
  | mClose (ipPort : String)
  | accept
  | acceptFails (ok : Bool)
  | recv (ok : Bool)
  | recvFails (ok : Bool)
  | send
  | pushBack
  | handler (k : ℕ) (ok : Bool)
  | undelivered (k : ℕ)

/-- The coordinator before its loop, with a fresh buffer. -/
def start (ipinfo : List Char) : Registration where
  workers := []
  opened := []
  sent := []
  closed := []
  wire _ := []
  queue := []
  receiving := none
  ipinfo := ipinfo
  round := none
  endpointsInfo := []
  connects := []
  inFlight := []
  handled := []
  undelivered := []

/-- The round after `m_single`, whose result nobody looks at: `aconnect`, whose result nobody looks
at either, then the loop. -/
def startRound (ok : Bool) (s : Registration) : Option Registration :=
  (cString s.ipinfo).map fun newNode =>
    { s with connects := s.connects ++ [(newNode, ok)], round := some ⟨newNode, 0⟩ }

/-- Two workers never have one address. `recv` gets what was sent when the connection is closed,
since it asks for more. A message may be dropped at any time, and is handled only by an actor that
is there. `none` is a step that cannot be taken, or one beyond the bounds of an array. -/
def step (s : Registration) : Event → Option Registration
  | .init a => if a.ipPort ∈ s.workers then none else
      some { s with workers := s.workers ++ [a.ipPort] }
  | .mConnect ipPort => if ipPort ∈ s.workers ∧ ipPort ∉ s.opened then
      some { s with opened := s.opened ++ [ipPort], queue := s.queue ++ [ipPort] } else none
  | .mSend ipPort after => if ipPort ∈ s.opened ∧ ipPort ∉ s.sent then
      some { s with
        sent := s.sent ++ [ipPort]
        wire := Function.update s.wire ipPort (Registration.mSend ipPort after) }
      else none
  | .mSendFails ipPort after n => if ipPort ∈ s.opened ∧ ipPort ∉ s.sent then
      some { s with
        sent := s.sent ++ [ipPort]
        wire := Function.update s.wire ipPort ((Registration.mSend ipPort after).take n) }
      else none
  | .mClose ipPort => if ipPort ∈ s.sent ∧ ipPort ∉ s.closed then
      some { s with closed := s.closed ++ [ipPort] } else none
  | .accept => match s.round, s.receiving, s.queue with
    | none, none, ipPort :: queue => some { s with queue := queue, receiving := some ipPort }
    | _, _, _ => none
  | .acceptFails ok => match s.round, s.receiving with
    | none, none => startRound ok s
    | _, _ => none
  | .recv ok => match s.receiving with
    | none => none
    | some ipPort => if ipPort ∈ s.closed then
        startRound ok { s with receiving := none, ipinfo := mSingle (s.wire ipPort) s.ipinfo }
        else none
  | .recvFails ok => match s.receiving with
    | none => none
    | some _ => startRound ok { s with receiving := none }
  | .send => match s.round with
    | none => none
    | some r => s.endpointsInfo[r.i]?.bind fun endpoint => (messageIP endpoint).map fun ip =>
      { s with
        inFlight := s.inFlight ++ [(workerEndpoint r.newNode, ip)]
        round := some { r with i := r.i + 1 } }
  | .pushBack => match s.round with
    | none => none
    | some r => if r.i < s.endpointsInfo.length then none else
      some { s with endpointsInfo := s.endpointsInfo ++ [r.newNode], round := none }
  | .handler k ok => s.inFlight[k]?.bind fun message =>
      if message.1 ∈ s.workers.map workerEndpoint then
        some { s with
          inFlight := s.inFlight.eraseIdx k
          handled := s.handled ++ [(message, ok)] }
      else none
  | .undelivered k => s.inFlight[k]?.map fun message =>
      { s with inFlight := s.inFlight.eraseIdx k, undelivered := s.undelivered ++ [message] }

/-- The message that tells the first of two workers of the second. -/
def tell (p : String × String) : String × String := (workerEndpoint p.1, p.2)

/-- Everyone who has registered, the one of this round last. -/
def order (s : Registration) : List String := s.endpointsInfo ++ (s.round.map Round.newNode).toList

/-- The messages that this round still has to send. -/
def unsent (s : Registration) : List (String × String) :=
  match s.round with
  | none => []
  | some r => (s.endpointsInfo.drop r.i).map fun endpoint => tell (r.newNode, endpoint)

/-- The messages that are through: handled, or dropped. -/
def settled (s : Registration) : List (String × String) :=
  s.handled.map Prod.fst ++ s.undelivered

/-- All messages there are: through, on their way, and still to send. -/
def messages (s : Registration) : List (String × String) := s.settled ++ (s.inFlight ++ s.unsent)

/-- What holds in every run, also when an accept or a recv fails and the buffer keeps an old
address. -/
structure Conserved (s : Registration) : Prop where
  told : s.messages.Perm ((earlier [] s.order).map tell)
  connects : s.connects.map Prod.fst = s.order
  idle : s.receiving ≠ none → s.round = none
  buffer : s.ipinfo.length = 100
  wire : ∀ ipPort, (s.wire ipPort).length ≤ 32
  short : ∀ endpoint ∈ s.order, endpoint.length < 100

section Steps
variable {s s' : Registration} {event : Event} {ok : Bool}

theorem length_mSend (ipPort : String) (after : ℕ → Char) :
    (Registration.mSend ipPort after).length = 32 := by
  simp only [Registration.mSend, List.length_take, List.length_append, List.length_cons,
    List.length_map, List.length_range]
  omega

theorem length_update {wire : String → List Char} (h : ∀ ipPort, (wire ipPort).length ≤ 32)
    {ipPort : String} {data : List Char} (hd : data.length ≤ 32) (u : String) :
    (Function.update wire ipPort data u).length ≤ 32 := by
  by_cases hu : u = ipPort
  · rwa [hu, Function.update_self]
  · rw [Function.update_of_ne hu]
    exact h u

theorem length_mSingle {data ipinfo : List Char} (hd : data.length ≤ 32)
    (hi : ipinfo.length = 100) : (mSingle data ipinfo).length = 100 := by
  rw [mSingle, List.length_append, List.length_drop]
  omega

theorem length_cString {buffer : List Char} {text : String} (hs : cString buffer = some text) :
    text.length < buffer.length := by
  unfold cString at hs
  split_ifs at hs with hmem
  cases hs
  rw [String.length_ofList]
  have hpre := List.takeWhile_prefix (l := buffer) fun c => decide (c ≠ nul)
  apply lt_of_le_of_ne hpre.length_le
  intro heq
  -- A text as long as the buffer would have the zero in it.
  rw [← hpre.eq_of_length heq] at hmem
  simpa using List.mem_takeWhile_imp hmem

/-- The round begins with the text in the buffer. -/
theorem Conserved.startRound (h : s.Conserved) (hr : s.round = none) {ipinfo : List Char}
    (hi : ipinfo.length = 100)
    (hs : Registration.startRound ok { s with receiving := none, ipinfo := ipinfo } = some s') :
    s'.Conserved := by
  obtain ⟨newNode, hnode, rfl⟩ := Option.map_eq_some_iff.mp hs
  have horder : s.order = s.endpointsInfo := by simp [order, hr]
  have hunsent : s.unsent = [] := by simp [unsent, hr]
  constructor
  · have hm := h.told
    rw [horder, messages, hunsent, List.append_nil] at hm
    simp only [messages, settled, unsent, order, List.drop_zero, Option.map_some,
      Option.toList_some, earlier_append, List.map_append, List.map_map, List.nil_append]
    rw [← List.append_assoc]
    exact hm.append (List.Perm.refl _)
  · rw [List.map_append, h.connects, horder]
    rfl
  · exact absurd rfl
  · exact hi
  · exact h.wire
  · intro endpoint hmem
    rw [order, Option.map_some, Option.toList_some, List.mem_append, List.mem_singleton] at hmem
    rcases hmem with hmem | rfl
    · apply h.short
      rwa [horder]
    · have hlt := length_cString hnode
      rwa [hi] at hlt

/-- A message moves from what is still to send to what is on its way. -/
theorem Conserved.send {r : Round} {endpoint : String} (h : s.Conserved) (hr : s.round = some r)
    (he : s.endpointsInfo[r.i]? = some endpoint) :
    Conserved { s with
      inFlight := s.inFlight ++ [(workerEndpoint r.newNode, endpoint)]
      round := some { r with i := r.i + 1 } } := by
  have horder : s.order = s.endpointsInfo ++ [r.newNode] := by simp [order, hr]
  have hunsent : s.unsent = (s.endpointsInfo.drop r.i).map fun e => tell (r.newNode, e) := by
    simp [unsent, hr]
  constructor
  · have hm := h.told
    rw [horder, messages, hunsent, List.drop_eq_getElem?_toList_append, he, Option.toList_some,
      List.singleton_append, List.map_cons] at hm
    simp only [messages, unsent, order, Option.map_some, Option.toList_some, List.append_assoc]
    exact hm
  · exact h.connects.trans horder
  · intro hreceiving
    have hnone := h.idle hreceiving
    rw [hr] at hnone
    cases hnone
  · exact h.buffer
  · exact h.wire
  · have hshort := h.short
    rwa [horder] at hshort

theorem Conserved.pushBack {r : Round} (h : s.Conserved) (hr : s.round = some r)
    (hi : s.endpointsInfo.length ≤ r.i) :
    Conserved { s with endpointsInfo := s.endpointsInfo ++ [r.newNode], round := none } := by
  have horder : s.order = s.endpointsInfo ++ [r.newNode] := by simp [order, hr]
  have hunsent : s.unsent = [] := by simp [unsent, hr, List.drop_eq_nil_of_le hi]
  constructor
  · have hm := h.told
    rw [horder, messages, hunsent] at hm
    simpa only [messages, settled, unsent, order, Option.map_none, Option.toList_none,
      List.append_nil] using hm
  · rw [h.connects, horder]
    simp [order]
  · exact fun _ => rfl
  · exact h.buffer
  · exact h.wire
  · have hshort := h.short
    rw [horder] at hshort
    simpa only [order, Option.map_none, Option.toList_none, List.append_nil] using hshort

/-- A message on its way is through. -/
theorem Conserved.settle {k : ℕ} {message : String × String} (h : s.Conserved)
    (hk : s.inFlight[k]? = some message) {handled : List ((String × String) × Bool)}
    {undelivered : List (String × String)}
    (hnew : (handled.map Prod.fst ++ undelivered).Perm (message :: s.settled)) :
    Conserved { s with
      inFlight := s.inFlight.eraseIdx k, handled := handled, undelivered := undelivered } := by
  obtain ⟨hlt, hget⟩ := List.getElem?_eq_some_iff.mp hk
  have herase : (message :: s.inFlight.eraseIdx k).Perm s.inFlight := by
    rw [← hget]
    exact List.getElem_cons_eraseIdx_perm hlt
  refine ⟨List.Perm.trans ?_ h.told, h.connects, h.idle, h.buffer, h.wire, h.short⟩
  simp only [messages, ← List.append_assoc]
  refine List.Perm.append ?_ (List.Perm.refl _)
  calc (handled.map Prod.fst ++ undelivered ++ s.inFlight.eraseIdx k).Perm
        (message :: s.settled ++ s.inFlight.eraseIdx k) := hnew.append_right _
    _ |>.Perm (s.settled ++ message :: s.inFlight.eraseIdx k) := List.perm_middle.symm
    _ |>.Perm (s.settled ++ s.inFlight) := herase.append_left _

/-- What the steps do, each under its guard. -/
inductive Effect (s : Registration) : Event → Registration → Prop where
  | init (a : Address) (hfree : a.ipPort ∉ s.workers) :
    Effect s (.init a) { s with workers := s.workers ++ [a.ipPort] }
  | mConnect (ipPort : String) (hw : ipPort ∈ s.workers) (hn : ipPort ∉ s.opened) :
    Effect s (.mConnect ipPort) { s with
      opened := s.opened ++ [ipPort], queue := s.queue ++ [ipPort] }
  | mSend (ipPort : String) (after : ℕ → Char) (ho : ipPort ∈ s.opened) (hn : ipPort ∉ s.sent) :
    Effect s (.mSend ipPort after) { s with
      sent := s.sent ++ [ipPort]
      wire := Function.update s.wire ipPort (Registration.mSend ipPort after) }
  | mSendFails (ipPort : String) (after : ℕ → Char) (n : ℕ) (ho : ipPort ∈ s.opened)
    (hn : ipPort ∉ s.sent) :
    Effect s (.mSendFails ipPort after n) { s with
      sent := s.sent ++ [ipPort]
      wire := Function.update s.wire ipPort ((Registration.mSend ipPort after).take n) }
  | mClose (ipPort : String) (hs : ipPort ∈ s.sent) (hn : ipPort ∉ s.closed) :
    Effect s (.mClose ipPort) { s with closed := s.closed ++ [ipPort] }
  | accept (ipPort : String) (queue : List String) (hr : s.round = none)
    (hreceiving : s.receiving = none) (hq : s.queue = ipPort :: queue) :
    Effect s .accept { s with queue := queue, receiving := some ipPort }
  | acceptFails (ok : Bool) {s' : Registration} (hr : s.round = none)
    (hreceiving : s.receiving = none) (hs : startRound ok s = some s') :
    Effect s (.acceptFails ok) s'
  | recv (ok : Bool) (ipPort : String) {s' : Registration} (hreceiving : s.receiving = some ipPort)
    (hc : ipPort ∈ s.closed) (hs : startRound ok { s with
      receiving := none, ipinfo := mSingle (s.wire ipPort) s.ipinfo } = some s') :
    Effect s (.recv ok) s'
  | recvFails (ok : Bool) (ipPort : String) {s' : Registration}
    (hreceiving : s.receiving = some ipPort)
    (hs : startRound ok { s with receiving := none } = some s') : Effect s (.recvFails ok) s'
  | send {r : Round} {endpoint : String} (hr : s.round = some r)
    (he : s.endpointsInfo[r.i]? = some endpoint) :
    Effect s .send { s with
      inFlight := s.inFlight ++ [(workerEndpoint r.newNode, endpoint)]
      round := some { r with i := r.i + 1 } }
  | pushBack {r : Round} (hr : s.round = some r) (hi : s.endpointsInfo.length ≤ r.i) :
    Effect s .pushBack
      { s with endpointsInfo := s.endpointsInfo ++ [r.newNode], round := none }
  | handler {k : ℕ} (ok : Bool) {message : String × String} (hk : s.inFlight[k]? = some message)
    (hw : message.1 ∈ s.workers.map workerEndpoint) :
    Effect s (.handler k ok) { s with
      inFlight := s.inFlight.eraseIdx k, handled := s.handled ++ [(message, ok)] }
  | undelivered {k : ℕ} {message : String × String} (hk : s.inFlight[k]? = some message) :
    Effect s (.undelivered k) { s with
      inFlight := s.inFlight.eraseIdx k, undelivered := s.undelivered ++ [message] }

theorem effect_of_step (hs : step s event = some s') : Effect s event s' := by
  cases event with
  | init a =>
    simp only [step] at hs
    split_ifs at hs with ha
    cases hs
    exact .init a ha
  | mConnect ipPort =>
    obtain ⟨hw, hs⟩ := Option.ite_none_right_eq_some.mp hs
    cases hs
    exact .mConnect ipPort hw.1 hw.2
  | mSend ipPort after =>
    obtain ⟨ho, hs⟩ := Option.ite_none_right_eq_some.mp hs
    cases hs
    exact .mSend ipPort after ho.1 ho.2
  | mSendFails ipPort after n =>
    obtain ⟨ho, hs⟩ := Option.ite_none_right_eq_some.mp hs
    cases hs
    exact .mSendFails ipPort after n ho.1 ho.2
  | mClose ipPort =>
    obtain ⟨hc, hs⟩ := Option.ite_none_right_eq_some.mp hs
    cases hs
    exact .mClose ipPort hc.1 hc.2
  | accept =>
    simp only [step] at hs
    split at hs
    · rename_i ipPort queue hr hreceiving hq
      cases hs
      exact .accept ipPort queue hr hreceiving hq
    · cases hs
  | acceptFails ok =>
    simp only [step] at hs
    split at hs
    · rename_i hr hreceiving
      exact .acceptFails ok hr hreceiving hs
    · cases hs
  | recv ok =>
    simp only [step] at hs
    split at hs
    · cases hs
    · rename_i ipPort hreceiving
      obtain ⟨hc, hs⟩ := Option.ite_none_right_eq_some.mp hs
      exact .recv ok ipPort hreceiving hc hs
  | recvFails ok =>
    simp only [step] at hs
    split at hs
    · cases hs
    · rename_i ipPort hreceiving
      exact .recvFails ok ipPort hreceiving hs
  | send =>
    simp only [step] at hs
    split at hs
    · cases hs
    · rename_i r hr
      obtain ⟨endpoint, he, hs⟩ := Option.bind_eq_some_iff.mp hs
      obtain ⟨ip, hip, rfl⟩ := Option.map_eq_some_iff.mp hs
      unfold messageIP at hip
      split_ifs at hip
      cases hip
      exact .send hr he
  | pushBack =>
    simp only [step] at hs
    split at hs
    · cases hs
    · rename_i r hr
      split_ifs at hs with hi
      cases hs
      exact .pushBack hr (Nat.le_of_not_lt hi)
  | handler k ok =>
    obtain ⟨message, hk, hs⟩ := Option.bind_eq_some_iff.mp hs
    obtain ⟨hw, hs⟩ := Option.ite_none_right_eq_some.mp hs
    cases hs
    exact .handler ok hk hw
  | undelivered k =>
    obtain ⟨message, hk, rfl⟩ := Option.map_eq_some_iff.mp hs
    exact .undelivered hk

theorem Conserved.step (h : s.Conserved) (hs : step s event = some s') : s'.Conserved := by
  obtain ⟨told, connects, idle, buffer, wire, short⟩ := id h
  cases effect_of_step hs with
  | init a => exact ⟨told, connects, idle, buffer, wire, short⟩
  | mConnect ipPort => exact ⟨told, connects, idle, buffer, wire, short⟩
  | mSend ipPort after =>
    exact ⟨told, connects, idle, buffer, length_update wire (length_mSend ipPort after).le, short⟩
  | mSendFails ipPort after n =>
    have hle := (List.length_take_le' n _).trans (length_mSend ipPort after).le
    exact ⟨told, connects, idle, buffer, length_update wire hle, short⟩
  | mClose ipPort => exact ⟨told, connects, idle, buffer, wire, short⟩
  | accept ipPort queue hr => exact ⟨told, connects, fun _ => hr, buffer, wire, short⟩
  | acceptFails ok hr hreceiving hs =>
    have hsame : { s with receiving := none, ipinfo := s.ipinfo } = s := by rw [← hreceiving]
    exact h.startRound hr buffer ((congrArg (Registration.startRound ok) hsame).trans hs)
  | recv ok ipPort hreceiving hc hs =>
    exact h.startRound (idle (by simp [hreceiving])) (length_mSingle (wire ipPort) buffer) hs
  | recvFails ok ipPort hreceiving hs =>
    exact h.startRound (idle (by simp [hreceiving])) buffer hs
  | send hr he => exact h.send hr he
  | pushBack hr hi => exact h.pushBack hr hi
  | handler ok hk =>
    apply h.settle hk
    rw [List.map_append, List.append_assoc]
    exact List.perm_middle
  | undelivered hk =>
    apply h.settle hk
    rw [← List.append_assoc]
    exact List.perm_append_singleton _ _

theorem conserved_start {ipinfo : List Char} (hi : ipinfo.length = 100) :
    (start ipinfo).Conserved where
  told := List.Perm.refl _
  connects := rfl
  idle _ := rfl
  buffer := hi
  wire _ := Nat.zero_le _
  short := nofun

theorem Conserved.step_send {r : Round} {endpoint : String} (h : s.Conserved)
    (hr : s.round = some r) (he : s.endpointsInfo[r.i]? = some endpoint) :
    Registration.step s .send = some { s with
      inFlight := s.inFlight ++ [(workerEndpoint r.newNode, endpoint)]
      round := some { r with i := r.i + 1 } } := by
  have hshort := h.short endpoint (List.mem_append_left _ (List.mem_of_getElem? he))
  have hfits : endpoint.length < 256 := by omega
  simp only [Registration.step, hr, he, Option.bind_some, messageIP, if_pos hfits, Option.map_some]

theorem step_recv {ipPort : String} (hreceiving : s.receiving = some ipPort)
    (hc : ipPort ∈ s.closed) (ok : Bool) : step s (.recv ok) = startRound ok { s with
      receiving := none, ipinfo := mSingle (s.wire ipPort) s.ipinfo } := by
  simp only [step, hreceiving, if_pos hc]

theorem step_pushBack {r : Round} (hr : s.round = some r) (hi : s.endpointsInfo.length ≤ r.i) :
    step s .pushBack =
      some { s with endpointsInfo := s.endpointsInfo ++ [r.newNode], round := none } := by
  simp only [step, hr, if_neg (Nat.not_lt.mpr hi)]

theorem step_handler {k : ℕ} {message : String × String} (hk : s.inFlight[k]? = some message)
    (hw : message.1 ∈ s.workers.map workerEndpoint) (ok : Bool) :
    step s (.handler k ok) = some { s with
      inFlight := s.inFlight.eraseIdx k, handled := s.handled ++ [(message, ok)] } := by
  simp only [step, hk, Option.bind_some, if_pos hw]

/-- In every run every message there is tells a worker of one that registered before it, and
there is one for each such pair: it was handled or dropped once, or will be. `Connect` was called
once for each worker. The texts that `strcpy` copies fit their array. -/
theorem messages_conserved {ipinfo : List Char} {events : List Event} (hi : ipinfo.length = 100)
    (hrun : run step (start ipinfo) events = some s) :
    s.messages.Perm ((earlier [] s.order).map tell) ∧ s.connects.map Prod.fst = s.order ∧
      ∀ r, s.round = some r → r.i < s.endpointsInfo.length → (step s .send).isSome = true := by
  have h : s.Conserved := Runs.inv (fun _ _ _ h hs => h.step hs) hrun (conserved_start hi)
  refine ⟨h.told, h.connects, fun r hr hlt => ?_⟩
  rw [h.step_send hr (List.getElem?_eq_getElem hlt)]
  rfl

/-- The endpoint of `10.10.10.k`. -/
def address (k : Fin 256) : Address := ⟨fun i => if i = 3 then k else 10, 5546⟩

def zeros : List Char := List.replicate 100 nul

/-- The second of two workers is the first to connect, and the last to send and close. -/
def twoWorkers : List Event :=
  [.init (address 1), .init (address 2), .mConnect (address 2).ipPort,
    .mConnect (address 1).ipPort, .mSend (address 1).ipPort fun _ => nul,
    .mClose (address 1).ipPort, .accept, .mSend (address 2).ipPort fun _ => nul,
    .mClose (address 2).ipPort, .recv true, .pushBack, .accept, .recv false, .send, .pushBack,
    .handler 0 true]

/-- An accept that fails makes the coordinator tell the same worker of itself, in a message that
is dropped. -/
theorem messages_conserved_stale : ∃ s,
    run step (start zeros) (twoWorkers.take 11 ++ [.acceptFails true, .send, .undelivered 0]) =
        some s ∧
      s.undelivered = [tell ((address 2).ipPort, (address 2).ipPort)] ∧
      s.messages.Perm ((earlier [] s.order).map tell) := by
  have hfinal : (run step (start zeros)
      (twoWorkers.take 11 ++ [.acceptFails true, .send, .undelivered 0])).map
        (fun s => s.undelivered) = some [tell ((address 2).ipPort, (address 2).ipPort)] := by
    decide +kernel
  obtain ⟨s, hrun, hdropped⟩ := Option.map_eq_some_iff.mp hfinal
  exact ⟨s, hrun, hdropped, (messages_conserved (by decide) hrun).1⟩

end Steps

section Addresses

/-- An address arrives whole: it is short enough for 32 bytes, and has no zero. -/
def Fits (ipPort : String) : Prop := ipPort.length < 32 ∧ nul ∉ ipPort.toList

theorem nul_not_mem_repr (n : ℕ) : nul ∉ (Nat.repr n).toList := by
  intro h
  have hdigit := Nat.isDigit_of_mem_toDigits (by decide) (by decide)
    (show nul ∈ Nat.toDigits 10 n by simpa [Nat.repr] using h)
  exact absurd hdigit (by decide)

theorem Address.fits (a : Address) : Fits a.ipPort := by
  have hbyte (k : Fin 4) : (Nat.repr (a.ip k)).length ≤ 3 :=
    Nat.repr_length _ 3 (by decide) (lt_of_lt_of_le (a.ip k).isLt (by decide))
  have hport : (Nat.repr a.port).length ≤ 5 :=
    Nat.repr_length _ 5 (by decide) (lt_of_lt_of_le a.port.isLt (by decide))
  constructor
  · have h0 := hbyte 0
    have h1 := hbyte 1
    have h2 := hbyte 2
    have h3 := hbyte 3
    simp only [Address.ipPort, String.length_append]
    have htcp : "tcp://".length = 6 := by decide
    have hdot : ".".length = 1 := by decide
    have hcolon : ":".length = 1 := by decide
    omega
  · simp only [Address.ipPort, String.toList_append, List.mem_append, nul_not_mem_repr, or_false,
      not_or]
    decide

/-- What the coordinator reads is what the worker sent, whatever was in its buffer. -/
theorem cString_mSingle {ipPort : String} (hf : Fits ipPort) (after : ℕ → Char)
    (ipinfo : List Char) :
    cString (mSingle (Registration.mSend ipPort after) ipinfo) = some ipPort := by
  have hlen : ipPort.toList.length < 32 := hf.1
  obtain ⟨rest, hrest⟩ : ∃ rest, mSingle (Registration.mSend ipPort after) ipinfo =
      ipPort.toList ++ nul :: rest := by
    unfold mSingle Registration.mSend
    rw [List.take_append, List.take_of_length_le (by omega)]
    obtain ⟨k, hk⟩ : ∃ k, 32 - ipPort.toList.length = k + 1 := ⟨31 - ipPort.toList.length, by omega⟩
    rw [hk, List.take_succ_cons, List.append_assoc]
    exact ⟨_, rfl⟩
  have hall : ∀ c ∈ ipPort.toList, decide (c ≠ nul) = true := by
    intro c hc
    rw [decide_eq_true_eq]
    rintro rfl
    exact hf.2 hc
  rw [hrest, cString, if_pos (by simp), List.takeWhile_append_of_pos hall]
  simp

end Addresses

section Mesh
variable {s s' : Registration} {event : Event} {ok : Bool}

/-- No accept, no receive and no send of an address fails. -/
def Event.works : Event → Prop
  | .acceptFails _ | .recvFails _ | .mSendFails _ _ _ => False
  | _ => True

/-- What holds as long as nothing fails: the coordinator takes the workers in the order of their
connections, each once, and gets the address that each has sent. -/
structure Orderly (s : Registration) : Prop where
  conserved : s.Conserved
  waiting : s.order ++ (s.receiving.toList ++ s.queue) = s.opened
  nodup : s.opened.Nodup
  constructed : ∀ ipPort ∈ s.opened, ipPort ∈ s.workers
  fits : ∀ ipPort ∈ s.workers, Fits ipPort
  sent_nodup : s.sent.Nodup
  sent_opened : ∀ ipPort ∈ s.sent, ipPort ∈ s.opened
  closed_nodup : s.closed.Nodup
  closed_sent : ∀ ipPort ∈ s.closed, ipPort ∈ s.sent
  wire : ∀ ipPort ∈ s.sent, ∃ after, s.wire ipPort = Registration.mSend ipPort after

theorem orderly_start {ipinfo : List Char} (hi : ipinfo.length = 100) : (start ipinfo).Orderly where
  conserved := conserved_start hi
  waiting := rfl
  nodup := .nil
  constructed := nofun
  fits := nofun
  sent_nodup := .nil
  sent_opened := nofun
  closed_nodup := .nil
  closed_sent := nofun
  wire := nofun

theorem Orderly.order_prefix (h : s.Orderly) : s.order <+: s.opened := ⟨_, h.waiting⟩

/-- The actor of a message on its way is there. -/
theorem Orderly.addressed (h : s.Orderly) {message : String × String} (hm : message ∈ s.inFlight) :
    message.1 ∈ s.workers.map workerEndpoint := by
  have hmem : message ∈ s.messages := by simp [messages, hm]
  obtain ⟨p, hp, rfl⟩ := List.mem_map.mp (h.conserved.told.mem_iff.mp hmem)
  have horder := (mem_of_mem_earlier hp).1
  exact List.mem_map_of_mem (h.constructed _ (h.order_prefix.subset horder))

/-- The round of an orderly state begins with the address of the worker that was accepted. -/
theorem Orderly.startRound (h : s.Orderly) {ipPort : String} (hc : ipPort ∈ s.closed) (ok : Bool) :
    Registration.startRound ok
        { s with receiving := none, ipinfo := mSingle (s.wire ipPort) s.ipinfo } =
      some { s with
        receiving := none
        ipinfo := mSingle (s.wire ipPort) s.ipinfo
        connects := s.connects ++ [(ipPort, ok)]
        round := some ⟨ipPort, 0⟩ } := by
  have hsent := h.closed_sent _ hc
  obtain ⟨after, hwire⟩ := h.wire _ hsent
  have hfits := h.fits _ (h.constructed _ (h.sent_opened _ hsent))
  simp only [Registration.startRound, hwire, cString_mSingle hfits, Option.map_some]

theorem nodup_snoc {l : List String} {ipPort : String} (h : l.Nodup) (hn : ipPort ∉ l) :
    (l ++ [ipPort]).Nodup := by
  rw [← List.concat_eq_append]
  exact h.concat hn

theorem forall_snoc {l : List String} {ipPort : String} {P : String → Prop}
    (h : ∀ u ∈ l, P u) (hn : P ipPort) : ∀ u ∈ l ++ [ipPort], P u :=
  List.forall_mem_append.mpr ⟨h, List.forall_mem_singleton.mpr hn⟩

/-- The steps of the coordinator and of the handlers leave what the workers have done. -/
theorem Orderly.carry (h : s.Orderly) (hconserved : s'.Conserved)
    (hwaiting : s'.order ++ (s'.receiving.toList ++ s'.queue) = s.opened)
    (hsame : s'.workers = s.workers ∧ s'.opened = s.opened ∧ s'.sent = s.sent ∧
      s'.closed = s.closed ∧ s'.wire = s.wire) : s'.Orderly := by
  obtain ⟨hworkers, hopened, hsent, hclosed, hwire⟩ := hsame
  constructor
  · exact hconserved
  · rw [hwaiting, hopened]
  · rw [hopened]
    exact h.nodup
  · rw [hopened, hworkers]
    exact h.constructed
  · rw [hworkers]
    exact h.fits
  · rw [hsent]
    exact h.sent_nodup
  · rw [hsent, hopened]
    exact h.sent_opened
  · rw [hclosed]
    exact h.closed_nodup
  · rw [hclosed, hsent]
    exact h.closed_sent
  · rw [hsent, hwire]
    exact h.wire

theorem Orderly.mSend (h : s.Orderly) {ipPort : String} (ho : ipPort ∈ s.opened)
    (hn : ipPort ∉ s.sent) {after : ℕ → Char} (hconserved : Conserved { s with
      sent := s.sent ++ [ipPort]
      wire := Function.update s.wire ipPort (Registration.mSend ipPort after) }) :
    Orderly { s with
      sent := s.sent ++ [ipPort]
      wire := Function.update s.wire ipPort (Registration.mSend ipPort after) } where
  conserved := hconserved
  waiting := h.waiting
  nodup := h.nodup
  constructed := h.constructed
  fits := h.fits
  sent_nodup := nodup_snoc h.sent_nodup hn
  sent_opened := forall_snoc h.sent_opened ho
  closed_nodup := h.closed_nodup
  closed_sent u hu := List.mem_append_left _ (h.closed_sent u hu)
  wire u hu := by
    by_cases heq : u = ipPort
    · subst heq
      exact ⟨after, Function.update_self _ _ _⟩
    · have hmem : u ∈ s.sent := by simpa [heq] using hu
      obtain ⟨after', hwire⟩ := h.wire u hmem
      exact ⟨after', (Function.update_of_ne heq _ _).trans hwire⟩

theorem Orderly.step (h : s.Orderly) (hok : event.works)
    (hs : Registration.step s event = some s') : s'.Orderly := by
  have hconserved := h.conserved.step hs
  obtain ⟨-, waiting, nodup, constructed, fits, sentNodup, sentOpened, closedNodup, closedSent,
    wire⟩ := id h
  cases effect_of_step hs with
  | init a =>
    exact ⟨hconserved, waiting, nodup, fun u hu => List.mem_append_left _ (constructed u hu),
      forall_snoc fits a.fits, sentNodup, sentOpened, closedNodup, closedSent, wire⟩
  | mConnect ipPort hw hn =>
    refine ⟨hconserved, ?_, nodup_snoc nodup hn, forall_snoc constructed hw, fits, sentNodup,
      fun u hu => List.mem_append_left _ (sentOpened u hu), closedNodup, closedSent, wire⟩
    rw [← List.append_assoc, ← List.append_assoc]
    rw [← List.append_assoc] at waiting
    exact congrArg (fun l => l ++ [ipPort]) waiting
  | mSend ipPort after ho hn => exact h.mSend ho hn hconserved
  | mSendFails ipPort => exact hok.elim
  | mClose ipPort hsent hn =>
    exact ⟨hconserved, waiting, nodup, constructed, fits, sentNodup, sentOpened,
      nodup_snoc closedNodup hn, forall_snoc closedSent hsent, wire⟩
  | accept ipPort queue hr hreceiving hq =>
    refine h.carry hconserved ?_ ⟨rfl, rfl, rfl, rfl, rfl⟩
    rwa [hreceiving, hq] at waiting
  | acceptFails ok => exact hok.elim
  | recv ok ipPort hreceiving hc hs =>
    have hr := h.conserved.idle (by simp [hreceiving])
    rw [h.startRound hc] at hs
    cases hs
    refine h.carry hconserved ?_ ⟨rfl, rfl, rfl, rfl, rfl⟩
    rw [← waiting]
    simp [order, hr, hreceiving]
  | recvFails ok => exact hok.elim
  | send hr he =>
    refine h.carry hconserved ?_ ⟨rfl, rfl, rfl, rfl, rfl⟩
    rw [← waiting]
    simp [order, hr]
  | pushBack hr hi =>
    refine h.carry hconserved ?_ ⟨rfl, rfl, rfl, rfl, rfl⟩
    rw [← waiting]
    simp [order, hr]
  | handler ok hk => exact h.carry hconserved waiting ⟨rfl, rfl, rfl, rfl, rfl⟩
  | undelivered hk => exact h.carry hconserved waiting ⟨rfl, rfl, rfl, rfl, rfl⟩

theorem tell_injective : Function.Injective tell := by
  rintro ⟨a, b⟩ ⟨c, d⟩ heq
  obtain ⟨hname, rfl⟩ := Prod.mk.inj heq
  cases String.append_right_inj _ |>.mp hname
  rfl

theorem Orderly.count_messages (h : s.Orderly) (a b : String) :
    s.messages.count (tell (a, b)) = (earlier [] s.order).count (a, b) := by
  rw [h.conserved.told.count_eq]
  exact List.count_map_of_injective _ _ tell_injective _

theorem Orderly.order_nodup (h : s.Orderly) : s.order.Nodup :=
  h.nodup.sublist h.order_prefix.sublist

/-- The coordinator is between two rounds, nobody waits for it and no message is on its way. -/
structure Settled (s : Registration) : Prop where
  round : s.round = none
  receiving : s.receiving = none
  queue : s.queue = []
  inFlight : s.inFlight = []

theorem Orderly.endpointsInfo_eq (h : s.Orderly) (hset : s.Settled) :
    s.endpointsInfo = s.opened := by
  have hwaiting := h.waiting
  simpa [order, hset.round, hset.receiving, hset.queue] using hwaiting

theorem Orderly.count_settled (h : s.Orderly) (hset : s.Settled) {a b : String} (hne : a ≠ b)
    (ha : a ∈ s.opened) (hb : b ∈ s.opened) :
    s.settled.count (tell (a, b)) + s.settled.count (tell (b, a)) = 1 := by
  have horder : s.order = s.opened := by
    rw [← h.endpointsInfo_eq hset]
    simp [order, hset.round]
  have hmsgs : s.messages = s.settled := by simp [messages, hset.inFlight, unsent, hset.round]
  have hcount := h.count_messages
  rw [hmsgs, horder] at hcount
  rw [hcount, hcount]
  exact count_earlier h.nodup hne ha hb

theorem orderly_run {ipinfo : List Char} {events : List Event} (hi : ipinfo.length = 100)
    (hok : ∀ event ∈ events, event.works)
    (hrun : run Registration.step (start ipinfo) events = some s) : s.Orderly :=
  Runs.inv_along (fun _ _ _ h hne hs => h.step hne hs) (along_of_forall hok _) hrun
    (orderly_start hi)

/-- In a run in which nothing fails, at every moment: the coordinator has taken the workers in
the order in which they connected to it, the messages on their way have an actor to get them, and
of two workers at most one is told of the other, in one message. No worker is told of itself. -/
theorem connected_at_most_once {ipinfo : List Char} {events : List Event}
    (hi : ipinfo.length = 100) (hok : ∀ event ∈ events, event.works)
    (hrun : run Registration.step (start ipinfo) events = some s) :
    s.order <+: s.opened ∧ s.order.Nodup ∧
      (∀ message ∈ s.inFlight, message.1 ∈ s.workers.map workerEndpoint) ∧
      ∀ a b, s.messages.count (tell (a, b)) + s.messages.count (tell (b, a)) ≤ 1 := by
  have h := orderly_run hi hok hrun
  refine ⟨h.order_prefix, h.order_nodup, fun _ => h.addressed, fun a b => ?_⟩
  rw [h.count_messages, h.count_messages]
  exact count_earlier_le h.order_nodup a b

theorem connected_at_most_once_two : ∃ s, run Registration.step (start zeros) twoWorkers = some s ∧
    s.handled = [(tell ((address 1).ipPort, (address 2).ipPort), true)] ∧ s.order <+: s.opened ∧
      s.messages.count (tell ((address 1).ipPort, (address 2).ipPort)) +
        s.messages.count (tell ((address 2).ipPort, (address 1).ipPort)) ≤ 1 := by
  have hfinal : (run Registration.step (start zeros) twoWorkers).map (fun s => s.handled) =
      some [(tell ((address 1).ipPort, (address 2).ipPort), true)] := by
    decide +kernel
  obtain ⟨s, hrun, hhandled⟩ := Option.map_eq_some_iff.mp hfinal
  obtain ⟨hfirst, -, -, hcount⟩ :=
    connected_at_most_once (by decide) (by simp [twoWorkers, Event.works]) hrun
  exact ⟨s, hrun, hhandled, hfirst, hcount _ _⟩

/-- The steps of workers that have connected, of the coordinator's loop and of the handlers, with
the result of `Connect`. -/
def Event.answers (ok : Bool) : Event → Prop
  | .mSend _ _ | .mClose _ | .accept | .send | .pushBack => True
  | .recv result | .handler _ result => result = ok
  | _ => False

/-- The steps that are left: a send and a close of each worker, two for each message to send, one
for each on its way, one to end the round, and for each waiting worker one or two to take its
address and a round of at most `n` messages. -/
def left (n : ℕ) (s : Registration) : ℕ :=
  (n - s.sent.length) + (n - s.closed.length) + s.queue.length * (2 * n + 3) +
    s.receiving.toList.length * (2 * n + 2) + s.inFlight.length +
      match s.round with
      | none => 0
      | some r => 2 * (s.endpointsInfo.length - r.i) + 1

theorem Orderly.length_endpointsInfo (h : s.Orderly) :
    s.endpointsInfo.length ≤ s.opened.length := by
  have hle := h.order_prefix.length_le
  rw [order, List.length_append] at hle
  omega

theorem length_lt_of_not_mem {l m : List String} {ipPort : String} (hl : l.Nodup)
    (hsub : ∀ u ∈ l, u ∈ m) (hm : ipPort ∈ m) (hn : ipPort ∉ l) : l.length < m.length :=
  (List.subperm_of_subset (List.nodup_cons.mpr ⟨hn, hl⟩)
    (List.cons_subset.mpr ⟨hm, hsub⟩)).length_le

/-- The worker that `recv` waits on sends and closes, and then its address arrives. -/
theorem Orderly.answers_recv (h : s.Orderly) {ipPort : String}
    (hreceiving : s.receiving = some ipPort) (ok : Bool) :
    ∃ event s', event.answers ok ∧ Registration.step s event = some s' ∧ s'.opened = s.opened ∧
      s'.undelivered = s.undelivered ∧ s'.left s.opened.length < s.left s.opened.length := by
  have hlen := h.length_endpointsInfo
  have hr := h.conserved.idle (by simp [hreceiving])
  have ho : ipPort ∈ s.opened := by simp [← h.waiting, hreceiving]
  by_cases hsent : ipPort ∈ s.sent
  · by_cases hclosed : ipPort ∈ s.closed
    · refine ⟨.recv ok, _, rfl, (step_recv hreceiving hclosed ok).trans (h.startRound hclosed ok),
        rfl, rfl, ?_⟩
      simp only [left, hr, hreceiving, Option.toList_none, Option.toList_some, List.length_nil,
        List.length_singleton]
      omega
    · have hlt := length_lt_of_not_mem h.closed_nodup
        (fun u hu => h.sent_opened u (h.closed_sent u hu)) ho hclosed
      refine ⟨.mClose ipPort, _, trivial, if_pos ⟨hsent, hclosed⟩, rfl, rfl, ?_⟩
      simp only [left, List.length_append, List.length_singleton]
      omega
  · have hlt := length_lt_of_not_mem h.sent_nodup h.sent_opened ho hsent
    refine ⟨.mSend ipPort fun _ => nul, _, trivial, if_pos ⟨ho, hsent⟩, rfl, rfl, ?_⟩
    simp only [left, List.length_append, List.length_singleton]
    omega

/-- In a state that is not settled some step of a connected worker, of the coordinator or of a
handler can be taken, and brings the end nearer. -/
theorem Orderly.answers (h : s.Orderly) (hset : ¬ s.Settled) (ok : Bool) :
    ∃ event s', event.answers ok ∧ Registration.step s event = some s' ∧ s'.opened = s.opened ∧
      s'.undelivered = s.undelivered ∧ s'.left s.opened.length < s.left s.opened.length := by
  rcases hfl : s.inFlight with _ | ⟨message, inFlight⟩
  · rcases hr : s.round with _ | r
    · rcases hreceiving : s.receiving with _ | ipPort
      · rcases hq : s.queue with _ | ⟨ipPort, queue⟩
        · exact absurd ⟨hr, hreceiving, hq, hfl⟩ hset
        · refine ⟨.accept, { s with queue := queue, receiving := some ipPort }, trivial, ?_, rfl,
            rfl, ?_⟩
          · simp only [Registration.step, hr, hreceiving, hq]
          · simp only [left, hq, hreceiving, List.length_cons, Nat.add_mul, Nat.one_mul,
              Option.toList_none, Option.toList_some, List.length_nil, Nat.zero_mul]
            omega
      · exact h.answers_recv hreceiving ok
    · by_cases hi : r.i < s.endpointsInfo.length
      · have he := List.getElem?_eq_getElem hi
        refine ⟨.send, _, trivial, h.conserved.step_send hr he, rfl, rfl, ?_⟩
        simp only [left, hr, List.length_append, List.length_singleton]
        omega
      · refine ⟨.pushBack, _, trivial, step_pushBack hr (Nat.le_of_not_lt hi), rfl, rfl, ?_⟩
        simp only [left, hr]
        omega
  · have hk : s.inFlight[0]? = some message := by rw [hfl, List.getElem?_cons_zero]
    have hw := h.addressed (List.mem_of_getElem? hk)
    refine ⟨.handler 0 ok, _, rfl, step_handler hk hw ok, rfl, rfl, ?_⟩
    simp only [left, hfl, List.eraseIdx_cons_zero, List.length_cons]
    omega

theorem Event.works_of_answers (ha : event.answers ok) : event.works := by
  cases event <;> first | exact trivial | exact ha.elim

/-- From every state of a run in which nothing fails, the workers that have connected, the
coordinator and the handlers can reach one in which every worker that had connected is registered,
and of any two of them exactly one has been told of the other, in one message that was handled,
or dropped before. -/
theorem mesh_reachable {ipinfo : List Char} {events : List Event} (hi : ipinfo.length = 100)
    (hok : ∀ event ∈ events, event.works)
    (hrun : run Registration.step (start ipinfo) events = some s) (ok : Bool) :
    ∃ s', Leads Registration.step (Event.answers ok) s s' ∧ s'.Settled ∧
      s'.endpointsInfo = s.opened ∧ s'.undelivered = s.undelivered ∧
        ∀ a ∈ s.opened, ∀ b ∈ s.opened, a ≠ b →
          s'.settled.count (tell (a, b)) + s'.settled.count (tell (b, a)) = 1 := by
  have hstep : ∀ t : Registration,
      t.Orderly ∧ t.opened = s.opened ∧ t.undelivered = s.undelivered → ¬ t.Settled →
        ∃ event t', event.answers ok ∧ Registration.step t event = some t' ∧
          (t'.Orderly ∧ t'.opened = s.opened ∧ t'.undelivered = s.undelivered) ∧
            t'.left s.opened.length < t.left s.opened.length := by
    rintro t ⟨ht, hopened, hdropped⟩ hset
    obtain ⟨event, t', ha, hs, hopened', hdropped', hlt⟩ := ht.answers hset ok
    rw [hopened] at hopened' hlt
    exact ⟨event, t', ha, hs,
      ⟨ht.step (Event.works_of_answers ha) hs, hopened', hdropped'.trans hdropped⟩, hlt⟩
  obtain ⟨s', hleads, ⟨h', hopened, hdropped⟩, hset⟩ :=
    reaches _ hstep ⟨orderly_run hi hok hrun, rfl, rfl⟩
  refine ⟨s', hleads, hset, (h'.endpointsInfo_eq hset).trans hopened, hdropped,
    fun a ha b hb hne => ?_⟩
  rw [← hopened] at ha hb
  exact h'.count_settled hset hne ha hb

/-- Both have connected, and none has sent yet. -/
theorem mesh_reachable_two : ∃ s s',
    run Registration.step (start zeros) (twoWorkers.take 4) = some s ∧
      Leads Registration.step (Event.answers true) s s' ∧
      s'.endpointsInfo = [(address 2).ipPort, (address 1).ipPort] ∧
      s'.settled.count (tell ((address 1).ipPort, (address 2).ipPort)) +
        s'.settled.count (tell ((address 2).ipPort, (address 1).ipPort)) = 1 := by
  have hfinal : (run Registration.step (start zeros) (twoWorkers.take 4)).map (fun s => s.opened) =
      some [(address 2).ipPort, (address 1).ipPort] := by
    decide +kernel
  obtain ⟨s, hrun, hopened⟩ := Option.map_eq_some_iff.mp hfinal
  obtain ⟨s', hleads, -, hinfo, -, hcount⟩ :=
    mesh_reachable (by decide) (by simp [twoWorkers, Event.works]) hrun true
  rw [hopened] at hinfo hcount
  exact ⟨s, s', hrun, hleads, hinfo, hcount _ (by simp) _ (by simp) (by decide +kernel)⟩

end Mesh
end Registration
end Mosito
