import Mosito.Common.Buffer
import Mosito.Lib.Runs

/-! The start-up of one exchange. The first upper waits until all others have connected to it,
signals them, and only then sends the task to the lowers, which connect to every upper. -/
namespace Mosito
open Runs

/-- Who opens a connection: an upper, or the lower with a number. -/
inductive Client (α : Type) where
  | upper (host : α)
  | lower (l : ℕ)
  deriving DecidableEq

/-- Where an upper is in `prelude`. `gathering`, `signalling` and `serializing` are the first
upper's, in `gather_all` after `count` accepts or `i` connects and in `serialization`;
`signalReady` and `waiting` are the others', in `send_gather` before and after the connect.
All end in `m_accept` on the data port. -/
inductive UpperPc where
  | start
  | dataReady
  | gathering (count : ℕ)
  | signalling (i : ℕ)
  | serializing (i : ℕ)
  | signalReady
  | waiting
  | accepting (count : ℕ)
  | ready
  deriving DecidableEq

namespace UpperPc

/-- The first upper has left the accepts of `gather_all`. -/
@[simp] def gathered : UpperPc → Bool
  | signalling _ | serializing _ | accepting _ | ready => true
  | _ => false

/-- The steps that only the first upper takes. -/
@[simp] def ofFirst : UpperPc → Bool
  | gathering _ | signalling _ | serializing _ => true
  | _ => false

/-- Another upper has connected to the first one. -/
@[simp] def joined : UpperPc → Bool
  | waiting | accepting _ | ready => true
  | _ => false

/-- Another upper has returned true from `send_gather`. -/
@[simp] def returned : UpperPc → Bool
  | accepting _ | ready => true
  | _ => false

end UpperPc

/-- Where a lower is: without a task, with a task on its way, in `prelude` before the connect
to upper `i`, or connected. -/
inductive LowerPc where
  | waiting
  | sent
  | connecting (i : ℕ)
  | connected
  deriving DecidableEq

/-- `backlog` are the connections that wait for an accept on a host's port, `accepted` is the
history of the accepts in `gather_all`. -/
structure Rendezvous (α : Type) where
  upper : α → UpperPc
  lower : ℕ → LowerPc
  listening : α × ℕ → Bool
  backlog : α × ℕ → List (Client α)
  accepted : List (Client α)

namespace Rendezvous
variable {α : Type} [DecidableEq α]

def dataPort (e : ℕ) : ℕ := portBase + e
def gatherPort (e : ℕ) : ℕ := 10000 + e
def signalPort (e : ℕ) : ℕ := 10001 + e

inductive Event (α : Type) where
  | upper (host : α)
  | deliver (l : ℕ)
  | lower (l : ℕ)

def setUpper (x : α) (pc : UpperPc) (s : Rendezvous α) : Rendezvous α :=
  { s with upper := Function.update s.upper x pc }

def setLower (l : ℕ) (pc : LowerPc) (s : Rendezvous α) : Rendezvous α :=
  { s with lower := Function.update s.lower l pc }

/-- `m_socket` of a merger. -/
def mSocket (x : α) (port : ℕ) (s : Rendezvous α) : Rendezvous α :=
  { s with listening := Function.update s.listening (x, port) true }

def mClose (x : α) (port : ℕ) (s : Rendezvous α) : Rendezvous α :=
  { s with listening := Function.update s.listening (x, port) false }

/-- `m_connect`, which succeeds exactly when the port is listening. -/
def mConnect (c : Client α) (x : α) (port : ℕ) (s : Rendezvous α) : Rendezvous α :=
  if s.listening (x, port) then
    { s with backlog := Function.update s.backlog (x, port) (s.backlog (x, port) ++ [c]) }
  else s

/-- One accept of `m_accept`; `none` while no connection waits. -/
def mAccept (x : α) (port : ℕ) (s : Rendezvous α) : Option (Client α × Rendezvous α) :=
  match s.backlog (x, port) with
  | [] => none
  | c :: rest => some (c, { s with backlog := Function.update s.backlog (x, port) rest })

variable (m : α) (others : List α) (lowers e : ℕ)

/-- A step of the upper on host `x`; `m` is the first upper. -/
def upperStep (x : α) (s : Rendezvous α) : Option (Rendezvous α) :=
  match s.upper x with
  | .start => some ((s.mSocket x (dataPort e)).setUpper x .dataReady)
  | .dataReady =>
      if x = m then
        if others.length + 1 ≠ 1 then some ((s.mSocket x (gatherPort e)).setUpper x (.gathering 0))
        else some (s.setUpper x (.serializing 0))
      else some ((s.mSocket x (signalPort e)).setUpper x .signalReady)
  | .gathering count =>
      if count = others.length then some (s.setUpper x (.signalling 0))
      else (s.mAccept x (gatherPort e)).map fun r =>
        { r.2 with accepted := r.2.accepted ++ [r.1] }.setUpper x (.gathering (count + 1))
  | .signalling i =>
      match others[i]? with
      | some y => some ((s.mConnect (.upper x) y (signalPort e)).setUpper x (.signalling (i + 1)))
      | none => some ((s.mClose x (gatherPort e)).setUpper x (.serializing 0))
  | .serializing i =>
      if i < lowers then some ((s.setLower i .sent).setUpper x (.serializing (i + 1)))
      else some (s.setUpper x (.accepting 0))
  | .signalReady =>
      if s.listening (m, gatherPort e) then
        some ((s.mConnect (.upper x) m (gatherPort e)).setUpper x .waiting)
      else some s
  | .waiting =>
      (s.mAccept x (signalPort e)).map fun r =>
        (r.2.mClose x (signalPort e)).setUpper x (.accepting 0)
  | .accepting count =>
      if count = lowers then some (s.setUpper x .ready)
      else (s.mAccept x (dataPort e)).map fun r => r.2.setUpper x (.accepting (count + 1))
  | .ready => none

/-- A connect of the lower with number `l`. -/
def lowerStep (l : ℕ) (s : Rendezvous α) : Option (Rendezvous α) :=
  match s.lower l with
  | .connecting i =>
      match (m :: others)[i]? with
      | some y => some ((s.mConnect (.lower l) y (dataPort e)).setLower l (.connecting (i + 1)))
      | none => some (s.setLower l .connected)
  | _ => none

def step (s : Rendezvous α) : Event α → Option (Rendezvous α)
  | .upper x => if x ∈ m :: others then s.upperStep m others lowers e x else none
  | .deliver l => if s.lower l = .sent then some (s.setLower l (.connecting 0)) else none
  | .lower l => s.lowerStep m others e l

def start : Rendezvous α where
  upper _ := .start
  lower _ := .waiting
  listening _ := false
  backlog _ := []
  accepted := []

/-- The connections to the first upper's gather port, accepted or not. -/
def gatherClients (s : Rendezvous α) : List (Client α) :=
  s.accepted ++ s.backlog (m, gatherPort e)

/-- What the program counters, the connections and the tasks have to do with each other. -/
structure Inv (s : Rendezvous α) : Prop where
  socket : ∀ x, s.upper x ≠ .start → s.listening (x, dataPort e) = true
  first : s.upper m ≠ .signalReady ∧ s.upper m ≠ .waiting
  rest : ∀ x ∈ others, (s.upper x).ofFirst = false
  clients : ∀ c ∈ s.gatherClients m e, ∃ x ∈ others, c = .upper x ∧ (s.upper x).joined = true
  nodup : (s.gatherClients m e).Nodup
  early : s.upper m = .start ∨ s.upper m = .dataReady → s.accepted = []
  counted : ∀ k, s.upper m = .gathering k → s.accepted.length = k
  gathered : (s.upper m).gathered = true → s.accepted.length = others.length
  signalled : ∀ x ∈ others, s.backlog (x, signalPort e) ≠ [] → (s.upper m).gathered = true
  returned : ∀ x ∈ others, (s.upper x).returned = true → (s.upper m).gathered = true
  tasks : ∀ l, s.lower l ≠ .waiting → (s.upper m).gathered = true

section Inv
omit [DecidableEq α]
variable {m others e} {s s' : Rendezvous α} {x : α}

theorem inv_start : Inv m others e (start : Rendezvous α) := by
  constructor <;> simp [start, gatherClients]

/-- Every other upper is among the accepted connections once there are as many. -/
theorem Inv.all_accepted (h : Inv m others e s) (hg : (s.upper m).gathered = true) {x : α}
    (hx : x ∈ others) : Client.upper x ∈ s.accepted ∧ (s.upper x).joined = true := by
  have hsub : s.accepted ⊆ others.map Client.upper := by
    intro c hc
    obtain ⟨y, hy, rfl, -⟩ := h.clients c (List.mem_append_left _ hc)
    exact List.mem_map.mpr ⟨y, hy, rfl⟩
  have hnd : s.accepted.Nodup := h.nodup.of_append_left
  have hperm : s.accepted.Perm (others.map Client.upper) := by
    apply (List.subperm_of_subset hnd hsub).perm_of_length_le
    rw [List.length_map, h.gathered hg]
  have hmem : Client.upper x ∈ s.accepted := hperm.mem_iff.mpr (List.mem_map.mpr ⟨x, hx, rfl⟩)
  refine ⟨hmem, ?_⟩
  obtain ⟨y, -, hy, hj⟩ := h.clients _ (List.mem_append_left _ hmem)
  cases hy
  exact hj

end Inv

section Effect
variable {m others e} {s s' : Rendezvous α} {x : α} {g : Prop}

@[simp] theorem dataPort_ne_gatherPort : dataPort e ≠ gatherPort e := by
  simp [dataPort, gatherPort, portBase]

@[simp] theorem dataPort_ne_signalPort : dataPort e ≠ signalPort e := by
  simp [dataPort, signalPort, portBase]

@[simp] theorem gatherPort_ne_signalPort : gatherPort e ≠ signalPort e := by
  simp [gatherPort, signalPort]

/-- What a step of an upper does beside moving its own program counter, when it adds no client
to the gather port. Signals and tasks are sent only where `g` holds. -/
structure Effect (m : α) (others : List α) (e : ℕ) (g : Prop) (s s' : Rendezvous α) : Prop where
  upper : s'.upper = s.upper
  listening : ∀ y, s.listening (y, dataPort e) = true → s'.listening (y, dataPort e) = true
  clients : s'.gatherClients m e = s.gatherClients m e
  signalled : ∀ y ∈ others, s'.backlog (y, signalPort e) ≠ [] →
    s.backlog (y, signalPort e) ≠ [] ∨ g
  tasks : ∀ l, s'.lower l ≠ .waiting → s.lower l ≠ .waiting ∨ g

omit [DecidableEq α] in
theorem Effect.refl : Effect m others e g s s where
  upper := rfl
  listening _ h := h
  clients := rfl
  signalled _ _ h := Or.inl h
  tasks _ h := Or.inl h

omit [DecidableEq α] in
theorem Effect.trans {s₁ s₂ : Rendezvous α} (h : Effect m others e g s s₁)
    (h' : Effect m others e g s₁ s₂) : Effect m others e g s s₂ where
  upper := h'.upper.trans h.upper
  listening y hy := h'.listening y (h.listening y hy)
  clients := h'.clients.trans h.clients
  signalled y hy hb := (h'.signalled y hy hb).elim (h.signalled y hy) Or.inr
  tasks l hl := (h'.tasks l hl).elim (h.tasks l) Or.inr

theorem effect_mSocket (port : ℕ) : Effect m others e g s (s.mSocket x port) where
  upper := rfl
  listening y hy := by
    simp only [mSocket, Function.update_apply]
    split_ifs
    · rfl
    · exact hy
  clients := rfl
  signalled _ _ h := Or.inl h
  tasks _ h := Or.inl h

theorem effect_mClose {port : ℕ} (hport : port ≠ dataPort e) :
    Effect m others e g s (s.mClose x port) where
  upper := rfl
  listening y hy := by
    simpa [mClose, Function.update_apply, hport.symm] using hy
  clients := rfl
  signalled _ _ h := Or.inl h
  tasks _ h := Or.inl h

theorem effect_mConnect {c : Client α} {port : ℕ} (hport : port ≠ gatherPort e)
    (hg : port = signalPort e → g) : Effect m others e g s (s.mConnect c x port) := by
  unfold mConnect
  split_ifs
  · refine ⟨rfl, fun _ h => h, ?_, fun y _ hy => ?_, fun _ h => Or.inl h⟩
    · simp [gatherClients, hport.symm]
    · by_cases hsignal : port = signalPort e
      · exact Or.inr (hg hsignal)
      · left
        simpa [Function.update_apply, Ne.symm hsignal] using hy
  · exact Effect.refl

/-- An accept on another port than the gather port only shortens a backlog. -/
theorem effect_mAccept {c : Client α} {port : ℕ} (hport : port ≠ gatherPort e)
    (h : s.mAccept x port = some (c, s')) : Effect m others e g s s' := by
  unfold mAccept at h
  split at h <;> cases h
  rename_i rest hb
  refine ⟨rfl, fun _ h => h, ?_, fun y _ hy => Or.inl ?_, fun _ h => Or.inl h⟩
  · simp [gatherClients, hport.symm]
  · by_cases hxy : (y, signalPort e) = (x, port)
    · rw [hxy, hb]
      exact List.cons_ne_nil c rest
    · simpa [Function.update_apply, hxy] using hy

/-- An accept in `gather_all` moves a client from the backlog to the accepted ones. -/
theorem effect_gather {c : Client α} (h : s.mAccept m (gatherPort e) = some (c, s')) :
    Effect m others e g s { s' with accepted := s'.accepted ++ [c] } := by
  unfold mAccept at h
  split at h <;> cases h
  rename_i rest hb
  refine ⟨rfl, fun _ h => h, ?_, fun y _ hy => Or.inl ?_, fun _ h => Or.inl h⟩
  · simp [gatherClients, hb]
  · simpa [Function.update_apply, gatherPort_ne_signalPort.symm] using hy

omit [DecidableEq α] in
theorem effect_setLower {l : ℕ} {pc : LowerPc} (hl : s.lower l ≠ .waiting ∨ g) :
    Effect m others e g s (s.setLower l pc) where
  upper := rfl
  listening _ h := h
  clients := rfl
  signalled _ _ h := Or.inl h
  tasks k hk := by
    rcases eq_or_ne k l with rfl | hne
    · exact hl
    · left
      simpa [setLower, hne] using hk

theorem accepted_mConnect (c : Client α) (port : ℕ) :
    (s.mConnect c x port).accepted = s.accepted := by
  unfold mConnect
  split_ifs <;> rfl

theorem lower_mConnect (c : Client α) (port : ℕ) :
    (s.mConnect c x port).lower = s.lower := by
  unfold mConnect
  split_ifs <;> rfl

theorem accepted_mAccept {c : Client α} {port : ℕ} (h : s.mAccept x port = some (c, s')) :
    s'.accepted = s.accepted := by
  unfold mAccept at h
  split at h <;> cases h
  rfl

end Effect

section Step
variable {m others lowers e} {s s' : Rendezvous α} {x : α}

/-- A step of the first upper to `pc` keeps the invariant. -/
theorem Inv.first_move {pc : UpperPc} (h : Inv m others e s) (hm : m ∉ others)
    (heff : Effect m others e (pc.gathered = true) s s')
    (hsocket : s.upper m = .start → s'.listening (m, dataPort e) = true)
    (hfirst : pc ≠ .signalReady ∧ pc ≠ .waiting)
    (hgathers : (s.upper m).gathered = true → pc.gathered = true)
    (hearly : pc = .start ∨ pc = .dataReady → s'.accepted = [])
    (hcounted : ∀ k, pc = .gathering k → s'.accepted.length = k)
    (hgathered : pc.gathered = true → s'.accepted.length = others.length) :
    Inv m others e (s'.setUpper m pc) := by
  have hself : (s'.setUpper m pc).upper m = pc := Function.update_self _ _ _
  have hframe : ∀ y ≠ m, (s'.setUpper m pc).upper y = s.upper y := fun y hy => by
    rw [← heff.upper]
    exact Function.update_of_ne hy _ _
  have hothers : ∀ y ∈ others, (s'.setUpper m pc).upper y = s.upper y := fun y hy =>
    hframe y (ne_of_mem_of_not_mem hy hm)
  refine ⟨fun y hy => ?_, by rwa [hself], fun y hy => ?_, fun c hc => ?_, heff.clients ▸ h.nodup,
    by rwa [hself], by rwa [hself], by rwa [hself], fun y hy hb => ?_, fun y hy hr => ?_,
    fun l hl => ?_⟩
  · rcases eq_or_ne y m with rfl | hne
    · by_cases hstart : s.upper y = .start
      · exact hsocket hstart
      · exact heff.listening y (h.socket y hstart)
    · rw [hframe y hne] at hy
      exact heff.listening y (h.socket y hy)
  · rw [hothers y hy]
    exact h.rest y hy
  · obtain ⟨y, hy, rfl, hj⟩ := h.clients c (heff.clients ▸ hc)
    exact ⟨y, hy, rfl, by rwa [hothers y hy]⟩
  · rw [hself]
    exact (heff.signalled y hy hb).elim (fun hb => hgathers (h.signalled y hy hb)) id
  · rw [hself]
    rw [hothers y hy] at hr
    exact hgathers (h.returned y hy hr)
  · rw [hself]
    exact (heff.tasks l hl).elim (fun hl => hgathers (h.tasks l hl)) id

/-- A step of another upper to `pc` keeps the invariant. -/
theorem Inv.other_move {pc : UpperPc} (h : Inv m others e s) (hx : x ≠ m)
    (heff : Effect m others e False s s')
    (hsocket : s.upper x = .start → s'.listening (x, dataPort e) = true)
    (hacc : s'.accepted = s.accepted)
    (hother : pc.ofFirst = false) (hjoined : (s.upper x).joined = true → pc.joined = true)
    (hreturned : pc.returned = true → (s.upper m).gathered = true) :
    Inv m others e (s'.setUpper x pc) := by
  have hself : (s'.setUpper x pc).upper x = pc := Function.update_self _ _ _
  have hframe : ∀ y ≠ x, (s'.setUpper x pc).upper y = s.upper y := fun y hy => by
    rw [← heff.upper]
    exact Function.update_of_ne hy _ _
  have hum := hframe m hx.symm
  have hacc' : (s'.setUpper x pc).accepted = s.accepted := hacc
  refine ⟨fun y hy => ?_, hum ▸ h.first, fun y hy => ?_, fun c hc => ?_, heff.clients ▸ h.nodup,
    by rw [hum, hacc']; exact h.early, by rw [hum, hacc']; exact h.counted,
    by rw [hum, hacc']; exact h.gathered, fun y hy hb => ?_, fun y hy hr => ?_, fun l hl => ?_⟩
  · rcases eq_or_ne y x with rfl | hne
    · by_cases hstart : s.upper y = .start
      · exact hsocket hstart
      · exact heff.listening y (h.socket y hstart)
    · rw [hframe y hne] at hy
      exact heff.listening y (h.socket y hy)
  · rcases eq_or_ne y x with rfl | hne
    · rwa [hself]
    · rw [hframe y hne]
      exact h.rest y hy
  · obtain ⟨y, hy, rfl, hj⟩ := h.clients c (heff.clients ▸ hc)
    refine ⟨y, hy, rfl, ?_⟩
    rcases eq_or_ne y x with rfl | hne
    · rw [hself]
      exact hjoined hj
    · rwa [hframe y hne]
  · rw [hum]
    exact (heff.signalled y hy hb).elim (h.signalled y hy) False.elim
  · rw [hum]
    rcases eq_or_ne y x with rfl | hne
    · exact hreturned (hself ▸ hr)
    · rw [hframe y hne] at hr
      exact h.returned y hy hr
  · rw [hum]
    exact (heff.tasks l hl).elim (h.tasks l) False.elim

/-- Another upper connects to the gather port, once. -/
theorem Inv.join (h : Inv m others e s) (hx : x ∈ others) (hm : m ∉ others)
    (hpc : s.upper x = .signalReady) (hlisten : s.listening (m, gatherPort e) = true) :
    Inv m others e ((s.mConnect (.upper x) m (gatherPort e)).setUpper x .waiting) := by
  have hxm : x ≠ m := ne_of_mem_of_not_mem hx hm
  have hnew : Client.upper x ∉ s.gatherClients m e := fun hc => by
    obtain ⟨y, -, hy, hj⟩ := h.clients _ hc
    cases hy
    simp [hpc] at hj
  set s' := (s.mConnect (.upper x) m (gatherPort e)).setUpper x .waiting with hs'
  have hself : s'.upper x = .waiting := by simp [hs', setUpper]
  have hframe : ∀ y ≠ x, s'.upper y = s.upper y := fun y hy => by
    simp [hs', setUpper, mConnect, hlisten, hy]
  have hum := hframe m hxm.symm
  have hacc : s'.accepted = s.accepted := accepted_mConnect _ _
  have hclients : s'.gatherClients m e = s.gatherClients m e ++ [.upper x] := by
    simp [hs', setUpper, mConnect, hlisten, gatherClients]
  have hsignal : ∀ y, s'.backlog (y, signalPort e) = s.backlog (y, signalPort e) := fun y => by
    simp [hs', setUpper, mConnect, hlisten, gatherPort_ne_signalPort.symm]
  have hlistening : s'.listening = s.listening := by simp [hs', setUpper, mConnect, hlisten]
  have hlower : s'.lower = s.lower := by simp [hs', setUpper, mConnect, hlisten]
  refine ⟨fun y hy => ?_, hum ▸ h.first, fun y hy => ?_, fun c hc => ?_, ?_,
    by rw [hum, hacc]; exact h.early, by rw [hum, hacc]; exact h.counted,
    by rw [hum, hacc]; exact h.gathered, by simpa only [hum, hsignal] using h.signalled,
    fun y hy hr => ?_, by rw [hum, hlower]; exact h.tasks⟩
  · rw [hlistening]
    rcases eq_or_ne y x with rfl | hne
    · exact h.socket y (by simp [hpc])
    · exact h.socket y (hframe y hne ▸ hy)
  · rcases eq_or_ne y x with rfl | hne
    · simp [hself]
    · exact hframe y hne ▸ h.rest y hy
  · rw [hclients, List.mem_append, List.mem_singleton] at hc
    rcases hc with hc | rfl
    · obtain ⟨y, hy, rfl, hj⟩ := h.clients c hc
      refine ⟨y, hy, rfl, ?_⟩
      rcases eq_or_ne y x with rfl | hne
      · simp [hself]
      · exact hframe y hne ▸ hj
    · exact ⟨x, hx, rfl, by simp [hself]⟩
  · rw [hclients]
    exact h.nodup.append (List.nodup_singleton _) (by simpa using hnew)
  · rw [hum]
    rcases eq_or_ne y x with rfl | hne
    · simp [hself] at hr
    · exact h.returned y hy (hframe y hne ▸ hr)

omit [DecidableEq α] in
/-- A step of a lower keeps the invariant. -/
theorem Inv.lower_move (h : Inv m others e s) (heff : Effect m others e False s s')
    (hacc : s'.accepted = s.accepted) : Inv m others e s' := by
  refine ⟨fun y hy => heff.listening y (h.socket y (heff.upper ▸ hy)), heff.upper ▸ h.first,
    heff.upper ▸ h.rest, fun c hc => ?_, heff.clients ▸ h.nodup, ?_, ?_, ?_, fun y hy hb => ?_,
    heff.upper ▸ h.returned, fun l hl => ?_⟩
  · rw [heff.upper]
    exact h.clients c (heff.clients ▸ hc)
  · rw [heff.upper, hacc]
    exact h.early
  · rw [heff.upper, hacc]
    exact h.counted
  · rw [heff.upper, hacc]
    exact h.gathered
  · rw [heff.upper]
    exact (heff.signalled y hy hb).elim (h.signalled y hy) False.elim
  · rw [heff.upper]
    exact (heff.tasks l hl).elim (h.tasks l) False.elim

theorem Inv.first_step (h : Inv m others e s) (hm : m ∉ others)
    (hs : s.upperStep m others lowers e m = some s') : Inv m others e s' := by
  unfold upperStep at hs
  cases hpc : s.upper m with
  | start =>
    simp only [hpc, Option.some.injEq] at hs
    subst hs
    have hacc : s.accepted = [] := h.early (Or.inl hpc)
    refine h.first_move hm (effect_mSocket _) ?_ ?_ ?_ (fun _ => hacc) ?_ ?_
    · simp [mSocket]
    all_goals simp [hpc]
  | dataReady =>
    have hacc : s.accepted = [] := h.early (Or.inr hpc)
    simp only [hpc, if_true] at hs
    split_ifs at hs with hlen <;> cases hs
    · refine h.first_move hm (effect_mSocket _) ?_ ?_ ?_ ?_ ?_ ?_
      all_goals simp [hpc, mSocket, hacc]
    · -- a single upper gathers nobody
      have hnone : s.accepted.length = others.length := by
        simpa [hacc, eq_comm] using hlen
      refine h.first_move hm Effect.refl ?_ ?_ ?_ ?_ ?_ (fun _ => hnone)
      all_goals simp [hpc]
  | gathering k =>
    have hcount := h.counted k hpc
    simp only [hpc] at hs
    split_ifs at hs with hk
    · cases hs
      refine h.first_move hm Effect.refl ?_ ?_ ?_ ?_ ?_ (fun _ => hcount.trans hk)
      all_goals simp [hpc]
    · obtain ⟨⟨c, s₁⟩, hacc, rfl⟩ := Option.map_eq_some_iff.mp hs
      have hlen := accepted_mAccept hacc
      refine h.first_move hm (effect_gather hacc) ?_ ?_ ?_ ?_ ?_ ?_
      all_goals simp [hpc, hlen, hcount]
  | signalling i =>
    have hlen := h.gathered (by simp [hpc])
    simp only [hpc] at hs
    split at hs <;> cases hs
    · refine h.first_move hm (effect_mConnect gatherPort_ne_signalPort.symm fun _ => rfl)
        ?_ ?_ ?_ ?_ ?_ (fun _ => by rwa [accepted_mConnect])
      all_goals simp [hpc]
    · refine h.first_move hm (effect_mClose dataPort_ne_gatherPort.symm) ?_ ?_ ?_ ?_ ?_
        (fun _ => hlen)
      all_goals simp [hpc]
  | serializing i =>
    have hlen := h.gathered (by simp [hpc])
    simp only [hpc] at hs
    split_ifs at hs <;> cases hs
    · refine h.first_move hm (effect_setLower (Or.inr rfl)) ?_ ?_ ?_ ?_ ?_ (fun _ => hlen)
      all_goals simp [hpc]
    · refine h.first_move hm Effect.refl ?_ ?_ ?_ ?_ ?_ (fun _ => hlen)
      all_goals simp [hpc]
  | signalReady => exact absurd hpc h.first.1
  | waiting => exact absurd hpc h.first.2
  | accepting k =>
    have hlen := h.gathered (by simp [hpc])
    simp only [hpc] at hs
    split_ifs at hs
    · cases hs
      refine h.first_move hm Effect.refl ?_ ?_ ?_ ?_ ?_ (fun _ => hlen)
      all_goals simp [hpc]
    · obtain ⟨⟨c, s₁⟩, hacc, rfl⟩ := Option.map_eq_some_iff.mp hs
      refine h.first_move hm (effect_mAccept dataPort_ne_gatherPort hacc) ?_ ?_ ?_ ?_ ?_
        (fun _ => by rwa [accepted_mAccept hacc])
      all_goals simp [hpc]
  | ready => simp [hpc] at hs

theorem Inv.other_step (h : Inv m others e s) (hm : m ∉ others) (hx : x ∈ others)
    (hs : s.upperStep m others lowers e x = some s') : Inv m others e s' := by
  have hxm : x ≠ m := ne_of_mem_of_not_mem hx hm
  have hrest := h.rest x hx
  unfold upperStep at hs
  cases hpc : s.upper x with
  | start =>
    simp only [hpc, Option.some.injEq] at hs
    subst hs
    refine h.other_move hxm (effect_mSocket _) ?_ rfl ?_ ?_ ?_
    all_goals simp [hpc, mSocket]
  | dataReady =>
    simp only [hpc, if_neg hxm, Option.some.injEq] at hs
    subst hs
    refine h.other_move hxm (effect_mSocket _) ?_ rfl ?_ ?_ ?_
    all_goals simp [hpc]
  | gathering k => simp [hpc] at hrest
  | signalling i => simp [hpc] at hrest
  | serializing i => simp [hpc] at hrest
  | signalReady =>
    simp only [hpc] at hs
    split_ifs at hs with hlisten <;> cases hs
    · exact h.join hx hm hpc hlisten
    · exact h
  | waiting =>
    simp only [hpc] at hs
    obtain ⟨⟨c, s₁⟩, hacc, rfl⟩ := Option.map_eq_some_iff.mp hs
    -- the signal it accepts was sent by the first upper after its accepts
    have hgathered : (s.upper m).gathered = true := h.signalled x hx fun hnil => by
      simp [mAccept, hnil] at hacc
    have hlen := accepted_mAccept hacc
    refine h.other_move hxm ((effect_mAccept gatherPort_ne_signalPort.symm hacc).trans
      (effect_mClose dataPort_ne_signalPort.symm)) ?_ hlen ?_ ?_ (fun _ => hgathered)
    all_goals simp [hpc]
  | accepting k =>
    have hgathered := h.returned x hx (by simp [hpc])
    simp only [hpc] at hs
    split_ifs at hs
    · cases hs
      refine h.other_move hxm Effect.refl ?_ rfl ?_ ?_ (fun _ => hgathered)
      all_goals simp [hpc]
    · obtain ⟨⟨c, s₁⟩, hacc, rfl⟩ := Option.map_eq_some_iff.mp hs
      refine h.other_move hxm (effect_mAccept dataPort_ne_gatherPort hacc) ?_
        (accepted_mAccept hacc) ?_ ?_ (fun _ => hgathered)
      all_goals simp [hpc]
  | ready => simp [hpc] at hs

theorem Inv.lower_step {l : ℕ} (h : Inv m others e s)
    (hs : s.lowerStep m others e l = some s') : Inv m others e s' := by
  unfold lowerStep at hs
  split at hs
  · rename_i i hpc
    have hl : s.lower l ≠ .waiting := by simp [hpc]
    split at hs <;> cases hs
    · refine h.lower_move (Effect.trans (effect_mConnect dataPort_ne_gatherPort fun heq => ?_)
        (effect_setLower (Or.inl ?_))) (accepted_mConnect _ _)
      · exact dataPort_ne_signalPort heq
      · rwa [lower_mConnect]
    · exact h.lower_move (effect_setLower (Or.inl hl)) rfl
  · cases hs

theorem step_inv (hm : m ∉ others) (event : Event α) (h : Inv m others e s)
    (hs : s.step m others lowers e event = some s') : Inv m others e s' := by
  cases event with
  | upper x =>
    simp only [step] at hs
    split_ifs at hs with hx
    rcases List.mem_cons.mp hx with rfl | hx
    · exact h.first_step hm hs
    · exact h.other_step hm hx hs
  | deliver l =>
    simp only [step] at hs
    split_ifs at hs with hl
    cases hs
    exact h.lower_move (effect_setLower (Or.inl (by simp [hl]))) rfl
  | lower l => exact h.lower_step hs

/-- In every run, a lower that is about to connect to an upper's data port finds it listening,
and no other upper has left `send_gather` before the first one has accepted all of them. -/
theorem start_up_ordered {events : List (Event α)} (hnd : (m :: others).Nodup)
    (hrun : run (step m others lowers e) start events = some s) :
    (∀ l i y, s.lower l = .connecting i → (m :: others)[i]? = some y →
      s.upper y ≠ .start ∧ s.listening (y, dataPort e) = true) ∧
    (∀ x ∈ others, (s.upper x).returned = true →
      ∀ w ∈ others, Client.upper w ∈ s.accepted) := by
  have hm : m ∉ others := (List.nodup_cons.mp hnd).1
  have h : Inv m others e s := 
    Runs.inv (fun s event s' hs ht => step_inv hm event hs ht) hrun inv_start
  constructor
  · intro l i y hl hy
    have hgathered := h.tasks l (by simp [hl])
    have hstart : s.upper y ≠ .start := by
      rcases List.mem_cons.mp (List.mem_of_getElem? hy) with rfl | hy
      · intro hs
        simp [hs] at hgathered
      · intro hs
        simpa [hs] using (h.all_accepted hgathered hy).2
    exact ⟨hstart, h.socket y hstart⟩
  · intro x hx hret w hw
    exact (h.all_accepted (h.returned x hx hret) hw).1

/-- Two uppers and one lower, up to the lower's first connect. -/
def twoUppers : List (Event ℕ) :=
  [.upper 0, .upper 0, .upper 1, .upper 1, .upper 1, .upper 0, .upper 0, .upper 0, .upper 0,
    .upper 0, .upper 1, .deliver 0]

theorem start_up_ordered_two :
    ∃ s, run (step 0 [1] 1 3) start twoUppers = some s ∧ s.lower 0 = .connecting 0 ∧
      s.listening (0, dataPort 3) = true ∧ (s.upper 1).returned = true ∧
      Client.upper 1 ∈ s.accepted := by
  have hfinal : (run (step 0 [1] 1 3) start twoUppers).map
      (fun s => (s.lower 0, s.upper 1)) = some (.connecting 0, .accepting 0) := by
    decide +kernel
  obtain ⟨s, hrun, heq⟩ := Option.map_eq_some_iff.mp hfinal
  obtain ⟨hlower, hupper⟩ := Prod.mk.inj heq
  have hret : (s.upper 1).returned = true := by simp [hupper]
  obtain ⟨hdata, hgather⟩ := start_up_ordered (by decide) hrun
  exact ⟨s, hrun, hlower, (hdata 0 0 0 hlower rfl).2, hret,
    hgather 1 (by decide) hret 1 (by decide)⟩

end Step

end Rendezvous
end Mosito
