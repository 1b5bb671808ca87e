import Mosito.Physical.ReceiveRoute
import Mosito.Physical.SendRoute

/-! The exchange: the hosts of the lower ends, the hosts of the upper ends, and a connection from
each of the former to each of the latter. -/
namespace Mosito
open History Runs

/-- `slot u l` is the number under which upper `u` accepted the connection of lower `l`; a
connection holds at most `window` blocks that were not received. -/
structure Wiring where
  lowers : ℕ
  uppers : ℕ
  window : ℕ
  slot : ℕ → ℕ → ℕ
  lowers_pos : 1 ≤ lowers
  uppers_pos : 1 ≤ uppers
  window_pos : 1 ≤ window
  slot_lt : ∀ u l, l < lowers → slot u l < lowers
  slot_inj : ∀ u l l', l < lowers → l' < lowers → slot u l = slot u l' → l = l'

/-- A sum over the lowers is one over the connections of an upper. -/
theorem Wiring.sum_slot (w : Wiring) (u : ℕ) (f : ℕ → ℕ) :
    ∑ i ∈ Finset.range w.lowers, f i = ∑ l ∈ Finset.range w.lowers, f (w.slot u l) := by
  have hmaps : Set.MapsTo (w.slot u) (Finset.range w.lowers) (Finset.range w.lowers) :=
    fun l hl => Finset.mem_coe.mpr (Finset.mem_range.mpr
      (w.slot_lt u l (Finset.mem_range.mp (Finset.mem_coe.mp hl))))
  have hinj : Set.InjOn (w.slot u) (Finset.range w.lowers) := fun l hl l' hl' =>
    w.slot_inj u l l' (Finset.mem_range.mp (Finset.mem_coe.mp hl))
      (Finset.mem_range.mp (Finset.mem_coe.mp hl'))
  have hsurj := Finset.surjOn_of_injOn_of_card_le _ hmaps hinj le_rfl
  exact (Finset.sum_nbij (w.slot u) hmaps hinj hsurj fun _ _ => rfl).symm

/-- The connections of an upper are those of all lowers. -/
theorem Wiring.slots_perm (w : Wiring) (u : ℕ) :
    ((List.range w.lowers).map (w.slot u)).Perm (List.range w.lowers) := by
  have hnodup : ((List.range w.lowers).map (w.slot u)).Nodup :=
    List.nodup_range.map_on fun l hl l' hl' =>
      w.slot_inj u l l' (List.mem_range.mp hl) (List.mem_range.mp hl')
  have hsub : (List.range w.lowers).map (w.slot u) ⊆ List.range w.lowers := by
    intro i hi
    obtain ⟨l, hl, rfl⟩ := List.mem_map.mp hi
    exact List.mem_range.mpr (w.slot_lt u l (List.mem_range.mp hl))
  exact (List.subperm_of_subset hnodup hsub).perm_of_length_le (by simp)

structure Exchange where
  lower : ℕ → LowerHost
  upper : ℕ → UpperHost

namespace Exchange
open Image

/-- `execute` of lower `l` puts a block, its `send_route` goes on, or upper `u` takes a step. -/
inductive Event where
  | put (l : ℕ)
  | send (l : ℕ)
  | upper (u : ℕ) (e : UpperHost.Event)

def setLower (s : Exchange) (l : ℕ) (host : LowerHost) : Exchange :=
  { s with lower := Function.update s.lower l host }

def setUpper (s : Exchange) (u : ℕ) (host : UpperHost) : Exchange :=
  { s with upper := Function.update s.upper u host }

section Hosts
variable (s : Exchange) {l l' u u' : ℕ} (lower : LowerHost) (upper : UpperHost)

@[simp] theorem setLower_self : (s.setLower l lower).lower l = lower := Function.update_self _ _ _

theorem setLower_of_ne (h : l' ≠ l) : (s.setLower l lower).lower l' = s.lower l' :=
  Function.update_of_ne h _ _

@[simp] theorem setLower_upper : (s.setLower l lower).upper = s.upper := rfl

@[simp] theorem setUpper_self : (s.setUpper u upper).upper u = upper := Function.update_self _ _ _

theorem setUpper_of_ne (h : u' ≠ u) : (s.setUpper u upper).upper u' = s.upper u' :=
  Function.update_of_ne h _ _

@[simp] theorem setUpper_lower : (s.setUpper u upper).lower = s.lower := rfl

end Hosts

/-- The state after `m_send` of lower `l` to upper `u`. -/
def sendTo (w : Wiring) (l u : ℕ) (s : Exchange) : Exchange :=
  (s.setLower l ((s.lower l).sent w.uppers u)).setUpper u { s.upper u with
    merger := (s.upper u).merger.carry (w.slot u l) (s.lower l).blockTemp.image }

/-- A step of `send_route`, with `m_send` once the connection has room. -/
def send (w : Wiring) (l : ℕ) (s : Exchange) : Option Exchange :=
  match (s.lower l).ctrl with
  | .get i k => some (s.setLower l ((s.lower l).get w.uppers i k))
  | .send u =>
      if ((s.upper u).merger.coming (w.slot u l)).length < w.window then some (s.sendTo w l u)
      else none
  | .returned => none

def step (w : Wiring) (s : Exchange) : Event → Option Exchange
  | .put l => if l < w.lowers then (s.lower l).put.map (s.setLower l) else none
  | .send l => if l < w.lowers then s.send w l else none
  | .upper u e =>
      if u < w.uppers then ((s.upper u).step w.lowers e).map (s.setUpper u) else none

/-- The receive thread of no upper gives a block up. -/
def Patient (s : Exchange) : Event → Prop
  | .upper u e => (s.upper u).Patient e
  | _ => True

/-- The connections are accepted, all columns are empty, and `execute` of lower `l` is going to
make the puts `puts l`. -/
def start (store : ℕ → ℕ → ℕ → Block) (junk : ℕ → ByteStore.Memory) (block : ℕ → Image)
    (totalsize : ℕ) (puts : ℕ → List (ℕ × Image)) : Exchange where
  lower l := LowerHost.start (store l) (junk l) totalsize (puts l)
  upper u := UpperHost.start (store u) (block u)

/-- The data blocks of lower `l` that `execute` of upper `u` has passed on. -/
def passed (w : Wiring) (s : Exchange) (u l : ℕ) : List Image :=
  (s.upper u).upper.passed (w.slot u l)

/-- All threads have returned, and `execute` has returned false everywhere. -/
structure Finished (w : Wiring) (s : Exchange) : Prop where
  todo : ∀ l < w.lowers, (s.lower l).todo = []
  sent : ∀ l < w.lowers, (s.lower l).ctrl = .returned
  received : ∀ u < w.uppers, (s.upper u).merger.ctrl = .returned
  executed : ∀ u < w.uppers, (s.upper u).ctrl = .finished

/-- What lower `l` has sent to upper `u`. -/
def wire (w : Wiring) (s : Exchange) (l u : ℕ) : List Image :=
  (s.upper u).merger.sent (w.slot u l)

structure Inv (w : Wiring) (puts : ℕ → List (ℕ × Image)) (s : Exchange) : Prop where
  lower : ∀ l < w.lowers, (s.lower l).Inv w.uppers (puts l) (s.wire w l)
  upper : ∀ u < w.uppers, (s.upper u).Inv w.lowers

/-- Nothing was lost so far. -/
structure Sound (w : Wiring) (puts : ℕ → List (ℕ × Image)) (s : Exchange) : Prop where
  inv : s.Inv w puts
  complete : ∀ u < w.uppers, (s.upper u).merger.Complete w.lowers

section Step
variable {w : Wiring} {puts : ℕ → List (ℕ × Image)} {s s' : Exchange} {e : Event}

theorem inv_start (w : Wiring) (store : ℕ → ℕ → ℕ → Block) (junk : ℕ → ByteStore.Memory)
    (block : ℕ → Image) (totalsize : ℕ) (puts : ℕ → List (ℕ × Image)) :
    Inv w puts (start store junk block totalsize puts) where
  lower l _ := LowerHost.inv_start w.uppers_pos (store l) (junk l) totalsize (puts l)
  upper u _ := UpperHost.inv_start w.lowers_pos (store u) (block u)

theorem sound_start (w : Wiring) (store : ℕ → ℕ → ℕ → Block) (junk : ℕ → ByteStore.Memory)
    (block : ℕ → Image) (totalsize : ℕ) (puts : ℕ → List (ℕ × Image)) :
    Sound w puts (start store junk block totalsize puts) :=
  ⟨inv_start w store junk block totalsize puts, fun _ _ _ _ => rfl⟩

theorem Inv.setLower (h : s.Inv w puts) {l : ℕ} {host : LowerHost}
    (hhost : l < w.lowers → host.Inv w.uppers (puts l) (s.wire w l)) :
    (s.setLower l host).Inv w puts := by
  refine ⟨fun l' hl' => ?_, h.upper⟩
  by_cases hl : l' = l
  · subst hl
    rw [setLower_self]
    exact hhost hl'
  · rw [setLower_of_ne s host hl]
    exact h.lower l' hl'

/-- A step of an upper that leaves alone what was sent to it. -/
theorem Inv.setUpper (h : s.Inv w puts) {u : ℕ} {host : UpperHost} (hhost : host.Inv w.lowers)
    (hsent : host.merger.sent = (s.upper u).merger.sent) : (s.setUpper u host).Inv w puts := by
  constructor
  · intro l hl
    have hwire : (s.setUpper u host).wire w l = s.wire w l := by
      funext v
      by_cases hv : v = u
      · subst hv
        rw [wire, setUpper_self, hsent]
        rfl
      · rw [wire, setUpper_of_ne s host hv]
        rfl
    rw [hwire]
    exact h.lower l hl
  · intro v hv
    by_cases hvu : v = u
    · subst hvu
      rw [setUpper_self]
      exact hhost
    · rw [setUpper_of_ne s host hvu]
      exact h.upper v hv

theorem wire_sendTo {l l' u : ℕ} (hl : l < w.lowers) (hl' : l' < w.lowers) :
    (s.sendTo w l u).wire w l' = if l' = l then
      Function.update (s.wire w l) u (s.wire w l u ++ [(s.lower l).blockTemp.image])
    else s.wire w l' := by
  funext v
  rw [wire, sendTo]
  by_cases hv : v = u
  · subst hv
    rw [setUpper_self, Merger.sent_carry]
    by_cases hll : l' = l
    · subst hll
      rw [if_pos rfl, Function.update_self, Function.update_self]
      rfl
    · have hslot : w.slot v l' ≠ w.slot v l := fun heq => hll (w.slot_inj v l' l hl' hl heq)
      rw [if_neg hll, Function.update_of_ne hslot]
      rfl
  · rw [setUpper_of_ne _ _ hv]
    split
    · next hll =>
      rw [Function.update_of_ne hv, hll]
      rfl
    · rfl

/-- A block goes onto the connection. -/
theorem Inv.sendTo (h : s.Inv w puts) {l u : ℕ} (hl : l < w.lowers)
    (hctrl : (s.lower l).ctrl = .send u) : (s.sendTo w l u).Inv w puts := by
  constructor
  · intro l' hl'
    rw [wire_sendTo hl hl', Exchange.sendTo, setUpper_lower]
    by_cases hll : l' = l
    · subst hll
      rw [if_pos rfl, setLower_self]
      exact (h.lower l' hl').sent hctrl
    · rw [if_neg hll, setLower_of_ne _ _ hll]
      exact h.lower l' hl'
  · intro v hv
    rw [Exchange.sendTo]
    by_cases hvu : v = u
    · subst hvu
      rw [setUpper_self]
      exact (h.upper v hv).carry _ _
    · rw [setUpper_of_ne _ _ hvu]
      exact h.upper v hv

theorem Inv.send (h : s.Inv w puts) {l : ℕ} (hl : l < w.lowers) (hs : s.send w l = some s') :
    s'.Inv w puts := by
  unfold Exchange.send at hs
  split at hs
  · next i k hctrl =>
    cases hs
    exact h.setLower fun _ => (h.lower l hl).get hctrl
  · next u hctrl =>
    split at hs
    · cases hs
      exact h.sendTo hl hctrl
    · cases hs
  · cases hs

theorem Inv.step (h : s.Inv w puts) (hs : step w s e = some s') : s'.Inv w puts := by
  cases e with
  | put l =>
    rw [Exchange.step] at hs
    split at hs
    · next hl =>
      obtain ⟨host, hput, rfl⟩ := Option.map_eq_some_iff.mp hs
      exact h.setLower fun _ => (h.lower l hl).put hput
    · cases hs
  | send l =>
    rw [Exchange.step] at hs
    split at hs
    · next hl => exact h.send hl hs
    · cases hs
  | upper u e =>
    rw [Exchange.step] at hs
    split at hs
    · next hu =>
      obtain ⟨host, hstep, rfl⟩ := Option.map_eq_some_iff.mp hs
      obtain ⟨hhost, hsent⟩ := (h.upper u hu).step w.lowers_pos hstep
      exact h.setUpper hhost hsent
    · cases hs

theorem complete_setUpper (hc : ∀ v < w.uppers, (s.upper v).merger.Complete w.lowers) {u : ℕ}
    {host : UpperHost} (hhost : u < w.uppers → host.merger.Complete w.lowers) :
    ∀ v < w.uppers, ((s.setUpper u host).upper v).merger.Complete w.lowers := by
  intro v hv
  by_cases hvu : v = u
  · subst hvu
    rw [setUpper_self]
    exact hhost hv
  · rw [setUpper_of_ne s host hvu]
    exact hc v hv

/-- A step in which the receive threads give nothing up loses nothing. -/
theorem Sound.step (h : s.Sound w puts) (hp : s.Patient e) (hs : Exchange.step w s e = some s') :
    s'.Sound w puts := by
  refine ⟨h.inv.step hs, ?_⟩
  cases e with
  | put l =>
    rw [Exchange.step] at hs
    split at hs
    · obtain ⟨host, -, rfl⟩ := Option.map_eq_some_iff.mp hs
      exact h.complete
    · cases hs
  | send l =>
    rw [Exchange.step] at hs
    split at hs
    · unfold Exchange.send at hs
      split at hs
      · cases hs
        exact h.complete
      · next u _ =>
        split at hs
        · cases hs
          exact complete_setUpper (s := s.setLower l _) h.complete (h.complete u)
        · cases hs
      · cases hs
    · cases hs
  | upper u e =>
    rw [Exchange.step] at hs
    split at hs
    · next hu =>
      obtain ⟨host, hstep, rfl⟩ := Option.map_eq_some_iff.mp hs
      exact complete_setUpper h.complete fun _ =>
        UpperHost.complete_step w.lowers_pos (h.inv.upper u hu) (h.complete u hu) hp hstep
    · cases hs

theorem Sound.upper (h : s.Sound w puts) {u : ℕ} (hu : u < w.uppers) :
    (s.upper u).Sound w.lowers := ⟨h.inv.upper u hu, h.complete u hu⟩

end Step

/-! What is delivered. -/

/-- A part of the second list is related to a part of the first one. -/
theorem sublist_of_forall₂ {α β : Type} {R : α → β → Prop} {as : List α} {bs cs : List β}
    (h : List.Forall₂ R as bs) (hs : cs.Sublist bs) : ∃ ds, ds.Sublist as ∧ List.Forall₂ R ds cs := by
  induction hs generalizing as with
  | slnil =>
    cases h
    exact ⟨[], .slnil, .nil⟩
  | cons b _ ih =>
    obtain ⟨a, as', -, has, rfl⟩ := List.forall₂_cons_right_iff.mp h
    obtain ⟨ds, hds, hrel⟩ := ih has
    exact ⟨ds, hds.cons a, hrel⟩
  | cons_cons b _ ih =>
    obtain ⟨a, as', hab, has, rfl⟩ := List.forall₂_cons_right_iff.mp h
    obtain ⟨ds, hds, hrel⟩ := ih has
    exact ⟨a :: ds, hds.cons_cons a, .cons hab hrel⟩

/-- The blocks with tuples. -/
def dataBlocks (blocks : List Image) : List Image := blocks.filter fun b => b.count ≠ 0

theorem forall₂_dataBlocks {as bs : List Image} (h : List.Forall₂ SameButTag as bs) :
    List.Forall₂ SameButTag (dataBlocks as) (dataBlocks bs) := by
  apply List.rel_filter _ h
  intro a b hab
  simp [hab.count_eq]

section Delivery
variable {w : Wiring} {puts : ℕ → List (ℕ × Image)} {s s' : Exchange} {u l : ℕ}

theorem Inv.passed_eq (h : s.Inv w puts) (hu : u < w.uppers) (l : ℕ) :
    s.passed w u l = dataBlocks ((s.upper u).upper.taken (w.slot u l)) :=
  (h.upper u hu).upper.passed_eq _

/-- What is taken was sent, in this order. -/
theorem Inv.taken_sublist (h : s.Inv w puts) (hu : u < w.uppers) (l : ℕ) :
    ((s.upper u).upper.taken (w.slot u l)).Sublist (s.wire w l u) := by
  obtain ⟨settled, hm⟩ := (h.upper u hu).merger
  have hsettled : settled (w.slot u l) <+: (s.upper u).merger.received (w.slot u l) := by
    rw [hm.split]
    exact List.prefix_append _ _
  have hreceived : (s.upper u).merger.received (w.slot u l) <+: s.wire w l u :=
    List.prefix_append _ _
  exact ((h.upper u hu).taken_initial _).sublist.trans
    ((hm.kept _).trans (hsettled.trans hreceived).sublist)

/-- Without a loss, the first of the blocks that were sent are taken. -/
theorem Sound.taken_initial (h : s.Sound w puts) (hu : u < w.uppers) (hl : l < w.lowers) :
    (s.upper u).upper.taken (w.slot u l) <+: s.wire w l u := by
  rw [wire, (h.complete u hu).sent_eq (w.slot_lt u l hl)]
  exact ((h.inv.upper u hu).taken_initial _).trans (List.prefix_append _ _)

/-- When the receive thread has returned, all that was put for this upper has been received. -/
theorem Sound.returned (h : s.Sound w puts) (hclosed : ∀ l < w.lowers, Closed (part u (puts l)))
    (hu : u < w.uppers) (hret : (s.upper u).merger.ctrl = .returned) (hl : l < w.lowers) :
    (s.upper u).merger.coming (w.slot u l) = [] ∧ (s.lower l).unsent u = [] := by
  obtain ⟨settled, hm⟩ := (h.inv.upper u hu).merger
  have hpre (l : ℕ) : settled (w.slot u l) <+: s.wire w l u ++ (s.lower l).unsent u := by
    have hrec := hm.split (w.slot u l)
    rw [wire, Merger.sent, hrec, List.append_assoc, List.append_assoc]
    exact List.prefix_append _ _
  have hall : settled (w.slot u l) = s.wire w l u ++ (s.lower l).unsent u := by
    refine taken_all (fun l hl => closed_of_forall₂ ((h.inv.lower l hl).same_all u) (hclosed l hl))
      (fun l _ => hpre l) ?_ hl
    rw [← w.sum_slot u fun i => zeros (settled i), ← hm.met]
    exact hm.final hret
  have hsplit := hm.split (w.slot u l)
  rw [wire, Merger.sent, hsplit, List.append_assoc, List.append_assoc, List.self_eq_append_right]
    at hall
  simp only [List.append_eq_nil_iff] at hall
  exact ⟨hall.2.1, hall.2.2⟩

/-- When `execute` has returned false, it has taken all that was put for this upper. -/
theorem Sound.finished (h : s.Sound w puts) (hclosed : ∀ l < w.lowers, Closed (part u (puts l)))
    (hu : u < w.uppers) (hf : (s.upper u).ctrl = .finished) (hl : l < w.lowers) :
    (s.upper u).upper.taken (w.slot u l) = s.wire w l u ∧ (s.lower l).unsent u = [] := by
  have hinv := (h.inv.upper u hu).upper
  have hpre (l : ℕ) (hl : l < w.lowers) : (s.upper u).upper.taken (w.slot u l) <+:
      s.wire w l u ++ (s.lower l).unsent u :=
    (h.taken_initial hu hl).trans (List.prefix_append _ _)
  have hall : (s.upper u).upper.taken (w.slot u l) = s.wire w l u ++ (s.lower l).unsent u := by
    refine taken_all (fun l hl => closed_of_forall₂ ((h.inv.lower l hl).same_all u) (hclosed l hl))
      hpre ?_ hl
    rw [← w.sum_slot u fun i => zeros ((s.upper u).upper.taken i), ← hinv.met]
    exact (hinv.ended hf).1
  obtain ⟨rest, hrest⟩ := h.taken_initial hu hl
  rw [← hrest, List.append_assoc, List.self_eq_append_right, List.append_eq_nil_iff] at hall
  rw [hall.1, List.append_nil] at hrest
  exact ⟨hrest, hall.2⟩

theorem Sound.finished_left (h : s.Sound w puts)
    (hclosed : ∀ l < w.lowers, Closed (part u (puts l))) (hu : u < w.uppers)
    (hf : (s.upper u).ctrl = .finished) : (s.upper u).left w.lowers = 0 := by
  rw [UpperHost.left, w.sum_slot u]
  apply Finset.sum_eq_zero
  intro l hl
  have hl := Finset.mem_range.mp hl
  obtain ⟨htaken, -⟩ := h.finished hclosed hu hf hl
  have hpop : (s.upper u).upper.taken (w.slot u l) = (s.upper u).merger.popped (w.slot u l) := by
    rw [(h.inv.upper u hu).popped]
  rw [hpop, wire, (h.complete u hu).sent_eq (w.slot_lt u l hl), Merger.enqueued, List.append_assoc,
    List.self_eq_append_right] at htaken
  simp only [List.append_eq_nil_iff] at htaken
  rw [UpperHost.weight, htaken.1, htaken.2.1, htaken.2.2]
  rfl

end Delivery

/-! The way to the end. -/

/-- The hops that all blocks still have to make. -/
def left (w : Wiring) (s : Exchange) : ℕ :=
  ∑ l ∈ Finset.range w.lowers, (s.lower l).left w.uppers +
    ∑ u ∈ Finset.range w.uppers, (s.upper u).left w.lowers

section Progress
variable {w : Wiring} {puts : ℕ → List (ℕ × Image)} {s s' : Exchange} {u l : ℕ}

theorem left_setLower (hl : l < w.lowers) (host : LowerHost) :
    (s.setLower l host).left w + (s.lower l).left w.uppers =
      s.left w + host.left w.uppers := by
  have hsum := sum_update hl (fun _ h => LowerHost.left w.uppers h) s.lower host
  rw [left, left]
  change ∑ j ∈ Finset.range w.lowers, (Function.update s.lower l host j).left w.uppers + _ + _ = _
  rw [setLower_upper]
  omega

theorem left_setUpper (hu : u < w.uppers) (host : UpperHost) :
    (s.setUpper u host).left w + (s.upper u).left w.lowers =
      s.left w + host.left w.lowers := by
  have hsum := sum_update hu (fun _ h => UpperHost.left w.lowers h) s.upper host
  rw [left, left]
  change _ + ∑ j ∈ Finset.range w.uppers, (Function.update s.upper u host j).left w.lowers + _ = _
  rw [setUpper_lower]
  omega

/-- The steps of an upper are steps of the exchange. -/
theorem leads_upper (hu : u < w.uppers) {host : UpperHost}
    (h : Leads (UpperHost.step w.lowers) (fun _ => True) (s.upper u) host) :
    Leads (step w) (fun _ => True) s (s.setUpper u host) := by
  obtain ⟨es, -, hrun⟩ := h
  induction es generalizing s with
  | nil =>
    cases hrun
    have hself : s.setUpper u (s.upper u) = s := by
      rw [setUpper, Function.update_eq_self]
    rw [hself]
    exact .refl s
  | cons e es ih =>
    obtain ⟨t, ht, hrun⟩ := run_cons.mp hrun
    have hrest := ih (s := s.setUpper u t) (by rwa [setUpper_self])
    have htwice : (s.setUpper u t).setUpper u host = s.setUpper u host := by
      simp [setUpper]
    rw [htwice] at hrest
    refine hrest.head (e := .upper u e) trivial ?_
    rw [step, if_pos hu, ht, Option.map_some]

theorem sent_of_leads {n : ℕ} (hn : 1 ≤ n) {host host' : UpperHost} (h : host.Inv n)
    (hleads : Leads (UpperHost.step n) (fun _ => True) host host') :
    host'.merger.sent = host.merger.sent := by
  obtain ⟨es, -, hrun⟩ := hleads
  have hkeep := inv (I := fun t => UpperHost.Inv n t ∧ t.merger.sent = host.merger.sent)
    (fun t e t' ht hs => ⟨(ht.1.step hn hs).1, (ht.1.step hn hs).2.trans ht.2⟩) hrun ⟨h, rfl⟩
  exact hkeep.2

/-- An upper with blocks on their way brings one of them a hop further. -/
theorem Sound.progress_upper (h : s.Sound w puts)
    (hclosed : ∀ l < w.lowers, Closed (part u (puts l))) (hu : u < w.uppers)
    (hleft : (s.upper u).left w.lowers ≠ 0) :
    ∃ s', Leads (Exchange.step w) (fun _ => True) s s' ∧ s'.Sound w puts ∧
      s'.left w < s.left w := by
  have hopen (hret : (s.upper u).merger.ctrl = .returned) (i : ℕ) (hi : i < w.lowers) :
      (s.upper u).merger.coming i = [] := by
    have hsum : ∑ i ∈ Finset.range w.lowers, ((s.upper u).merger.coming i).length = 0 := by
      rw [w.sum_slot u]
      apply Finset.sum_eq_zero
      intro l hl
      rw [(h.returned hclosed hu hret (Finset.mem_range.mp hl)).1]
      rfl
    exact List.length_eq_zero_iff.mp
      (Finset.sum_eq_zero_iff.mp hsum i (Finset.mem_range.mpr hi))
  obtain ⟨host, hleads, hsound, hlt⟩ := (h.upper hu).progress w.lowers_pos
    (fun hf => hleft (h.finished_left hclosed hu hf)) hopen hleft
  have hsent := sent_of_leads w.lowers_pos (h.inv.upper u hu) hleads
  refine ⟨_, leads_upper hu hleads, ⟨h.inv.setUpper hsound.1 hsent,
    complete_setUpper h.complete fun _ => hsound.2⟩, ?_⟩
  have := left_setUpper (s := s) hu host
  omega

/-- A send thread with a block in its hand sends it onto an empty connection. -/
theorem Sound.progress_send (h : s.Sound w puts) (hl : l < w.lowers)
    (hctrl : (s.lower l).ctrl = .send u) (hnil : (s.upper u).left w.lowers = 0) :
    ∃ s', Leads (Exchange.step w) (fun _ => True) s s' ∧ s'.Sound w puts ∧
      s'.left w < s.left w := by
  have hu := (h.inv.lower l hl).sends u hctrl
  have hslot := w.slot_lt u l hl
  have hstep : Exchange.step w s (.send l) = some (s.sendTo w l u) := by
    rw [Exchange.step, if_pos hl, send, hctrl]
    dsimp only
    rw [(UpperHost.weight_eq_zero hnil hslot).1]
    exact if_pos w.window_pos
  refine ⟨_, (Leads.refl _).head trivial hstep, h.step (e := .send l) trivial hstep, ?_⟩
  have hlower := left_setLower (s := s) hl ((s.lower l).sent w.uppers u)
  have hupper := left_setUpper (s := s.setLower l ((s.lower l).sent w.uppers u)) hu { s.upper u with
    merger := (s.upper u).merger.carry (w.slot u l) (s.lower l).blockTemp.image }
  have hsent := (h.inv.lower l hl).left_sent hctrl
  have hcarry := UpperHost.left_carry (s := s.upper u) hslot (s.lower l).blockTemp.image
  rw [setLower_upper, hcarry] at hupper
  rw [sendTo]
  dsimp only at hupper ⊢
  omega

/-- A send thread with a block in some column takes one after some attempts. -/
theorem Sound.progress_get (h : s.Sound w puts) (hl : l < w.lowers) {i k j : ℕ}
    (hctrl : (s.lower l).ctrl = .get i k) (hj : j < w.uppers)
    (hne : ((s.lower l).data j).contents ≠ []) :
    ∃ s', Leads (Exchange.step w) (fun _ => True) s s' ∧ s'.Sound w puts ∧
      s'.left w < s.left w := by
  induction hm : ShuffleUpper1.distance w.uppers j i k using Nat.strong_induction_on
    generalizing s i k with
  | _ m ih =>
    have hstep : Exchange.step w s (.send l) =
        some (s.setLower l ((s.lower l).get w.uppers i k)) := by
      rw [Exchange.step, if_pos hl, send, hctrl]
    have hsound := h.step (e := .send l) trivial hstep
    have hleft := left_setLower (s := s) hl ((s.lower l).get w.uppers i k)
    rcases (h.inv.lower l hl).get_nearer hctrl hj hne with hlt | ⟨i', k', heq, hnear⟩
    · exact ⟨_, (Leads.refl _).head trivial hstep, hsound, by omega⟩
    · have hsame : ((s.lower l).get w.uppers i k).left w.uppers = (s.lower l).left w.uppers := by
        have hhand (u : ℕ) : ((s.lower l).get w.uppers i k).hand u = (s.lower l).hand u := by
          rw [LowerHost.hand_get hctrl, heq]
          rfl
        simp only [LowerHost.left, hhand]
        rw [heq]
      obtain ⟨s', hleads, hs', hlt⟩ := ih _ (hm ▸ hnear) hsound
        (by rw [setLower_self, heq]) (by rw [setLower_self, heq]; exact hne) rfl
      exact ⟨s', hleads.head trivial hstep, hs', by omega⟩

/-- A lower with blocks on their way brings one of them a hop further. -/
theorem Sound.progress_lower (h : s.Sound w puts)
    (hclosed : ∀ u < w.uppers, Closed (part u (puts l)))
    (hcolumn : ∀ p ∈ puts l, p.1 < w.uppers) (hl : l < w.lowers)
    (hempty : ∀ u < w.uppers, (s.upper u).left w.lowers = 0)
    (hleft : (s.lower l).left w.uppers ≠ 0) :
    ∃ s', Leads (Exchange.step w) (fun _ => True) s s' ∧ s'.Sound w puts ∧
      s'.left w < s.left w := by
  have hinv := h.inv.lower l hl
  cases hctrl : (s.lower l).ctrl with
  | send u => exact h.progress_send hl hctrl (hempty u (hinv.sends u hctrl))
  | get i k =>
    by_cases hdata : ∃ j < w.uppers, ((s.lower l).data j).contents ≠ []
    · obtain ⟨j, hj, hne⟩ := hdata
      exact h.progress_get hl hctrl hj hne
    push Not at hdata
    obtain ⟨⟨j, b⟩, todo, htodo⟩ : ∃ p todo, (s.lower l).todo = p :: todo := by
      apply List.exists_cons_of_ne_nil
      intro hnil
      apply hleft
      rw [LowerHost.left, hnil, List.length_nil, Nat.mul_zero, Nat.zero_add]
      apply Finset.sum_eq_zero
      intro u hu
      rw [hdata u (Finset.mem_range.mp hu), LowerHost.hand_get hctrl]
      rfl
    have hj : j < w.uppers := hcolumn (j, b) (hinv.todo.subset (htodo ▸ List.mem_cons_self))
    obtain ⟨host, hput, hlt⟩ := hinv.put_of_room htodo hj (hdata j hj)
    have hstep : Exchange.step w s (.put l) = some (s.setLower l host) := by
      rw [Exchange.step, if_pos hl, hput, Option.map_some]
    have hsum := left_setLower (s := s) hl host
    exact ⟨_, (Leads.refl _).head trivial hstep, h.step (e := .put l) trivial hstep, by omega⟩
  | returned =>
    exfalso
    apply hleft
    have hdone (u : ℕ) (hu : u < w.uppers) := hinv.returned hclosed hctrl hu
    have htodo : (s.lower l).todo = [] := by
      by_contra hne
      obtain ⟨⟨j, b⟩, todo, htodo⟩ := List.exists_cons_of_ne_nil hne
      have hj : j < w.uppers := hcolumn (j, b) (hinv.todo.subset (htodo ▸ List.mem_cons_self))
      have hpart := (hdone j hj).2
      rw [htodo, part_cons_self] at hpart
      cases hpart
    rw [LowerHost.left, htodo, List.length_nil, Nat.mul_zero, Nat.zero_add]
    apply Finset.sum_eq_zero
    intro u hu
    rw [(hdone u (Finset.mem_range.mp hu)).1, LowerHost.hand, hctrl]
    rfl

/-- When no block has a hop left to make, all threads have returned. -/
theorem Sound.finished_of_left (h : s.Sound w puts)
    (hclosed : ∀ l < w.lowers, ∀ u < w.uppers, Closed (part u (puts l))) (hleft : s.left w = 0) :
    s.Finished w := by
  obtain ⟨hlowers, huppers⟩ := Nat.add_eq_zero_iff.mp hleft
  rw [Finset.sum_eq_zero_iff] at hlowers huppers
  have hlower (l : ℕ) (hl : l < w.lowers) : (s.lower l).todo = [] ∧ ∀ u < w.uppers,
      ((s.lower l).data u).contents = [] ∧ (s.lower l).hand u = [] := by
    have hzero := hlowers l (Finset.mem_range.mpr hl)
    rw [LowerHost.left, Nat.add_eq_zero_iff, Finset.sum_eq_zero_iff] at hzero
    refine ⟨List.length_eq_zero_iff.mp (by omega), fun u hu => ?_⟩
    have hu := hzero.2 u (Finset.mem_range.mpr hu)
    exact ⟨List.length_eq_zero_iff.mp (by omega), List.length_eq_zero_iff.mp (by omega)⟩
  -- everything that was put was sent
  have hzeros (l : ℕ) (hl : l < w.lowers) (u : ℕ) (hu : u < w.uppers) :
      zeros (s.wire w l u) = 1 := by
    have hsame := (h.inv.lower l hl).same_all u
    rw [LowerHost.unsent, (hlower l hl).1, ((hlower l hl).2 u hu).1, ((hlower l hl).2 u hu).2] at hsame
    simp only [part_nil, List.append_nil] at hsame
    rw [zeros_eq_of_forall₂ hsame, zeros_of_closed (hclosed l hl u hu)]
  have hall (u : ℕ) (hu : u < w.uppers) :
      ∑ i ∈ Finset.range w.lowers, zeros ((s.upper u).merger.sent i) = w.lowers := by
    rw [w.sum_slot u]
    have hone : ∀ l ∈ Finset.range w.lowers, zeros ((s.upper u).merger.sent (w.slot u l)) = 1 :=
      fun l hl => hzeros l (Finset.mem_range.mp hl) u hu
    rw [Finset.sum_congr rfl hone, Finset.sum_const, Finset.card_range, smul_eq_mul, mul_one]
  refine ⟨fun l hl => (hlower l hl).1, fun l hl => ?_, fun u hu => ?_, fun u hu => ?_⟩
  · have hinv := h.inv.lower l hl
    have hmet : (s.lower l).meetZero = w.uppers := by
      have hone : ∀ u ∈ Finset.range w.uppers, zeros (s.wire w l u) = 1 :=
        fun u hu => hzeros l hl u (Finset.mem_range.mp hu)
      rw [hinv.met, Finset.sum_congr rfl hone, Finset.sum_const, Finset.card_range, smul_eq_mul,
        mul_one]
    by_contra hne
    have := hinv.running hne
    omega
  · have hzero := huppers u (Finset.mem_range.mpr hu)
    obtain ⟨settled, hm⟩ := (h.inv.upper u hu).merger
    have hsettled : ∀ i ∈ Finset.range w.lowers, zeros (settled i) =
        zeros ((s.upper u).merger.sent i) := by
      intro i hi
      obtain ⟨hcoming, hhand, -⟩ := UpperHost.weight_eq_zero hzero (Finset.mem_range.mp hi)
      rw [Merger.sent, hm.split, hhand, hcoming, List.append_nil, List.append_nil]
    have hmet := hm.met
    rw [Finset.sum_congr rfl hsettled, hall u hu] at hmet
    by_contra hne
    have := (h.inv.upper u hu).running hne
    omega
  · have hzero := huppers u (Finset.mem_range.mpr hu)
    have hinv := h.inv.upper u hu
    have htaken : ∀ i ∈ Finset.range w.lowers, zeros ((s.upper u).upper.taken i) =
        zeros ((s.upper u).merger.sent i) := by
      intro i hi
      have hi := Finset.mem_range.mp hi
      obtain ⟨hcoming, hhand, hdata⟩ := UpperHost.weight_eq_zero hzero hi
      rw [(h.complete u hu).sent_eq hi, hhand, hcoming, Merger.enqueued, hdata, hinv.popped]
      simp
    have hmet := hinv.upper.met
    rw [Finset.sum_congr rfl htaken, hall u hu] at hmet
    by_contra hne
    have hlt := (hinv.upper.running hne).1
    omega

/-- From every state without a loss all threads can return. -/
theorem Sound.can_finish (h : s.Sound w puts)
    (hclosed : ∀ l < w.lowers, ∀ u < w.uppers, Closed (part u (puts l)))
    (hcolumn : ∀ l < w.lowers, ∀ p ∈ puts l, p.1 < w.uppers) :
    ∃ s', Leads (Exchange.step w) (fun _ => True) s s' ∧ s'.Sound w puts ∧ s'.Finished w := by
  refine reaches_of_leads (left w) (fun t ht hnf => ?_) h
  have hleft : t.left w ≠ 0 := fun hzero => hnf (ht.finished_of_left hclosed hzero)
  by_cases hupper : ∃ u < w.uppers, (t.upper u).left w.lowers ≠ 0
  · obtain ⟨u, hu, hne⟩ := hupper
    exact ht.progress_upper (fun l hl => hclosed l hl u hu) hu hne
  push Not at hupper
  obtain ⟨l, hl, hne⟩ : ∃ l < w.lowers, (t.lower l).left w.uppers ≠ 0 := by
    by_contra hall
    push Not at hall
    apply hleft
    rw [left, Finset.sum_eq_zero fun l hl => hall l (Finset.mem_range.mp hl),
      Finset.sum_eq_zero fun u hu => hupper u (Finset.mem_range.mp hu), Nat.add_zero]
  exact ht.progress_lower (hclosed l hl) (hcolumn l hl) hl hupper hne

end Progress

section Results
variable {w : Wiring} {puts : ℕ → List (ℕ × Image)} {s : Exchange} {u l : ℕ}

/-- Without a loss, the first of the data blocks are passed on. -/
theorem Sound.passed_take (h : s.Sound w puts) (hu : u < w.uppers) (hl : l < w.lowers) :
    List.Forall₂ SameButTag ((dataBlocks (part u (puts l))).take (s.passed w u l).length)
      (s.passed w u l) := by
  obtain ⟨rest, hrest⟩ := h.taken_initial hu hl
  have hsame := (h.inv.lower l hl).same_all u
  rw [← hrest, List.append_assoc] at hsame
  have htake := forall₂_dataBlocks (List.forall₂_take_append _ _ _ hsame)
  rw [← h.inv.passed_eq hu] at htake
  have hpre : dataBlocks ((part u (puts l)).take ((s.upper u).upper.taken (w.slot u l)).length) <+:
      dataBlocks (part u (puts l)) := (List.take_prefix _ _).filter _
  have hlen := htake.length_eq
  rw [List.prefix_iff_eq_take.mp hpre, hlen] at htake
  exact htake

theorem Sound.passed_all (h : s.Sound w puts) (hclosed : ∀ l < w.lowers, Closed (part u (puts l)))
    (hu : u < w.uppers) (hf : (s.upper u).ctrl = .finished) (hl : l < w.lowers) :
    List.Forall₂ SameButTag (dataBlocks (part u (puts l))) (s.passed w u l) := by
  obtain ⟨htaken, hnil⟩ := h.finished hclosed hu hf hl
  have hsame := (h.inv.lower l hl).same_all u
  rw [hnil, List.append_nil, ← htaken] at hsame
  rw [h.inv.passed_eq hu]
  exact forall₂_dataBlocks hsame

/-- Whatever is lost, what is passed on comes in the order of the puts. -/
theorem Inv.passed_sublist (h : s.Inv w puts) (hu : u < w.uppers) (hl : l < w.lowers) :
    ∃ blocks, blocks.Sublist (dataBlocks (part u (puts l))) ∧
      List.Forall₂ SameButTag blocks (s.passed w u l) := by
  have hsub : ((s.upper u).upper.taken (w.slot u l)).Sublist
      (s.wire w l u ++ (s.lower l).unsent u) :=
    (h.taken_sublist hu l).trans (List.sublist_append_left _ _)
  obtain ⟨blocks, hblocks, hrel⟩ := sublist_of_forall₂ ((h.lower l hl).same_all u) hsub
  refine ⟨dataBlocks blocks, hblocks.filter _, ?_⟩
  rw [h.passed_eq hu]
  exact forall₂_dataBlocks hrel

variable {store : ℕ → ℕ → ℕ → Block} {junk : ℕ → ByteStore.Memory} {block : ℕ → Image}
  {totalsize : ℕ} {events : List Event}

theorem inv_of_run (hrun : run (step w) (start store junk block totalsize puts) events = some s) :
    s.Inv w puts :=
  inv (fun _ _ _ ht hs => ht.step hs) hrun (inv_start w store junk block totalsize puts)

/-- In every interleaving of all threads and connections, what an upper passes on from a lower
are data blocks that this lower put for it, in their order and each at most once, with nothing
changed but the tag. -/
theorem exchange_in_order
    (hrun : run (step w) (start store junk block totalsize puts) events = some s)
    (hu : u < w.uppers) (hl : l < w.lowers) :
    ∃ blocks, blocks.Sublist (dataBlocks (part u (puts l))) ∧
      List.Forall₂ SameButTag blocks (s.passed w u l) :=
  (inv_of_run hrun).passed_sublist hu hl

/-- While no receive thread gives a block up, every upper has passed on the first of the data
blocks of each lower, and all of them when its `execute` has returned false; and from every such
state all threads can return. -/
theorem exchange_exactly_once
    (hclosed : ∀ l < w.lowers, ∀ u < w.uppers, Closed (part u (puts l)))
    (hcolumn : ∀ l < w.lowers, ∀ p ∈ puts l, p.1 < w.uppers)
    (hrun : run (step w) (start store junk block totalsize puts) events = some s)
    (hpatient : Along (step w) Patient (start store junk block totalsize puts) events) :
    (∀ u < w.uppers, ∀ l < w.lowers, List.Forall₂ SameButTag
        ((dataBlocks (part u (puts l))).take (s.passed w u l).length) (s.passed w u l)) ∧
      (∀ u < w.uppers, (s.upper u).ctrl = .finished → ∀ l < w.lowers,
        List.Forall₂ SameButTag (dataBlocks (part u (puts l))) (s.passed w u l)) ∧
      ∃ s', Leads (step w) (fun _ => True) s s' ∧ s'.Finished w ∧
        ∀ u < w.uppers, ∀ l < w.lowers,
          List.Forall₂ SameButTag (dataBlocks (part u (puts l))) (s'.passed w u l) := by
  have h : s.Sound w puts := inv_along (fun t e t' ht hp hs => ht.step hp hs) hpatient hrun
    (sound_start w store junk block totalsize puts)
  refine ⟨fun u hu l hl => h.passed_take hu hl, fun u hu hf l hl =>
    h.passed_all (fun l hl => hclosed l hl u hu) hu hf hl, ?_⟩
  obtain ⟨s', hleads, hs', hfin⟩ := h.can_finish hclosed hcolumn
  exact ⟨s', hleads, hfin, fun u hu l hl =>
    hs'.passed_all (fun l hl => hclosed l hl u hu) hu (hfin.executed u hu) hl⟩

end Results

instance (s : Exchange) : (e : Event) → Decidable (s.Patient e)
  | .put _ => isTrue trivial
  | .send _ => isTrue trivial
  | .upper u e => inferInstanceAs (Decidable ((s.upper u).Patient e))

/-- Two lowers and two uppers; the second upper accepts the connections the other way round. -/
def twoByTwo : Wiring where
  lowers := 2
  uppers := 2
  window := 1
  slot u l := if u = 1 then 1 - l else l
  lowers_pos := Nat.succ_pos _
  uppers_pos := Nat.succ_pos _
  window_pos := le_rfl
  slot_lt u l h := by
    split <;> omega
  slot_inj u l l' hl hl' h := by
    split at h <;> omega

/-- Each lower puts a data block for each upper, and then the empty ones. -/
def twoByTwoPuts (l : ℕ) : List (ℕ × Image) :=
  [(0, oneTuple (if l = 0 then 7 else 5)), (1, oneTuple (if l = 0 then 3 else 4)), (0, noTuple),
    (1, noTuple)]

def twoByTwoStart : Exchange :=
  start (fun _ _ _ => Block.make (fun _ => 0) blockSize 0) (fun _ _ => 0) (fun _ => noTuple) 16
    twoByTwoPuts

/-- The way of the next block of lower `l` to upper `u`, up to the `k`th step behind `select`. -/
def way (l u k : ℕ) : List Event :=
  let i := twoByTwo.slot u l
  [.send l, .send l, .upper u (.receive (.arrive i)), .upper u (.receive (.select [i]))] ++
    List.replicate k (.upper u (.receive .receive))

/-- All blocks are put, sent and received before the uppers take them. -/
def twoByTwoEvents : List Event :=
  List.replicate 4 (.put 0) ++ List.replicate 4 (.put 1) ++
    (way 0 0 4 ++ way 1 0 4 ++ way 0 1 4 ++ way 1 1 4) ++
    (way 0 0 4 ++ way 1 0 3 ++ way 0 1 4 ++ way 1 1 2) ++
    List.replicate 30 (.upper 0 .consume) ++ List.replicate 30 (.upper 1 .consume)

theorem twoByTwo_run : ∃ s, run (step twoByTwo) twoByTwoStart twoByTwoEvents = some s ∧
    (s.upper 0).ctrl = .finished ∧ (s.upper 1).ctrl = .finished ∧
    ∀ u < 2, ∀ l < 2, (s.passed twoByTwo u l).length = 1 := by
  have hrun : (run (step twoByTwo) twoByTwoStart twoByTwoEvents).map
      (fun s => ((s.upper 0).ctrl, (s.upper 1).ctrl,
        (List.range 2).map fun u => (List.range 2).map fun l =>
          (s.passed twoByTwo u l).length)) =
            some (.finished, .finished, [[1, 1], [1, 1]]) := by
    decide +kernel
  obtain ⟨s, hs, heq⟩ := Option.map_eq_some_iff.mp hrun
  simp only [List.range_succ, List.range_zero, List.nil_append, List.cons_append, List.map_cons,
    List.map_nil, Prod.mk.injEq, List.cons.injEq, and_true] at heq
  obtain ⟨h0, h1, ⟨h00, h01⟩, h10, h11⟩ := heq
  refine ⟨s, hs, h0, h1, fun u hu l hl => ?_⟩
  interval_cases u <;> interval_cases l <;> assumption

theorem exchange_in_order_twoByTwo : ∃ s,
    run (step twoByTwo) twoByTwoStart twoByTwoEvents = some s ∧ ∀ u < 2, ∀ l < 2,
      (s.passed twoByTwo u l).length = 1 ∧
        ∃ blocks, blocks.Sublist (dataBlocks (part u (twoByTwoPuts l))) ∧
          List.Forall₂ SameButTag blocks (s.passed twoByTwo u l) := by
  obtain ⟨s, hs, -, -, hlen⟩ := twoByTwo_run
  exact ⟨s, hs, fun u hu l hl => ⟨hlen u hu l hl, exchange_in_order hs hu hl⟩⟩

theorem twoByTwo_closed : ∀ l < 2, ∀ u < 2, Closed (part u (twoByTwoPuts l)) := by
  intro l _ u hu
  have hnone : noTuple.count = 0 := by decide
  interval_cases u
  · exact ⟨[oneTuple (if l = 0 then 7 else 5)], noTuple, rfl, hnone, by simp [oneTuple_count]⟩
  · exact ⟨[oneTuple (if l = 0 then 3 else 4)], noTuple, rfl, hnone, by simp [oneTuple_count]⟩

theorem exchange_exactly_once_twoByTwo : ∃ s,
    run (step twoByTwo) twoByTwoStart twoByTwoEvents = some s ∧
      (s.upper 0).ctrl = .finished ∧ (s.upper 1).ctrl = .finished ∧
      List.Forall₂ SameButTag [oneTuple 7] (s.passed twoByTwo 0 0) ∧
      List.Forall₂ SameButTag [oneTuple 4] (s.passed twoByTwo 1 1) ∧
      ∃ s', Leads (step twoByTwo) (fun _ => True) s s' ∧ s'.Finished twoByTwo := by
  have hpatient : Along (step twoByTwo) Patient twoByTwoStart twoByTwoEvents := by decide +kernel
  obtain ⟨s, hs, h0, h1, -⟩ := twoByTwo_run
  obtain ⟨-, hall, s', hleads, hfin, -⟩ := exchange_exactly_once twoByTwo_closed
    (fun l _ => by simp [twoByTwoPuts, twoByTwo]) hs hpatient
  have hdata (k : UInt8) : dataBlocks ([oneTuple k] ++ [noTuple]) = [oneTuple k] := by
    have hnone : noTuple.count = 0 := by decide
    simp [dataBlocks, oneTuple_count, hnone]
  have h00 := hall 0 (by decide) h0 0 (by decide)
  have h11 := hall 1 (by decide) h1 1 (by decide)
  refine ⟨s, hs, h0, h1, ?_, ?_, s', hleads, hfin⟩
  · rwa [show part 0 (twoByTwoPuts 0) = [oneTuple 7] ++ [noTuple] from rfl, hdata] at h00
  · rwa [show part 1 (twoByTwoPuts 1) = [oneTuple 4] ++ [noTuple] from rfl, hdata] at h11

end Exchange
end Mosito
