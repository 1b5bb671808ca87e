import Mathlib.Data.Option.Basic
import Mathlib.Logic.Basic
import Mathlib.Data.List.Infix

/-! Runs of a system that takes one event after the other. -/
namespace Runs
variable {σ ε : Type} (step : σ → ε → Option σ)

/-- The state after some events, if each of them was enabled. -/
def run : σ → List ε → Option σ
  | s, [] => some s
  | s, e :: es => (step s e).bind (run · es)

/-- Every event of the run meets `ok` in the state before it. -/
def Along (ok : σ → ε → Prop) : σ → List ε → Prop
  | _, [] => True
  | s, e :: es => ok s e ∧ ∀ s', step s e = some s' → Along ok s' es

variable {step} {ok : σ → ε → Prop} {I P : σ → Prop} {s s' : σ} {es : List ε}

theorem run_cons {e : ε} :
    run step s (e :: es) = some s' ↔ ∃ t, step s e = some t ∧ run step t es = some s' :=
  Option.bind_eq_some_iff

theorem run_append {es' : List ε} :
    run step s (es ++ es') = (run step s es).bind (run step · es') := by
  induction es generalizing s with
  | nil => rfl
  | cons e es ih =>
    rw [List.cons_append, run, run, Option.bind_assoc]
    congr 1
    funext t
    exact ih

instance decidableAlong [∀ s e, Decidable (ok s e)] :
    ∀ (s : σ) (es : List ε), Decidable (Along step ok s es)
  | _, [] => isTrue trivial
  | s, e :: es =>
      match h : step s e with
      | none => decidable_of_iff (ok s e) ⟨fun hok => ⟨hok, fun t ht => by simp [h] at ht⟩, And.left⟩
      | some t =>
          have := decidableAlong t es
          decidable_of_iff (ok s e ∧ Along step ok t es)
            ⟨fun hok => ⟨hok.1, fun t' ht => by cases h.symm.trans ht; exact hok.2⟩,
              fun hok => ⟨hok.1, hok.2 t h⟩⟩

/-- What the steps that meet `ok` keep, the runs of such steps keep. -/
theorem inv_along (hstep : ∀ s e s', I s → ok s e → step s e = some s' → I s')
    (hok : Along step ok s es) (hr : run step s es = some s') (hi : I s) : I s' := by
  induction es generalizing s with
  | nil =>
    cases hr
    exact hi
  | cons e es ih =>
    obtain ⟨t, ht, hr⟩ := run_cons.mp hr
    exact ih (hok.2 t ht) hr (hstep s e t hi hok.1 ht)

theorem along_true (s : σ) (es : List ε) : Along step (fun _ _ => True) s es := by
  induction es generalizing s with
  | nil => trivial
  | cons e es ih => exact ⟨trivial, fun t _ => ih t⟩

theorem along_of_forall {P : ε → Prop} (hes : ∀ e ∈ es, P e) (s : σ) :
    Along step (fun _ e => P e) s es := by
  induction es generalizing s with
  | nil => trivial
  | cons e es ih =>
    obtain ⟨he, hes⟩ := List.forall_mem_cons.mp hes
    exact ⟨he, fun t _ => ih hes t⟩

/-- What every step keeps, every run keeps. -/
theorem inv (hstep : ∀ s e s', I s → step s e = some s' → I s')
    (hr : run step s es = some s') (hi : I s) : I s' :=
  inv_along (fun s e s' hi _ => hstep s e s' hi) (along_true s es) hr hi

/-- If `P` after a step tells that the step met `ok` and that `P` held before it, then `P` at the
end of a run tells that all its steps met `ok`. -/
theorem along_of_final (hstep : ∀ s e s', I s → step s e = some s' → I s')
    (hback : ∀ s e s', I s → step s e = some s' → P s' → P s ∧ ok s e)
    (hr : run step s es = some s') (hi : I s) (hp : P s') : P s ∧ Along step ok s es := by
  induction es generalizing s with
  | nil =>
    cases hr
    exact ⟨hp, trivial⟩
  | cons e es ih =>
    obtain ⟨t, ht, hr⟩ := run_cons.mp hr
    obtain ⟨hpt, hal⟩ := ih hr (hstep s e t hi ht)
    obtain ⟨hps, hok⟩ := hback s e t hi ht hpt
    refine ⟨hps, hok, fun t' ht' => ?_⟩
    rw [ht] at ht'
    cases ht'
    exact hal

/-- If exactly the steps that meet `ok` keep what makes `P` hold, `P` holds all along a run exactly
if its steps meet `ok`. -/
theorem along_iff (hkeep : ∀ s e s', I s → ok s e → step s e = some s' → I s')
    (hend : ∀ s, I s → P s) (hbad : ∀ s e, I s → ¬ ok s e → ∃ s', step s e = some s' ∧ ¬ P s')
    (hi : I s) :
    (∀ es' s', es' <+: es → run step s es' = some s' → P s') ↔ Along step ok s es := by
  induction es generalizing s with
  | nil =>
    refine iff_of_true (fun es' s' hpre hr => ?_) trivial
    obtain rfl := List.prefix_nil.mp hpre
    cases hr
    exact hend s hi
  | cons e es ih =>
    constructor
    · intro hall
      have hok : ok s e := by
        by_contra hok
        obtain ⟨t, ht, hp⟩ := hbad s e hi hok
        exact hp (hall [e] t (List.prefix_append [e] es) (run_cons.mpr ⟨t, ht, rfl⟩))
      refine ⟨hok, fun t ht => (ih (hkeep s e t hi hok ht)).mp fun es' s' hpre hr => ?_⟩
      exact hall (e :: es') s' (List.cons_prefix_cons.mpr ⟨rfl, hpre⟩) (run_cons.mpr ⟨t, ht, hr⟩)
    · rintro ⟨hok, hrest⟩ es' s' hpre hr
      cases es' with
      | nil =>
        cases hr
        exact hend s hi
      | cons e' es' =>
        obtain ⟨rfl, htail⟩ := List.cons_prefix_cons.mp hpre
        obtain ⟨t, ht, hr⟩ := run_cons.mp hr
        exact (ih (hkeep s _ t hi hok ht)).mpr (hrest t ht) es' s' htail hr

theorem Along.of_prefix {es' : List ε} (hok : Along step ok s es) (hpre : es' <+: es) :
    Along step ok s es' := by
  induction es' generalizing s es with
  | nil => trivial
  | cons e es' ih =>
    cases es with
    | nil => cases List.prefix_nil.mp hpre
    | cons e' es =>
      obtain ⟨rfl, htail⟩ := List.cons_prefix_cons.mp hpre
      exact ⟨hok.1, fun t ht => ih (hok.2 t ht) htail⟩

/-- If of the events that meet `may` exactly those that meet `ok` have a step, a run of such events
does not stop exactly if all of them meet `ok`. -/
theorem isSome_iff_along {may : σ → ε → Prop}
    (hkeep : ∀ s e s', I s → may s e → step s e = some s' → I s')
    (hstep : ∀ s e, I s → may s e → ((step s e).isSome ↔ ok s e))
    (hmay : Along step may s es) (hi : I s) : (run step s es).isSome ↔ Along step ok s es := by
  induction es generalizing s with
  | nil => exact iff_of_true rfl trivial
  | cons e es ih =>
    rw [run]
    cases ht : step s e with
    | none =>
      have hok : ¬ ok s e := by
        rw [← hstep s e hi hmay.1, ht]
        nofun
      exact iff_of_false nofun fun hall => hok hall.1
    | some t =>
      have hok : ok s e := by
        rw [← hstep s e hi hmay.1, ht]
        rfl
      rw [Option.bind_some, ih (hmay.2 t ht) (hkeep s e t hi hmay.1 ht)]
      constructor
      · intro hall
        refine ⟨hok, fun t' ht' => ?_⟩
        rw [ht] at ht'
        cases ht'
        exact hall
      · exact fun hall => hall.2 t ht

/-- Events that meet `A` lead from one state to the other. -/
def Leads (step : σ → ε → Option σ) (A : ε → Prop) (s s' : σ) : Prop :=
  ∃ es, (∀ e ∈ es, A e) ∧ run step s es = some s'

section Leads
variable {A : ε → Prop} {e : ε} {t : σ}

theorem Leads.refl (s : σ) : Leads step A s s := ⟨[], nofun, rfl⟩

theorem Leads.head (ha : A e) (hs : step s e = some t) (h : Leads step A t s') :
    Leads step A s s' := by
  obtain ⟨es, hes, hr⟩ := h
  exact ⟨e :: es, List.forall_mem_cons.mpr ⟨ha, hes⟩, run_cons.mpr ⟨t, hs, hr⟩⟩

theorem Leads.trans (h : Leads step A s t) (h' : Leads step A t s') : Leads step A s s' := by
  obtain ⟨es, hes, hr⟩ := h
  obtain ⟨es', hes', hr'⟩ := h'
  use es ++ es', List.forall_mem_append.mpr ⟨hes, hes'⟩
  rw [run_append, hr]
  exact hr'

theorem Leads.mono {B : ε → Prop} (hab : ∀ e, A e → B e) (h : Leads step A s s') :
    Leads step B s s' := by
  obtain ⟨es, hes, hr⟩ := h
  exact ⟨es, fun e he => hab e (hes e he), hr⟩

/-- If in every state that meets `I` and not `P` some step keeps `I` and makes `m` smaller, then
`P` can be reached. -/
theorem reaches (m : σ → ℕ)
    (hstep : ∀ s, I s → ¬ P s → ∃ e s', A e ∧ step s e = some s' ∧ I s' ∧ m s' < m s) (hi : I s) :
    ∃ s', Leads step A s s' ∧ I s' ∧ P s' := by
  induction hm : m s using Nat.strong_induction_on generalizing s with
  | h k ih =>
    by_cases hp : P s
    · exact ⟨s, .refl s, hi, hp⟩
    · obtain ⟨e, t, ha, ht, hit, hlt⟩ := hstep s hi hp
      rw [hm] at hlt
      obtain ⟨s', hleads, hi', hp'⟩ := ih (m t) hlt hit rfl
      exact ⟨s', hleads.head ha ht, hi', hp'⟩

/-- The same with several steps to the next smaller `m`. -/
theorem reaches_of_leads (m : σ → ℕ)
    (hleads : ∀ s, I s → ¬ P s → ∃ s', Leads step A s s' ∧ I s' ∧ m s' < m s) (hi : I s) :
    ∃ s', Leads step A s s' ∧ I s' ∧ P s' := by
  induction hm : m s using Nat.strong_induction_on generalizing s with
  | h k ih =>
    by_cases hp : P s
    · exact ⟨s, .refl s, hi, hp⟩
    · obtain ⟨t, hst, hit, hlt⟩ := hleads s hi hp
      rw [hm] at hlt
      obtain ⟨s', hts, hi', hp'⟩ := ih (m t) hlt hit rfl
      exact ⟨s', hst.trans hts, hi', hp'⟩

end Leads
end Runs
