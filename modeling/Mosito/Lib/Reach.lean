import Mathlib.Logic.Relation

/-! What is reached in a structure whose cells point to other cells. -/
namespace Reach
variable {α : Type}

/-- `q` is reached from `p` through the pointers of the cells. -/
def Reaches (fields : α → List α) : α → α → Prop :=
  Relation.ReflTransGen fun p q => q ∈ fields p

/-- Every cell that is reached meets `P`. -/
def All (fields : α → List α) (P : α → Prop) (p : α) : Prop :=
  ∀ q, Reaches fields p q → P q

variable {fields : α → List α} {P : α → Prop} {p q : α}

theorem All.self (h : All fields P p) : P p := h p .refl

theorem All.field (h : All fields P p) (hq : q ∈ fields p) : All fields P q :=
  fun r hr => h r (.head hq hr)

/-- A cell meets `P` itself, and so does what its pointers reach. -/
theorem all_iff : All fields P p ↔ P p ∧ ∀ q ∈ fields p, All fields P q := by
  constructor
  · intro h
    exact ⟨h.self, fun q => h.field⟩
  · intro ⟨hp, hfields⟩ q hq
    obtain rfl | ⟨r, hr, hrq⟩ := hq.cases_head
    · exact hp
    · exact hfields r hr q hrq

end Reach
