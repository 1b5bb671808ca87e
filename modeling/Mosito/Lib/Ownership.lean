import Mathlib.Data.Finset.Card
import Mathlib.Data.Finset.Insert
import Mathlib.Logic.Function.Basic
import Mathlib.Data.List.Nodup

/-! References to shared places, and the objects that the places own. -/
namespace Ownership
variable {ν α β : Type} [DecidableEq α]

/-- The number of live names that refer to a place. -/
def references (live : Finset ν) (ptr : ν → α) (c : α) : ℕ := (live.filter fun x => ptr x = c).card

section References
variable {live : Finset ν} {ptr : ν → α} {x : ν} {c : α}

theorem references_pos : 0 < references live ptr c ↔ ∃ x ∈ live, ptr x = c := by
  unfold references
  rw [Finset.card_pos]
  constructor
  · rintro ⟨x, hx⟩
    exact ⟨x, Finset.mem_filter.mp hx⟩
  · rintro ⟨x, hx⟩
    exact ⟨x, Finset.mem_filter.mpr hx⟩

variable [DecidableEq ν]

theorem references_insert (ptr : ν → α) (c : α) (hx : x ∉ live) :
    references (insert x live) (Function.update ptr x c) =
      Function.update (references live ptr) c (references live ptr c + 1) := by
  have hrest (d : α) : live.filter (fun y => Function.update ptr x c y = d) =
      live.filter fun y => ptr y = d := by
    apply Finset.filter_congr
    intro y hy
    rw [Function.update_of_ne]
    rintro rfl
    exact hx hy
  funext d
  unfold references
  rw [Finset.filter_insert, Function.update_self, hrest]
  by_cases hd : c = d
  · subst hd
    rw [if_pos rfl, Function.update_self, Finset.card_insert_of_notMem]
    exact fun hmem => hx (Finset.mem_filter.mp hmem).1
  · rw [if_neg hd, Function.update_of_ne (Ne.symm hd)]

theorem references_erase (hx : x ∈ live) :
    references (live.erase x) ptr =
      Function.update (references live ptr) (ptr x) (references live ptr (ptr x) - 1) := by
  funext d
  unfold references
  rw [Finset.filter_erase]
  by_cases hd : ptr x = d
  · subst hd
    rw [Function.update_self, Finset.card_erase_of_mem]
    exact Finset.mem_filter.mpr ⟨hx, rfl⟩
  · rw [Function.update_of_ne (Ne.symm hd), Finset.erase_eq_of_notMem]
    exact fun hmem => hd (Finset.mem_filter.mp hmem).2

/-- A name that refers to another place adds one reference there and takes one from its old place,
in this order. -/
theorem references_redirect {n : α → ℕ} (hx : x ∈ live)
    (hn : n = Function.update (references live ptr) c (references live ptr c + 1)) :
    references live (Function.update ptr x c) = Function.update n (ptr x) (n (ptr x) - 1) := by
  have hpos : 0 < references live ptr (ptr x) := references_pos.mpr ⟨x, hx, rfl⟩
  have hadd := references_insert ptr c (Finset.notMem_erase x live)
  rw [Finset.insert_erase hx, references_erase hx] at hadd
  rw [hadd, hn]
  funext d
  by_cases hc : c = ptr x
  · subst hc
    by_cases hd : d = ptr x
    · subst hd
      simp only [Function.update_self]
      omega
    · simp only [Function.update_of_ne hd]
  · by_cases hd : d = ptr x
    · subst hd
      simp only [Function.update_self, Function.update_of_ne (Ne.symm hc)]
    · by_cases hdc : d = c
      · subst hdc
        simp only [Function.update_self, Function.update_of_ne hd]
      · simp only [Function.update_of_ne hd, Function.update_of_ne hdc]

end References

/-- `slot` holds the objects that were taken and not released, each at one place. -/
structure Accounts (slot : α → Option β) (owned released : List β) : Prop where
  held : ∀ c t, slot c = some t → t ∈ owned ∧ t ∉ released
  single : ∀ c c' t, slot c = some t → slot c' = some t → c = c'
  kept : ∀ t ∈ owned, t ∉ released → ∃ c, slot c = some t
  once : released.Nodup
  taken : ∀ t ∈ released, t ∈ owned

namespace Accounts
variable {slot : α → Option β} {owned released : List β} {c : α} {t : β}

omit [DecidableEq α] in
theorem empty : Accounts (fun _ : α => none) ([] : List β) [] :=
  ⟨nofun, nofun, nofun, .nil, nofun⟩

/-- A new object in an empty place. -/
theorem take (h : Accounts slot owned released) (hc : slot c = none) (ht : t ∉ owned) :
    Accounts (Function.update slot c (some t)) (owned ++ [t]) released := by
  have hslot {d : α} {u : β} (hd : Function.update slot c (some t) d = some u) :
      d = c ∧ u = t ∨ d ≠ c ∧ slot d = some u := by
    by_cases hdc : d = c
    · subst hdc
      rw [Function.update_self] at hd
      exact .inl ⟨rfl, (Option.some.inj hd).symm⟩
    · rw [Function.update_of_ne hdc] at hd
      exact .inr ⟨hdc, hd⟩
  have hnew {d : α} (hd : slot d = some t) : False := ht (h.held d t hd).1
  constructor
  · intro d u hd
    rcases hslot hd with ⟨-, rfl⟩ | ⟨-, hd⟩
    · exact ⟨List.mem_append_right owned (List.mem_singleton_self u), fun hu => ht (h.taken u hu)⟩
    · exact ⟨List.mem_append_left [t] (h.held d u hd).1, (h.held d u hd).2⟩
  · intro d d' u hd hd'
    rcases hslot hd with ⟨hdc, hut⟩ | ⟨-, hd⟩ <;> rcases hslot hd' with ⟨hdc', hut'⟩ | ⟨-, hd'⟩
    · rw [hdc, hdc']
    · rw [hut] at hd'
      exact (hnew hd').elim
    · rw [hut'] at hd
      exact (hnew hd).elim
    · exact h.single d d' u hd hd'
  · intro u hu hrel
    rcases List.mem_append.mp hu with hu | hu
    · obtain ⟨d, hd⟩ := h.kept u hu hrel
      use d
      rw [Function.update_of_ne, hd]
      rintro rfl
      rw [hc] at hd
      cases hd
    · rw [List.mem_singleton.mp hu]
      exact ⟨c, Function.update_self c (some t) slot⟩
  · exact h.once
  · exact fun u hu => List.mem_append_left [t] (h.taken u hu)

/-- The object of a place is released. -/
theorem release (h : Accounts slot owned released) (hc : slot c = some t) :
    Accounts (Function.update slot c none) owned (released ++ [t]) := by
  obtain ⟨howned, hrel⟩ := h.held c t hc
  have hslot {d : α} {u : β} (hd : Function.update slot c none d = some u) :
      d ≠ c ∧ slot d = some u := by
    by_cases hdc : d = c
    · rw [hdc, Function.update_self] at hd
      cases hd
    · rw [Function.update_of_ne hdc] at hd
      exact ⟨hdc, hd⟩
  constructor
  · intro d u hd
    obtain ⟨hdc, hd⟩ := hslot hd
    use (h.held d u hd).1
    rw [List.mem_append, List.mem_singleton]
    rintro (hu | rfl)
    · exact (h.held d u hd).2 hu
    · exact hdc (h.single d c u hd hc)
  · exact fun d d' u hd hd' => h.single d d' u (hslot hd).2 (hslot hd').2
  · intro u hu hnot
    rw [List.mem_append, List.mem_singleton] at hnot
    obtain ⟨d, hd⟩ := h.kept u hu fun hmem => hnot (.inl hmem)
    use d
    rw [Function.update_of_ne, hd]
    rintro rfl
    rw [hc] at hd
    exact hnot (.inr (Option.some.inj hd).symm)
  · exact h.once.append (List.nodup_singleton t) (by simpa using hrel)
  · intro u hu
    rcases List.mem_append.mp hu with hu | hu
    · exact h.taken u hu
    · rw [List.mem_singleton.mp hu]
      exact howned

end Accounts
end Ownership
