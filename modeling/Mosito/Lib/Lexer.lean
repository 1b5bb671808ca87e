import Mathlib.Computability.Language
import Mathlib.Order.Bounds.Basic

/-! Scanners that are given by rules. Of the rules that are active, the one with the longest match
takes its part of the text, and of these the first one. -/
namespace Lexer
variable {α σ κ : Type}

/-- Regular expressions over classes of letters. -/
inductive Pattern (α : Type) where
  | empty
  | nil
  | one (p : α → Bool)
  | seq (p q : Pattern α)
  | alt (p q : Pattern α)
  | star (p : Pattern α)

namespace Pattern

def language : Pattern α → Language α
  | empty => 0
  | nil => 1
  | one p => { w | ∃ a, p a = true ∧ w = [a] }
  | seq p q => p.language * q.language
  | alt p q => p.language + q.language
  | star p => KStar.kstar p.language

def nullable : Pattern α → Bool
  | empty => false
  | nil => true
  | one _ => false
  | seq p q => p.nullable && q.nullable
  | alt p q => p.nullable || q.nullable
  | star _ => true

/-- What may follow the letter `a`. -/
def deriv (a : α) : Pattern α → Pattern α
  | empty => empty
  | nil => empty
  | one p => if p a then nil else empty
  | seq p q =>
      if p.nullable then alt (seq (p.deriv a) q) (q.deriv a) else seq (p.deriv a) q
  | alt p q => alt (p.deriv a) (q.deriv a)
  | star p => seq (p.deriv a) (star p)

/-- The whole text matches. -/
def accepts (p : Pattern α) (w : List α) : Bool := (w.foldl (fun p a => p.deriv a) p).nullable

/-- A match may begin with the letter `a`. -/
def first (a : α) : Pattern α → Bool
  | empty => false
  | nil => false
  | one p => p a
  | seq p q => p.first a || (p.nullable && q.first a)
  | alt p q => p.first a || q.first a
  | star p => p.first a

/-- The length of the longest match at the beginning of a text. -/
def longest : Pattern α → List α → Option ℕ
  | p, [] => if p.nullable then some 0 else none
  | p, a :: w =>
      match longest (p.deriv a) w with
      | some n => some (n + 1)
      | none => if p.nullable then some 0 else none

def opt (p : Pattern α) : Pattern α := alt nil p
def plus (p : Pattern α) : Pattern α := seq p (star p)

variable {p q : Pattern α} {a : α} {w : List α} {n : ℕ}

theorem nullable_iff : p.nullable = true ↔ [] ∈ p.language := by
  induction p with
  | empty => exact iff_of_false Bool.false_ne_true (Language.notMem_zero [])
  | nil => exact iff_of_true rfl Language.nil_mem_one
  | one p =>
    refine iff_of_false Bool.false_ne_true ?_
    rintro ⟨a, -, ha⟩
    cases ha
  | seq p q ihp ihq =>
    rw [nullable, Bool.and_eq_true, ihp, ihq, language, Language.mem_mul]
    constructor
    · rintro ⟨hp, hq⟩
      exact ⟨[], hp, [], hq, rfl⟩
    · rintro ⟨u, hu, v, hv, he⟩
      obtain ⟨rfl, rfl⟩ := List.append_eq_nil_iff.mp he
      exact ⟨hu, hv⟩
  | alt p q ihp ihq =>
    rw [nullable, Bool.or_eq_true, ihp, ihq, language, Language.mem_add]
  | star p ih => exact iff_of_true rfl (Language.nil_mem_kstar _)

theorem deriv_iff : w ∈ (p.deriv a).language ↔ a :: w ∈ p.language := by
  induction p generalizing w with
  | empty => exact iff_of_false (Language.notMem_zero w) (Language.notMem_zero (a :: w))
  | nil =>
    refine iff_of_false (Language.notMem_zero w) ?_
    rw [language, Language.mem_one]
    exact List.cons_ne_nil a w
  | one p =>
    unfold deriv
    split_ifs with ha
    · constructor
      · intro hw
        cases (Language.mem_one w).mp hw
        exact ⟨a, ha, rfl⟩
      · rintro ⟨b, -, hb⟩
        cases hb
        exact Language.nil_mem_one
    · refine iff_of_false (Language.notMem_zero w) ?_
      rintro ⟨b, hb, he⟩
      cases he
      exact ha hb
  | seq p q ihp ihq =>
    have hsplit : a :: w ∈ p.language * q.language ↔
        w ∈ (p.deriv a).language * q.language ∨ [] ∈ p.language ∧ a :: w ∈ q.language := by
      simp only [Language.mem_mul]
      constructor
      · rintro ⟨u, hu, v, hv, he⟩
        cases u with
        | nil => exact .inr ⟨hu, by rwa [← List.nil_append v, he] at hv⟩
        | cons b u =>
          obtain ⟨rfl, rfl⟩ := List.cons_eq_cons.mp he
          exact .inl ⟨u, ihp.mpr hu, v, hv, rfl⟩
      · rintro (⟨u, hu, v, hv, rfl⟩ | ⟨hnil, hq⟩)
        · exact ⟨a :: u, ihp.mp hu, v, hv, rfl⟩
        · exact ⟨[], hnil, a :: w, hq, rfl⟩
    rw [language, hsplit, deriv]
    split_ifs with hn
    · rw [language, language, Language.mem_add, ihq]
      simp [nullable_iff.mp hn]
    · rw [language]
      simp [mt nullable_iff.mpr hn]
  | alt p q ihp ihq => exact or_congr ihp ihq
  | star p ih =>
    rw [deriv, language, language, Language.mem_mul, Language.mem_kstar_iff_exists_nonempty]
    constructor
    · rintro ⟨u, hu, v, hv, rfl⟩
      obtain ⟨ws, rfl, hws⟩ := Language.mem_kstar_iff_exists_nonempty.mp hv
      refine ⟨(a :: u) :: ws, rfl, fun y hy => ?_⟩
      rcases List.mem_cons.mp hy with rfl | hy
      · exact ⟨ih.mp hu, List.cons_ne_nil a u⟩
      · exact hws y hy
    · rintro ⟨ws, he, hws⟩
      cases ws with
      | nil => cases he
      | cons u ws =>
        obtain ⟨hu, hne⟩ := hws u List.mem_cons_self
        obtain ⟨b, u, rfl⟩ := List.exists_cons_of_ne_nil hne
        rw [List.flatten_cons, List.cons_append] at he
        obtain ⟨rfl, rfl⟩ := List.cons_eq_cons.mp he
        refine ⟨u, ih.mpr hu, ws.flatten, ?_, rfl⟩
        exact Language.join_mem_kstar fun y hy => (hws y (List.mem_cons_of_mem _ hy)).1

theorem mem_star_one {c : α → Bool} : w ∈ (star (one c)).language ↔ ∀ a ∈ w, c a = true := by
  constructor
  · intro h a ha
    obtain ⟨ws, rfl, hws⟩ := Language.mem_kstar.mp h
    obtain ⟨v, hv, hav⟩ := List.mem_flatten.mp ha
    obtain ⟨b, hb, rfl⟩ := hws v hv
    rwa [List.mem_singleton.mp hav]
  · intro h
    induction w with
    | nil => exact Language.nil_mem_kstar _
    | cons a w ih =>
      obtain ⟨ha, hw⟩ := List.forall_mem_cons.mp h
      obtain ⟨ws, rfl, hws⟩ := Language.mem_kstar.mp (ih hw)
      exact Language.join_mem_kstar (L := [a] :: ws)
        (List.forall_mem_cons.mpr ⟨⟨a, ha, rfl⟩, hws⟩)

theorem accepts_iff : p.accepts w = true ↔ w ∈ p.language := by
  induction w generalizing p with
  | nil => exact nullable_iff
  | cons a w ih => exact ih.trans deriv_iff

theorem first_of_mem (h : a :: w ∈ p.language) : p.first a = true := by
  induction p generalizing w with
  | empty => exact (Language.notMem_zero _ h).elim
  | nil =>
    cases (Language.mem_one _).mp h
  | one p =>
    obtain ⟨b, hb, he⟩ := h
    cases he
    exact hb
  | seq p q ihp ihq =>
    obtain ⟨u, hu, v, hv, he⟩ := Language.mem_mul.mp h
    unfold first
    cases u with
    | nil =>
      rw [List.nil_append] at he
      subst he
      rw [nullable_iff.mpr hu, ihq hv, Bool.and_true, Bool.or_true]
    | cons b u =>
      obtain ⟨rfl, -⟩ := List.cons_eq_cons.mp he
      rw [ihp hu, Bool.true_or]
  | alt p q ihp ihq =>
    unfold first
    rcases h with h | h
    · rw [ihp h, Bool.true_or]
    · rw [ihq h, Bool.or_true]
  | star p ih =>
    obtain ⟨ws, he, hws⟩ := Language.mem_kstar_iff_exists_nonempty.mp h
    cases ws with
    | nil => cases he
    | cons u ws =>
      obtain ⟨hu, hne⟩ := hws u List.mem_cons_self
      obtain ⟨b, u, rfl⟩ := List.exists_cons_of_ne_nil hne
      obtain ⟨rfl, -⟩ := List.cons_eq_cons.mp he
      exact ih hu

/-- The first two letters of a match. -/
theorem first_deriv_of_mem {b : α} (h : a :: b :: w ∈ p.language) :
    p.first a = true ∧ (p.deriv a).first b = true :=
  ⟨first_of_mem h, first_of_mem (deriv_iff.mpr h)⟩

/-- The lengths of the matches at the beginning of `w`. -/
def Matches (p : Pattern α) (w : List α) : Set ℕ := { n | n ≤ w.length ∧ w.take n ∈ p.language }

theorem zero_mem_matches : 0 ∈ p.Matches w ↔ p.nullable = true := by
  rw [nullable_iff]
  exact ⟨fun h => h.2, fun h => ⟨Nat.zero_le _, h⟩⟩

theorem succ_mem_matches : n + 1 ∈ p.Matches (a :: w) ↔ n ∈ (p.deriv a).Matches w :=
  and_congr Nat.succ_le_succ_iff deriv_iff.symm

theorem longest_spec (p : Pattern α) (w : List α) :
    (∀ n, p.longest w = some n → IsGreatest (p.Matches w) n) ∧
      (p.longest w = none → p.Matches w = ∅) := by
  induction w generalizing p with
  | nil =>
    have hle {n : ℕ} (hn : n ∈ p.Matches []) : n = 0 := Nat.le_zero.mp hn.1
    unfold longest
    split_ifs with hnull
    · refine ⟨fun n hn => ?_, nofun⟩
      cases hn
      exact ⟨zero_mem_matches.mpr hnull, fun m hm => (hle hm).le⟩
    · refine ⟨nofun, fun _ => Set.eq_empty_of_forall_notMem fun n hn => hnull ?_⟩
      exact zero_mem_matches.mp (hle hn ▸ hn)
  | cons a w ih =>
    obtain ⟨hsome, hnone⟩ := ih (p.deriv a)
    unfold longest
    cases hl : (p.deriv a).longest w with
    | some n =>
      obtain ⟨hmem, hgreatest⟩ := hsome n hl
      refine ⟨fun m hm => ?_, nofun⟩
      cases hm
      refine ⟨succ_mem_matches.mpr hmem, fun m hm => ?_⟩
      cases m with
      | zero => exact Nat.zero_le _
      | succ m => exact Nat.succ_le_succ (hgreatest (succ_mem_matches.mp hm))
    | none =>
      have hempty := hnone hl
      have hzero {m : ℕ} (hm : m ∈ p.Matches (a :: w)) : m = 0 := by
        cases m with
        | zero => rfl
        | succ m =>
          have hmem := succ_mem_matches.mp hm
          rw [hempty] at hmem
          exact hmem.elim
      dsimp only
      split_ifs with hnull
      · refine ⟨fun n hn => ?_, nofun⟩
        cases hn
        exact ⟨zero_mem_matches.mpr hnull, fun m hm => (hzero hm).le⟩
      · refine ⟨nofun, fun _ => Set.eq_empty_of_forall_notMem fun n hn => hnull ?_⟩
        exact zero_mem_matches.mp (hzero hn ▸ hn)

theorem longest_isGreatest (h : p.longest w = some n) : IsGreatest (p.Matches w) n :=
  (longest_spec p w).1 n h

/-- A match is not longer than the longest one. -/
theorem le_longest (h : n ∈ p.Matches w) : ∃ m, p.longest w = some m ∧ n ≤ m := by
  cases hl : p.longest w with
  | some m => exact ⟨m, rfl, (longest_isGreatest hl).2 h⟩
  | none =>
    rw [(longest_spec p w).2 hl] at h
    exact h.elim

theorem longest_le_of_length {k : ℕ} (h : ∀ v ∈ p.language, v.length ≤ k)
    (hl : p.longest w = some n) : n ≤ k := by
  obtain ⟨hle, hmem⟩ := (longest_isGreatest hl).1
  rw [← min_eq_left hle, ← List.length_take]
  exact h _ hmem

theorem longest_one {c : α → Bool} (ha : c a = true) : (one c).longest (a :: w) = some 1 := by
  obtain ⟨m, hm, hle⟩ :=
    le_longest (p := one c) (w := a :: w) (n := 1) ⟨Nat.succ_pos _, a, ha, rfl⟩
  have hle' : m ≤ 1 := by
    refine longest_le_of_length (fun v hv => ?_) hm
    obtain ⟨b, -, rfl⟩ := hv
    exact le_rfl
  rw [hm, Nat.le_antisymm hle' hle]

theorem longest_of_first (h : p.first a = false) (hl : p.longest (a :: w) = some n) : n = 0 := by
  cases n with
  | zero => rfl
  | succ n =>
    have hmem : a :: w.take n ∈ p.language := (longest_isGreatest hl).1.2
    rw [first_of_mem hmem] at h
    cases h

theorem longest_eq_some_iff : p.longest w = some n ↔ IsGreatest (p.Matches w) n := by
  refine ⟨longest_isGreatest, fun h => ?_⟩
  obtain ⟨m, hm, hle⟩ := le_longest h.1
  rw [hm, Option.some_inj]
  exact Nat.le_antisymm (h.2 (longest_isGreatest hm).1) hle

/-- The matches are made of letters of the class `c`. -/
def Within (p : Pattern α) (c : α → Bool) : Prop := ∀ v ∈ p.language, ∀ a ∈ v, c a = true

section Within
variable {c d : α → Bool} {u v : List α}

/-- A match ends where a letter of another class comes. -/
theorem Within.longest_le (hp : p.Within c) (hv : ∀ a ∈ v.head?, c a = false)
    (h : p.longest (u ++ v) = some n) : n ≤ u.length := by
  obtain ⟨⟨hle, hmem⟩, -⟩ := longest_isGreatest h
  by_contra hlt
  obtain ⟨k, hk⟩ := Nat.exists_eq_add_of_lt (not_le.mp hlt)
  rw [hk, Nat.add_assoc, List.take_length_add_append] at hmem
  cases v with
  | nil =>
    rw [List.append_nil] at hle
    omega
  | cons a v =>
    have ha := hp _ hmem a (List.mem_append_right u List.mem_cons_self)
    rw [hv a rfl] at ha
    exact Bool.false_ne_true ha

theorem Within.longest_eq_length (hp : p.Within c) (hv : ∀ a ∈ v.head?, c a = false) :
    p.longest (u ++ v) = some u.length ↔ u ∈ p.language := by
  constructor
  · intro h
    have hmem := (longest_isGreatest h).1.2
    rwa [List.take_left] at hmem
  · intro h
    have hmatch : u.length ∈ p.Matches (u ++ v) := by
      constructor
      · rw [List.length_append]
        exact Nat.le_add_right _ _
      · rwa [List.take_left]
    obtain ⟨m, hm, hle⟩ := le_longest hmatch
    rw [hm, Nat.le_antisymm (hp.longest_le hv hm) hle]

/-- A match with a letter of another class behind it. -/
theorem Within.longest_seq_one (hp : p.Within c) (hd : ∀ a, d a = true → c a = false)
    (hu : ∀ a ∈ u, c a = true) (hv : ∀ a ∈ v.head?, c a = false) :
    (seq p (one d)).longest (u ++ v) = some n ↔
      n = u.length + 1 ∧ u ∈ p.language ∧ ∃ a ∈ v.head?, d a = true := by
  have hmatch {m : ℕ} (hm : m ∈ (seq p (one d)).Matches (u ++ v)) :
      m = u.length + 1 ∧ u ∈ p.language ∧ ∃ a ∈ v.head?, d a = true := by
    obtain ⟨hle, x, hx, y, ⟨b, hb, rfl⟩, he⟩ := hm
    have hlen := congrArg List.length he
    rw [List.length_take, min_eq_left hle, List.length_append, List.length_singleton] at hlen
    have hsplit : x ++ b :: (u ++ v).drop m = u ++ v := by
      rw [List.append_cons, show x ++ [b] = (u ++ v).take m from he, List.take_append_drop]
    rcases List.append_eq_append_iff.mp hsplit with ⟨w, rfl, hw⟩ | ⟨w, rfl, hw⟩
    · cases w with
      | nil =>
        rw [List.append_nil]
        rw [List.nil_append] at hw
        rw [← hw]
        exact ⟨hlen.symm, hx, b, rfl, hb⟩
      | cons a w =>
        obtain ⟨rfl, -⟩ := List.cons_eq_cons.mp hw
        have hb' := hu b (by simp)
        rw [hd b hb] at hb'
        cases hb'
    · cases w with
      | nil =>
        rw [List.append_nil] at hx hlen
        rw [hw]
        exact ⟨hlen.symm, hx, b, rfl, hb⟩
      | cons a w =>
        rw [List.cons_append] at hw
        have ha := hp _ hx a (by simp)
        rw [hv a (by rw [hw]; rfl)] at ha
        cases ha
  constructor
  · exact fun h => hmatch (longest_isGreatest h).1
  · rintro ⟨rfl, hmem, b, hb, hbd⟩
    obtain ⟨v, rfl⟩ := List.head?_eq_some_iff.mp hb
    refine longest_eq_some_iff.mpr ⟨⟨?_, u, hmem, [b], ⟨b, hbd, rfl⟩, ?_⟩, fun m hm => ?_⟩
    · rw [List.length_append, List.length_cons]
      omega
    · rw [List.take_length_add_append]
      rfl
    · exact (hmatch hm).1.le

end Within
end Pattern
/-- `ahead` is a letter that has to follow and is not taken. `action` gets the state, the lexeme and
the text behind it, and gives the next state and the token, if there is one. `atEnd` is what it
leaves to scan where no text is behind the lexeme. -/
structure Rule (α σ κ : Type) where
  active : σ → Bool
  pattern : Pattern α
  ahead : Option (α → Bool)
  action : σ → List α → List α → σ × Option κ
  atEnd : List α := []

namespace Rule

/-- The pattern with the letter behind it. -/
def whole (r : Rule α σ κ) : Pattern α :=
  match r.ahead with
  | none => r.pattern
  | some p => .seq r.pattern (.one p)

/-- How much of a match of `n` letters is taken. -/
def taken (r : Rule α σ κ) (n : ℕ) : ℕ := if r.ahead.isSome then n - 1 else n

def longest (r : Rule α σ κ) (s : σ) (w : List α) : Option ℕ :=
  if r.active s then r.whole.longest w else none

/-- The text that is left behind a lexeme with `rest` behind it. -/
def left (r : Rule α σ κ) (rest : List α) : List α :=
  match rest with
  | [] => r.atEnd
  | _ :: _ => rest

theorem left_of_ne_nil (r : Rule α σ κ) {rest : List α} (h : rest ≠ []) : r.left rest = rest := by
  cases rest with
  | nil => exact absurd rfl h
  | cons a rest => rfl

theorem left_of_atEnd {r : Rule α σ κ} (h : r.atEnd = []) (rest : List α) : r.left rest = rest := by
  cases rest with
  | nil => exact h
  | cons a rest => rfl

end Rule

structure Lexeme (α κ : Type) where
  text : List α
  token : Option κ
  deriving DecidableEq

/-- The rule with the longest match, and its length. -/
def choose : List (Rule α σ κ) → σ → List α → Option (Rule α σ κ × ℕ)
  | [], _, _ => none
  | r :: rules, s, w =>
      match r.longest s w, choose rules s w with
      | some n, some c => if c.2 ≤ n then some (r, n) else some c
      | some n, none => some (r, n)
      | none, c => c

/-- The lexemes up to the end of the text and the state there, within `fuel` lexemes; there is no
result when no rule matches a letter, or when less is taken than is left again. -/
def scan (rules : List (Rule α σ κ)) : ℕ → σ → List α → Option (List (Lexeme α κ) × σ)
  | _, s, [] => some ([], s)
  | 0, _, _ :: _ => none
  | fuel + 1, s, a :: w =>
      (choose rules s (a :: w)).bind fun c =>
        let k := c.1.taken c.2
        let text := (a :: w).take k
        let rest := (a :: w).drop k
        let out := c.1.action s text rest
        if (c.1.left rest).length ≤ w.length then
          (scan rules fuel out.1 (c.1.left rest)).map fun r => (⟨text, out.2⟩ :: r.1, r.2)
        else none

/-- Every lexeme makes the text shorter. -/
def scanAll (rules : List (Rule α σ κ)) (s : σ) (w : List α) : Option (List (Lexeme α κ) × σ) :=
  scan rules w.length s w

/-- A text is scanned to its end. -/
inductive Scanned (rules : List (Rule α σ κ)) : σ → List α → List (Lexeme α κ) → σ → Prop where
  | nil (s : σ) : Scanned rules s [] [] s
  | cons {s s' t : σ} {a : α} {w text rest : List α} {ls : List (Lexeme α κ)} {r : Rule α σ κ}
      {n : ℕ} {token : Option κ} (hchoose : choose rules s (a :: w) = some (r, n))
      (htext : text = (a :: w).take (r.taken n)) (hrest : rest = (a :: w).drop (r.taken n))
      (hless : (r.left rest).length ≤ w.length) (haction : r.action s text rest = (t, token))
      (h : Scanned rules t (r.left rest) ls s') : Scanned rules s (a :: w) (⟨text, token⟩ :: ls) s'

section Choose
variable {rules : List (Rule α σ κ)} {s : σ} {w : List α} {r : Rule α σ κ} {n : ℕ}

theorem Rule.longest_of_active (h : r.active s = true) : r.longest s w = r.whole.longest w :=
  if_pos h

theorem Rule.longest_eq_some_iff :
    r.longest s w = some n ↔ r.active s = true ∧ r.whole.longest w = some n := by
  unfold Rule.longest
  split_ifs with h
  · rw [and_iff_right h]
  · exact iff_of_false nofun fun hn => h hn.1

theorem choose_none (h : choose rules s w = none) : ∀ q ∈ rules, q.longest s w = none := by
  induction rules with
  | nil => nofun
  | cons q rules ih =>
    unfold choose at h
    split at h
    · split_ifs at h
    · cases h
    next hq =>
      intro p hp
      rcases List.mem_cons.mp hp with rfl | hp
      · exact hq
      · exact ih h p hp

/-- No match is longer than the chosen one, and the rule is the first one with a match that long. -/
theorem choose_spec (h : choose rules s w = some (r, n)) :
    (∀ q ∈ rules, ∀ m, q.longest s w = some m → m ≤ n) ∧
      rules.find? (fun q => q.longest s w = some n) = some r := by
  induction rules generalizing r n with
  | nil => cases h
  | cons q rules ih =>
    unfold choose at h
    rw [List.forall_mem_cons, List.find?_cons]
    split at h
    next k c hq hc =>
      obtain ⟨r', m⟩ := c
      obtain ⟨hmax, hfind⟩ := ih hc
      split_ifs at h with hle
      · cases h
        rw [hq]
        constructor
        · constructor
          · intro m' hm'
            cases hm'
            exact le_rfl
          · exact fun p hp m' hm' => (hmax p hp m' hm').trans hle
        · rw [decide_eq_true rfl]
      · cases h
        rw [hq, decide_eq_false fun he => hle (Option.some_inj.mp he).ge]
        refine ⟨⟨fun m' hm' => ?_, hmax⟩, hfind⟩
        cases hm'
        exact (not_le.mp hle).le
    next k hq hc =>
      cases h
      rw [hq]
      constructor
      · constructor
        · intro m' hm'
          cases hm'
          exact le_rfl
        · intro p hp m' hm'
          rw [choose_none hc p hp] at hm'
          cases hm'
      · rw [decide_eq_true rfl]
    next hq =>
      obtain ⟨hmax, hfind⟩ := ih h
      rw [hq, decide_eq_false nofun]
      exact ⟨⟨nofun, hmax⟩, hfind⟩

theorem Rule.longest_of_find
    (h : rules.find? (fun q => q.longest s w = some n) = some r) : r.longest s w = some n := by
  simpa only [decide_eq_true_eq] using List.find?_some h

theorem choose_eq_some_iff : choose rules s w = some (r, n) ↔
    (∀ q ∈ rules, ∀ m, q.longest s w = some m → m ≤ n) ∧
      rules.find? (fun q => q.longest s w = some n) = some r := by
  refine ⟨choose_spec, fun ⟨hmax, hfind⟩ => ?_⟩
  have hmem := List.mem_of_find?_eq_some hfind
  have hr := Rule.longest_of_find hfind
  cases hc : choose rules s w with
  | none =>
    rw [choose_none hc r hmem] at hr
    cases hr
  | some c =>
    obtain ⟨r', m⟩ := c
    obtain ⟨hmax', hfind'⟩ := choose_spec hc
    have hr' := Rule.longest_of_find hfind'
    obtain rfl : n = m :=
      Nat.le_antisymm (hmax' r hmem n hr) (hmax r' (List.mem_of_find?_eq_some hfind') m hr')
    rw [hfind, Option.some_inj] at hfind'
    rw [hfind']

theorem choose_congr {t : σ} (h : ∀ q ∈ rules, q.longest s w = q.longest t w) :
    choose rules s w = choose rules t w := by
  induction rules with
  | nil => rfl
  | cons q rules ih =>
    obtain ⟨hq, hrules⟩ := List.forall_mem_cons.mp h
    rw [choose, choose, hq, ih hrules]

/-- Some rule is chosen if one of them matches. -/
theorem exists_choose {q : Rule α σ κ} {m : ℕ} (hq : q ∈ rules) (hl : q.longest s w = some m) :
    ∃ r n, choose rules s w = some (r, n) ∧ m ≤ n := by
  cases hc : choose rules s w with
  | none =>
    rw [choose_none hc q hq] at hl
    cases hl
  | some c => exact ⟨c.1, c.2, rfl, (choose_spec hc).1 q hq m hl⟩

theorem find?_eq_none_of_lt (h : ∀ q ∈ rules, ∀ m, q.longest s w = some m → m < n) :
    rules.find? (fun q => q.longest s w = some n) = none := by
  rw [List.find?_eq_none]
  intro q hq hlongest
  exact lt_irrefl n (h q hq n (of_decide_eq_true hlongest))

theorem choose_mem (h : choose rules s w = some (r, n)) :
    r ∈ rules ∧ r.active s = true ∧ IsGreatest (r.whole.Matches w) n := by
  have hfind := (choose_spec h).2
  have hlongest := Rule.longest_of_find hfind
  unfold Rule.longest at hlongest
  split_ifs at hlongest with hactive
  exact ⟨List.mem_of_find?_eq_some hfind, hactive, Pattern.longest_isGreatest hlongest⟩

/-- The lexeme matches the pattern. -/
theorem Rule.take_taken_mem (h : n ∈ r.whole.Matches w) :
    w.take (r.taken n) ∈ r.pattern.language := by
  obtain ⟨hle, hmem⟩ := h
  unfold Rule.whole at hmem
  unfold Rule.taken
  cases hahead : r.ahead with
  | none =>
    rw [hahead] at hmem
    exact hmem
  | some p =>
    rw [hahead] at hmem
    obtain ⟨u, hu, v, ⟨b, -, rfl⟩, he⟩ := Language.mem_mul.mp hmem
    have hlen := congrArg List.length he
    rw [List.length_append, List.length_singleton, List.length_take, min_eq_left hle] at hlen
    rw [Option.isSome_some, if_pos rfl, show n - 1 = u.length by omega]
    have htake := congrArg (List.take u.length) he
    rw [List.take_left, List.take_take, min_eq_left (by omega)] at htake
    rwa [← htake]

end Choose

section Scan
variable {rules : List (Rule α σ κ)} {s s' : σ} {w : List α} {r : Rule α σ κ} {n fuel : ℕ}
  {ls : List (Lexeme α κ)}

theorem scanned_of_scan (h : scan rules fuel s w = some (ls, s')) : Scanned rules s w ls s' := by
  induction fuel generalizing s w ls with
  | zero =>
    cases w with
    | nil =>
      cases h
      exact .nil _
    | cons a w => cases h
  | succ fuel ih =>
    cases w with
    | nil =>
      cases h
      exact .nil _
    | cons a w =>
      obtain ⟨⟨r, n⟩, hchoose, h⟩ := Option.bind_eq_some_iff.mp h
      dsimp only at h
      split_ifs at h with hless
      obtain ⟨⟨ls', t⟩, hrest, he⟩ := Option.map_eq_some_iff.mp h
      cases he
      exact .cons hchoose rfl rfl hless rfl (ih hrest)

theorem scan_of_scanned (h : Scanned rules s w ls s') (hfuel : w.length ≤ fuel) :
    scan rules fuel s w = some (ls, s') := by
  induction h generalizing fuel with
  | nil s =>
    unfold scan
    rfl
  | cons hchoose htext hrest hless haction _ ih =>
    cases fuel with
    | zero => exact absurd hfuel (Nat.not_succ_le_zero _)
    | succ fuel =>
      subst htext hrest
      rw [scan, hchoose, Option.bind_some]
      dsimp only
      rw [if_pos hless, haction, ih (hless.trans (Nat.le_of_succ_le_succ hfuel))]
      rfl

theorem scanned_iff : Scanned rules s w ls s' ↔ scanAll rules s w = some (ls, s') :=
  ⟨fun h => scan_of_scanned h le_rfl, scanned_of_scan⟩

/-- One lexeme is scanned, and then what it leaves of the text. -/
theorem scanAll_of_choose {u v : List α} {t : σ} {token : Option κ} (hu : u ≠ [])
    (hchoose : choose rules s (u ++ v) = some (r, n)) (htaken : r.taken n = u.length)
    (hless : (r.left v).length < (u ++ v).length) (haction : r.action s u v = (t, token)) :
    scanAll rules s (u ++ v) =
      (scanAll rules t (r.left v)).map fun p => (⟨u, token⟩ :: p.1, p.2) := by
  have htake : (u ++ v).take (r.taken n) = u := by
    rw [htaken]
    exact List.take_left
  have hdrop : (u ++ v).drop (r.taken n) = v := by
    rw [htaken]
    exact List.drop_left
  obtain ⟨a, u, rfl⟩ := List.exists_cons_of_ne_nil hu
  apply Option.ext
  rintro ⟨ls, s'⟩
  rw [← scanned_iff, Option.map_eq_some_iff]
  constructor
  · intro h
    cases h with
    | cons hchoose' htext hrest _ haction' h =>
      cases hchoose.symm.trans hchoose'
      obtain rfl := htext.trans htake
      obtain rfl := hrest.trans hdrop
      cases haction.symm.trans haction'
      exact ⟨_, scanned_iff.mp h, rfl⟩
  · rintro ⟨⟨ls', t'⟩, h, he⟩
    cases he
    exact .cons hchoose htake.symm hdrop.symm (Nat.le_of_lt_succ hless) haction
      (scanned_iff.mpr h)

/-- States that the rules cannot tell apart give the same lexemes. -/
theorem Scanned.congr {R : σ → σ → Prop}
    (hactive : ∀ r ∈ rules, ∀ s t, R s t → r.active s = r.active t)
    (haction : ∀ r ∈ rules, ∀ s t text rest, R s t → r.active s = true →
      R (r.action s text rest).1 (r.action t text rest).1 ∧
        (r.action s text rest).2 = (r.action t text rest).2)
    (h : Scanned rules s w ls s') {t : σ} (hst : R s t) :
    ∃ t', Scanned rules t w ls t' ∧ R s' t' := by
  induction h generalizing t with
  | nil s => exact ⟨t, .nil t, hst⟩
  | @cons s s' next a w text rest ls r n token hchoose htext hrest hless hact h ih =>
    obtain ⟨hr, hon, -⟩ := choose_mem hchoose
    obtain ⟨hnext, htoken⟩ := haction r hr s t text rest hst hon
    rw [hact] at hnext htoken
    obtain ⟨t', ht', hR⟩ := ih hnext
    have hsame : choose rules s (a :: w) = choose rules t (a :: w) :=
      choose_congr fun q hq => by
        unfold Rule.longest
        rw [hactive q hq s t hst]
    exact ⟨t', .cons (hsame ▸ hchoose) htext hrest hless (Prod.ext rfl htoken.symm) ht', hR⟩

end Scan
end Lexer
