import Mosito.Sql.ScannerWords
import Mathlib

/-! Whole texts and sessions. White space and comments leave no trace, and a `BETWEEN` makes the
next `AND` another token. -/
namespace Mosito
open Lexer Pattern
namespace Scanner

/-- The rules without a state, up to those for single bytes. -/
def statelessRules : List ScannerRule :=
  numbers ++ strings ++ bitStrings ++ operators ++ functions ++ [nameRule] ++ quotedNames ++
    lineComments

/-- A token that changes what the next `AND` is. -/
def Marks (token : Option Returned) : Prop :=
  token = some (.token .BETWEEN) ∨ token = some (.token .AND)

instance (token : Option Returned) : Decidable (Marks token) :=
  inferInstanceAs (Decidable (_ ∨ _))

/-- A rule outside the comments that changes no state. -/
structure Plain (r : ScannerRule) : Prop where
  active : r.active = State.active none
  action : ∀ text rest, ∃ token, (∀ s, r.action s text rest = (s, token)) ∧ ¬ Marks token

section Rules
variable {r : ScannerRule} {p : Pattern UInt8} {token : Option Returned} {k : Keyword} {s : State}

theorem plain_rule (h : ¬ Marks token) : Plain (rule p token) :=
  ⟨rfl, fun _ _ => ⟨token, fun _ => rfl, h⟩⟩

theorem plain_aggregate {name : String} {t : Token} (ht : t ≠ .BETWEEN ∧ t ≠ .AND) :
    Plain (aggregate name t) := by
  refine ⟨rfl, fun text rest => ⟨_, fun _ => rfl, ?_⟩⟩
  unfold Marks
  split_ifs
  · simpa using ht
  · decide

/-- The rule that returns the byte itself. -/
theorem plain_byte : Plain { rule p none with
    action := fun s text _ => (s, text.head?.map Returned.code) } := by
  refine ⟨rfl, fun text rest => ⟨_, fun _ => rfl, ?_⟩⟩
  unfold Marks
  cases text <;> simp

theorem Plain.withAhead (h : Plain r) (ahead : Option (UInt8 → Bool)) :
    Plain { r with ahead := ahead } :=
  ⟨h.active, h.action⟩

theorem plain_stateless : ∀ r ∈ statelessRules ++ everythingElse, Plain r := by
  simp only [statelessRules, numbers, strings, bitStrings, operators, functions, quotedNames,
    lineComments, everythingElse, List.forall_mem_append, List.forall_mem_cons]
  and_intros
  all_goals first
    | exact List.forall_mem_nil _
    | exact plain_rule (by decide)
    | exact (plain_rule (by decide)).withAhead _
    | exact plain_aggregate (by decide)
    | exact plain_byte

/-- A keyword changes the start condition where it is a mark, and only there. -/
theorem keyword_marks : ∀ k ∈ keywords ++ booleans,
    k.begins = none ∧ ¬ Marks (some k.token) ∨
      k.begins = some .btwmode ∧ k.token = .token .BETWEEN ∨
        k.begins = some .initial ∧ k.token = .token .AND := by
  decide +kernel

theorem keyword_only : ∀ k ∈ keywords ++ booleans, k.only ≠ some .comment := by
  decide +kernel

/-- What a rule can be. -/
theorem rules_cases (hr : r ∈ rules) : (∃ k ∈ keywords ++ booleans, r = k.rule) ∨
    r ∈ statelessRules ++ everythingElse ∨ r = openComment ∨ r = closeComment ∨ r = inComment := by
  simp only [rules, List.mem_append, List.mem_map, List.mem_cons, List.not_mem_nil,
    or_false] at hr
  simp only [statelessRules, List.mem_append, List.mem_cons, List.not_mem_nil, or_false]
  rcases hr with ((((((((((⟨k, hk, rfl⟩ | hr) | ⟨k, hk, rfl⟩) | hr) | hr) | hr) | hr) | hr) | hr) |
    hr) | hr) | hr
  · exact .inl ⟨k, .inl hk, rfl⟩
  · simp [hr]
  · exact .inl ⟨k, .inr hk, rfl⟩
  all_goals simp [hr]

end Rules
section Yylex
variable {s t : State} {u v w : Text} {r : ScannerRule} {n : ℕ} {token : Option Returned}
  {a b : UInt8}

theorem length_of_spells {c : String} (h : Spells u c) : u.length = (bytes c).length := by
  have hlen := congrArg List.length h
  rwa [List.length_map, List.length_map] at hlen

theorem aggregates_long : (aggregates.all fun c => 2 < (bytes c.1).length) = true := rfl

/-- An aggregate is longer than what it leaves. -/
theorem length_of_aggregate (h : aggregates.any (fun c => Spells u c.1) = true) : 2 < u.length := by
  obtain ⟨c, hc, hspells⟩ := List.any_eq_true.mp h
  rw [length_of_spells (of_decide_eq_true hspells)]
  exact of_decide_eq_true (List.all_eq_true.mp aggregates_long c hc)

/-- What `yylex` does with one lexeme. -/
theorem yylex_of_left (hu : u ≠ []) (hchoose : choose rules s (u ++ v) = some (r, n))
    (htaken : r.taken n = u.length) (hless : (r.left v).length < (u ++ v).length)
    (haction : r.action s u v = (t, token)) :
    yylex s (u ++ v) = (yylex t (r.left v)).map fun p => (⟨u, token⟩ :: p.1, p.2) := by
  unfold yylex
  rw [scanAll_of_choose hu hchoose htaken hless haction]
  cases scanAll rules t (r.left v) with
  | none => rfl
  | some p =>
    rw [Option.map_some, Option.bind_some, Option.bind_some]
    split_ifs <;> rfl

/-- The same where the rule leaves nothing of its own. -/
theorem yylex_of_choose (hu : u ≠ []) (hchoose : choose rules s (u ++ v) = some (r, n))
    (htaken : r.taken n = u.length) (haction : r.action s u v = (t, token)) (hend : r.atEnd = []) :
    yylex s (u ++ v) = (yylex t v).map fun p => (⟨u, token⟩ :: p.1, p.2) := by
  have hleft := Rule.left_of_atEnd hend v
  have hless : (r.left v).length < (u ++ v).length := by
    rw [hleft, List.length_append]
    exact Nat.lt_add_of_pos_left (List.length_pos_of_ne_nil hu)
  rw [yylex_of_left hu hchoose htaken hless haction, hleft]

/-- A word is one lexeme. -/
theorem yylex_word (hmode : s.mode ≠ .comment) (hu : IsWord u) (hv : Ends v) :
    yylex s (u ++ v) = (yylex (wordToken s u v).1 (wordLeft u v)).map fun p =>
      (⟨u, some (wordToken s u v).2⟩ :: p.1, p.2) := by
  obtain ⟨r, n, hchoose, htaken, haction, hleft⟩ := word_chosen hmode hu hv
  have hless : (r.left v).length < (u ++ v).length := by
    rw [hleft, wordLeft, List.length_append]
    split_ifs with h
    · have hlong := length_of_aggregate h.2
      rw [List.length_singleton]
      omega
    · exact Nat.lt_add_of_pos_left hu.pos
  rw [yylex_of_left (List.ne_nil_of_length_pos hu.pos) hchoose htaken hless haction, hleft]

theorem yylex_nil (hmode : s.mode ≠ .comment) : yylex s [] = some ([], s) := by
  unfold yylex scanAll scan
  rw [Option.bind_some, if_neg hmode]

theorem session_cons {texts : List Text} {ls : List (Lexeme UInt8 Returned)}
    (h : yylex s u = some (ls, t)) :
    session s (u :: texts) = (session t texts).map fun p => (ls ++ p.1, p.2) := by
  rw [session, h]
  rfl

section Comment

theorem active_none (hmode : s.mode ≠ .comment) : State.active none s = true :=
  decide_eq_true hmode

theorem not_active_none (hmode : s.mode = .comment) : ¬ State.active none s = true :=
  fun h => of_decide_eq_true h hmode

theorem keyword_mode {k : Keyword} (hk : k ∈ keywords ++ booleans)
    (hactive : k.rule.active s = true) : s.mode ≠ .comment := by
  intro hmode
  change State.active k.only s = true at hactive
  cases honly : k.only with
  | none =>
    rw [honly] at hactive
    exact not_active_none hmode hactive
  | some mode =>
    rw [honly] at hactive
    obtain rfl : s.mode = mode := of_decide_eq_true hactive
    rw [hmode] at honly
    exact keyword_only k hk honly

/-- The rules inside of a comment. -/
theorem comment_rules (hmode : s.mode = .comment) (hr : r ∈ rules) (hactive : r.active s = true) :
    r = closeComment ∨ r = inComment := by
  rcases rules_cases hr with ⟨k, hk, rfl⟩ | hr | rfl | h
  · exact absurd hmode (keyword_mode hk hactive)
  · rw [(plain_stateless r hr).active] at hactive
    exact absurd hactive (not_active_none hmode)
  · exact absurd hactive (not_active_none hmode)
  · exact h

theorem mem_closeComment : u ∈ closeComment.whole.language ↔ u = [42, 47] :=
  mem_word.trans (spells_iff rfl)

theorem mem_inComment (h : u ∈ inComment.whole.language) : u.length ≤ 1 := by
  rcases h with ⟨a, -, rfl⟩ | h
  · exact le_rfl
  · obtain ⟨a, -, rfl⟩ := mem_byte.mp h
    exact le_rfl

theorem inComment_longest (hmode : s.mode = .comment) :
    inComment.longest s (a :: w) = some 1 := by
  have hmem : [a] ∈ inComment.whole.language := by
    by_cases ha : a = 10
    · exact .inr (mem_byte.mpr ⟨a, congrArg lower ha, rfl⟩)
    · refine .inl ⟨a, ?_, rfl⟩
      simpa using ha
  obtain ⟨m, hm, hle⟩ := le_longest (w := a :: w) (n := 1) ⟨Nat.succ_pos _, hmem⟩
  rw [Rule.longest_of_active (show inComment.active s = true from decide_eq_true hmode), hm,
    Nat.le_antisymm (longest_le_of_length (fun _ h => mem_inComment h) hm) hle]

/-- A byte of a comment. -/
theorem yylex_inComment (hmode : s.mode = .comment) (h : ¬ [42, 47] <+: a :: w) :
    yylex s (a :: w) = (yylex s w).map fun p => (⟨[a], none⟩ :: p.1, p.2) := by
  have hrule : inComment ∈ rules := by simp [rules]
  obtain ⟨r, n, hchoose, hn⟩ :=
    exists_choose hrule (inComment_longest (a := a) (w := w) hmode)
  obtain ⟨hr, hactive, ⟨hle, hmem⟩, -⟩ := choose_mem hchoose
  rcases comment_rules hmode hr hactive with rfl | rfl
  · refine absurd ?_ h
    rw [← mem_closeComment.mp hmem]
    exact List.take_prefix _ _
  · have hlen := mem_inComment hmem
    rw [List.length_take, min_eq_left hle] at hlen
    refine yylex_of_choose (u := [a]) (List.cons_ne_nil a []) hchoose ?_ rfl rfl
    exact Nat.le_antisymm hlen hn

/-- The end of a comment. -/
theorem yylex_closeComment (hmode : s.mode = .comment) :
    yylex s (42 :: 47 :: w) =
      (yylex { s with mode := s.oldstate } w).map fun p => (⟨[42, 47], none⟩ :: p.1, p.2) := by
  obtain ⟨m, hm, hle⟩ := le_longest (p := closeComment.whole) (w := 42 :: 47 :: w) (n := 2)
    ⟨Nat.le_add_left 2 _, mem_closeComment.mpr rfl⟩
  rw [← Rule.longest_of_active (show closeComment.active s = true from decide_eq_true hmode)]
    at hm
  have hrule : closeComment ∈ rules := by simp [rules]
  obtain ⟨r, n, hchoose, hn⟩ := exists_choose hrule hm
  obtain ⟨hr, hactive, ⟨hlen, hmem⟩, -⟩ := choose_mem hchoose
  rcases comment_rules hmode hr hactive with rfl | rfl
  · refine yylex_of_choose (u := [42, 47]) (List.cons_ne_nil 42 [47]) hchoose ?_ rfl rfl
    have htake := congrArg List.length (mem_closeComment.mp hmem)
    rwa [List.length_take, min_eq_left hlen] at htake
  · have hone := mem_inComment hmem
    rw [List.length_take, min_eq_left hlen] at hone
    omega

/-- A comment that is not closed ends in no state. -/
theorem yylex_unclosed (hmode : s.mode = .comment) (h : ¬ [42, 47] <:+: u) : yylex s u = none := by
  induction u with
  | nil =>
    unfold yylex scanAll scan
    rw [Option.bind_some, if_pos hmode]
  | cons a u ih =>
    rw [yylex_inComment hmode fun hpre => h hpre.isInfix,
      ih fun hin => h (hin.trans (List.suffix_cons a u).isInfix)]
    rfl

/-- The text of a comment, from behind its beginning to behind its end. -/
theorem yylex_toEnd (hmode : s.mode = .comment) (h : ¬ [42, 47] <:+: u) :
    ∃ ls : List (Lexeme UInt8 Returned), (∀ l ∈ ls, l.token = none) ∧
      yylex s (u ++ 42 :: 47 :: w) =
        (yylex { s with mode := s.oldstate } w).map fun p => (ls ++ p.1, p.2) := by
  induction u with
  | nil =>
    refine ⟨[⟨[42, 47], none⟩], List.forall_mem_singleton.mpr rfl, ?_⟩
    exact yylex_closeComment hmode
  | cons a u ih =>
    obtain ⟨ls, hls, hscan⟩ := ih fun hin =>
      h (hin.trans (List.suffix_cons a u).isInfix)
    have hpre : ¬ [42, 47] <+: a :: (u ++ 42 :: 47 :: w) := by
      intro hpre
      obtain ⟨rfl, hnext⟩ := List.cons_prefix_cons.mp hpre
      cases u with
      | nil => simp at hnext
      | cons b u =>
        obtain ⟨rfl, -⟩ := List.cons_prefix_cons.mp hnext
        exact h ⟨[], u, rfl⟩
    refine ⟨⟨[a], none⟩ :: ls, List.forall_mem_cons.mpr ⟨rfl, hls⟩, ?_⟩
    rw [List.cons_append, yylex_inComment hmode hpre, hscan, Option.map_map]
    rfl

/-- A keyword does not begin with a byte that is in no name. -/
theorem not_keyword {k : Keyword} (hk : k ∈ keywords ++ booleans) (ha : isNameByte a = false)
    (hn : 0 < n) : n ∉ k.rule.whole.Matches (a :: w) := by
  rintro ⟨-, hmem⟩
  cases n with
  | zero => exact lt_irrefl 0 hn
  | succ n =>
    rw [within_keyword hk _ hmem a List.mem_cons_self] at ha
    cases ha

theorem mem_openComment : u ∈ openComment.whole.language ↔ u = [47, 42] :=
  mem_word.trans (spells_iff rfl)

/-- No other rule takes the beginning of a comment. -/
theorem stateless_openComment : ((statelessRules ++ everythingElse).all fun r =>
    !(r.whole.first 47 && (r.whole.deriv 47).first 42)) = true := by
  decide +kernel

theorem yylex_openComment (hmode : s.mode ≠ .comment) : yylex s (47 :: 42 :: w) =
    (yylex ⟨.comment, s.mode⟩ w).map fun p => (⟨[47, 42], none⟩ :: p.1, p.2) := by
  obtain ⟨m, hm, hle⟩ := le_longest (p := openComment.whole) (w := 47 :: 42 :: w) (n := 2)
    ⟨Nat.le_add_left 2 _, mem_openComment.mpr rfl⟩
  rw [← Rule.longest_of_active (show openComment.active s = true from active_none hmode)] at hm
  have hrule : openComment ∈ rules := by simp [rules]
  obtain ⟨r, n, hchoose, hn⟩ := exists_choose hrule hm
  obtain ⟨hr, hactive, hmatch, -⟩ := choose_mem hchoose
  rcases rules_cases hr with ⟨k, hk, rfl⟩ | hr | rfl | rfl | rfl
  · exact absurd hmatch (not_keyword hk (by decide) (by omega))
  · obtain ⟨n, rfl⟩ := Nat.exists_eq_add_of_le (hle.trans hn)
    rw [Nat.add_comm] at hmatch
    obtain ⟨hfirst, hderiv⟩ := first_deriv_of_mem hmatch.2
    have hnot := List.all_eq_true.mp stateless_openComment r hr
    rw [hfirst, hderiv] at hnot
    cases hnot
  · refine yylex_of_choose (u := [47, 42]) (List.cons_ne_nil 47 [42]) hchoose ?_ rfl rfl
    have htake := congrArg List.length (mem_openComment.mp hmatch.2)
    rwa [List.length_take, min_eq_left hmatch.1] at htake
  · exact absurd (of_decide_eq_true hactive) hmode
  · exact absurd (of_decide_eq_true hactive) hmode

/-- A comment, and where it goes on. -/
theorem yylex_comment (hmode : s.mode ≠ .comment) (h : ¬ [42, 47] <:+: u) :
    ∃ ls : List (Lexeme UInt8 Returned), (∀ l ∈ ls, l.token = none) ∧
      yylex s (47 :: 42 :: (u ++ 42 :: 47 :: w)) =
        (yylex ⟨s.mode, s.mode⟩ w).map fun p => (ls ++ p.1, p.2) := by
  obtain ⟨ls, hls, hscan⟩ := yylex_toEnd (s := ⟨.comment, s.mode⟩) (w := w) rfl h
  refine ⟨⟨[47, 42], none⟩ :: ls, List.forall_mem_cons.mpr ⟨rfl, hls⟩, ?_⟩
  rw [yylex_openComment hmode, hscan, Option.map_map]
  rfl

end Comment

section Transparent

/-- States that differ in an `oldstate` that is not in use. -/
def Same (s t : State) : Prop := s.mode = t.mode ∧ (s.mode = .comment → s.oldstate = t.oldstate)

theorem Same.symm (h : Same s t) : Same t s :=
  ⟨h.1.symm, fun ht => (h.2 (h.1.trans ht)).symm⟩

theorem Same.active (h : Same s t) (only : Option Mode) :
    State.active only s = State.active only t := by
  unfold State.active
  rw [h.1]

theorem Same.rule_active (h : Same s t) (hr : r ∈ rules) : r.active s = r.active t := by
  rcases rules_cases hr with ⟨k, -, rfl⟩ | hr | rfl | rfl | rfl
  · exact h.active k.only
  · rw [(plain_stateless r hr).active]
    exact h.active none
  · exact h.active none
  · exact h.active (some .comment)
  · exact h.active (some .comment)

theorem Same.begins (h : Same s t) {mode : Option Mode} (hmode : mode ≠ some .comment) :
    Same (s.begins mode) (t.begins mode) := by
  cases mode with
  | none => exact h
  | some mode => exact ⟨rfl, fun hc => absurd (congrArg some hc) hmode⟩

theorem Same.rule_action (h : Same s t) (hr : r ∈ rules) (hactive : r.active s = true)
    (text rest : Text) : Same (r.action s text rest).1 (r.action t text rest).1 ∧
      (r.action s text rest).2 = (r.action t text rest).2 := by
  rcases rules_cases hr with ⟨k, hk, rfl⟩ | hr | rfl | rfl | rfl
  · refine ⟨h.begins ?_, rfl⟩
    rcases keyword_marks k hk with ⟨hk, -⟩ | ⟨hk, -⟩ | ⟨hk, -⟩ <;> rw [hk] <;> decide
  · obtain ⟨token, haction, -⟩ := (plain_stateless r hr).action text rest
    rw [haction, haction]
    exact ⟨h, rfl⟩
  · exact ⟨⟨rfl, fun _ => h.1⟩, rfl⟩
  · have hold := h.2 (of_decide_eq_true hactive)
    exact ⟨⟨hold, fun _ => hold⟩, rfl⟩
  · exact ⟨h, rfl⟩

/-- The tokens of a text and the start condition behind it. -/
def seen (r : Option (List (Lexeme UInt8 Returned) × State)) : Option (List Returned × Mode) :=
  r.map fun p => (p.1.filterMap Lexeme.token, p.2.mode)

theorem Same.scanAll (h : Same s t) {ls : List (Lexeme UInt8 Returned)} {s' : State}
    (hs : scanAll rules s w = some (ls, s')) :
    ∃ t', scanAll rules t w = some (ls, t') ∧ Same s' t' := by
  obtain ⟨t', ht, hsame⟩ := (scanned_iff.mpr hs).congr
    (fun r hr s t hst => hst.rule_active hr)
    (fun r hr s t text rest hst hactive => hst.rule_action hr hactive text rest) h
  exact ⟨t', scanned_iff.mp ht, hsame⟩

theorem Same.seen (h : Same s t) : seen (yylex s w) = seen (yylex t w) := by
  unfold yylex
  cases hs : Lexer.scanAll rules s w with
  | some p =>
    obtain ⟨t', ht, hsame⟩ := h.scanAll hs
    rw [ht, Option.bind_some, Option.bind_some, hsame.1]
    split_ifs
    · rfl
    · exact congrArg (fun mode => some (p.1.filterMap Lexeme.token, mode)) hsame.1
  | none =>
    cases ht : Lexer.scanAll rules t w with
    | none => rfl
    | some p =>
      obtain ⟨s', hs', -⟩ := h.symm.scanAll ht
      rw [hs] at hs'
      cases hs'

/-- A comment is seen as nothing, and one that is not closed has no end. -/
theorem comment_unseen (hmode : s.mode ≠ .comment) (h : ¬ bytes "*/" <:+: u) (w : Text) :
    seen (yylex s (bytes "/*" ++ u ++ bytes "*/" ++ w)) = seen (yylex s w) ∧
      yylex s (bytes "/*" ++ u) = none := by
  have hopen : bytes "/*" = [47, 42] := rfl
  have hclose : bytes "*/" = [42, 47] := rfl
  rw [hclose] at h
  rw [hopen, hclose]
  constructor
  · obtain ⟨ls, hls, hscan⟩ := yylex_comment (w := w) hmode h
    have hsame : Same ⟨s.mode, s.mode⟩ s := ⟨rfl, fun hc => absurd hc hmode⟩
    have htext : [47, 42] ++ u ++ [42, 47] ++ w = 47 :: 42 :: (u ++ 42 :: 47 :: w) := by simp
    have hnone : ls.filterMap Lexeme.token = [] :=
      List.filterMap_eq_nil_iff.mpr hls
    rw [htext, hscan, ← hsame.seen]
    unfold seen
    rw [Option.map_map]
    apply Option.map_congr
    intro p _
    rw [Function.comp_apply, List.filterMap_append, hnone, List.nil_append]
  · have hunclosed := yylex_unclosed (s := ⟨.comment, s.mode⟩) rfl h
    rw [List.cons_append, List.cons_append, List.nil_append, yylex_openComment hmode, hunclosed]
    rfl

/-- A `BETWEEN` in a comment does not change what an `AND` is. -/
theorem comment_unseen_between :
    seen (yylex start (bytes "/*" ++ bytes "between" ++ bytes "*/" ++ bytes "and")) =
        seen (yylex start (bytes "and")) ∧
      yylex start (bytes "/*" ++ bytes "between") = none :=
  comment_unseen (by decide) (by decide +kernel) (bytes "and")

end Transparent
section Between

/-- The start condition outside of the comments. -/
def State.outer (s : State) : Mode := if s.mode = .comment then s.oldstate else s.mode

/-- A `BETWEEN` waits for its `AND`, behind the token. -/
def waits (b : Bool) (token : Option Returned) : Bool :=
  if token = some (.token .BETWEEN) then true
  else if token = some (.token .AND) then false else b

def modeOf (b : Bool) : Mode := if b then .btwmode else .initial

theorem waits_of_not_marks {b : Bool} (h : ¬ Marks token) : waits b token = b := by
  unfold Marks at h
  rw [not_or] at h
  unfold waits
  rw [if_neg h.1, if_neg h.2]

theorem outer_of_ne (hmode : s.mode ≠ .comment) : s.outer = s.mode := if_neg hmode

/-- One lexeme keeps the start condition and what is waited for together. -/
theorem outer_step {b : Bool} (hr : r ∈ rules) (hactive : r.active s = true)
    (haction : r.action s u v = (t, token)) (h : s.outer = modeOf b) :
    t.outer = modeOf (waits b token) := by
  rcases rules_cases hr with ⟨k, hk, rfl⟩ | hr | rfl | rfl | rfl
  · have hmode := keyword_mode hk hactive
    rw [outer_of_ne hmode] at h
    cases haction
    rcases keyword_marks k hk with ⟨hbegins, hnot⟩ | ⟨hbegins, htoken⟩ | ⟨hbegins, htoken⟩
    · rw [hbegins, waits_of_not_marks hnot]
      exact (outer_of_ne hmode).trans h
    · rw [hbegins, htoken]
      rfl
    · rw [hbegins, htoken]
      rfl
  · obtain ⟨token', haction', hnot⟩ := (plain_stateless r hr).action u v
    cases (haction' s).symm.trans haction
    rwa [waits_of_not_marks hnot]
  · cases haction
    rw [outer_of_ne (of_decide_eq_true hactive)] at h
    exact h
  · cases haction
    rw [State.outer, if_pos (of_decide_eq_true hactive)] at h
    change (if s.oldstate = .comment then s.oldstate else s.oldstate) = _
    rw [ite_self]
    exact h
  · cases haction
    exact h

/-- The keyword `AND` behind a `BETWEEN`. -/
def betweenAnd : Keyword := ⟨some .btwmode, ["AND"], some .initial, .token .AND⟩

/-- The two keywords of this spelling are the first ones with it. -/
theorem rules_and : ∃ behind, rules = (keywords.take 4).map Keyword.rule ++
    betweenAnd.rule :: (keyword ["AND"] .ANDOP).rule :: behind := by
  have hkeywords : keywords = keywords.take 4 ++
      betweenAnd :: keyword ["AND"] .ANDOP :: keywords.drop 6 := rfl
  unfold rules
  simp only [List.append_assoc]
  rw [hkeywords, List.map_append, List.append_assoc, ← hkeywords]
  exact ⟨_, rfl⟩

theorem keywords_before : ((keywords.take 4).all fun k => k.words.all fun w =>
    !decide ((bytes w).map lower = (bytes "AND").map lower)) = true := rfl

/-- What looks at the byte behind it does not begin like an `AND`. -/
theorem ahead_and : ((statelessRules ++ everythingElse).all fun r =>
    r.ahead.isNone || !(r.pattern.first 97 || r.pattern.first 65)) = true := by
  decide +kernel

theorem head_and (h : Spells u "AND") : ∃ a v, u = a :: v ∧ (a = 97 ∨ a = 65) := by
  have hbytes : (bytes "AND").map lower = [97, 110, 100] := rfl
  unfold Spells at h
  rw [hbytes] at h
  obtain ⟨a, v, rfl, ha, -⟩ := List.map_eq_cons_iff.mp h
  refine ⟨a, v, rfl, ?_⟩
  unfold lower at ha
  split_ifs at ha <;> grind

theorem ahead_of_and (hr : r ∈ rules) (hmem : u ∈ r.pattern.language) (h : Spells u "AND") :
    r.ahead = none := by
  rcases rules_cases hr with ⟨k, -, rfl⟩ | hr | rfl | rfl | rfl
  · rfl
  · obtain ⟨a, v, rfl, ha⟩ := head_and h
    have hfirst := first_of_mem hmem
    have hnot := List.all_eq_true.mp ahead_and r hr
    rcases ha with rfl | rfl
    · rw [hfirst, Bool.true_or, Bool.not_true, Bool.or_false] at hnot
      exact Option.isNone_iff_eq_none.mp hnot
    · rw [hfirst, Bool.or_true, Bool.not_true, Bool.or_false] at hnot
      exact Option.isNone_iff_eq_none.mp hnot
  all_goals rfl

/-- An `AND` is in no comment. -/
theorem mode_of_and (hr : r ∈ rules) (hactive : r.active s = true)
    (hmem : u ∈ r.whole.language) (h : Spells u "AND") : s.mode ≠ .comment := by
  intro hmode
  have hlen : u.length = 3 := length_of_spells h
  rcases comment_rules hmode hr hactive with rfl | rfl
  · rw [mem_closeComment.mp hmem] at hlen
    cases hlen
  · have hle := mem_inComment hmem
    omega

theorem longest_keyword_and {k : Keyword} (hk : k.words = ["AND"])
    (hactive : State.active k.only s = true) (h : Spells (w.take 3) "AND") :
    k.rule.longest s w = some 3 := by
  have hlang (v : Text) : v ∈ k.rule.whole.language ↔ Spells v "AND" := by
    refine mem_words.trans ?_
    rw [hk]
    simp
  have hlen : (w.take 3).length = 3 := length_of_spells h
  rw [List.length_take] at hlen
  rw [Rule.longest_of_active (show k.rule.active s = true from hactive)]
  obtain ⟨m, hm, hle⟩ := le_longest (p := k.rule.whole) (w := w) (n := 3)
    ⟨by omega, (hlang _).mpr h⟩
  have hle' : m ≤ 3 :=
    longest_le_of_length (fun v hv => (length_of_spells ((hlang v).mp hv)).le) hm
  rw [hm, Nat.le_antisymm hle' hle]

/-- What an `AND` becomes. -/
theorem and_token {b : Bool} (hchoose : choose rules s w = some (r, n)) (h : s.outer = modeOf b)
    (htext : Spells (w.take (r.taken n)) "AND") (haction : r.action s u v = (t, token)) :
    token = some (.token (if b then .AND else .ANDOP)) := by
  obtain ⟨hr, hactive, hmatch, -⟩ := choose_mem hchoose
  have hahead := ahead_of_and hr (Rule.take_taken_mem hmatch) htext
  have htaken : r.taken n = n := by
    unfold Rule.taken
    rw [hahead]
    rfl
  rw [htaken] at htext
  have hmode := mode_of_and hr hactive hmatch.2 htext
  have hlen : (w.take n).length = 3 := length_of_spells htext
  rw [List.length_take, min_eq_left hmatch.1] at hlen
  subst hlen
  rw [outer_of_ne hmode] at h
  have hbefore : ((keywords.take 4).map Keyword.rule).find? (fun r => r.longest s w = some 3) =
      none := by
    rw [List.find?_eq_none]
    intro q hq hlongest
    obtain ⟨k, hk, rfl⟩ := List.mem_map.mp hq
    have hmem := (longest_isGreatest
      (Rule.longest_eq_some_iff.mp (of_decide_eq_true hlongest)).2).1.2
    obtain ⟨c, hc, hspells⟩ := mem_words.mp hmem
    have hnot := List.all_eq_true.mp (List.all_eq_true.mp keywords_before k hk) c hc
    rw [decide_eq_true (hspells.symm.trans htext)] at hnot
    cases hnot
  obtain ⟨behind, hrules⟩ := rules_and
  have hfind := (choose_spec hchoose).2
  rw [hrules, List.find?_append, hbefore, Option.none_or, List.find?_cons] at hfind
  cases b with
  | true =>
    have hactive : State.active (some .btwmode) s = true := decide_eq_true h
    rw [decide_eq_true (longest_keyword_and (k := betweenAnd) rfl hactive htext)] at hfind
    cases hfind
    cases haction
    rfl
  | false =>
    have hinactive : betweenAnd.rule.longest s w ≠ some 3 := by
      intro hlongest
      have hbtw : s.mode = .btwmode :=
        of_decide_eq_true (Rule.longest_eq_some_iff.mp hlongest).1
      rw [hbtw] at h
      cases h
    have hand := longest_keyword_and (k := keyword ["AND"] .ANDOP) rfl (active_none hmode) htext
    rw [decide_eq_false hinactive, List.find?_cons, decide_eq_true hand] at hfind
    cases hfind
    cases haction
    rfl

/-- Whether a `BETWEEN` waits behind the lexemes. -/
def waiting (b : Bool) (ls : List (Lexeme UInt8 Returned)) : Bool :=
  ls.foldl (fun b l => waits b l.token) b

/-- Every `AND` among the lexemes is the token it should be. -/
def Ands (b : Bool) : List (Lexeme UInt8 Returned) → Prop
  | [] => True
  | l :: ls => (Spells l.text "AND" → l.token = some (.token (if b then .AND else .ANDOP))) ∧
      Ands (waits b l.token) ls

theorem ands_append {b : Bool} {ls ls' : List (Lexeme UInt8 Returned)} :
    Ands b (ls ++ ls') ↔ Ands b ls ∧ Ands (waiting b ls) ls' := by
  induction ls generalizing b with
  | nil => exact ⟨fun h => ⟨trivial, h⟩, And.right⟩
  | cons l ls ih =>
    rw [List.cons_append, Ands, Ands, ih, and_assoc]
    rfl

theorem scanned_ands {b : Bool} {ls : List (Lexeme UInt8 Returned)} {s' : State}
    (h : Scanned rules s w ls s') (hs : s.outer = modeOf b) :
    Ands b ls ∧ s'.outer = modeOf (waiting b ls) := by
  induction h generalizing b with
  | nil s => exact ⟨trivial, hs⟩
  | cons hchoose htext hrest hless haction _ ih =>
    obtain ⟨hr, hactive, -⟩ := choose_mem hchoose
    obtain ⟨hands, houter⟩ := ih (outer_step hr hactive haction hs)
    refine ⟨⟨fun hspells => ?_, hands⟩, houter⟩
    rw [htext] at hspells
    exact and_token hchoose hs hspells haction

theorem session_ands {b : Bool} {texts : List Text} {ls : List (Lexeme UInt8 Returned)}
    {s' : State} (h : session s texts = some (ls, s')) (hs : s.outer = modeOf b) : Ands b ls := by
  induction texts generalizing s b ls with
  | nil =>
    cases h
    trivial
  | cons w texts ih =>
    obtain ⟨⟨ls₁, s₁⟩, hw, h⟩ := Option.bind_eq_some_iff.mp h
    obtain ⟨⟨ls₂, s₂⟩, htexts, he⟩ := Option.map_eq_some_iff.mp h
    cases he
    obtain ⟨p, hscan, hmode⟩ := Option.bind_eq_some_iff.mp hw
    split_ifs at hmode
    cases hmode
    obtain ⟨hands, houter⟩ := scanned_ands (scanned_iff.mpr hscan) hs
    exact ands_append.mpr ⟨hands, ih htexts houter⟩

/-- In a session an `AND` belongs to a `BETWEEN` where the last one of these two tokens is a
`BETWEEN`, also if that is in an earlier text. -/
theorem session_and {texts : List Text} {pre post : List (Lexeme UInt8 Returned)}
    {l : Lexeme UInt8 Returned} {s' : State}
    (h : session start texts = some (pre ++ l :: post, s')) (hand : Spells l.text "AND") :
    l.token = some (.token (if waiting false pre then .AND else .ANDOP)) :=
  (ands_append.mp (session_ands h (b := false) rfl)).2.1 hand

theorem session_and_leaks :
    ∃ pre, session start [bytes "between", bytes "and"] =
        some (pre ++ [⟨bytes "and", some (.token .AND)⟩], start) ∧
      (⟨bytes "and", some (.token .AND)⟩ : Lexeme UInt8 Returned).token =
        some (.token (if waiting false pre then .AND else .ANDOP)) := by
  have hend : Ends [] := nofun
  obtain ⟨hwords, hbetween, hand, hspells⟩ :
      (IsWord (bytes "between") ∧ IsWord (bytes "and") ∧
        wordLeft (bytes "between") [] = [] ∧ wordLeft (bytes "and") [] = []) ∧
        wordToken start (bytes "between") [] = (⟨.btwmode, .initial⟩, .token .BETWEEN) ∧
          wordToken ⟨.btwmode, .initial⟩ (bytes "and") [] = (start, .token .AND) ∧
            Spells (bytes "and") "AND" := by decide +kernel
  have hfirst := yylex_word (s := start) (by decide) hwords.1 hend
  have hnext := yylex_word (s := ⟨.btwmode, .initial⟩) (by decide) hwords.2.1 hend
  rw [List.append_nil, hbetween, hwords.2.2.1, yylex_nil (by decide), Option.map_some] at hfirst
  rw [List.append_nil, hand, hwords.2.2.2, yylex_nil (by decide), Option.map_some] at hnext
  have h : session start [bytes "between", bytes "and"] =
      some ([⟨bytes "between", some (.token .BETWEEN)⟩] ++
        [⟨bytes "and", some (.token .AND)⟩], start) := by
    rw [session_cons hfirst, session_cons hnext, session, Option.map_some, Option.map_some,
      List.append_nil]
  exact ⟨_, h, session_and h hspells⟩

end Between
end Yylex
end Scanner
end Mosito
