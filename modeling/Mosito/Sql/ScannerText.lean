import Mosito.Sql.ScannerModes
import Mathlib

/-! Texts that are written from words, signs, white space and comments, and the tokens they give
back. No byte of a text is lost, and one that is not in it can come behind it. -/
namespace Mosito
open Lexer Pattern
namespace Scanner

/-- What a text is written from. -/
inductive Item where
  | word (u : Text)
  | blank (b : UInt8)
  | comment (u : Text)
  | sign (c : UInt8)

def blanks : List UInt8 := [32, 9, 10]

/-- The bytes that begin nothing longer. -/
def signs : List UInt8 := bytes "+~^%*(),;"

namespace Item

def text : Item → Text
  | word u => u
  | blank b => [b]
  | comment u => 47 :: 42 :: (u ++ [42, 47])
  | sign c => [c]

def Ok : Item → Prop
  | word u => IsWord u
  | blank b => b ∈ blanks
  | comment u => ¬ [42, 47] <:+: u
  | sign c => c ∈ signs

instance : DecidablePred Ok
  | word u => inferInstanceAs (Decidable (IsWord u))
  | blank b => inferInstanceAs (Decidable (b ∈ blanks))
  | comment u => inferInstanceAs (Decidable (¬ [42, 47] <:+: u))
  | sign c => inferInstanceAs (Decidable (c ∈ signs))

end Item

def written (items : List Item) : Text := items.flatMap Item.text

/-- No word touches another one. -/
def Separated : List Item → Prop
  | [] => True
  | .word _ :: .word _ :: _ => False
  | _ :: items => Separated items

/-- The tokens of the items and the state behind them. -/
def tokensOf : State → List Item → List Returned × State
  | s, [] => ([], s)
  | s, .word u :: items =>
      let t := wordToken s u (written items)
      let r := tokensOf t.1 items
      (t.2 :: r.1, r.2)
  | s, .blank _ :: items => tokensOf s items
  | s, .comment _ :: items => tokensOf ⟨s.mode, s.mode⟩ items
  | s, .sign c :: items =>
      let r := tokensOf s items
      (.code c :: r.1, r.2)

/-- The rule that returns the byte itself. -/
def byteRule : ScannerRule :=
  { rule (.one fun a => (bytes "-+&~|^/%*(),.;!").contains a) none with
    action := fun s text _ => (s, text.head?.map .code) }

/-- The rules without a state, but for this one. -/
def otherRules : List ScannerRule :=
  numbers ++ strings ++ bitStrings ++ operators.tail ++ functions ++ [nameRule] ++ quotedNames ++
    lineComments

section Single
variable {s : State} {w : Text} {r : ScannerRule} {n : ℕ} {b c : UInt8}

theorem otherRules_first : ((blanks ++ signs).all fun b =>
    !isNameByte b && (b != 47) && otherRules.all fun r => !r.whole.first b) = true := by
  decide +kernel

theorem byteRule_first : (blanks.all fun b => !byteRule.whole.first b) = true := by
  decide +kernel

theorem stateless_cases (hr : r ∈ statelessRules) : r = byteRule ∨ r ∈ otherRules := by
  have hoperators : operators = byteRule :: operators.tail := rfl
  unfold statelessRules at hr
  rw [hoperators] at hr
  unfold otherRules
  simp only [List.mem_append, List.mem_cons] at hr ⊢
  tauto

/-- What takes a white space or a sign takes no more than that. -/
theorem single_cases (hmode : s.mode ≠ .comment) (hb : b ∈ blanks ++ signs)
    (hchoose : choose rules s (b :: w) = some (r, n)) (hn : 0 < n) :
    n = 1 ∧ (r = byteRule ∨ r ∈ everythingElse) := by
  obtain ⟨hr, hactive, hmatch, -⟩ := choose_mem hchoose
  have hnot := List.all_eq_true.mp otherRules_first b hb
  simp only [Bool.and_eq_true, Bool.not_eq_true', bne_iff_ne, List.all_eq_true] at hnot
  obtain ⟨⟨hname, hslash⟩, hfirst⟩ := hnot
  obtain ⟨k, rfl⟩ := Nat.exists_eq_add_of_le' hn
  have hlen : ((b :: w).take (k + 1)).length = k + 1 := by
    rw [List.length_take, min_eq_left hmatch.1]
  rcases rules_cases hr with ⟨k, hk, rfl⟩ | hr | rfl | rfl | rfl
  · exact absurd hmatch (not_keyword hk hname hn)
  · rcases List.mem_append.mp hr with hr | hr
    · rcases stateless_cases hr with rfl | hr
      · obtain ⟨a, -, ha⟩ := hmatch.2
        rw [ha] at hlen
        exact ⟨hlen.symm, .inl rfl⟩
      · have hmem : b :: w.take k ∈ r.whole.language := hmatch.2
        have hno := hfirst r hr
        rw [first_of_mem hmem] at hno
        cases hno
    · refine ⟨?_, .inr hr⟩
      simp only [everythingElse, List.mem_cons, List.not_mem_nil, or_false] at hr
      rcases hr with rfl | rfl
      · obtain ⟨a, -, ha⟩ := hmatch.2
        rw [ha] at hlen
        exact hlen.symm
      · obtain ⟨a, -, ha⟩ := hmatch.2
        rw [ha] at hlen
        exact hlen.symm
  · have htake := mem_openComment.mp hmatch.2
    exact absurd (List.cons_eq_cons.mp htake).1 hslash
  · exact absurd (of_decide_eq_true hactive) hmode
  · exact absurd (of_decide_eq_true hactive) hmode

/-- White space is a lexeme without a token. -/
theorem yylex_blank (hmode : s.mode ≠ .comment) (hb : b ∈ blanks) :
    yylex s (b :: w) = (yylex s w).map fun p => (⟨[b], none⟩ :: p.1, p.2) := by
  have hblank : (blanks.all fun b => isBlank b || b = 10) = true := rfl
  have hrule : rule (.one fun a => isBlank a || a = 10) none ∈ rules :=
    List.mem_append_right _ List.mem_cons_self
  obtain ⟨r, n, hchoose, hn⟩ := exists_choose hrule
    ((Rule.longest_of_active (active_none hmode)).trans
      (longest_one (w := w) (List.all_eq_true.mp hblank b hb)))
  obtain ⟨rfl, hr⟩ := single_cases hmode (List.mem_append_left signs hb) hchoose hn
  rcases hr with rfl | hr
  · have hmem : [b] ∈ byteRule.whole.language := (choose_mem hchoose).2.2.1.2
    have hnot := List.all_eq_true.mp byteRule_first b hb
    rw [first_of_mem hmem] at hnot
    cases hnot
  · simp only [everythingElse, List.mem_cons, List.not_mem_nil, or_false] at hr
    rcases hr with rfl | rfl
    · exact yylex_of_choose (u := [b]) (List.cons_ne_nil b []) hchoose rfl rfl rfl
    · exact yylex_of_choose (u := [b]) (List.cons_ne_nil b []) hchoose rfl rfl rfl

theorem rules_byteRule : ∃ before behind, rules = before ++ byteRule :: behind ∧
    ∀ q ∈ before, (∃ k ∈ keywords ++ booleans, q = k.rule) ∨ q ∈ otherRules := by
  have hoperators : operators = byteRule :: operators.tail := rfl
  refine ⟨keywords.map Keyword.rule ++ numbers ++ booleans.map Keyword.rule ++ strings ++
    bitStrings, operators.tail ++ functions ++ [nameRule] ++ quotedNames ++ lineComments ++
      [openComment, closeComment, inComment] ++ everythingElse, ?_, ?_⟩
  · unfold rules
    rw [hoperators]
    simp only [List.append_assoc, List.cons_append, List.tail_cons]
  · intro q hq
    simp only [List.mem_append, List.mem_map] at hq
    unfold otherRules
    simp only [List.mem_append]
    rcases hq with (((⟨k, hk, rfl⟩ | hq) | ⟨k, hk, rfl⟩) | hq) | hq
    · exact .inl ⟨k, .inl hk, rfl⟩
    · exact .inr (by tauto)
    · exact .inl ⟨k, .inr hk, rfl⟩
    · exact .inr (by tauto)
    · exact .inr (by tauto)

/-- A sign is returned as it is. -/
theorem yylex_sign (hmode : s.mode ≠ .comment) (hc : c ∈ signs) :
    yylex s (c :: w) = (yylex s w).map fun p => (⟨[c], some (.code c)⟩ :: p.1, p.2) := by
  have hsigns : (signs.all fun c => (bytes "-+&~|^/%*(),.;!").contains c) = true := rfl
  have hlongest : byteRule.longest s (c :: w) = some 1 :=
    (Rule.longest_of_active (active_none hmode)).trans
      (longest_one (List.all_eq_true.mp hsigns c hc))
  have hsingle := List.mem_append_right blanks hc
  obtain ⟨before, behind, hrules, hbefore⟩ := rules_byteRule
  have hrule : byteRule ∈ rules := by
    rw [hrules]
    exact List.mem_append_right _ List.mem_cons_self
  obtain ⟨r, n, hchoose, hn⟩ := exists_choose hrule hlongest
  obtain ⟨rfl, -⟩ := single_cases hmode hsingle hchoose hn
  have hnone : before.find? (fun q => q.longest s (c :: w) = some 1) = none := by
    apply find?_eq_none_of_lt
    intro q hq m hm
    by_contra hle
    have hpos : 0 < m := Nat.le_of_not_lt hle
    have hmatch := (longest_isGreatest (Rule.longest_eq_some_iff.mp hm).2).1
    have hnot := List.all_eq_true.mp otherRules_first c hsingle
    simp only [Bool.and_eq_true, Bool.not_eq_true', List.all_eq_true] at hnot
    rcases hbefore q hq with ⟨k, hk, rfl⟩ | hq
    · exact not_keyword hk hnot.1.1 hpos hmatch
    · have hzero := longest_of_first (hnot.2 q hq) (Rule.longest_eq_some_iff.mp hm).2
      omega
  have hfind := (choose_spec hchoose).2
  rw [hrules, List.find?_append, hnone, Option.none_or, List.find?_cons,
    decide_eq_true hlongest] at hfind
  cases hfind
  exact yylex_of_choose (u := [c]) (List.cons_ne_nil c []) hchoose rfl rfl rfl

/-- Nothing but the last rule takes the byte 255. -/
theorem strange_first : (statelessRules.all fun r => !r.whole.first 255) = true := by
  decide +kernel

/-- The byte that an aggregate puts back is a mystery character. -/
theorem yylex_strange (hmode : s.mode ≠ .comment) :
    yylex s [255] = some ([⟨[255], none⟩], s) := by
  have hrule : rule dot none ∈ rules := by simp [rules, everythingElse]
  obtain ⟨r, n, hchoose, hn⟩ := exists_choose hrule
    ((Rule.longest_of_active (active_none hmode)).trans (longest_one (a := 255) (w := []) rfl))
  obtain ⟨hr, hactive, hmatch, -⟩ := choose_mem hchoose
  obtain rfl : n = 1 := Nat.le_antisymm hmatch.1 hn
  have hmem : [255] ∈ r.whole.language := hmatch.2
  have hfirst := first_of_mem hmem
  rcases rules_cases hr with ⟨k, hk, rfl⟩ | hr | rfl | rfl | rfl
  · exact absurd hmatch (not_keyword hk (by decide) Nat.one_pos)
  · rcases List.mem_append.mp hr with hr | hr
    · have hnot := List.all_eq_true.mp strange_first r hr
      rw [hfirst] at hnot
      cases hnot
    · simp only [everythingElse, List.mem_cons, List.not_mem_nil, or_false] at hr
      rcases hr with rfl | rfl
      · cases hfirst
      · have h :=
          yylex_of_choose (u := [255]) (v := []) (List.cons_ne_nil 255 []) hchoose rfl rfl rfl
        rwa [yylex_nil hmode] at h
  · cases mem_openComment.mp hmem
  · exact absurd (of_decide_eq_true hactive) hmode
  · exact absurd (of_decide_eq_true hactive) hmode

/-- What a word leaves gives the tokens of the rest. -/
theorem yylex_wordLeft (hmode : s.mode ≠ .comment) (u v : Text) :
    ∃ extra : List (Lexeme UInt8 Returned), (∀ l ∈ extra, l.token = none) ∧
      yylex s (wordLeft u v) = (yylex s v).map fun p => (extra ++ p.1, p.2) := by
  unfold wordLeft
  split_ifs with h
  · refine ⟨[⟨[255], none⟩], List.forall_mem_singleton.mpr rfl, ?_⟩
    rw [h.1, yylex_nil hmode, yylex_strange hmode]
    rfl
  · refine ⟨[], nofun, ?_⟩
    cases yylex s v <;> rfl

end Single

section Written
variable {s : State} {items : List Item} {u rest : Text}

theorem wordToken_mode (hmode : s.mode ≠ .comment) (u rest : Text) :
    (wordToken s u rest).1.mode ≠ .comment := by
  unfold wordToken
  cases call u rest with
  | some t => exact hmode
  | none =>
    cases hk : (keywords ++ booleans).find? fun k => k.fits s u with
    | none => exact hmode
    | some k =>
      have hmem := List.mem_of_find?_eq_some hk
      change (k.begins.getD s.mode) ≠ .comment
      rcases keyword_marks k hmem with ⟨hbegins, -⟩ | ⟨hbegins, -⟩ | ⟨hbegins, -⟩ <;> rw [hbegins]
      · exact hmode
      · exact nofun
      · exact nofun

/-- A word ends where another item begins. -/
theorem ends_written {u : Text} (hsep : Separated (.word u :: items)) (hok : ∀ i ∈ items, i.Ok) :
    Ends (written items) := by
  have hsingle : ((blanks ++ signs).all fun b => !isNameByte b && (b != 39)) = true := rfl
  have hends {b : UInt8} (hb : b ∈ blanks ++ signs) : isNameByte b = false ∧ b ≠ 39 := by
    simpa using List.all_eq_true.mp hsingle b hb
  cases items with
  | nil => nofun
  | cons i items =>
    have hi := hok i List.mem_cons_self
    cases i with
    | word v => exact hsep.elim
    | blank b =>
      intro a ha
      cases ha
      exact hends (List.mem_append_left signs hi)
    | comment v =>
      intro a ha
      cases ha
      decide
    | sign c =>
      intro a ha
      cases ha
      exact hends (List.mem_append_right blanks hi)

theorem separated_of_cons {i : Item} (h : Separated (i :: items)) : Separated items := by
  cases i with
  | word u =>
    cases items with
    | nil => exact h
    | cons j items =>
      cases j with
      | word v => exact h.elim
      | blank b => exact h
      | comment v => exact h
      | sign c => exact h
  | blank b => exact h
  | comment u => exact h
  | sign c => exact h

/-- What is written from items gives their tokens back. -/
theorem written_scanned (hmode : s.mode ≠ .comment) (hok : ∀ i ∈ items, i.Ok)
    (hsep : Separated items) : ∃ ls, yylex s (written items) = some (ls, (tokensOf s items).2) ∧
      ls.filterMap Lexeme.token = (tokensOf s items).1 := by
  induction items generalizing s with
  | nil => exact ⟨[], yylex_nil hmode, rfl⟩
  | cons i items ih =>
    obtain ⟨hi, hitems⟩ := List.forall_mem_cons.mp hok
    have hrest := separated_of_cons hsep
    cases i with
    | word u =>
      have hnext := wordToken_mode hmode u (written items)
      obtain ⟨ls, hls, htokens⟩ := ih hnext hitems hrest
      obtain ⟨extra, hextra, hleft⟩ := yylex_wordLeft hnext u (written items)
      have htext : written (.word u :: items) = u ++ written items := rfl
      refine ⟨⟨u, some (wordToken s u (written items)).2⟩ :: (extra ++ ls), ?_, ?_⟩
      · rw [htext, yylex_word hmode hi (ends_written hsep hitems), hleft, hls]
        rfl
      · rw [List.filterMap_cons, List.filterMap_append, List.filterMap_eq_nil_iff.mpr hextra,
          List.nil_append, htokens]
        rfl
    | blank b =>
      obtain ⟨ls, hls, htokens⟩ := ih hmode hitems hrest
      have htext : written (.blank b :: items) = b :: written items := rfl
      refine ⟨⟨[b], none⟩ :: ls, ?_, htokens⟩
      rw [htext, yylex_blank hmode hi, hls]
      rfl
    | comment u =>
      obtain ⟨ls, hls, htokens⟩ := ih (s := ⟨s.mode, s.mode⟩) hmode hitems hrest
      obtain ⟨cs, hcs, hscan⟩ := yylex_comment (w := written items) hmode hi
      have htext : written (.comment u :: items) =
          47 :: 42 :: (u ++ 42 :: 47 :: written items) := by
        simp [written, Item.text]
      refine ⟨cs ++ ls, ?_, ?_⟩
      · rw [htext, hscan, hls]
        rfl
      · rw [List.filterMap_append, List.filterMap_eq_nil_iff.mpr hcs, List.nil_append, htokens]
        rfl
    | sign c =>
      obtain ⟨ls, hls, htokens⟩ := ih hmode hitems hrest
      have htext : written (.sign c :: items) = c :: written items := rfl
      refine ⟨⟨[c], some (.code c)⟩ :: ls, ?_, ?_⟩
      · rw [htext, yylex_sign hmode hi, hls]
        rfl
      · exact congrArg (List.cons _) htokens

/-- `count(*)/*between*/ and` -/
def countAnd : List Item :=
  [.word (bytes "count"), .sign 40, .sign 42, .sign 41, .comment (bytes "between"), .blank 32,
    .word (bytes "and")]

theorem written_scanned_countAnd : ∃ ls, yylex start (written countAnd) =
    some (ls, (tokensOf start countAnd).2) ∧ ls.filterMap Lexeme.token =
      [.token .FCOUNT, .code 40, .code 42, .code 41, .token .ANDOP] := by
  obtain ⟨hok, htokens⟩ : (∀ i ∈ countAnd, i.Ok) ∧ (tokensOf start countAnd).1 =
      [.token .FCOUNT, .code 40, .code 42, .code 41, .token .ANDOP] := by decide +kernel
  obtain ⟨ls, hls, hscanned⟩ := written_scanned (s := start) (by decide) hok trivial
  exact ⟨ls, hls, hscanned.trans htokens⟩

end Written

section Total
variable {s t : State} {w : Text} {texts : List Text} {ls : List (Lexeme UInt8 Returned)}

/-- The lexemes are the bytes of the text. Where it ends in the name of an aggregate, the byte that
the action puts back is a lexeme behind them. -/
def Covers (text : Text) (ls : List (Lexeme UInt8 Returned)) : Prop :=
  (ls.map Lexeme.text).flatten = text ∨
    ∃ init u, ls = init ++ [⟨u, some (.token .NAME)⟩, ⟨[255], none⟩] ∧
      aggregates.any (fun c => Spells u c.1) = true ∧ (init.map Lexeme.text).flatten ++ u = text

theorem Covers.cons {text rest : Text} {token : Option Returned} (h : Covers rest ls) :
    Covers (text ++ rest) (⟨text, token⟩ :: ls) := by
  rcases h with hflat | ⟨init, u, rfl, hu, hflat⟩
  · left
    rw [List.map_cons, List.flatten_cons, hflat]
  · refine .inr ⟨⟨text, token⟩ :: init, u, rfl, hu, ?_⟩
    rw [List.map_cons, List.flatten_cons, List.append_assoc, hflat]

end Total
end Scanner
end Mosito
