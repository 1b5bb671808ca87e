import Mosito.Sql.Scanner
import Mathlib

/-! What the scanner makes of a word. A keyword, a function in front of a parenthesis and a name
look alike to it. -/
namespace Mosito
open Lexer Pattern
namespace Scanner

section Bytes
variable {a b : UInt8}

theorem isLetter_lower (a : UInt8) : isLetter (lower a) = isLetter a := by
  unfold isLetter lower
  grind

theorem isNameByte_lower (a : UInt8) : isNameByte (lower a) = isNameByte a := by
  unfold isNameByte isDigit isLetter lower
  grind

theorem isNameByte_of_isLetter (h : isLetter a = true) : isNameByte a = true := by
  unfold isNameByte
  rw [h, Bool.true_or, Bool.true_or]

theorem lower_of_not_isLetter (h : isLetter a = false) : lower a = a := by
  by_contra hne
  have hcapital : 65 ≤ a ∧ a ≤ 90 := by
    by_contra hn
    exact hne (if_neg hn)
  unfold isLetter lower at h
  rw [if_pos hcapital, Bool.and_eq_false_iff, decide_eq_false_iff_not,
    decide_eq_false_iff_not] at h
  grind

theorem isLetter_congr (h : lower a = lower b) : isLetter a = isLetter b := by
  rw [← isLetter_lower a, h, isLetter_lower]

theorem eq_of_lower (hb : isLetter b = false) (h : lower a = lower b) : a = b := by
  rw [← lower_of_not_isLetter hb, ← h, lower_of_not_isLetter (isLetter_congr h ▸ hb)]

theorem isNameByte_congr (h : lower a = lower b) : isNameByte a = isNameByte b := by
  rw [← isNameByte_lower a, h, isNameByte_lower]

end Bytes

/-- The text is the word `s`, in capital or small letters. -/
def Spells (u : Text) (s : String) : Prop := u.map lower = (bytes s).map lower

instance (u : Text) (s : String) : Decidable (Spells u s) :=
  inferInstanceAs (Decidable (_ = _))

section Language
variable {u : Text} {s : String} {ss : List String} {k : Keyword} {a c : UInt8}

theorem mem_byte : u ∈ (byte c).language ↔ ∃ a, lower a = lower c ∧ u = [a] := by
  constructor
  · rintro ⟨a, ha, rfl⟩
    exact ⟨a, of_decide_eq_true ha, rfl⟩
  · rintro ⟨a, ha, rfl⟩
    exact ⟨a, decide_eq_true ha, rfl⟩

theorem mem_word : u ∈ (word s).language ↔ Spells u s := by
  unfold word Spells
  induction bytes s generalizing u with
  | nil => simp [language]
  | cons c cs ih =>
    rw [List.map_cons, List.foldr_cons, language, Language.mem_mul]
    constructor
    · rintro ⟨v, hv, w, hw, rfl⟩
      obtain ⟨a, ha, rfl⟩ := mem_byte.mp hv
      rw [List.singleton_append, List.map_cons, List.map_cons, ha, ih.mp hw]
    · intro h
      obtain ⟨a, w, rfl, ha, hw⟩ := List.map_eq_cons_iff.mp h
      exact ⟨[a], mem_byte.mpr ⟨a, ha, rfl⟩, w, ih.mpr hw, rfl⟩

/-- What is spelled without letters is spelled in one way. -/
theorem spells_iff (hs : (bytes s).all (fun b => !isLetter b) = true) :
    Spells u s ↔ u = bytes s := by
  have hs : ∀ b ∈ bytes s, isLetter b = false := by simpa using hs
  constructor
  · intro h
    have hu : ∀ a ∈ u, lower a = a := by
      intro a ha
      obtain ⟨b, hb, he⟩ := List.mem_map.mp (h ▸ List.mem_map_of_mem ha)
      exact lower_of_not_isLetter (isLetter_congr he ▸ hs b hb)
    have hid {v : Text} (hv : ∀ a ∈ v, lower a = a) : v.map lower = v :=
      (List.map_congr_left hv).trans (List.map_id' v)
    rw [← hid hu, h, hid fun b hb => lower_of_not_isLetter (hs b hb)]
  · rintro rfl
    rfl

theorem mem_words : u ∈ ((ss.map word).foldr Pattern.alt Pattern.empty).language ↔ ∃ s ∈ ss, Spells u s := by
  induction ss with
  | nil => simp [language]
  | cons s ss ih =>
    rw [List.map_cons, List.foldr_cons, language, Language.mem_add, mem_word, ih,
      List.exists_mem_cons_iff]

theorem within_word (hs : ∀ b ∈ bytes s, isNameByte b = true) : (word s).Within isNameByte := by
  intro v hv a ha
  obtain ⟨b, hb, he⟩ := List.mem_map.mp (mem_word.mp hv ▸ List.mem_map_of_mem ha)
  rw [← isNameByte_congr he, hs b hb]

theorem within_words (hss : ∀ s ∈ ss, ∀ b ∈ bytes s, isNameByte b = true) :
    ((ss.map word).foldr Pattern.alt Pattern.empty).Within isNameByte := by
  intro v hv
  obtain ⟨s, hs, hspells⟩ := mem_words.mp hv
  exact within_word (hss s hs) v (mem_word.mpr hspells)

end Language

/-- A letter with letters, digits and underscores behind it. -/
def IsWord : Text → Prop
  | [] => False
  | a :: u => isLetter a = true ∧ ∀ b ∈ u, isNameByte b = true

instance : DecidablePred IsWord
  | [] => isFalse id
  | _ :: _ => inferInstanceAs (Decidable (_ ∧ _))

/-- A word is at its end here, and no string begins. -/
def Ends (rest : Text) : Prop := ∀ a ∈ rest.head?, isNameByte a = false ∧ a ≠ 39

/-- The functions with their spellings. -/
def calls : List (List String × Token) :=
  [(["SUBSTR", "SUBSTRING"], .FSUBSTRING), (["TRIM"], .FTRIM), (["DATE_ADD"], .FDATE_ADD),
    (["DATE_SUB"], .FDATE_SUB), (["UPPER"], .FUPPER), (["COALESCE"], .FCOALESCE),
    (["CAST"], .FCAST), (["CONVERT"], .FCONVERT)]

def aggregates : List (String × Token) :=
  [("COUNT", .FCOUNT), ("SUM", .FSUM), ("AVG", .FAVG), ("MIN", .FMIN), ("MAX", .FMAX)]

/-- The function of this name, in front of a parenthesis. -/
def call (u rest : Text) : Option Token :=
  if rest.head? = some 40 then (calls.find? fun c => c.1.any fun s => Spells u s).map Prod.snd
  else none

def aggregateOf (u rest : Text) : Option Token :=
  if rest.head? = some 40 then (aggregates.find? fun c => Spells u c.1).map Prod.snd else none

/-- The keyword can be what is spelled `u`. -/
def Keyword.fits (k : Keyword) (s : State) (u : Text) : Bool :=
  State.active k.only s && k.words.any fun w => Spells u w

/-- What becomes of the word `u` in front of `rest`. -/
def wordToken (s : State) (u rest : Text) : State × Returned :=
  match call u rest, (keywords ++ booleans).find? fun k => k.fits s u with
  | some t, _ => (s, .token t)
  | none, some k => (s.begins k.begins, k.token)
  | none, none => (s, .token ((aggregateOf u rest).getD .NAME))

/-- What the word `u` in front of `rest` leaves to scan. -/
def wordLeft (u rest : Text) : Text :=
  if rest = [] ∧ aggregates.any (fun c => Spells u c.1) = true then [255] else rest

section First
variable {a c : UInt8} {cs : Text} {s : String} {q : Pattern UInt8}

theorem isDigit_of_isLetter (h : isLetter a = true) : isDigit a = false := by
  unfold isLetter lower at h
  unfold isDigit
  grind

theorem byte_first (h : isLetter a = true) (hc : isLetter c = false) :
    (byte c).first a = false := by
  apply decide_eq_false
  intro he
  rw [isLetter_congr he, hc] at h
  cases h

theorem seq_byte_first (h : isLetter a = true) (hc : isLetter c = false) :
    (seq (byte c) q).first a = false := by
  unfold first
  rw [byte_first h hc]
  rfl

theorem word_first (h : isLetter a = true) (hs : bytes s = c :: cs) (hc : isLetter c = false) :
    (word s).first a = false := by
  unfold word
  rw [hs]
  exact seq_byte_first h hc

theorem atLineEnd_first (h : isLetter a = true) (hc : isLetter c = false) :
    (atLineEnd (rule (seq (byte c) q) none)).whole.first a = false := by
  unfold atLineEnd rule Rule.whole first
  rw [seq_byte_first h hc]
  rfl

theorem numbers_first (h : isLetter a = true) : ∀ r ∈ numbers, r.whole.first a = false := by
  have hdigits : digits.first a = false := by
    unfold digits plus first
    rw [first, isDigit_of_isLetter h]
    rfl
  have hseq {q : Pattern UInt8} : (seq digits q).first a = false := by
    rw [first, hdigits]
    rfl
  have hpoint {q : Pattern UInt8} : (seq (byte 46) q).first a = false := seq_byte_first h rfl
  simp only [numbers, List.forall_mem_cons]
  exact ⟨hdigits, hseq, hpoint, hseq, hseq, hpoint, nofun⟩

theorem strings_first (h : isLetter a = true) : ∀ r ∈ strings, r.whole.first a = false := by
  simp only [strings, List.forall_mem_cons]
  exact ⟨seq_byte_first h rfl, seq_byte_first h rfl, atLineEnd_first h rfl, atLineEnd_first h rfl,
    nofun⟩

theorem operators_first (h : isLetter a = true) : ∀ r ∈ operators, r.whole.first a = false := by
  have hone : (bytes "-+&~|^/%*(),.;!").contains a = false := by
    rw [List.contains_eq_mem, decide_eq_false_iff_not]
    intro ha
    have hnot : (bytes "-+&~|^/%*(),.;!").all (fun b => !isLetter b) = true := rfl
    have hletter := List.all_eq_true.mp hnot a ha
    rw [h] at hletter
    cases hletter
  simp only [operators, List.forall_mem_cons]
  exact ⟨hone, word_first h rfl rfl, word_first h rfl rfl, word_first h rfl rfl,
    word_first h rfl rfl, word_first h rfl rfl, word_first h rfl rfl, word_first h rfl rfl,
    word_first h rfl rfl, word_first h rfl rfl, word_first h rfl rfl, word_first h rfl rfl,
    word_first h rfl rfl, nofun⟩

theorem quotedNames_first (h : isLetter a = true) :
    ∀ r ∈ quotedNames, r.whole.first a = false := by
  simp only [quotedNames, List.forall_mem_cons]
  exact ⟨seq_byte_first h rfl, atLineEnd_first h rfl, seq_byte_first h rfl, seq_byte_first h rfl,
    seq_byte_first h rfl, seq_byte_first h rfl, atLineEnd_first h rfl, atLineEnd_first h rfl,
    atLineEnd_first h rfl, word_first h rfl rfl, nofun⟩

theorem comments_first (h : isLetter a = true) :
    ∀ r ∈ lineComments ++ [openComment], r.whole.first a = false := by
  simp only [lineComments, List.forall_mem_append, List.forall_mem_cons]
  refine ⟨⟨seq_byte_first h rfl, ?_, nofun⟩, word_first h rfl rfl, nofun⟩
  unfold rule Rule.whole first
  rw [word_first h rfl rfl]
  rfl

end First
section Word
variable {s : State} {u rest : Text} {r : ScannerRule} {n : ℕ}

theorem IsWord.pos (hu : IsWord u) : 0 < u.length := by
  cases u with
  | nil => exact hu.elim
  | cons a u => exact Nat.succ_pos _

theorem IsWord.forall_isNameByte (hu : IsWord u) : ∀ a ∈ u, isNameByte a = true := by
  cases u with
  | nil => exact hu.elim
  | cons a u => exact List.forall_mem_cons.mpr ⟨isNameByte_of_isLetter hu.1, hu.2⟩

theorem lt_of_first (hu : IsWord u) (h : ∀ a, isLetter a = true → r.whole.first a = false)
    (hl : r.longest s (u ++ rest) = some n) : n < u.length := by
  cases u with
  | nil => exact hu.elim
  | cons a u =>
    obtain rfl := longest_of_first (h a hu.1) (Rule.longest_eq_some_iff.mp hl).2
    exact Nat.succ_pos _

/-- A pattern with a quote at its second letter. -/
theorem lt_of_quote {c : UInt8} {p : Pattern UInt8} (hu : IsWord u) (hrest : Ends rest)
    (hl : (seq (byte c) (seq (byte 39) p)).longest (u ++ rest) = some n) : n < u.length := by
  obtain ⟨-, x, hx, y, ⟨z, hz, w, -, rfl⟩, he⟩ := (longest_isGreatest hl).1
  obtain ⟨a, -, rfl⟩ := mem_byte.mp hx
  obtain ⟨b, hb, rfl⟩ := mem_byte.mp hz
  obtain rfl := eq_of_lower (by decide) hb
  have hsplit : u ++ rest = a :: 39 :: (w ++ (u ++ rest).drop n) := by
    conv_lhs => rw [← List.take_append_drop n (u ++ rest), ← he]
    rfl
  have hquote : isNameByte 39 = false := by decide
  cases u with
  | nil => exact hu.elim
  | cons a' u =>
    obtain ⟨-, htail⟩ := List.cons_eq_cons.mp hsplit
    cases u with
    | nil =>
      rw [show rest = _ from htail] at hrest
      exact absurd rfl (hrest 39 rfl).2
    | cons b u =>
      obtain ⟨rfl, -⟩ := List.cons_eq_cons.mp htail
      rw [hu.2 39 List.mem_cons_self] at hquote
      cases hquote

theorem lt_of_mem_bitStrings (hu : IsWord u) (hrest : Ends rest) (hr : r ∈ bitStrings)
    (hl : r.longest s (u ++ rest) = some n) : n < u.length := by
  have hwhole := (Rule.longest_eq_some_iff.mp hl).2
  simp only [bitStrings, List.mem_cons, List.not_mem_nil, or_false] at hr
  rcases hr with rfl | rfl | rfl | rfl
  · exact lt_of_quote hu hrest hwhole
  · apply lt_of_first hu _ hl
    exact fun _ h => seq_byte_first h rfl
  · apply lt_of_first hu _ hl
    exact fun _ h => seq_byte_first h rfl
  · exact lt_of_quote hu hrest hwhole

/-- The rules that are in front of the functions and no keywords take less than the word. -/
theorem lt_of_mem (hu : IsWord u) (hrest : Ends rest)
    (hr : r ∈ numbers ++ strings ++ bitStrings ++ operators)
    (hl : r.longest s (u ++ rest) = some n) : n < u.length := by
  simp only [List.mem_append] at hr
  rcases hr with ((hr | hr) | hr) | hr
  · exact lt_of_first hu (fun _ h => numbers_first h r hr) hl
  · exact lt_of_first hu (fun _ h => strings_first h r hr) hl
  · exact lt_of_mem_bitStrings hu hrest hr hl
  · exact lt_of_first hu (fun _ h => operators_first h r hr) hl

/-- The rules behind those for names do not take more than the word. -/
theorem le_of_mem (hu : IsWord u) (hmode : s.mode ≠ .comment)
    (hr : r ∈ quotedNames ++ lineComments ++ [openComment, closeComment, inComment] ++
      everythingElse) (hl : r.longest s (u ++ rest) = some n) : n ≤ u.length := by
  have hcomment : ¬ State.active (some .comment) s = true := fun h => hmode (of_decide_eq_true h)
  obtain ⟨hactive, hwhole⟩ := Rule.longest_eq_some_iff.mp hl
  simp only [everythingElse, List.mem_append, List.mem_cons, List.not_mem_nil, or_false] at hr
  rcases hr with ((hr | hr) | rfl | rfl | rfl) | rfl | rfl
  · exact (lt_of_first hu (fun _ h => quotedNames_first h r hr) hl).le
  · exact (lt_of_first hu
      (fun _ h => comments_first h r (List.mem_append_left _ hr)) hl).le
  · exact (lt_of_first hu
      (fun _ h => comments_first h _ (List.mem_append_right _ List.mem_cons_self)) hl).le
  · exact absurd hactive hcomment
  · exact absurd hactive hcomment
  · refine (lt_of_first hu (fun a h => ?_) hl).le
    change (isBlank a || a = 10) = false
    unfold isLetter lower at h
    unfold isBlank
    grind
  · refine (longest_le_of_length (k := 1) ?_ hwhole).trans hu.pos
    rintro v ⟨a, -, rfl⟩
    exact le_rfl

theorem Ends.head (hrest : Ends rest) : ∀ a ∈ rest.head?, isNameByte a = false :=
  fun a ha => (hrest a ha).1

theorem keyword_bytes :
    ((keywords ++ booleans).all fun k => k.words.all fun w => (bytes w).all isNameByte) = true := by
  decide +kernel

section Keyword
variable {k : Keyword}

theorem within_keyword (hk : k ∈ keywords ++ booleans) : k.rule.whole.Within isNameByte := by
  apply within_words
  intro w hw
  exact List.all_eq_true.mp (List.all_eq_true.mp (List.all_eq_true.mp keyword_bytes k hk) w hw)

theorem Keyword.longest_le (hk : k ∈ keywords ++ booleans) (hrest : Ends rest)
    (hl : k.rule.longest s (u ++ rest) = some n) : n ≤ u.length :=
  (within_keyword hk).longest_le hrest.head (Rule.longest_eq_some_iff.mp hl).2

theorem Keyword.longest_iff (hk : k ∈ keywords ++ booleans) (hrest : Ends rest) :
    k.rule.longest s (u ++ rest) = some u.length ↔ k.fits s u = true := by
  rw [Rule.longest_eq_some_iff, (within_keyword hk).longest_eq_length hrest.head]
  unfold Keyword.fits
  rw [Bool.and_eq_true, List.any_eq_true]
  refine and_congr_right fun _ => mem_words.trans ?_
  simp only [decide_eq_true_eq]

theorem find?_keyword {ks : List Keyword} (hks : ∀ k ∈ ks, k ∈ keywords ++ booleans)
    (hrest : Ends rest) :
    (ks.map Keyword.rule).find? (fun r => r.longest s (u ++ rest) = some u.length) =
      (ks.find? fun k => k.fits s u).map Keyword.rule := by
  rw [List.find?_map]
  congr 1
  apply List.find?_congr
  intro k hk
  rw [Bool.eq_iff_iff, ← Keyword.longest_iff (hks k hk) hrest]
  simp

end Keyword

/-- The rule takes the spellings of `c` in front of a parenthesis. -/
def Calls (c : List String × Token) (r : ScannerRule) : Prop :=
  ∃ p, r = beforeParen p c.2 ∧ p.Within isNameByte ∧
    ∀ u, u ∈ p.language ↔ ∃ w ∈ c.1, Spells u w

theorem calls_word {w : String} (t : Token) (hw : (bytes w).all isNameByte = true) :
    Calls ([w], t) (beforeParen (word w) t) := by
  refine ⟨word w, rfl, within_word (List.all_eq_true.mp hw), fun u => ?_⟩
  rw [mem_word]
  simp

theorem calls_substring :
    Calls (["SUBSTR", "SUBSTRING"], .FSUBSTRING)
      (beforeParen (.seq (word "SUBSTR") (opt (word "ING"))) .FSUBSTRING) := by
  have hbytes : bytes "SUBSTRING" = bytes "SUBSTR" ++ bytes "ING" := rfl
  have hlong (v : Text) : Spells v "SUBSTRING" ↔
      ∃ x y, v = x ++ y ∧ Spells x "SUBSTR" ∧ Spells y "ING" := by
    unfold Spells
    rw [hbytes, List.map_append, List.map_eq_append_iff]
  have hmem (v : Text) : v ∈ (seq (word "SUBSTR") (opt (word "ING"))).language ↔
      ∃ w ∈ ["SUBSTR", "SUBSTRING"], Spells v w := by
    rw [language, Language.mem_mul, List.exists_mem_cons_iff, List.exists_mem_cons_iff, hlong]
    constructor
    · rintro ⟨x, hx, y, hy | hy, rfl⟩
      · obtain rfl := (Language.mem_one y).mp hy
        rw [List.append_nil]
        exact .inl (mem_word.mp hx)
      · exact .inr (.inl ⟨x, y, rfl, mem_word.mp hx, mem_word.mp hy⟩)
    · rintro (hv | ⟨x, y, rfl, hx, hy⟩ | hv)
      · exact ⟨v, mem_word.mpr hv, [], .inl Language.nil_mem_one, List.append_nil v⟩
      · exact ⟨x, mem_word.mpr hx, y, .inr (mem_word.mpr hy), rfl⟩
      · simp at hv
  refine ⟨_, rfl, fun v hv => ?_, hmem⟩
  have hnames : (["SUBSTR", "SUBSTRING"].all fun w => (bytes w).all isNameByte) = true := rfl
  obtain ⟨w, hw, hspells⟩ := (hmem v).mp hv
  have hname := List.all_eq_true.mp (List.all_eq_true.mp hnames w hw)
  exact within_word hname v (mem_word.mpr hspells)

theorem calls_functions : List.Forall₂ Calls calls (functions.take 8) :=
  .cons calls_substring (.cons (calls_word _ rfl) (.cons (calls_word _ rfl)
    (.cons (calls_word _ rfl) (.cons (calls_word _ rfl) (.cons (calls_word _ rfl)
      (.cons (calls_word _ rfl) (.cons (calls_word _ rfl) .nil)))))))

theorem calls_of_mem (hr : r ∈ functions.take 8) : ∃ c, Calls c r := by
  obtain ⟨i, hi, rfl⟩ := List.mem_iff_getElem.mp hr
  exact ⟨_, calls_functions.get (calls_functions.length_eq ▸ hi) hi⟩

theorem Calls.longest_iff {c : List String × Token} (h : Calls c r) (hmode : s.mode ≠ .comment)
    (hu : IsWord u) (hrest : Ends rest) : r.longest s (u ++ rest) = some n ↔
      n = u.length + 1 ∧ (∃ w ∈ c.1, Spells u w) ∧ rest.head? = some 40 := by
  obtain ⟨p, rfl, hwithin, hmem⟩ := h
  have hparen (a : UInt8) (ha : decide (a = 40) = true) : isNameByte a = false := by
    rw [of_decide_eq_true ha]
    decide
  rw [Rule.longest_of_active (show State.active none s = true from decide_eq_true hmode)]
  refine (hwithin.longest_seq_one hparen hu.forall_isNameByte hrest.head).trans ?_
  simp [hmem]

theorem find?_call (hmode : s.mode ≠ .comment) (hu : IsWord u) (hrest : Ends rest) :
    Option.Rel (fun t r => ∃ p, r = beforeParen p t) (call u rest)
      ((functions.take 8).find? fun r => r.longest s (u ++ rest) = some (u.length + 1)) := by
  have hfind {cs : List (List String × Token)} {rs : List ScannerRule}
      (h : List.Forall₂ Calls cs rs) : Option.Rel (fun t r => ∃ p, r = beforeParen p t)
        (if rest.head? = some 40 then
          (cs.find? fun c => c.1.any fun w => Spells u w).map Prod.snd else none)
        (rs.find? fun r => r.longest s (u ++ rest) = some (u.length + 1)) := by
    induction h with
    | nil =>
      split_ifs <;> exact .none
    | @cons c r cs rs hcall _ ih =>
      have hiff := hcall.longest_iff (n := u.length + 1) hmode hu hrest
      rw [List.find?_cons, List.find?_cons]
      by_cases hmatch : r.longest s (u ++ rest) = some (u.length + 1)
      · obtain ⟨-, ⟨w, hw, hspells⟩, hparen⟩ := hiff.mp hmatch
        obtain ⟨p, hp, -⟩ := hcall
        have hany : (c.1.any fun w => decide (Spells u w)) = true :=
          List.any_eq_true.mpr ⟨w, hw, decide_eq_true hspells⟩
        rw [decide_eq_true hmatch, if_pos hparen, hany]
        exact .some ⟨p, hp⟩
      · rw [decide_eq_false hmatch]
        by_cases hparen : rest.head? = some 40
        · have hany : (c.1.any fun w => decide (Spells u w)) = false := by
            apply Bool.eq_false_iff.mpr
            intro hany
            obtain ⟨w, hw, hspells⟩ := List.any_eq_true.mp hany
            exact hmatch (hiff.mpr ⟨rfl, ⟨w, hw, of_decide_eq_true hspells⟩, hparen⟩)
          rw [hany]
          exact ih
        · rw [if_neg hparen] at ih ⊢
          exact ih
  exact hfind calls_functions

theorem functions_eq : functions =
    functions.take 8 ++ aggregates.map fun c => aggregate c.1 c.2 := rfl

section Aggregate

theorem aggregate_bytes : (aggregates.all fun c => (bytes c.1).all isNameByte) = true := rfl

variable {c : String × Token}

theorem aggregate_longest_le (hc : c ∈ aggregates) (hrest : Ends rest)
    (hl : (aggregate c.1 c.2).longest s (u ++ rest) = some n) : n ≤ u.length := by
  have hwithin := within_word (List.all_eq_true.mp (List.all_eq_true.mp aggregate_bytes c hc))
  exact hwithin.longest_le hrest.head (Rule.longest_eq_some_iff.mp hl).2

theorem aggregate_longest_iff (hc : c ∈ aggregates) (hmode : s.mode ≠ .comment)
    (hrest : Ends rest) :
    (aggregate c.1 c.2).longest s (u ++ rest) = some u.length ↔ Spells u c.1 := by
  have hwithin := within_word (List.all_eq_true.mp (List.all_eq_true.mp aggregate_bytes c hc))
  rw [Rule.longest_of_active (show State.active none s = true from decide_eq_true hmode)]
  exact (hwithin.longest_eq_length hrest.head).trans mem_word

theorem find?_aggregate (hmode : s.mode ≠ .comment) (hrest : Ends rest) :
    (aggregates.map fun c => aggregate c.1 c.2).find?
        (fun r => r.longest s (u ++ rest) = some u.length) =
      (aggregates.find? fun c => Spells u c.1).map fun c => aggregate c.1 c.2 := by
  rw [List.find?_map]
  congr 1
  apply List.find?_congr
  intro c hc
  rw [Bool.eq_iff_iff, Function.comp_apply, decide_eq_true_iff, decide_eq_true_iff]
  exact aggregate_longest_iff hc hmode hrest

end Aggregate

theorem within_name : nameRule.whole.Within isNameByte := by
  rintro v ⟨x, ⟨a, ha, rfl⟩, y, hy, rfl⟩ b hb
  rcases List.mem_cons.mp hb with rfl | hb
  · exact isNameByte_of_isLetter ha
  · exact mem_star_one.mp hy b hb

theorem name_longest (hmode : s.mode ≠ .comment) (hu : IsWord u) (hrest : Ends rest) :
    nameRule.longest s (u ++ rest) = some u.length := by
  rw [Rule.longest_of_active (show State.active none s = true from decide_eq_true hmode),
    within_name.longest_eq_length hrest.head]
  cases u with
  | nil => exact hu.elim
  | cons a u => exact ⟨[a], ⟨a, hu.1, rfl⟩, u, mem_star_one.mpr hu.2, rfl⟩

/-- The rules behind the one for names. -/
def behindNames : List ScannerRule :=
  quotedNames ++ lineComments ++ [openComment, closeComment, inComment] ++ everythingElse

theorem rules_eq : rules = keywords.map Keyword.rule ++ (numbers ++ (booleans.map Keyword.rule ++
    ((strings ++ bitStrings ++ operators) ++ (functions.take 8 ++
      ((aggregates.map fun c => aggregate c.1 c.2) ++ (nameRule :: behindNames)))))) := by
  have h : functions ++ (nameRule :: behindNames) = functions.take 8 ++
      ((aggregates.map fun c => aggregate c.1 c.2) ++ (nameRule :: behindNames)) := by
    rw [← List.append_assoc, ← functions_eq]
  rw [← h]
  unfold rules behindNames
  simp only [List.append_assoc, List.cons_append, List.nil_append]

/-- Only a function in front of a parenthesis takes more than the word. -/
theorem longest_bound (hmode : s.mode ≠ .comment) (hu : IsWord u) (hrest : Ends rest)
    (hr : r ∈ rules) (hl : r.longest s (u ++ rest) = some n) :
    n ≤ u.length ∨ n = u.length + 1 ∧ call u rest ≠ none := by
  have hkeyword {ks : List Keyword} (hks : ∀ k ∈ ks, k ∈ keywords ++ booleans)
      (hr : r ∈ ks.map Keyword.rule) : n ≤ u.length := by
    obtain ⟨k, hk, rfl⟩ := List.mem_map.mp hr
    exact k.longest_le (hks k hk) hrest hl
  rw [rules_eq] at hr
  rcases List.mem_append.mp hr with hr | hr
  · exact .inl (hkeyword (fun k hk => List.mem_append_left _ hk) hr)
  rcases List.mem_append.mp hr with hr | hr
  · exact .inl (lt_of_mem hu hrest (by simp [hr]) hl).le
  rcases List.mem_append.mp hr with hr | hr
  · exact .inl (hkeyword (fun k hk => List.mem_append_right _ hk) hr)
  rcases List.mem_append.mp hr with hr | hr
  · refine .inl (lt_of_mem hu hrest ?_ hl).le
    rw [List.append_assoc, List.append_assoc, ← List.append_assoc strings]
    exact List.mem_append_right _ hr
  rcases List.mem_append.mp hr with hr | hr
  · obtain ⟨c, hcalls⟩ := calls_of_mem hr
    obtain ⟨rfl, -⟩ := (hcalls.longest_iff hmode hu hrest).mp hl
    refine .inr ⟨rfl, fun hnone => ?_⟩
    have hrel := find?_call hmode hu hrest
    rw [hnone] at hrel
    cases hfind : (functions.take 8).find? fun r =>
      r.longest s (u ++ rest) = some (u.length + 1) with
    | none => exact List.find?_eq_none.mp hfind r hr (decide_eq_true hl)
    | some r' =>
      rw [hfind] at hrel
      cases hrel
  rcases List.mem_append.mp hr with hr | hr
  · obtain ⟨c, hc, rfl⟩ := List.mem_map.mp hr
    exact .inl (aggregate_longest_le hc hrest hl)
  rcases List.mem_cons.mp hr with rfl | hr
  · exact .inl (within_name.longest_le hrest.head (Rule.longest_eq_some_iff.mp hl).2)
  · exact .inl (le_of_mem hu hmode hr hl)

theorem find?_keyword_succ {ks : List Keyword} (hks : ∀ k ∈ ks, k ∈ keywords ++ booleans)
    (hrest : Ends rest) :
    (ks.map Keyword.rule).find? (fun r => r.longest s (u ++ rest) = some (u.length + 1)) =
      none := by
  apply find?_eq_none_of_lt
  intro r hr m hm
  obtain ⟨k, hk, rfl⟩ := List.mem_map.mp hr
  exact Nat.lt_succ_of_le (k.longest_le (hks k hk) hrest hm)

/-- The rules that take the word. -/
theorem find?_rules (hu : IsWord u) (hrest : Ends rest) (hn : u.length ≤ n) :
    rules.find? (fun r => r.longest s (u ++ rest) = some n) =
      ((keywords.map Keyword.rule).find? fun r => r.longest s (u ++ rest) = some n).or
        (((booleans.map Keyword.rule).find? fun r => r.longest s (u ++ rest) = some n).or
          (((functions.take 8).find? fun r => r.longest s (u ++ rest) = some n).or
            (((aggregates.map fun c => aggregate c.1 c.2).find? fun r =>
              r.longest s (u ++ rest) = some n).or
                ((nameRule :: behindNames).find? fun r =>
                  r.longest s (u ++ rest) = some n)))) := by
  have hnumbers : numbers.find? (fun r => r.longest s (u ++ rest) = some n) = none := by
    apply find?_eq_none_of_lt
    exact fun r hr m hm => (lt_of_mem hu hrest (by simp [hr]) hm).trans_le hn
  have hbetween : (strings ++ bitStrings ++ operators).find?
      (fun r => r.longest s (u ++ rest) = some n) = none := by
    apply find?_eq_none_of_lt
    intro r hr m hm
    refine (lt_of_mem hu hrest ?_ hm).trans_le hn
    rw [List.append_assoc, List.append_assoc, ← List.append_assoc strings]
    exact List.mem_append_right _ hr
  rw [rules_eq, List.find?_append, List.find?_append, hnumbers, Option.none_or,
    List.find?_append, List.find?_append, hbetween, Option.none_or, List.find?_append,
    List.find?_append]

/-- No keyword is spelled like an aggregate. -/
theorem keyword_not_aggregate : ((keywords ++ booleans).all fun k => k.words.all fun w =>
    aggregates.all fun c => (bytes w).map lower != (bytes c.1).map lower) = true := by
  decide +kernel

theorem wordLeft_of_keyword {k : Keyword} (hk : k ∈ keywords ++ booleans)
    (hfits : k.fits s u = true) : wordLeft u rest = rest := by
  obtain ⟨w, hw, hspells⟩ := List.any_eq_true.mp (Bool.and_eq_true_iff.mp hfits).2
  have hno : ¬ aggregates.any (fun c => Spells u c.1) = true := by
    intro hany
    obtain ⟨c, hc, hspells'⟩ := List.any_eq_true.mp hany
    have hne := List.all_eq_true.mp (List.all_eq_true.mp
      (List.all_eq_true.mp keyword_not_aggregate k hk) w hw) c hc
    rw [bne_iff_ne] at hne
    exact hne ((of_decide_eq_true hspells).symm.trans (of_decide_eq_true hspells'))
  rw [wordLeft, if_neg fun h => hno h.2]

/-- The whole word is taken, what becomes of it, and what is left. -/
theorem word_chosen (hmode : s.mode ≠ .comment) (hu : IsWord u) (hrest : Ends rest) :
    ∃ r n, choose rules s (u ++ rest) = some (r, n) ∧ r.taken n = u.length ∧
      r.action s u rest = ((wordToken s u rest).1, some (wordToken s u rest).2) ∧
      r.left rest = wordLeft u rest := by
  have hkeywords : ∀ k ∈ keywords, k ∈ keywords ++ booleans :=
    fun k hk => List.mem_append_left _ hk
  have hbooleans : ∀ k ∈ booleans, k ∈ keywords ++ booleans :=
    fun k hk => List.mem_append_right _ hk
  unfold wordToken
  cases hcall : call u rest with
  | some t =>
    have hrel := find?_call hmode hu hrest
    rw [hcall] at hrel
    cases hfind : (functions.take 8).find? fun r =>
      r.longest s (u ++ rest) = some (u.length + 1) with
    | none =>
      rw [hfind] at hrel
      cases hrel
    | some r =>
      rw [hfind] at hrel
      obtain ⟨p, rfl⟩ : ∃ p, r = beforeParen p t := by
        cases hrel with
        | some h => exact h
      use beforeParen p t, u.length + 1
      have hparen : rest ≠ [] := by
        rintro rfl
        cases hcall
      refine ⟨choose_eq_some_iff.mpr ⟨fun q hq m hm => ?_, ?_⟩, rfl, rfl, ?_⟩
      · rcases longest_bound hmode hu hrest hq hm with hle | ⟨rfl, -⟩
        · exact Nat.le_succ_of_le hle
        · exact le_rfl
      · rw [find?_rules hu hrest (Nat.le_succ _), find?_keyword_succ hkeywords hrest,
          find?_keyword_succ hbooleans hrest, hfind]
        rfl
      · rw [wordLeft, if_neg fun h => hparen h.1, Rule.left_of_ne_nil _ hparen]
  | none =>
    have hmax : ∀ q ∈ rules, ∀ m, q.longest s (u ++ rest) = some m → m ≤ u.length := by
      intro q hq m hm
      rcases longest_bound hmode hu hrest hq hm with hle | ⟨-, hne⟩
      · exact hle
      · exact absurd hcall hne
    have hcalls : (functions.take 8).find? (fun r =>
        r.longest s (u ++ rest) = some u.length) = none := by
      rw [List.find?_eq_none]
      intro r hr hlongest
      obtain ⟨c, hc⟩ := calls_of_mem hr
      have hlen := ((hc.longest_iff hmode hu hrest).mp (of_decide_eq_true hlongest)).1
      omega
    have hfind := find?_rules (s := s) hu hrest le_rfl
    rw [find?_keyword hkeywords hrest, find?_keyword hbooleans hrest, hcalls,
      find?_aggregate hmode hrest, Option.none_or, List.find?_cons,
      decide_eq_true (name_longest hmode hu hrest)] at hfind
    rw [List.find?_append]
    cases hk : keywords.find? fun k => k.fits s u with
    | some k =>
      rw [hk] at hfind
      have hleft : wordLeft u rest = rest := wordLeft_of_keyword
        (hkeywords k (List.mem_of_find?_eq_some hk))
        (List.find?_some (p := fun k : Keyword => k.fits s u) hk)
      exact ⟨k.rule, u.length, choose_eq_some_iff.mpr ⟨hmax, hfind⟩, rfl, rfl,
        (Rule.left_of_atEnd rfl rest).trans hleft.symm⟩
    | none =>
      cases hb : booleans.find? fun k => k.fits s u with
      | some k =>
        rw [hk, hb] at hfind
        have hleft : wordLeft u rest = rest := wordLeft_of_keyword
          (hbooleans k (List.mem_of_find?_eq_some hb))
          (List.find?_some (p := fun k : Keyword => k.fits s u) hb)
        exact ⟨k.rule, u.length, choose_eq_some_iff.mpr ⟨hmax, hfind⟩, rfl, rfl,
          (Rule.left_of_atEnd rfl rest).trans hleft.symm⟩
      | none =>
        rw [hk, hb] at hfind
        unfold aggregateOf
        cases ha : aggregates.find? fun c => Spells u c.1 with
        | some c =>
          rw [ha] at hfind
          use aggregate c.1 c.2, u.length
          refine ⟨choose_eq_some_iff.mpr ⟨hmax, hfind⟩, rfl, ?_, ?_⟩
          · unfold aggregate
            dsimp only
            split_ifs <;> rfl
          · have hany : aggregates.any (fun c => Spells u c.1) = true :=
              List.any_eq_true.mpr ⟨c, List.mem_of_find?_eq_some ha,
                List.find?_some (p := fun c : String × Token => Spells u c.1) ha⟩
            rw [wordLeft, hany]
            cases rest <;> rfl
        | none =>
          rw [ha] at hfind
          use nameRule, u.length
          refine ⟨choose_eq_some_iff.mpr ⟨hmax, hfind⟩, rfl, ?_, ?_⟩
          · split_ifs <;> rfl
          · have hany : aggregates.any (fun c => Spells u c.1) = false :=
              Bool.eq_false_iff.mpr fun hany => by
                obtain ⟨c, hc, hspells⟩ := List.any_eq_true.mp hany
                exact List.find?_eq_none.mp ha c hc hspells
            rw [wordLeft, hany, if_neg (by simp)]
            exact Rule.left_of_atEnd rfl rest

end Word
end Scanner
end Mosito
