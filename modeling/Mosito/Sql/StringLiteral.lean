import Mosito.Lib.ByteStore

/-! String literals. The scanner takes the text between the quotes unit by unit, and
`GetCorrectString` decodes it in a loop of its own that looks one byte ahead. -/
namespace Mosito
open ByteStore

/-- A byte of the scanned text, which is a C string. -/
abbrev TextByte := { c : UInt8 // c ≠ 0 }

namespace TextByte

def backslash : TextByte := ⟨92, by decide⟩
def letterN : TextByte := ⟨110, by decide⟩
def letterT : TextByte := ⟨116, by decide⟩
def newline : TextByte := ⟨10, by decide⟩
def tab : TextByte := ⟨9, by decide⟩
def singleQuote : TextByte := ⟨39, by decide⟩
def doubleQuote : TextByte := ⟨34, by decide⟩

end TextByte

namespace StringLiteral
open TextByte

/-- The two rules, for `'` and for `"`. -/
inductive Quote where
  | single
  | double
  deriving DecidableEq

def Quote.byte : Quote → TextByte
  | .single => singleQuote
  | .double => doubleQuote

/-- `\\.`, `''` and `[^'\n]`, and the same with the other quote. -/
inductive IsUnit (q : Quote) : List TextByte → Prop where
  | escape {c : TextByte} (hc : c ≠ newline) : IsUnit q [backslash, c]
  | doubled : IsUnit q [q.byte, q.byte]
  | single {c : TextByte} (hq : c ≠ q.byte) (hc : c ≠ newline) : IsUnit q [c]

/-- The bodies that the rule accepts. -/
inductive Body (q : Quote) : List TextByte → Prop where
  | nil : Body q []
  | cons {u v : List TextByte} (hu : IsUnit q u) (hv : Body q v) : Body q (u ++ v)

/-- `yytext` -/
def literal (q : Quote) (body : List TextByte) : List TextByte := q.byte :: body ++ [q.byte]

/-- What stands for a backslash and the byte after it, if that is one that the loop takes with it;
`last` tells that it is the last byte of the literal. -/
def escape (next : Option TextByte) (last : Bool) : Option TextByte :=
  if next = some letterN then some newline
  else if next = some letterT then some tab
  else if next = some singleQuote ∧ last = false then some singleQuote
  else if next = some doubleQuote ∧ last = false then some doubleQuote
  else none

/-- What the loop of `GetCorrectString` writes from `src[i]` on. -/
def loop (src : List TextByte) : ℕ → ℕ → List TextByte
  | 0, _ => []
  | fuel + 1, i =>
      if i < src.length - 1 then
        match src[i]? with
        | none => []
        | some c =>
            if c = backslash then
              match escape src[i + 1]? (i + 1 = src.length - 1) with
              | some e => e :: loop src fuel (i + 2)
              | none => c :: loop src fuel (i + 1)
            else c :: loop src fuel (i + 1)
      else []

def bytes (s : List TextByte) : List UInt8 := s.map Subtype.val

/-- `GetCorrectString(dest, src)` -/
def getCorrectString (dest : Memory) (src : List TextByte) : Memory :=
  writeAt dest 0 (bytes (loop src src.length 1) ++ [0])

/-- `strdup`, in a new block of the bytes of `s` and a NUL. -/
def strdup (junk : Memory) (s : List TextByte) : Memory := writeAt junk 0 (bytes s ++ [0])

/-- `yylval.strval` after the action of the rule. -/
def strval (junk : Memory) (yytext : List TextByte) : Memory :=
  getCorrectString (strdup junk yytext) yytext

/-- The decoded string. -/
def decode (q : Quote) (body : List TextByte) : List TextByte :=
  loop (literal q body) (literal q body).length 1

/-- The string at `yylval.strval` is the decoded one, no longer than the body; it ends with a NUL in
the block, and nothing is written behind the block. -/
structure Stored (junk : Memory) (q : Quote) (body : List TextByte) : Prop where
  length_le : (decode q body).length ≤ body.length
  string : readAt (strval junk (literal q body)) 0 ((decode q body).length + 1) =
    bytes (decode q body) ++ [0]
  inside : (decode q body).length < (literal q body).length + 1
  outside : ∀ i ≥ (literal q body).length + 1, strval junk (literal q body) i = junk i

/-- What the loop writes of the bytes that are left. -/
def decodeFrom : List TextByte → List TextByte
  | c :: d :: rest =>
      if c = backslash then
        match escape (some d) rest.isEmpty with
        | some e => e :: decodeFrom rest
        | none => c :: decodeFrom (d :: rest)
      else c :: decodeFrom (d :: rest)
  | _ => []

theorem loop_eq (src : List TextByte) {fuel i : ℕ} (hfuel : src.length ≤ fuel + i) :
    loop src fuel i = decodeFrom (src.drop i) := by
  induction fuel generalizing i with
  | zero =>
    rw [List.drop_eq_nil_of_le (by omega)]
    rfl
  | succ fuel ih =>
    unfold loop
    by_cases hi : i < src.length - 1
    · have hlt : i < src.length := by omega
      have hlt' : i + 1 < src.length := by omega
      have hlast : (src.drop (i + 2)).isEmpty = decide (i + 1 = src.length - 1) := by
        rw [Bool.eq_iff_iff, List.isEmpty_iff, List.drop_eq_nil_iff, decide_eq_true_iff]
        omega
      have hnext : src.drop (i + 1) = src[i + 1] :: src.drop (i + 2) :=
        List.drop_eq_getElem_cons hlt'
      rw [if_pos hi, List.drop_eq_getElem_cons hlt, hnext, decodeFrom, hlast,
        List.getElem?_eq_getElem hlt, List.getElem?_eq_getElem hlt']
      dsimp only
      rw [ih (i := i + 2) (by omega), ih (i := i + 1) (by omega), hnext]
    · rw [if_neg hi]
      have hshort : (src.drop i).length ≤ 1 := by
        rw [List.length_drop]
        omega
      match src.drop i, hshort with
      | [], _ => rfl
      | [_], _ => rfl

theorem decode_eq (q : Quote) (body : List TextByte) :
    decode q body = decodeFrom (body ++ [q.byte]) := by
  unfold decode
  rw [loop_eq _ (Nat.le_add_right _ 1)]
  rfl

section Decode
variable {u v rest : List TextByte} {c d e : TextByte} {q : Quote}

theorem decodeFrom_cons_of_ne (hc : c ≠ backslash) :
    decodeFrom (c :: d :: rest) = c :: decodeFrom (d :: rest) := if_neg hc

theorem decodeFrom_of_escape (he : escape (some d) rest.isEmpty = some e) :
    decodeFrom (backslash :: d :: rest) = e :: decodeFrom rest := by
  rw [decodeFrom, if_pos rfl, he]

theorem decodeFrom_of_not_escape (he : escape (some d) rest.isEmpty = none) :
    decodeFrom (backslash :: d :: rest) = backslash :: decodeFrom (d :: rest) := by
  rw [decodeFrom, if_pos rfl, he]

theorem escape_ne_backslash {last : Bool} (he : escape (some d) last = some e) :
    e ≠ backslash ∧ d ≠ backslash := by
  unfold escape at he
  split_ifs at he with hn ht hs hd
  · cases hn
    cases he
    decide
  · cases ht
    cases he
    decide
  · cases hs.1
    cases he
    decide
  · cases hd.1
    cases he
    decide

/-- The closing quote is not taken with a backslash in front of it. -/
theorem escape_quote (q : Quote) : escape (some q.byte) true = none := by
  cases q <;> decide

/-- What follows a backslash is taken with it. -/
def Taken (w : List TextByte) : Prop := ∃ e, escape w.head? w.tail.isEmpty = some e

/-- Two bytes in front of others are decoded one by one, or the second with the first. -/
theorem decodeFrom_cons_cons (c d : TextByte) (u : List TextByte) :
    (∀ w ≠ [], decodeFrom (c :: d :: u ++ w) = c :: decodeFrom (d :: u ++ w)) ∨
      ∃ e, d ≠ backslash ∧ ∀ w ≠ [], decodeFrom (c :: d :: u ++ w) = e :: decodeFrom (u ++ w) := by
  by_cases hc : c = backslash
  · subst hc
    have hmore (w : List TextByte) (hw : w ≠ []) : (u ++ w).isEmpty = false := by simp [hw]
    cases he : escape (some d) false with
    | none =>
      left
      intro w hw
      exact decodeFrom_of_not_escape ((congrArg (escape (some d)) (hmore w hw)).trans he)
    | some e =>
      right
      use e, (escape_ne_backslash he).2
      intro w hw
      exact decodeFrom_of_escape ((congrArg (escape (some d)) (hmore w hw)).trans he)
  · left
    exact fun w _ => decodeFrom_cons_of_ne hc

theorem decodeFrom_singleton_append_iff (c : TextByte) {w : List TextByte} (hw : w ≠ []) :
    decodeFrom ([c] ++ w) = c :: decodeFrom w ↔ ¬ (c = backslash ∧ Taken w) := by
  obtain ⟨d, rest, rfl⟩ := List.exists_cons_of_ne_nil hw
  change decodeFrom (c :: d :: rest) = _ ↔ _
  by_cases hc : c = backslash
  · subst hc
    cases he : escape (some d) rest.isEmpty with
    | none =>
      rw [decodeFrom_of_not_escape he]
      simp [Taken, he]
    | some e =>
      have hne := (escape_ne_backslash he).1
      rw [decodeFrom_of_escape he]
      simp [Taken, he, hne]
  · rw [decodeFrom_cons_of_ne hc]
    simp [hc]

theorem decodeFrom_close (c : TextByte) (q : Quote) : decodeFrom [c, q.byte] = [c] := by
  apply (decodeFrom_singleton_append_iff c (List.cons_ne_nil q.byte [])).mpr
  rintro ⟨-, e, he⟩
  change escape (some q.byte) true = some e at he
  rw [escape_quote] at he
  cases he

/-- A text is decoded in two parts exactly if the first does not end with a backslash that takes
the beginning of the other with it. -/
theorem decodeFrom_append_iff {w : List TextByte} (hw : w ≠ []) :
    decodeFrom (u ++ w) = decodeFrom (u ++ [q.byte]) ++ decodeFrom w ↔
      ¬ (u.getLast? = some backslash ∧ Taken w) := by
  have hclose : [q.byte] ≠ [] := List.cons_ne_nil _ _
  induction hn : u.length using Nat.strong_induction_on generalizing u with
  | h n ih =>
    match u, hn with
    | [], _ => simp [decodeFrom]
    | [c], _ =>
      have hshort : decodeFrom ([c] ++ [q.byte]) = [c] := decodeFrom_close c q
      rw [hshort]
      exact (decodeFrom_singleton_append_iff c hw).trans (by simp)
    | c :: d :: u', hn =>
      rw [List.length_cons, List.length_cons] at hn
      rcases decodeFrom_cons_cons c d u' with hone | ⟨e, hd, htwo⟩
      · rw [hone w hw, hone _ hclose, List.getLast?_cons_cons]
        change c :: _ = c :: (_ ++ _) ↔ _
        rw [List.cons_inj_right]
        exact ih (u'.length + 1) (by omega) rfl
      · have hlast : (c :: d :: u').getLast? = some backslash ↔ u'.getLast? = some backslash := by
          cases u' with
          | nil => simp [hd]
          | cons x xs => rw [List.getLast?_cons_cons, List.getLast?_cons_cons]
        rw [htwo w hw, htwo _ hclose, hlast]
        change e :: _ = e :: (_ ++ _) ↔ _
        rw [List.cons_inj_right]
        exact ih u'.length (by omega) rfl

/-- The bytes that are taken with a backslash. -/
def Takes (c : TextByte) : Prop :=
  c = letterN ∨ c = letterT ∨ c = singleQuote ∨ c = doubleQuote

theorem escape_isSome_iff (c : TextByte) : (∃ e, escape (some c) false = some e) ↔ Takes c := by
  constructor
  · rintro ⟨e, he⟩
    unfold escape at he
    split_ifs at he with hn ht hs hd
    · exact Or.inl (Option.some.inj hn)
    · exact Or.inr (Or.inl (Option.some.inj ht))
    · exact Or.inr (Or.inr (Or.inl (Option.some.inj hs.1)))
    · exact Or.inr (Or.inr (Or.inr (Option.some.inj hd.1)))
  · rintro (rfl | rfl | rfl | rfl)
    · exact ⟨newline, rfl⟩
    · exact ⟨tab, rfl⟩
    · exact ⟨singleQuote, rfl⟩
    · exact ⟨doubleQuote, rfl⟩

theorem taken_append_quote (v : List TextByte) (q : Quote) :
    Taken (v ++ [q.byte]) ↔ ∃ c ∈ v.head?, Takes c := by
  cases v with
  | nil =>
    have hnone : ¬ Taken [q.byte] := by
      rintro ⟨e, he⟩
      change escape (some q.byte) true = some e at he
      rw [escape_quote] at he
      cases he
    simpa using hnone
  | cons c v =>
    have hmore : (v ++ [q.byte]).isEmpty = false := by simp
    change (∃ e, escape (some c) (v ++ [q.byte]).isEmpty = some e) ↔ ∃ d ∈ some c, Takes d
    rw [hmore, escape_isSome_iff]
    simp

/-- At least the closing quote is left out. -/
theorem decodeFrom_length_le (s : List TextByte) : (decodeFrom s).length ≤ s.length - 1 := by
  fun_induction decodeFrom s with
  | case1 d rest e he ih =>
    simp only [List.length_cons]
    omega
  | case2 d rest he ih =>
    simp only [List.length_cons] at ih ⊢
    omega
  | case3 c d rest hc ih =>
    simp only [List.length_cons] at ih ⊢
    omega
  | case4 s hs => exact Nat.zero_le _

end Decode

@[simp] theorem bytes_length (s : List TextByte) : (bytes s).length = s.length :=
  List.length_map _

@[simp] theorem literal_length (q : Quote) (body : List TextByte) :
    (literal q body).length = body.length + 2 := by simp [literal]

theorem decode_length_le (q : Quote) (body : List TextByte) :
    (decode q body).length ≤ body.length := by
  rw [decode_eq]
  exact (decodeFrom_length_le _).trans (by simp)

/-- The decoded string fits. -/
theorem stored (junk : Memory) (q : Quote) (body : List TextByte) : Stored junk q body := by
  have hle := decode_length_le q body
  have hlen : (bytes (decode q body) ++ [0]).length = (decode q body).length + 1 := by simp
  constructor
  · exact hle
  · rw [← hlen]
    exact readAt_writeAt_same _ 0 _
  · rw [literal_length]
    omega
  · intro i hi
    rw [literal_length] at hi
    have hlit : (bytes (literal q body) ++ [0]).length = body.length + 3 := by simp
    have hcopy : strdup junk (literal q body) i = junk i := writeAt_of_ge _ _ (by omega)
    have hbound : 0 + (bytes (decode q body) ++ [0]).length ≤ i := by omega
    rw [← hcopy]
    exact writeAt_of_ge _ _ hbound

/-- `u` and `v` are decoded one after the other, and the string of every literal is stored in its
block. -/
structure UnitWise (q : Quote) (u v : List TextByte) : Prop where
  append : decode q (u ++ v) = decode q u ++ decode q v
  stored : ∀ junk body, Body q body → Stored junk q body

/-- Decoding is unit-wise exactly if the first body does not end with a backslash, or the second
does not begin with `n`, `t` or a quote. -/
theorem unitWise_iff (q : Quote) (u v : List TextByte) :
    UnitWise q u v ↔ ¬ (u.getLast? = some backslash ∧ ∃ c ∈ v.head?, Takes c) := by
  have hlaw : decode q (u ++ v) = decode q u ++ decode q v ↔
      ¬ (u.getLast? = some backslash ∧ ∃ c ∈ v.head?, Takes c) := by
    rw [decode_eq, decode_eq, decode_eq, List.append_assoc, ← taken_append_quote v q]
    exact decodeFrom_append_iff (by simp)
  rw [← hlaw]
  exact ⟨UnitWise.append, fun h => ⟨h, fun junk body _ => stored junk q body⟩⟩

/-- An escaped backslash and then the letter `n`. -/
theorem not_unitWise_backslash : Body .single [backslash, backslash] ∧ Body .single [letterN] ∧
    ¬ UnitWise .single [backslash, backslash] [letterN] := by
  constructor
  · exact .cons (.escape (by decide)) .nil
  · constructor
    · exact .cons (.single (by decide) (by decide)) .nil
    · intro h
      exact absurd h.append (by decide)

end StringLiteral
end Mosito
