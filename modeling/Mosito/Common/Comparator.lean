import Mosito.Common.Schema

/-! The order of tuples by a list of sort columns. A tuple is the memory from its address on, so
that a read can go past its end. -/
namespace Mosito
open ByteStore

/-- `IntegerType` and `UnLongType`. -/
inductive ColumnType where
  | integer
  | unLong
  deriving DecidableEq, Repr

namespace ColumnType

/-- The type for which the schema makes the column. -/
def dataType : ColumnType → DataType
  | integer => .int
  | unLong => .long

/-- How many words of four bytes a value has. -/
def words : ColumnType → ℕ
  | integer => 1
  | unLong => 2

/-- The `int` with the bits of a word. -/
def toInt (w : ℕ) : ℤ := if w < 2 ^ 31 then w else w - 2 ^ 32

/-- `*(int *)l` or `*(unsigned long *)l`, where `l` is the address `a`. -/
def value : ColumnType → Memory → ℕ → ℤ
  | integer, m, a => toInt (leValue (readAt m a 4))
  | unLong, m, a => leValue (readAt m a 8)

def eq (t : ColumnType) (l r : Memory) (a : ℕ) : Bool := decide (t.value l a = t.value r a)

def ls (t : ColumnType) (l r : Memory) (a : ℕ) : Bool := decide (t.value l a < t.value r a)

def gt (t : ColumnType) (l r : Memory) (a : ℕ) : Bool := decide (t.value l a > t.value r a)

theorem value_integer (m : Memory) (a : ℕ) : integer.value m a = toInt (word m a) := rfl

theorem value_unLong (m : Memory) (a : ℕ) :
    unLong.value m a = word m a + 2 ^ 32 * word m (a + 4) := by
  rw [value, leValue_readAt_eight]
  push_cast
  rfl

/-- Equal values have equal first words. -/
theorem word_eq_of_value {t : ColumnType} {l r : Memory} {a : ℕ} (h : t.value l a = t.value r a) :
    word l a = word r a := by
  have hl := word_lt l a
  have hr := word_lt r a
  cases t with
  | integer =>
    rw [value_integer, value_integer, toInt, toInt] at h
    split_ifs at h <;> omega
  | unLong =>
    rw [value_unLong, value_unLong] at h
    omega

end ColumnType

/-- `v_d_`, `offset_` and `bytes_`. -/
structure Schema where
  vd : List ColumnType
  offset : ℕ → ℕ
  bytes : ℕ

namespace Schema

/-- One round of the constructor's loop; a type without a branch leaves no column. -/
def addColumn (s : Schema) (e : DataType × ℕ) : Schema :=
  match e.1 with
  | .int => ⟨s.vd ++ [.integer], Function.update s.offset e.2 s.bytes, s.bytes + 4⟩
  | .long => ⟨s.vd ++ [.unLong], Function.update s.offset e.2 s.bytes, s.bytes + 8⟩
  | .double => s

/-- `junk` is what `new int[]` returns. -/
def make (junk : ℕ → ℕ) (es : List DataType) : Schema := es.zipIdx.foldl addColumn ⟨[], junk, 0⟩

/-- `none` outside of the vector. -/
def getDataType (s : Schema) (off : ℕ) : Option ColumnType := s.vd[off]?

/-- The offset of column `seq` from the address of a tuple. -/
def getAddr (s : Schema) (seq : ℕ) : ℕ := s.offset seq

/-- The value of a column in its own type. -/
def column (s : Schema) (m : Memory) (c : ℕ) : ℤ :=
  (s.vd[c]?).elim 0 fun t => t.value m (s.offset c)

/-- How many words lie before column `c`. -/
def before (ts : List ColumnType) (c : ℕ) : ℕ := ((ts.take c).map ColumnType.words).sum

theorem before_succ {ts : List ColumnType} {c : ℕ} {t : ColumnType} (h : ts[c]? = some t) :
    before ts (c + 1) = before ts c + t.words := by
  rw [before, List.take_add_one, h, List.map_append, List.sum_append, before]
  rfl

theorem before_mono (ts : List ColumnType) : Monotone (before ts) := by
  refine monotone_nat_of_le_succ fun c => ?_
  rw [before, before, List.take_add_one, List.map_append, List.sum_append]
  exact Nat.le_add_right _ _

/-- What the constructor makes of columns that are `t_int` and `t_long`. -/
theorem make_spec (junk : ℕ → ℕ) (ts : List ColumnType) :
    (make junk (ts.map ColumnType.dataType)).vd = ts ∧
      (make junk (ts.map ColumnType.dataType)).bytes = 4 * before ts ts.length ∧
      ∀ c < ts.length, (make junk (ts.map ColumnType.dataType)).offset c = 4 * before ts c := by
  induction ts using List.reverseRecOn with
  | nil => exact ⟨rfl, rfl, fun c hc => absurd hc (Nat.not_lt_zero c)⟩
  | append_singleton ts t ih =>
    obtain ⟨hvd, hbytes, hoff⟩ := ih
    have hmake : make junk ((ts ++ [t]).map ColumnType.dataType) =
        addColumn (make junk (ts.map ColumnType.dataType)) (t.dataType, ts.length) := by
      rw [List.map_append, make, List.zipIdx_append, List.foldl_append, List.length_map,
        Nat.zero_add]
      rfl
    generalize make junk (ts.map ColumnType.dataType) = s at *
    have hadd : addColumn s (t.dataType, ts.length) = ⟨ts ++ [t],
        Function.update s.offset ts.length (4 * before ts ts.length),
        4 * before ts ts.length + 4 * t.words⟩ := by
      rw [← hbytes]
      nth_rewrite 2 [← hvd]
      cases t <;> rfl
    have hbefore (c : ℕ) (hc : c ≤ ts.length) : before (ts ++ [t]) c = before ts c := by
      rw [before, List.take_append_of_le_length hc, before]
    have hlast : (ts ++ [t])[ts.length]? = some t := by simp
    rw [hmake, hadd]
    refine ⟨rfl, ?_, fun c hc => ?_⟩
    · rw [List.length_append, List.length_singleton, before_succ hlast, hbefore _ le_rfl,
        Nat.mul_add]
    · rw [List.length_append, List.length_singleton] at hc
      change Function.update s.offset ts.length (4 * before ts ts.length) c = _
      rcases Nat.lt_succ_iff_lt_or_eq.mp hc with hlt | rfl
      · rw [Function.update_of_ne hlt.ne, hoff c hlt, hbefore c hlt.le]
      · rw [Function.update_self, hbefore _ le_rfl]

end Schema

inductive Direction where
  | ascending
  | descending
  deriving DecidableEq, Repr

structure SortOrderRef where
  offset : ℕ
  direction : Direction
  deriving DecidableEq, Repr

namespace Comparator

/-- `flag`; without a branch it stays what it was. -/
def flagOf (t : ColumnType) (d : Direction) (l r : Memory) (a : ℕ) (flag : Option ℕ) : Option ℕ :=
  if t.eq l r a then some 0
  else if t.ls l r a && decide (d = .ascending) then some 1
  else if t.ls l r a && decide (d = .descending) then some 2
  else if t.gt l r a && decide (d = .descending) then some 1
  else if t.gt l r a && decide (d = .ascending) then some 2
  else flag

/-- The loop over the sort columns from number `i` on. -/
def compareFrom (s : Schema) (l r : Memory) : ℕ → List SortOrderRef → Option ℕ → Option Bool
  | _, [], _ => some true
  | i, v :: vs, flag =>
      (s.getDataType i).bind fun t =>
        match flagOf t v.direction l r (s.getAddr v.offset) flag with
        | some 0 => compareFrom s l r (i + 1) vs (some 0)
        | some 1 => some true
        | some 2 => some false
        | _ => none

/-- `none` when a type outside of the schema is asked for. -/
def compare (s : Schema) (vs : List SortOrderRef) (left right : Memory) : Option Bool :=
  compareFrom s left right 0 vs none

/-- The value by which a column is ordered in its direction. -/
def signed (d : Direction) (x : ℤ) : ℤ :=
  match d with
  | .ascending => x
  | .descending => -x

/-- One comparison decides or goes on. -/
theorem compareFrom_cons {s : Schema} {l r : Memory} {i : ℕ} {v : SortOrderRef}
    {vs : List SortOrderRef} {flag : Option ℕ} {t : ColumnType} (ht : s.getDataType i = some t) :
    compareFrom s l r i (v :: vs) flag =
      if t.value l (s.getAddr v.offset) = t.value r (s.getAddr v.offset) then
        compareFrom s l r (i + 1) vs (some 0)
      else some (decide (signed v.direction (t.value l (s.getAddr v.offset)) <
        signed v.direction (t.value r (s.getAddr v.offset)))) := by
  rw [compareFrom, ht, Option.bind_some]
  rcases lt_trichotomy (t.value l (s.getAddr v.offset)) (t.value r (s.getAddr v.offset)) with
    hlt | heq | hgt
  · cases hd : v.direction <;>
      simp [flagOf, ColumnType.eq, ColumnType.ls, signed, hlt, hlt.ne, hlt.not_gt]
  · simp [flagOf, ColumnType.eq, heq]
  · cases hd : v.direction <;>
      simp [flagOf, ColumnType.eq, ColumnType.ls, ColumnType.gt, signed, hgt, hgt.ne', hgt.not_gt]

section Order
variable {ts : List ColumnType} {s : Schema} {l r : Memory} {i c : ℕ} {t : ColumnType}
  {v : SortOrderRef} {vs : List SortOrderRef} {done : List ℕ} {flag : Option ℕ}

/-- The sort columns of a tuple, each with the sign of its direction. -/
def keys (s : Schema) (vs : List SortOrderRef) (m : Memory) : List ℤ :=
  vs.map fun v => signed v.direction (s.column m v.offset)

/-- `compare` is the lexicographic order of the sort columns. -/
structure Lexicographic (s : Schema) (vs : List SortOrderRef) : Prop where
  compare_eq : ∀ l r, compare s vs l r = some (decide (keys s vs l ≤ keys s vs r))
  total : ∀ l r, compare s vs l r = some true ∨ compare s vs r l = some true
  trans : ∀ a b c, compare s vs a b = some true → compare s vs b c = some true →
    compare s vs a c = some true

theorem Lexicographic.of_compare_eq
    (h : ∀ l r, compare s vs l r = some (decide (keys s vs l ≤ keys s vs r))) :
    Lexicographic s vs where
  compare_eq := h
  total l r := by
    simpa [h] using le_total (keys s vs l) (keys s vs r)
  trans a b c := by
    simpa [h] using le_trans

theorem keys_cons_le : keys s (v :: vs) l ≤ keys s (v :: vs) r ↔
    signed v.direction (s.column l v.offset) < signed v.direction (s.column r v.offset) ∨
      s.column l v.offset = s.column r v.offset ∧ keys s vs l ≤ keys s vs r := by
  have hsigned : signed v.direction (s.column l v.offset) =
      signed v.direction (s.column r v.offset) ↔ s.column l v.offset = s.column r v.offset := by
    cases v.direction
    · rfl
    · exact neg_inj
  rw [keys, keys, List.map_cons, List.map_cons, le_iff_lt_or_eq, List.cons_lt_cons_iff,
    List.cons.injEq, hsigned, or_assoc, ← and_or_left, ← le_iff_lt_or_eq]
  rfl

/-- Sort column `c` is number `i`: its type is that of column `i`, or it is equal by then, and what
is read with the type of column `i` is equal too. -/
def Fine (ts : List ColumnType) (done : List ℕ) (i c : ℕ) : Prop :=
  ∃ t, ts[i]? = some t ∧ (ts[c]? = some t ∨ c ∈ done ∧ (t = .integer ∨ c + 1 ∈ done))

/-- All sort columns are fine behind the columns `done`. -/
def AllFine (ts : List ColumnType) : List ℕ → ℕ → List SortOrderRef → Prop
  | _, _, [] => True
  | done, i, v :: vs => Fine ts done i v.offset ∧ AllFine ts (done ++ [v.offset]) (i + 1) vs

theorem allFine_iff : AllFine ts done i vs ↔ ∀ k v, vs[k]? = some v →
    Fine ts (done ++ (vs.take k).map SortOrderRef.offset) (i + k) v.offset := by
  induction vs generalizing done i with
  | nil => simp [AllFine]
  | cons v vs ih =>
    rw [AllFine, ih]
    constructor
    · rintro ⟨hfirst, hrest⟩ k w hk
      cases k with
      | zero =>
        cases hk
        simpa using hfirst
      | succ k =>
        have hw := hrest k w hk
        rwa [List.append_assoc, List.singleton_append, Nat.add_assoc, Nat.add_comm 1] at hw
    · intro hall
      refine ⟨by simpa using hall 0 v rfl, fun k w hk => ?_⟩
      have hw := hall (k + 1) w hk
      rwa [List.append_assoc, List.singleton_append, Nat.add_assoc, Nat.add_comm 1]

/-- Two tuples are equal in the columns `done`. -/
def Agree (s : Schema) (done : List ℕ) (l r : Memory) : Prop :=
  ∀ c ∈ done, s.column l c = s.column r c

section Made
variable (hvd : s.vd = ts) (hoff : ∀ c < ts.length, s.offset c = 4 * Schema.before ts c)
include hvd hoff

theorem column_eq (hc : ts[c]? = some t) (m : Memory) :
    s.column m c = t.value m (4 * Schema.before ts c) := by
  have hlt : c < ts.length := (List.getElem?_eq_some_iff.mp hc).1
  rw [Schema.column, hvd, hc, Option.elim_some, hoff c hlt]

/-- Equal columns have equal first words. -/
theorem word_eq_of_column (hc : c < ts.length) (h : s.column l c = s.column r c) :
    word l (4 * Schema.before ts c) = word r (4 * Schema.before ts c) := by
  have ht := List.getElem?_eq_getElem hc
  rw [column_eq hvd hoff ht, column_eq hvd hoff ht] at h
  exact ColumnType.word_eq_of_value h

/-- What a fine comparison reads of an equal column is equal. -/
theorem Fine.value_eq (hf : Fine ts done i c) (hdone : ∀ d ∈ done, d < ts.length)
    (hc : c < ts.length) (hagree : Agree s done l r) (heq : s.column l c = s.column r c)
    (ht : ts[i]? = some t) :
    t.value l (4 * Schema.before ts c) = t.value r (4 * Schema.before ts c) := by
  obtain ⟨t', ht', hor⟩ := hf
  rw [ht, Option.some.injEq] at ht'
  subst ht'
  have hword := word_eq_of_column hvd hoff hc heq
  rcases hor with hsame | ⟨-, hint | hnext⟩
  · rwa [column_eq hvd hoff hsame, column_eq hvd hoff hsame] at heq
  · rw [hint, ColumnType.value_integer, ColumnType.value_integer, hword]
  · cases t with
    | integer => rw [ColumnType.value_integer, ColumnType.value_integer, hword]
    | unLong =>
      cases hown : ts[c] with
      | unLong =>
        have hsame : ts[c]? = some .unLong := hown ▸ List.getElem?_eq_getElem hc
        rwa [column_eq hvd hoff hsame, column_eq hvd hoff hsame] at heq
      | integer =>
        have hint : ts[c]? = some .integer := hown ▸ List.getElem?_eq_getElem hc
        have hword' := word_eq_of_column hvd hoff (hdone _ hnext) (hagree _ hnext)
        rw [Schema.before_succ hint, Nat.mul_add] at hword'
        rw [ColumnType.value_unLong, ColumnType.value_unLong, hword]
        exact congrArg _ (congrArg _ (congrArg _ hword'))

/-- A fine comparison of an equal column goes on. -/
theorem Fine.compareFrom_eq (hf : Fine ts done i v.offset) (hdone : ∀ d ∈ done, d < ts.length)
    (hc : v.offset < ts.length) (hagree : Agree s done l r)
    (heq : s.column l v.offset = s.column r v.offset) :
    compareFrom s l r i (v :: vs) flag = compareFrom s l r (i + 1) vs (some 0) := by
  obtain ⟨t, ht, -⟩ := id hf
  have htype : s.getDataType i = some t := by rw [Schema.getDataType, hvd, ht]
  rw [compareFrom_cons htype, Schema.getAddr, hoff _ hc,
    if_pos (hf.value_eq hvd hoff hdone hc hagree heq ht)]

/-- With fine sort columns the loop is the lexicographic order. -/
theorem compareFrom_eq_keys (hfine : AllFine ts done i vs) (hdone : ∀ d ∈ done, d < ts.length)
    (hvs : ∀ v ∈ vs, v.offset < ts.length) (hagree : Agree s done l r) :
    compareFrom s l r i vs flag = some (decide (keys s vs l ≤ keys s vs r)) := by
  induction vs generalizing done i flag with
  | nil => simp [compareFrom, keys]
  | cons v vs ih =>
    obtain ⟨hf, hrest⟩ := hfine
    have hc : v.offset < ts.length := hvs v (by simp)
    by_cases heq : s.column l v.offset = s.column r v.offset
    · have hdone' : ∀ d ∈ done ++ [v.offset], d < ts.length := by
        simpa [or_imp, forall_and] using ⟨hdone, hc⟩
      have hagree' : Agree s (done ++ [v.offset]) l r := by
        simpa [Agree, or_imp, forall_and] using ⟨hagree, heq⟩
      rw [hf.compareFrom_eq hvd hoff hdone hc hagree heq,
        ih hrest hdone' (fun w hw => hvs w (List.mem_cons_of_mem v hw)) hagree']
      simp [keys_cons_le, heq]
    · obtain ⟨t, ht, hown | ⟨hmem, -⟩⟩ := hf
      · have htype : s.getDataType i = some t := by rw [Schema.getDataType, hvd, ht]
        rw [compareFrom_cons htype, Schema.getAddr, hoff _ hc, ← column_eq hvd hoff hown,
          ← column_eq hvd hoff hown, if_neg heq]
        simp [keys_cons_le, heq]
      · exact absurd (hagree _ hmem) heq

/-- Two tuples are equal in all columns but `c`. -/
def Only (ts : List ColumnType) (s : Schema) (c : ℕ) (l r : Memory) : Prop :=
  ∀ d < ts.length, d ≠ c → s.column l d = s.column r d

omit hvd hoff in
theorem Only.symm (h : Only ts s c l r) : Only ts s c r l := fun d hd hdc => (h d hd hdc).symm

omit hvd hoff in
theorem Only.agree (h : Only ts s c l r) (hdone : ∀ d ∈ done, d < ts.length) (hc : c ∉ done) :
    Agree s done l r := by
  intro d hd
  exact h d (hdone d hd) fun heq => hc (heq ▸ hd)

omit hvd hoff in
/-- If only column `c` differs, the first sort column `c` decides. -/
theorem Only.keys_le_iff (h : Only ts s c l r) (hvs : ∀ v ∈ vs, v.offset < ts.length) :
    keys s vs l ≤ keys s vs r ↔ ∀ w ∈ vs.find? fun v => v.offset = c,
      signed w.direction (s.column l c) ≤ signed w.direction (s.column r c) := by
  induction vs with
  | nil => simp [keys]
  | cons v vs ih =>
    have hvs' : ∀ w ∈ vs, w.offset < ts.length := fun w hw => hvs w (List.mem_cons_of_mem v hw)
    rw [keys_cons_le]
    by_cases hv : v.offset = c
    · rw [List.find?_cons_of_pos (by simpa using hv), hv]
      simp only [Option.mem_def, Option.some.injEq, forall_eq']
      by_cases heq : s.column l c = s.column r c
      · have hkeys : keys s vs l = keys s vs r := by
          refine List.map_congr_left fun w hw => ?_
          by_cases hwc : w.offset = c
          · rw [hwc, heq]
          · rw [h _ (hvs' w hw) hwc]
        simp [heq, hkeys]
      · cases v.direction <;> simp only [signed] <;> omega
    · have heq := h _ (hvs v (by simp)) hv
      rw [List.find?_cons_of_neg (by simpa using hv), heq, ← ih hvs']
      simp

omit hvd hoff in
/-- If the loop is the lexicographic order on two tuples, then what it reads first decides. -/
theorem verdict (ht : s.getDataType i = some t)
    (hlt : t.value l (s.getAddr v.offset) < t.value r (s.getAddr v.offset))
    (h : compareFrom s l r i (v :: vs) flag =
      some (decide (keys s (v :: vs) l ≤ keys s (v :: vs) r)))
    (h' : compareFrom s r l i (v :: vs) flag =
      some (decide (keys s (v :: vs) r ≤ keys s (v :: vs) l))) :
    (v.direction = .ascending ∧ keys s (v :: vs) l ≤ keys s (v :: vs) r ∧
        ¬keys s (v :: vs) r ≤ keys s (v :: vs) l) ∨
      (v.direction = .descending ∧ keys s (v :: vs) r ≤ keys s (v :: vs) l ∧
        ¬keys s (v :: vs) l ≤ keys s (v :: vs) r) := by
  rw [compareFrom_cons ht, if_neg hlt.ne, Option.some.injEq, decide_eq_decide] at h
  rw [compareFrom_cons ht, if_neg hlt.ne', Option.some.injEq, decide_eq_decide] at h'
  rw [← h, ← h']
  cases v.direction
  · exact Or.inl ⟨rfl, hlt, hlt.not_gt⟩
  · exact Or.inr ⟨rfl, neg_lt_neg hlt, (neg_lt_neg hlt).not_gt⟩

omit hvd hoff in
/-- One pair of tuples whose order is kept and one whose order is turned are not both sorted by
any direction. -/
theorem not_lexicographic_of_pairs {m₀ m₁ m₂ m₃ : Memory} (ht : s.getDataType i = some t)
    (hvs : ∀ w ∈ v :: vs, w.offset < ts.length)
    (hall : ∀ l r, Only ts s c l r → compareFrom s l r i (v :: vs) flag =
      some (decide (keys s (v :: vs) l ≤ keys s (v :: vs) r)))
    (h₀ : Only ts s c m₀ m₁) (h₂ : Only ts s c m₂ m₃)
    (hkept : t.value m₀ (s.getAddr v.offset) < t.value m₁ (s.getAddr v.offset))
    (hturned : t.value m₂ (s.getAddr v.offset) < t.value m₃ (s.getAddr v.offset))
    (hcol : c < ts.length → s.column m₀ c < s.column m₁ c ∧ s.column m₃ c < s.column m₂ c) :
    False := by
  have hv₀ := verdict ht hkept (hall _ _ h₀) (hall _ _ h₀.symm)
  have hv₂ := verdict ht hturned (hall _ _ h₂) (hall _ _ h₂.symm)
  rw [h₀.keys_le_iff hvs, h₀.symm.keys_le_iff hvs] at hv₀
  rw [h₂.keys_le_iff hvs, h₂.symm.keys_le_iff hvs] at hv₂
  cases hfind : (v :: vs).find? fun v => v.offset = c with
  | none => simp [hfind] at hv₀
  | some w =>
    have hw : w.offset = c := by simpa using List.find?_some hfind
    obtain ⟨hup, hdown⟩ := hcol (hw ▸ hvs w (List.mem_of_find?_eq_some hfind))
    simp only [hfind, Option.mem_def, Option.some.injEq, forall_eq'] at hv₀ hv₂
    cases hd : v.direction <;> cases hd' : w.direction <;>
      simp only [hd, hd', signed, reduceCtorEq, false_and, or_false, false_or, true_and]
        at hv₀ hv₂ <;>
      omega

/-- A column depends on its own words only. -/
theorem column_congr (hc : ts[c]? = some t) (h : ∀ k, Schema.before ts c ≤ k →
    k < Schema.before ts (c + 1) → word l (4 * k) = word r (4 * k)) :
    s.column l c = s.column r c := by
  rw [Schema.before_succ hc] at h
  have hfirst := h (Schema.before ts c) le_rfl
  have hsecond := h (Schema.before ts c + 1) (Nat.le_succ _)
  rw [column_eq hvd hoff hc, column_eq hvd hoff hc]
  cases t with
  | integer =>
    rw [ColumnType.value_integer, ColumnType.value_integer, hfirst (Nat.lt_succ_self _)]
  | unLong =>
    have hpos : Schema.before ts c < Schema.before ts c + ColumnType.unLong.words :=
      Nat.lt_add_of_pos_right Nat.two_pos
    rw [Nat.mul_add] at hsecond
    rw [ColumnType.value_unLong, ColumnType.value_unLong, hfirst hpos]
    exact congrArg _ (congrArg _ (congrArg _ (hsecond (Nat.lt_succ_self _))))

/-- All words are zero but the two from column `c` on. -/
def twoWords (ts : List ColumnType) (c a b : ℕ) : Memory :=
  ofWords fun k => if k = Schema.before ts c then a else if k = Schema.before ts c + 1 then b else 0

omit hvd hoff in
theorem word_twoWords {a b : ℕ} (ha : a < 2 ^ 32) (hb : b < 2 ^ 32) (k : ℕ) :
    word (twoWords ts c a b) (4 * k) =
      if k = Schema.before ts c then a else if k = Schema.before ts c + 1 then b else 0 := by
  refine word_ofWords ?_
  split_ifs <;> omega

omit hvd hoff in
theorem value_integer_twoWords {a b : ℕ} (ha : a < 2 ^ 32) (hb : b < 2 ^ 32) :
    ColumnType.integer.value (twoWords ts c a b) (4 * Schema.before ts c) = ColumnType.toInt a := by
  rw [ColumnType.value_integer, word_twoWords ha hb, if_pos rfl]

omit hvd hoff in
theorem value_unLong_twoWords {a b : ℕ} (ha : a < 2 ^ 32) (hb : b < 2 ^ 32) :
    ColumnType.unLong.value (twoWords ts c a b) (4 * Schema.before ts c) = a + 2 ^ 32 * b := by
  have hnext : 4 * Schema.before ts c + 4 = 4 * (Schema.before ts c + 1) := rfl
  rw [ColumnType.value_unLong, hnext, word_twoWords ha hb, word_twoWords ha hb, if_pos rfl,
    if_neg (Nat.succ_ne_self _), if_pos rfl]

/-- Only column `c` differs, if the second word belongs to it or is the same. -/
theorem only_twoWords {a b a' b' : ℕ} (ha : a < 2 ^ 32) (hb : b < 2 ^ 32) (ha' : a' < 2 ^ 32)
    (hb' : b' < 2 ^ 32) (hsecond : b = b' ∨ ts[c]? = some .unLong) :
    Only ts s c (twoWords ts c a b) (twoWords ts c a' b') := by
  intro d hd hdc
  refine column_congr hvd hoff (List.getElem?_eq_getElem hd) fun k hk hk' => ?_
  rw [word_twoWords ha hb, word_twoWords ha' hb']
  rcases Nat.lt_or_gt_of_ne hdc with hlt | hgt
  · have hmono : Schema.before ts (d + 1) ≤ Schema.before ts c :=
      Schema.before_mono ts (Nat.succ_le_of_lt hlt)
    rw [if_neg (by omega), if_neg (by omega), if_neg (by omega), if_neg (by omega)]
  · have hmono : Schema.before ts (c + 1) ≤ Schema.before ts d :=
      Schema.before_mono ts (Nat.succ_le_of_lt hgt)
    have hc := List.getElem?_eq_getElem (hgt.trans hd)
    rw [Schema.before_succ hc] at hmono
    rcases hsecond with rfl | hlong
    · have hpos : 1 ≤ ts[c].words := by cases ts[c] <;> decide
      have hne : k ≠ Schema.before ts c := by omega
      rw [if_neg hne, if_neg hne]
    · have htwo : ts[c].words = 2 := by
        rw [hlong, Option.some.injEq] at hc
        rw [← hc, ColumnType.words]
      rw [if_neg (by omega), if_neg (by omega), if_neg (by omega), if_neg (by omega)]

/-- If what the loop reads first grows with the first word of another column, and that column is not
yet equal, some tuples are not compared lexicographically. -/
theorem exists_ne_of_reads {x : ℕ → ℕ → ℤ} (ht : s.getDataType i = some t)
    (hvs : ∀ w ∈ v :: vs, w.offset < ts.length) (hdone : ∀ d ∈ done, d < ts.length) (hc : c ∉ done)
    (hx : ∀ a < 2 ^ 32, ∀ b < 2 ^ 32,
      t.value (twoWords ts c a b) (s.getAddr v.offset) = x a b)
    (hone : x 0 0 < x 1 0) (hlong : ts[c]? = some .unLong → x 0 1 < x 1 0)
    (hint : ts[c]? = some .integer → x 1 0 < x (2 ^ 32 - 1) 0) :
    ∃ l r, Agree s done l r ∧ compareFrom s l r i (v :: vs) flag ≠
      some (decide (keys s (v :: vs) l ≤ keys s (v :: vs) r)) := by
  by_contra! hall
  have hall' : ∀ l r, Only ts s c l r → compareFrom s l r i (v :: vs) flag =
      some (decide (keys s (v :: vs) l ≤ keys s (v :: vs) r)) :=
    fun l r h => hall l r (h.agree hdone hc)
  have hkept : t.value (twoWords ts c 0 0) (s.getAddr v.offset) <
      t.value (twoWords ts c 1 0) (s.getAddr v.offset) := by
    rwa [hx 0 (by decide) 0 (by decide), hx 1 (by decide) 0 (by decide)]
  have hzero : Only ts s c (twoWords ts c 0 0) (twoWords ts c 1 0) :=
    only_twoWords hvd hoff (by decide) (by decide) (by decide) (by decide) (Or.inl rfl)
  cases hown : ts[c]? with
  | none =>
    have hout : ¬c < ts.length := by simpa using hown
    exact not_lexicographic_of_pairs ht hvs hall' hzero hzero hkept hkept (absurd · hout)
  | some t' =>
    cases t' with
    | integer =>
      have hsigns : Only ts s c (twoWords ts c 1 0) (twoWords ts c (2 ^ 32 - 1) 0) :=
        only_twoWords hvd hoff (by decide) (by decide) (by decide) (by decide) (Or.inl rfl)
      refine not_lexicographic_of_pairs ht hvs hall' hzero hsigns hkept ?_ fun _ => ?_
      · rw [hx 1 (by decide) 0 (by decide), hx _ (by decide) 0 (by decide)]
        exact hint hown
      · simp only [column_eq hvd hoff hown]
        rw [value_integer_twoWords (by decide) (by decide),
          value_integer_twoWords (by decide) (by decide),
          value_integer_twoWords (by decide) (by decide)]
        decide
    | unLong =>
      have hwords : Only ts s c (twoWords ts c 0 1) (twoWords ts c 1 0) :=
        only_twoWords hvd hoff (by decide) (by decide) (by decide) (by decide) (Or.inr hown)
      refine not_lexicographic_of_pairs ht hvs hall' hzero hwords hkept ?_ fun _ => ?_
      · rw [hx 0 (by decide) 1 (by decide), hx 1 (by decide) 0 (by decide)]
        exact hlong hown
      · simp only [column_eq hvd hoff hown]
        rw [value_unLong_twoWords (by decide) (by decide),
          value_unLong_twoWords (by decide) (by decide),
          value_unLong_twoWords (by decide) (by decide)]
        decide

/-- A sort column that is not fine is compared wrongly for some tuples. -/
theorem exists_ne_of_not_fine (hf : ¬Fine ts done i v.offset) (hdone : ∀ d ∈ done, d < ts.length)
    (hvs : ∀ w ∈ v :: vs, w.offset < ts.length) :
    ∃ l r, Agree s done l r ∧ compareFrom s l r i (v :: vs) flag ≠
      some (decide (keys s (v :: vs) l ≤ keys s (v :: vs) r)) := by
  have hc : v.offset < ts.length := hvs v (by simp)
  have haddr : s.getAddr v.offset = 4 * Schema.before ts v.offset := hoff _ hc
  have hown := List.getElem?_eq_getElem hc
  cases ht : ts[i]? with
  | none =>
    refine ⟨fun _ => 0, fun _ => 0, fun _ _ => rfl, ?_⟩
    have htype : s.getDataType i = none := by rw [Schema.getDataType, hvd, ht]
    rw [compareFrom, htype]
    exact Option.some_ne_none _ |>.symm
  | some t =>
    have htype : s.getDataType i = some t := by rw [Schema.getDataType, hvd, ht]
    have hor : ¬(ts[v.offset]? = some t ∨ v.offset ∈ done ∧ (t = .integer ∨ v.offset + 1 ∈ done)) :=
      fun hor => hf ⟨t, ht, hor⟩
    rw [not_or, not_and] at hor
    obtain ⟨hne, hbehind⟩ := hor
    by_cases hmem : v.offset ∈ done
    · -- the column is equal, but the read of a long goes on into the next one
      obtain ⟨hlong, hnext⟩ := not_or.mp (hbehind hmem)
      obtain rfl : t = .unLong := by cases t <;> trivial
      have hint : ts[v.offset]? = some .integer := by
        rw [hown] at hne ⊢
        cases h : ts[v.offset] <;> simp_all
      refine exists_ne_of_reads hvd hoff htype hvs hdone hnext (x := fun a _ => 2 ^ 32 * a)
        (fun a ha b hb => ?_) (by decide) (fun _ => by decide) (fun _ => by decide)
      have hsucc : Schema.before ts (v.offset + 1) = Schema.before ts v.offset + 1 :=
        Schema.before_succ hint
      have hread : 4 * Schema.before ts v.offset + 4 = 4 * Schema.before ts (v.offset + 1) := by
        rw [hsucc, Nat.mul_add]
      rw [haddr, ColumnType.value_unLong, hread, word_twoWords ha hb, word_twoWords ha hb,
        if_pos rfl, if_neg (by omega), if_neg (by omega)]
      simp
    · cases t with
      | integer =>
        refine exists_ne_of_reads hvd hoff htype hvs hdone hmem (x := fun a _ => ColumnType.toInt a)
          (fun a ha b hb => ?_) (by decide) (fun _ => by decide) (fun h => absurd h hne)
        rw [haddr, value_integer_twoWords ha hb]
      | unLong =>
        refine exists_ne_of_reads hvd hoff htype hvs hdone hmem (x := fun a b => a + 2 ^ 32 * b)
          (fun a ha b hb => ?_) (by decide) (fun h => absurd h hne) (fun _ => by decide)
        rw [haddr, value_unLong_twoWords ha hb]

/-- If a sort column is not fine, the loop is not the lexicographic order. -/
theorem exists_ne_of_not_allFine (hfine : ¬AllFine ts done i vs) (hdone : ∀ d ∈ done, d < ts.length)
    (hvs : ∀ v ∈ vs, v.offset < ts.length) : ∃ l r, Agree s done l r ∧
      compareFrom s l r i vs flag ≠ some (decide (keys s vs l ≤ keys s vs r)) := by
  induction vs generalizing done i flag with
  | nil => exact absurd trivial hfine
  | cons v vs ih =>
    by_cases hf : Fine ts done i v.offset
    · have hc : v.offset < ts.length := hvs v (by simp)
      have hdone' : ∀ d ∈ done ++ [v.offset], d < ts.length := by
        simpa [or_imp, forall_and] using ⟨hdone, hc⟩
      have hrest : ¬AllFine ts (done ++ [v.offset]) (i + 1) vs := fun hrest => hfine ⟨hf, hrest⟩
      obtain ⟨l, r, hagree, hcmp⟩ : ∃ l r, Agree s (done ++ [v.offset]) l r ∧
          compareFrom s l r (i + 1) vs (some 0) ≠ some (decide (keys s vs l ≤ keys s vs r)) :=
        ih hrest hdone' fun w hw => hvs w (List.mem_cons_of_mem v hw)
      have heq : s.column l v.offset = s.column r v.offset := hagree _ (by simp)
      have hagree' : Agree s done l r := fun d hd => hagree d (List.mem_append_left _ hd)
      refine ⟨l, r, hagree', ?_⟩
      rw [hf.compareFrom_eq hvd hoff hdone hc hagree' heq]
      simpa [keys_cons_le, heq] using hcmp
    · exact exists_ne_of_not_fine hvd hoff hf hdone hvs

end Made
end Order

/-- Comparing with the type of column `i` instead of that of sort column `i` is the lexicographic
order exactly if each sort column has the type of the column at its place in the list, or is
sorted by already, together with the column after it if that place is a long. -/
theorem compare_lexicographic_iff (junk : ℕ → ℕ) (ts : List ColumnType) (vs : List SortOrderRef)
    (hvs : ∀ v ∈ vs, v.offset < ts.length) :
    Lexicographic (Schema.make junk (ts.map ColumnType.dataType)) vs ↔
      ∀ i v, vs[i]? = some v → Fine ts ((vs.take i).map SortOrderRef.offset) i v.offset := by
  obtain ⟨hvd, -, hoff⟩ := Schema.make_spec junk ts
  have hall : AllFine ts [] 0 vs ↔
      ∀ i v, vs[i]? = some v → Fine ts ((vs.take i).map SortOrderRef.offset) i v.offset := by
    refine allFine_iff.trans ?_
    simp
  rw [← hall]
  constructor
  · intro hlex
    by_contra hfine
    obtain ⟨l, r, -, hne⟩ : ∃ l r, Agree _ [] l r ∧ compareFrom _ l r 0 vs none ≠ _ :=
      exists_ne_of_not_allFine hvd hoff hfine (by simp) hvs
    exact hne (hlex.compare_eq l r)
  · intro hfine
    refine .of_compare_eq fun l r => ?_
    exact compareFrom_eq_keys hvd hoff hfine (by simp) hvs (by simp [Agree])

/-- Integers sorted by before the long between them. -/
theorem compare_lexicographic_integers :
    Lexicographic (Schema.make (fun _ => 0) [.int, .long, .int])
      [⟨2, .descending⟩, ⟨1, .ascending⟩] := by
  refine (compare_lexicographic_iff (fun _ => 0) [.integer, .unLong, .integer]
    [⟨2, .descending⟩, ⟨1, .ascending⟩] (by decide)).mpr fun i v hv => ?_
  match i, hv with
  | 0, hv =>
    cases hv
    exact ⟨.integer, rfl, Or.inl rfl⟩
  | 1, hv =>
    cases hv
    exact ⟨.unLong, rfl, Or.inl rfl⟩

/-- Sorted by the long behind an integer, `2 ^ 32` comes before `1`. -/
theorem compare_integer_for_long :
    compare (Schema.make (fun _ => 0) [.int, .long]) [⟨1, .ascending⟩]
        (fun a => if a = 8 then 1 else 0) (fun a => if a = 4 then 1 else 0) = some true ∧
      (Schema.make (fun _ => 0) [.int, .long]).column (fun a => if a = 8 then 1 else 0) 1 = 2 ^ 32 ∧
      (Schema.make (fun _ => 0) [.int, .long]).column (fun a => if a = 4 then 1 else 0) 1 = 1 ∧
      ¬Lexicographic (Schema.make (fun _ => 0) [.int, .long]) [⟨1, .ascending⟩] := by
  have hcmp : compare (Schema.make (fun _ => 0) [.int, .long]) [⟨1, .ascending⟩]
      (fun a => if a = 8 then 1 else 0) (fun a => if a = 4 then 1 else 0) = some true := by
    decide
  have hleft : (Schema.make (fun _ => 0) [.int, .long]).column
      (fun a => if a = 8 then 1 else 0) 1 = 2 ^ 32 := by
    decide
  have hright : (Schema.make (fun _ => 0) [.int, .long]).column
      (fun a => if a = 4 then 1 else 0) 1 = 1 := by
    decide
  refine ⟨hcmp, hleft, hright, fun hlex => ?_⟩
  have heq := hlex.compare_eq (fun a => if a = 8 then 1 else 0) (fun a => if a = 4 then 1 else 0)
  rw [hcmp] at heq
  simp [keys_cons_le, signed, hleft, hright] at heq

end Comparator
end Mosito
