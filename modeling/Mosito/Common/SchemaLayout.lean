import Mosito.Lib.Layout
import Mosito.Common.Comparator
import Mathlib.Order.SuccPred.IntervalSucc

/-! The columns that the constructors of `Schema` and `NewSchema` lay out. There is no schema once
`offset` leaves its `int`. -/
namespace Mosito

namespace Schema

/-- A round of the loop, whose `offset+=4` or `offset+=8` does not overflow. -/
def addColumnChecked (s : Schema) (e : DataType × ℕ) : Option Schema :=
  if (s.addColumn e).bytes < 2 ^ 31 then some (s.addColumn e) else none

/-- `Schema(vector<Expression*> *v_e)`, from the `return_type`s. -/
def ofExpressions (junk : ℕ → ℕ) (ve : List DataType) : Option Schema :=
  ve.zipIdx.foldlM addColumnChecked ⟨[], junk, 0⟩

/-- `Schema(NewSchema *ns)`. -/
def ofNewSchema (junk : ℕ → ℕ) (ns : NewSchema) : Option Schema :=
  ns.vd.zipIdx.foldlM addColumnChecked ⟨[], junk, 0⟩

def getColumns (s : Schema) : ℕ := s.vd.length

/-- The width of a column in bytes. -/
def width (s : Schema) (i : ℕ) : ℕ := (s.getDataType i).elim 0 fun t => 4 * t.words

/-- The byte range of a column. -/
def range (s : Schema) (i : ℕ) : Set ℕ := Set.Ico (s.getAddr i) (s.getAddr i + s.width i)

/-- There is one column for each type, and the columns lie one after the other. -/
structure LaidOut (s : Schema) (es : List DataType) : Prop where
  columns : s.getColumns = es.length
  types : ∀ i < es.length, (s.getDataType i).map ColumnType.dataType = es[i]?
  consecutive : ∀ i, i + 1 < s.getColumns → s.getAddr (i + 1) = s.getAddr i + s.width i
  disjoint : ∀ i < s.getColumns, ∀ j < s.getColumns, i ≠ j → Disjoint (s.range i) (s.range j)
  covers : ∀ b, b < s.bytes ↔ ∃ i < s.getColumns, b ∈ s.range i

end Schema

namespace NewSchema

def addColumnChecked (ns : NewSchema) (d : DataType) : Option NewSchema :=
  if (ns.addColumn d).totalsize < 2 ^ 31 then some (ns.addColumn d) else none

/-- `NewSchema(vector<DataType *> &vd)`. -/
def ofDataTypes (vd : List DataType) : Option NewSchema := vd.foldlM addColumnChecked ⟨0, [], []⟩

end NewSchema

namespace Schema
variable {s : Schema} {ns : NewSchema} {es : List DataType} {junk : ℕ → ℕ} {d : DataType}

/-- The columns are at the offsets `accum_`. -/
structure Agrees (s : Schema) (ns : NewSchema) : Prop where
  offsets : (List.range s.getColumns).map s.getAddr = ns.accum
  bytes : s.bytes = ns.totalsize

/-- What is expected of the three constructors for a list of types. -/
def Aligned (junk : ℕ → ℕ) (es : List DataType) : Prop :=
  (∃ s, ofExpressions junk es = some s ∧ s.LaidOut es) ∧
    (.double ∉ es →
      ∃ ns s, NewSchema.ofDataTypes es = some ns ∧ ofNewSchema junk ns = some s ∧ s.Agrees ns)

/-- The bytes that the branches of the loop add up. -/
def total (es : List DataType) : ℕ := 4 * es.count .int + 8 * es.count .long

theorem foldl_addColumn_vd (es : List DataType) (s : Schema) (k : ℕ) :
    ((es.zipIdx k).foldl addColumn s).vd.map ColumnType.dataType =
      s.vd.map ColumnType.dataType ++ es.filter (· ≠ .double) := by
  induction es generalizing s k with
  | nil => exact (List.append_nil _).symm
  | cons d es ih =>
    rw [List.zipIdx_cons, List.foldl_cons, ih]
    cases d with
    | int => exact (congrArg (· ++ _) List.map_append).trans (List.append_assoc ..)
    | double => rfl
    | long => exact (congrArg (· ++ _) List.map_append).trans (List.append_assoc ..)

theorem foldl_addColumn_bytes (es : List DataType) (s : Schema) (k : ℕ) :
    ((es.zipIdx k).foldl addColumn s).bytes = s.bytes + total es := by
  induction es generalizing s k with
  | nil => rfl
  | cons d es ih =>
    rw [List.zipIdx_cons, List.foldl_cons, ih]
    unfold total
    cases d with
    | int =>
      rw [List.count_cons_self, List.count_cons_of_ne (by decide)]
      simp only [addColumn]
      omega
    | double => rw [List.count_cons_of_ne (by decide), List.count_cons_of_ne (by decide)]; rfl
    | long =>
      rw [List.count_cons_self, List.count_cons_of_ne (by decide)]
      simp only [addColumn]
      omega

theorem addColumn_bytes_le (s : Schema) (e : DataType × ℕ) : s.bytes ≤ (s.addColumn e).bytes := by
  rcases e with ⟨d | d | d, i⟩
  · exact Nat.le_add_right ..
  · exact le_rfl
  · exact Nat.le_add_right ..

/-- Both constructors of a schema do the same with the types. -/
theorem checked_eq (junk : ℕ → ℕ) (es : List DataType) :
    es.zipIdx.foldlM addColumnChecked ⟨[], junk, 0⟩ =
      if total es < 2 ^ 31 then some (make junk es) else none := by
  have hbounded := Layout.foldlM_bounded (f := addColumn) (m := bytes) addColumn_bytes_le
    (s := ⟨[], junk, 0⟩) (Nat.two_pow_pos 31) es.zipIdx
  have hbytes := foldl_addColumn_bytes es ⟨[], junk, 0⟩ 0
  rw [Nat.zero_add] at hbytes
  rw [hbytes] at hbounded
  exact hbounded

/-- Without `t_double`, the list is that of the types of some columns. -/
theorem exists_columns (hes : DataType.double ∉ es) :
    ∃ ts : List ColumnType, ts.map ColumnType.dataType = es := by
  induction es with
  | nil => exact ⟨[], rfl⟩
  | cons d es ih =>
    rw [List.mem_cons, not_or] at hes
    obtain ⟨ts, rfl⟩ := ih hes.2
    cases d with
    | int => exact ⟨.integer :: ts, rfl⟩
    | double => exact (hes.1 rfl).elim
    | long => exact ⟨.unLong :: ts, rfl⟩

theorem LaidOut.no_double (h : (make junk es).LaidOut es) : DataType.double ∉ es := by
  have hvd := foldl_addColumn_vd es ⟨[], junk, 0⟩ 0
  have hlen : (es.filter (· ≠ .double)).length = es.length := by
    rw [← h.columns, getColumns, make, ← List.length_map ColumnType.dataType, hvd]
    rfl
  intro hmem
  have hne := List.length_filter_eq_length_iff.mp hlen .double hmem
  cases hne

/-- The columns lie between the values of `before`, in bytes. -/
theorem laidOut_make (junk : ℕ → ℕ) (ts : List ColumnType) :
    (make junk (ts.map ColumnType.dataType)).LaidOut (ts.map ColumnType.dataType) := by
  obtain ⟨hvd, hbytes, hoff⟩ := make_spec junk ts
  generalize make junk (ts.map ColumnType.dataType) = s at *
  have hcolumns : s.getColumns = ts.length := congrArg List.length hvd
  have hend (i : ℕ) (hi : i < ts.length) : s.getAddr i + s.width i = 4 * before ts (i + 1) := by
    rw [getAddr, hoff i hi, width, getDataType, hvd, List.getElem?_eq_getElem hi,
      before_succ (List.getElem?_eq_getElem hi), Nat.mul_add]
    rfl
  have hrange (i : ℕ) (hi : i < ts.length) :
      s.range i = Set.Ico (4 * before ts i) (4 * before ts (i + 1)) := by
    rw [range, hend i hi, getAddr, hoff i hi]
  have hmono : Monotone fun i => 4 * before ts i := (before_mono ts).const_mul' 4
  constructor
  · rw [hcolumns, List.length_map]
  · intro i _
    rw [getDataType, hvd, List.getElem?_map]
  · intro i hi
    rw [hcolumns] at hi
    rw [hend i (Nat.lt_of_succ_lt hi), getAddr, hoff _ hi]
  · intro i hi j hj hij
    rw [hcolumns] at hi hj
    rw [hrange i hi, hrange j hj]
    exact hmono.pairwise_disjoint_on_Ico_succ hij
  · intro b
    rw [hbytes, Layout.lt_iff_exists_range hmono rfl, hcolumns]
    constructor
    · rintro ⟨i, hi, hb⟩
      rw [← Set.mem_Ico, ← hrange i hi] at hb
      exact ⟨i, hi, hb⟩
    · rintro ⟨i, hi, hb⟩
      rw [hrange i hi, Set.mem_Ico] at hb
      exact ⟨i, hi, hb⟩

/-- A new column of either type is at the next entry of `accum_`. -/
theorem Agrees.offsets_append (h : s.Agrees ns) (t : ColumnType) (bytes : ℕ) :
    (List.range (getColumns ⟨s.vd ++ [t], Function.update s.offset s.getColumns s.bytes, bytes⟩)).map
      (getAddr ⟨s.vd ++ [t], Function.update s.offset s.getColumns s.bytes, bytes⟩) =
      ns.accum ++ [ns.totalsize] := by
  have hlen : getColumns ⟨s.vd ++ [t], Function.update s.offset s.getColumns s.bytes, bytes⟩ =
      s.getColumns + 1 := List.length_append
  rw [hlen, List.range_succ, List.map_append, List.map_singleton, ← h.offsets, ← h.bytes]
  congr 1
  · apply List.map_congr_left
    intro i hi
    exact Function.update_of_ne (List.mem_range.mp hi).ne ..
  · exact congrArg (fun x => [x]) (Function.update_self ..)

theorem Agrees.addColumn (h : s.Agrees ns) (hd : d ≠ .double) :
    (s.addColumn (d, s.getColumns)).Agrees (ns.addColumn d) := by
  cases d with
  | int => exact ⟨h.offsets_append .integer _, congrArg (· + 4) h.bytes⟩
  | double => exact (hd rfl).elim
  | long => exact ⟨h.offsets_append .unLong _, congrArg (· + 8) h.bytes⟩

theorem getColumns_addColumn (hd : d ≠ .double) (i : ℕ) :
    (s.addColumn (d, i)).getColumns = s.getColumns + 1 := by
  cases d with
  | int => exact List.length_append
  | double => exact (hd rfl).elim
  | long => exact List.length_append

theorem Agrees.foldl (h : s.Agrees ns) (hes : DataType.double ∉ es) :
    ((es.zipIdx s.getColumns).foldl Schema.addColumn s).Agrees (es.foldl NewSchema.addColumn ns) := by
  induction es generalizing s ns with
  | nil => exact h
  | cons d es ih =>
    rw [List.mem_cons, not_or] at hes
    have hd : d ≠ .double := Ne.symm hes.1
    rw [List.zipIdx_cons, List.foldl_cons, List.foldl_cons, ← getColumns_addColumn hd s.getColumns]
    exact ih (h.addColumn hd) hes.2

/-- A new schema keeps the types, if it has a branch for each of them. -/
theorem newSchema_vd (hes : DataType.double ∉ es) (ns : NewSchema) :
    (es.foldl NewSchema.addColumn ns).vd = ns.vd ++ es := by
  induction es generalizing ns with
  | nil => exact (List.append_nil _).symm
  | cons d es ih =>
    rw [List.mem_cons, not_or] at hes
    rw [List.foldl_cons, ih hes.2]
    cases d with
    | int => exact List.append_assoc ..
    | double => exact (hes.1 rfl).elim
    | long => exact List.append_assoc ..

theorem newSchema_totalsize_le (ns : NewSchema) (d : DataType) :
    ns.totalsize ≤ (ns.addColumn d).totalsize := by
  cases d with
  | int => exact Nat.le_add_right ..
  | double => exact le_rfl
  | long => exact Nat.le_add_right ..

/-- The three constructors do what is expected exactly if no type is `t_double` and the tuple has
at most `INT_MAX` bytes. -/
theorem aligned_iff (junk : ℕ → ℕ) (es : List DataType) :
    Aligned junk es ↔ DataType.double ∉ es ∧ total es < 2 ^ 31 := by
  constructor
  · rintro ⟨⟨s, hs, hlaid⟩, -⟩
    rw [ofExpressions, checked_eq] at hs
    split_ifs at hs with htotal
    cases hs
    exact ⟨hlaid.no_double, htotal⟩
  · rintro ⟨hes, htotal⟩
    have hmake (ve : List DataType) (hve : ve = es) :
        ve.zipIdx.foldlM addColumnChecked ⟨[], junk, 0⟩ = some (make junk es) := by
      rw [hve, checked_eq, if_pos htotal]
    constructor
    · obtain ⟨ts, rfl⟩ := exists_columns hes
      exact ⟨_, hmake _ rfl, laidOut_make junk ts⟩
    · intro _
      have hempty : Agrees ⟨[], junk, 0⟩ ⟨0, [], []⟩ := ⟨rfl, rfl⟩
      have hagrees : (make junk es).Agrees (NewSchema.make es) := hempty.foldl hes
      refine ⟨NewSchema.make es, make junk es, ?_, hmake _ (newSchema_vd hes _), hagrees⟩
      have hbounded := Layout.foldlM_bounded (f := NewSchema.addColumn) (m := NewSchema.totalsize)
        newSchema_totalsize_le (s := ⟨0, [], []⟩) (Nat.two_pow_pos 31) es
      have htotalsize : (NewSchema.make es).totalsize = total es := by
        rw [← hagrees.bytes, make, foldl_addColumn_bytes, Nat.zero_add]
      rw [← NewSchema.make, htotalsize, if_pos htotal] at hbounded
      exact hbounded

/-- The double gets no column, so that two expressions have one column. -/
theorem not_aligned_double : ¬ Aligned (fun _ => 0) [.double, .int] := by
  rintro ⟨⟨s, hs, hlaid⟩, -⟩
  rw [ofExpressions, checked_eq, if_pos (by decide)] at hs
  cases hs
  exact absurd hlaid.columns (by decide)

end Schema
end Mosito
