import Mosito.Sql.NodeStruct
import Mathlib.Tactic.Common

/-! The consumers of the tree. They cast a node by its tag, or without looking at it; `none` stands
for a read of a field that the node's struct does not have. -/
namespace Mosito.Ast

/-- What is passed to `cout`. -/
inductive Item where
  | text (s : String)
  | chars (s : Chars)
  | int (n : ℤ)
  deriving DecidableEq, Repr

abbrev Printed := Option (List Item)

/-- One after the other. -/
def inOrder : List Printed → Printed
  | [] => some []
  | p :: ps => p.bind fun items => (inOrder ps).map (items ++ ·)

def endl : Item := .text "\n"

def outputSpace (floor : ℕ) : List Item := List.replicate floor (.text "  ")

def line (floor : ℕ) (items : List Item) : Printed := some (outputSpace floor ++ items ++ [endl])

/-- Printed if it is not null. -/
def charsItem : Chars → List Item
  | .null => []
  | s => [.chars s, .text " "]

/-- Printed if it is not zero. -/
def intItem (n : ℤ) : List Item := if n = 0 then [] else [.int n, .text " "]

/-- The tags that the switch of `output` lists. -/
def NodeType.hasCase : NodeType → Bool
  | exprListHeader | optCsc | datatype | length | enumList => false
  | _ => true

/-- The text of the cases that cast to `Expr`. -/
def NodeType.label : NodeType → String
  | stringval => "t_stringval: "
  | intnum => "t_intnum: "
  | approxnum => "t_approxnum: "
  | bool => "t_bool: "
  | dateval => "t_dateval: "
  | _ => ""

/-- The case of the switch for a node that was allocated as `built`. -/
def switch (type : NodeType) (built : Struct) (body : Printed) : Printed :=
  if type.hasCase then
    if type.struct = built then body else none
  else some [.text "output type not exist!!!\n"]

mutual

def output : Ptr → ℕ → Printed
  | .null, _ => some []
  | .token, _ => none
  | .expr type data, floor =>
      switch type .expr (line floor [.text type.label, .chars data])
  | .columns type parameter1 parameter2 next, floor =>
      switch type .columns
        (match type with
        | .nameName =>
            line floor [.text "Columns: ", .chars parameter1, .text "  ", .chars parameter2]
        | .name => line floor [.text "Columns: ", .chars parameter2]
        | _ => inOrder
            [line floor ([.text "Columns: "] ++ charsItem parameter1 ++ charsItem parameter2),
              output next (floor + 1)])
  | .exprList type data next, floor =>
      switch type .exprList (inOrder
        [line floor [.text "Expr_list: "], output data (floor + 1), output next floor])
  | .exprCal type str sign parameter cmp lnext rnext, floor =>
      switch type .exprCal (inOrder
        [line floor [.text "str: >>>>>>>>", .chars str],
          line floor ([.text "Expr_cal: "] ++ charsItem sign ++ charsItem parameter ++ intItem cmp),
          output lnext (floor + 1), output rnext (floor + 1)])
  | .exprFunc type str funname args parameter1 parameter2 next, floor =>
      switch type .exprFunc (inOrder
        [some (outputSpace floor ++
            if str = .null then [] else [.text "str: >>>>>>>>", .chars str, endl]),
          line floor ([.text "Expr_func: "] ++ charsItem funname),
          output args (floor + 1), output parameter1 (floor + 1), output parameter2 (floor + 1),
          output next (floor + 1)])
  | .table type dbname tablename astablename issubquery subquery whcdn, floor =>
      switch type .table (inOrder
        [line floor ([.text "Table: "] ++ charsItem dbname ++ charsItem tablename ++
            charsItem astablename ++ intItem issubquery),
          output subquery (floor + 1), outputHeader whcdn (floor + 1)])
  | .queryStmt type querystring selectOpts select source filter groupby having orderby limit into,
      floor =>
      switch type .queryStmt (inOrder
        [line floor ([.text "Query_stmt: "] ++ charsItem querystring ++ intItem selectOpts),
          output select (floor + 1), output source (floor + 1), output filter (floor + 1),
          output groupby (floor + 1), output having (floor + 1), output orderby (floor + 1),
          output limit (floor + 1), output into (floor + 1)])
  | .selectList type isall args next, floor =>
      switch type .selectList (inOrder
        [line floor ([.text "select_list: "] ++ if isall = 0 then [] else [.text "is all "]),
          output args (floor + 1), output next floor])
  | .selectExpr type ascolname colname, floor =>
      switch type .selectExpr (inOrder
        [line floor ([.text "Select_expr: "] ++ charsItem ascolname), output colname (floor + 1)])
  | .fromList type args next whcdn, floor =>
      switch type .fromList (inOrder
        [line floor [.text "From_list: "], outputHeader whcdn (floor + 1),
          output args (floor + 1), output next (floor + 1)])
  | .fromExpr type astablename next, floor =>
      switch type .fromExpr (inOrder
        [line floor ([.text "From_expr: "] ++
            if astablename = .null then [] else [.chars astablename]),
          output next (floor + 1)])
  | .whereList type wherestring next, floor =>
      switch type .whereList (inOrder
        [line floor ([.text "Where_list: "] ++
            if wherestring = .null then [] else [.chars wherestring]),
          output next (floor + 1)])
  | .groupbyList type groupbystring next withRollup, floor =>
      switch type .groupbyList (inOrder
        [line floor ([.text "Groupby_list: "] ++ charsItem groupbystring ++ intItem withRollup),
          output next (floor + 1)])
  | .groupbyExpr type args sorttype next, floor =>
      switch type .groupbyExpr (inOrder
        [line floor ([.text "Groupby_expr: "] ++ intItem sorttype),
          output args (floor + 1), output next (floor + 1)])
  | .havingList type havingstring next, floor =>
      switch type .havingList (inOrder
        [line floor ([.text "Having_list: "] ++ charsItem havingstring), output next (floor + 1)])
  | .orderbyList type orderbystring next, floor =>
      switch type .orderbyList (inOrder
        [line floor ([.text "Orderby_list: "] ++ charsItem orderbystring), output next (floor + 1)])
  | .orderbyExpr type args sorttype next, floor =>
      switch type .orderbyExpr (inOrder
        [line floor ([.text "Orderby_expr: "] ++ charsItem sorttype),
          output args (floor + 1), output next (floor + 1)])
  | .limitExpr type offset rowCount, floor =>
      switch type .limitExpr (inOrder
        [line floor [.text "Limit_expr: "], output offset (floor + 1), output rowCount (floor + 1)])
  | .join type jointype lnext rnext condition, floor =>
      switch type .join (inOrder
        [line floor [.text "Join:   jtype= ", .int jointype],
          output lnext (floor + 1), output rnext (floor + 1), output condition (floor + 1)])
  | .condition type conditiontype args, floor =>
      switch type .condition (inOrder
        [line floor [.text "joincondition:   ctype= ", .int conditiontype],
          output args (floor + 1)])
  | .exprListHeader type _ _, _ => switch type .exprListHeader none
  | .optCsc type _ _ _, _ => switch type .optCsc none
  | .datatype type _ _ _ _ _ _, _ => switch type .datatype none
  | .length type _ _, _ => switch type .length none
  | .enumList type _ _, _ => switch type .enumList none

/-- The loop over `whcdn`, which is cast to `Expr_list_header` whatever its tag. -/
def outputHeader : Ptr → ℕ → Printed
  | .exprListHeader _ header _, floor => outputEach header floor
  | _, _ => none

/-- `output` of every cell; the cells are cast to `Expr_list` whatever their tags. -/
def outputEach : Ptr → ℕ → Printed
  | .null, _ => some []
  | .exprList type data next, floor =>
      inOrder
        [switch type .exprList (inOrder
            [line floor [.text "Expr_list: "], output data (floor + 1), output next floor]),
          outputEach next floor]
  | _, _ => none

end

theorem outputEach_exprList (type : NodeType) (data next : Ptr) (floor : ℕ) :
    outputEach (.exprList type data next) floor =
      inOrder [output (.exprList type data next) floor, outputEach next floor] := by
  rw [outputEach, output]

/-- The tags that `osgwf_2_lp` casts to `Columns`. -/
def NodeType.isColumn : NodeType → Bool
  | name | column | nameName => true
  | _ => false

/-- What `osgwf_2_lp` prints for `ge->args`. -/
def printSortKey (args : Ptr) : Printed :=
  args.built.bind fun (type, _) =>
    if type.isColumn then
      match args with
      | .columns _ _ parameter2 _ => some [.text "in sort: ", .chars parameter2, endl]
      | _ => none
    else some []

/-- What is printed for a select statement; `sgwf_2_lp` prints nothing and returns null. -/
def osgwf2Lp : Ptr → Printed
  | .queryStmt _ _ _ _ _ _ _ _ orderby _ _ =>
      match orderby with
      | .null => some []
      | .orderbyList _ _ (.groupbyExpr _ args _ _) =>
          inOrder [some [.text "I am in 2_lp;", endl], printSortKey args]
      | _ => none
  | _ => none

theorem NodeType.hasCase_eq_false {type : NodeType}
    (h : type.struct ∈ [.exprListHeader, .optCsc, .datatype, .length, .enumList]) :
    type.hasCase = false := by
  cases type <;> simp [struct] at h <;> rfl

theorem NodeType.isColumn_eq_false {type : NodeType} (h : type.struct ≠ .columns) :
    type.isColumn = false := by
  cases type <;> first | rfl | exact absurd rfl h

section IsSome
variable {type : NodeType} {built : Struct} {body : Printed}

@[simp] theorem inOrder_isSome {ps : List Printed} :
    (inOrder ps).isSome ↔ ∀ p ∈ ps, p.isSome := by
  induction ps with
  | nil => simp [inOrder]
  | cons p ps ih => cases p <;> simp [inOrder, ih]

@[simp] theorem line_isSome (floor : ℕ) (items : List Item) : (line floor items).isSome := rfl

theorem switch_isSome (hs : type.struct = built) (hb : type.hasCase → body.isSome) :
    (switch type built body).isSome := by
  unfold switch
  rw [if_pos hs]
  split
  · exact hb ‹_›
  · rfl

end IsSome

namespace Ptr

/-- `Expr_list` cells, down to null. -/
def isList : Ptr → Bool
  | null => true
  | exprList _ _ next => next.isList
  | _ => false

def isHeader : Ptr → Bool
  | exprListHeader _ header _ => header.isList
  | _ => false

/-- The node's `whcdn`, if it has one, is a header with a list. -/
def headed : Ptr → Bool
  | table _ _ _ _ _ _ whcdn => whcdn.isHeader
  | fromList _ _ _ whcdn => whcdn.isHeader
  | _ => true

/-- The tag names the struct, and so do the casts that do not look at a tag. -/
def Readable (p : Ptr) : Prop := p.Tagged ∧ p.headed = true

/-- What holds of a node if it holds of its fields, holds. -/
theorem fields_induction {P : Ptr → Prop} (step : ∀ p, (∀ q ∈ p.fields, P q) → P p) (p : Ptr) :
    P p := by
  induction p
  all_goals
    apply step
    clear step
    simp_all [fields]

end Ptr

open Mosito.Ast.Ptr

/-- A node is printed if its tag names its struct and its fields are printed. -/
theorem output_step {p : Ptr} (ht : p.Tagged) (hh : p.headed = true)
    (hout : ∀ q ∈ p.fields, ∀ floor, (output q floor).isSome)
    (hheader : ∀ q ∈ p.fields, q.isHeader = true → ∀ floor, (outputHeader q floor).isSome)
    (floor : ℕ) : (output p floor).isSome := by
  cases p with
  | null => rfl
  | token => simp [Tagged, built] at ht
  | columns type parameter1 parameter2 next =>
    apply switch_isSome (ht.struct_eq rfl)
    intro _
    have hnext := hout next (by simp [fields]) (floor + 1)
    split <;> simp [hnext]
  | table type dbname tablename astablename issubquery subquery whcdn =>
    apply switch_isSome (ht.struct_eq rfl)
    have hwhcdn := hheader whcdn (by simp [fields]) hh (floor + 1)
    have hsubquery := hout subquery (by simp [fields]) (floor + 1)
    simp [hwhcdn, hsubquery]
  | fromList type args next whcdn =>
    apply switch_isSome (ht.struct_eq rfl)
    have hwhcdn := hheader whcdn (by simp [fields]) hh (floor + 1)
    simp_all [fields]
  | exprListHeader | optCsc | datatype | length | enumList =>
    have hs := ht.struct_eq rfl
    apply switch_isSome hs
    simp [NodeType.hasCase_eq_false, hs]
  | _ =>
    apply switch_isSome (ht.struct_eq rfl)
    simp_all [fields]

/-- `output` of a readable tree reads fields of the structs only. -/
theorem output_isSome {p : Ptr} (h : Reach.All fields Readable p) (floor : ℕ) :
    (output p floor).isSome := by
  suffices hall : ∀ p : Ptr, Reach.All fields Readable p →
      (∀ floor, (output p floor).isSome) ∧
        (p.isList = true → ∀ floor, (outputEach p floor).isSome) ∧
        (p.isHeader = true → ∀ floor, (outputHeader p floor).isSome) from (hall p h).1 floor
  intro p
  induction p using fields_induction with
  | step p ih =>
    intro h
    have hfield (q) (hq : q ∈ p.fields) := ih q hq (h.field hq)
    have hout : ∀ floor, (output p floor).isSome := output_step h.self.1 h.self.2
      (fun q hq => (hfield q hq).1) fun q hq => (hfield q hq).2.2
    constructor
    · exact hout
    · constructor
      · intro hlist floor
        cases p with
        | null => rfl
        | exprList type data next =>
          have hnext := (hfield next (by simp [fields])).2.1 hlist floor
          simp [outputEach_exprList, hout, hnext]
        | _ => cases hlist
      · intro hheader floor
        cases p with
        | exprListHeader type header tail =>
          exact (hfield header (by simp [fields])).2.1 hheader floor
        | _ => cases hheader

/-- A sort key is read as a column if it is tagged as one; null has no tag to be read. -/
theorem printSortKey_isSome_iff {args : Ptr} (ht : args.Tagged) :
    (printSortKey args).isSome ↔ args ≠ null := by
  cases args with
  | null => simp [printSortKey, built]
  | token => simp [Tagged, built] at ht
  | columns type parameter1 parameter2 next =>
    simp only [printSortKey, built, Option.bind_some]
    split <;> simp
  | _ =>
    have hs := ht.struct_eq rfl
    simp [printSortKey, built, NodeType.isColumn_eq_false, hs]

end Mosito.Ast
