import Mosito.Lib.Reach
import Mathlib.Data.Option.Basic
import Mathlib.Data.Int.Notation
import Mathlib.Data.Nat.Notation

/-! The nodes of the parser. A node starts with a tag, which the caller of its constructor chooses;
the constructor chooses the struct that is allocated. -/
namespace Mosito.Ast

/-- The tags that the productions write or that `output` has a case for. -/
inductive NodeType where
  | name
  | nameName
  | stringval
  | intnum
  | approxnum
  | bool
  | dateval
  | table
  | column
  | join
  | condition
  | queryStmt
  | selectList
  | selectExpr
  | exprListHeader
  | exprList
  | exprCal
  | exprFunc
  | fromList
  | fromExpr
  | whereList
  | groupbyList
  | groupbyExpr
  | havingList
  | orderbyList
  | orderbyExpr
  | limitExpr
  | optCsc
  | datatype
  | length
  | enumList
  deriving DecidableEq, Repr

/-- The structs behind the tags. -/
inductive Struct where
  | expr
  | exprListHeader
  | exprList
  | columns
  | exprCal
  | exprFunc
  | table
  | join
  | condition
  | queryStmt
  | selectList
  | selectExpr
  | fromList
  | fromExpr
  | whereList
  | groupbyList
  | groupbyExpr
  | havingList
  | orderbyList
  | orderbyExpr
  | limitExpr
  | optCsc
  | datatype
  | length
  | enumList
  deriving DecidableEq, Repr

/-- The struct that a tag names: where `output` has a case for the tag, the one it casts to. -/
def NodeType.struct : NodeType → Struct
  | name | nameName | column => .columns
  | stringval | intnum | approxnum | bool | dateval => .expr
  | table => .table
  | join => .join
  | condition => .condition
  | queryStmt => .queryStmt
  | selectList => .selectList
  | selectExpr => .selectExpr
  | exprListHeader => .exprListHeader
  | exprList => .exprList
  | exprCal => .exprCal
  | exprFunc => .exprFunc
  | fromList => .fromList
  | fromExpr => .fromExpr
  | whereList => .whereList
  | groupbyList => .groupbyList
  | groupbyExpr => .groupbyExpr
  | havingList => .havingList
  | orderbyList => .orderbyList
  | orderbyExpr => .orderbyExpr
  | limitExpr => .limitExpr
  | optCsc => .optCsc
  | datatype => .datatype
  | length => .length
  | enumList => .enumList

/-- A `char *`. `local` points into an array of a block that has ended. -/
inductive Chars where
  | null
  | text (s : String)
  | local (s : String)
  deriving DecidableEq, Repr

def Chars.ofOption : Option String → Chars
  | none => .null
  | some s => .text s

/-- A `Node *`: null, a value of the scanner that is no node, or a node with its struct. -/
inductive Ptr where
  | null
  | token
  | expr (type : NodeType) (data : Chars)
  | exprListHeader (type : NodeType) (header tail : Ptr)
  | exprList (type : NodeType) (data next : Ptr)
  | columns (type : NodeType) (parameter1 parameter2 : Chars) (next : Ptr)
  | exprCal (type : NodeType) (str sign parameter : Chars) (cmp : ℤ) (lnext rnext : Ptr)
  | exprFunc (type : NodeType) (str funname : Chars) (args parameter1 parameter2 next : Ptr)
  | table (type : NodeType) (dbname tablename astablename : Chars) (issubquery : ℤ)
      (subquery whcdn : Ptr)
  | join (type : NodeType) (jointype : ℤ) (lnext rnext condition : Ptr)
  | condition (type : NodeType) (conditiontype : ℤ) (args : Ptr)
  | queryStmt (type : NodeType) (querystring : Chars) (selectOpts : ℤ)
      (selectList fromList whereList groupbyList havingList orderbyList limitList intoList : Ptr)
  | selectList (type : NodeType) (isall : ℤ) (args next : Ptr)
  | selectExpr (type : NodeType) (ascolname : Chars) (colname : Ptr)
  | fromList (type : NodeType) (args next whcdn : Ptr)
  | fromExpr (type : NodeType) (astablename : Chars) (next : Ptr)
  | whereList (type : NodeType) (wherestring : Chars) (next : Ptr)
  | groupbyList (type : NodeType) (groupbystring : Chars) (next : Ptr) (withRollup : ℤ)
  | groupbyExpr (type : NodeType) (args : Ptr) (sorttype : ℤ) (next : Ptr)
  | havingList (type : NodeType) (havingstring : Chars) (next : Ptr)
  | orderbyList (type : NodeType) (orderbystring : Chars) (next : Ptr)
  | orderbyExpr (type : NodeType) (args : Ptr) (sorttype : Chars) (next : Ptr)
  | limitExpr (type : NodeType) (offset rowCount : Ptr)
  | optCsc (type : NodeType) (datatype : ℕ) (s1 s2 : Chars)
  | datatype (type : NodeType) (datatype : ℤ) (length : Ptr) (optUz : ℤ) (optCsc : Ptr)
      (isbinary : ℤ) (enumList : Ptr)
  | length (type : NodeType) (data1 data2 : ℤ)
  | enumList (type : NodeType) (s : Chars) (next : Ptr)

def newExpr (t : NodeType) (d : Chars) : Ptr := .expr t d

def newExprList (t : NodeType) (data next : Ptr) : Ptr := .exprList t data next

def newColumn (t : NodeType) (parameter1 parameter2 : Chars) (next : Ptr) : Ptr :=
  .columns t parameter1 parameter2 next

def newExprCal (type : NodeType) (sign parameter : Chars) (cmp : ℤ) (lnext rnext : Ptr) : Ptr :=
  .exprCal type (.text "") sign parameter cmp lnext rnext

def newExprFunc (type : NodeType) (funname : Chars) (args parameter1 parameter2 next : Ptr) : Ptr :=
  .exprFunc type (.text "") funname args parameter1 parameter2 next

/-- The tag that is passed is not used. -/
def newExprlistheader (_type : NodeType) (header tail : Ptr) : Ptr :=
  .exprListHeader .exprListHeader header tail

def newTable (type : NodeType) (dbname tablename astablename : Chars) (issubquery : ℤ)
    (subquery : Ptr) : Ptr :=
  .table type dbname tablename astablename issubquery subquery
    (newExprlistheader .exprListHeader .null .null)

def newJoin (type : NodeType) (jointype : ℤ) (lnext rnext condition : Ptr) : Ptr :=
  .join type jointype lnext rnext condition

def newCondition (type : NodeType) (conditiontype : ℤ) (args : Ptr) : Ptr :=
  .condition type conditiontype args

def newQueryStmt (t : NodeType) (querystring : Chars) (selectOpts : ℤ)
    (selectList fromList whereList groupbyList havingList orderbyList limitList intoList : Ptr) :
    Ptr :=
  .queryStmt t querystring selectOpts selectList fromList whereList groupbyList havingList
    orderbyList limitList intoList

def newSelectList (type : NodeType) (isall : ℤ) (args next : Ptr) : Ptr :=
  .selectList type isall args next

def newSelectExpr (type : NodeType) (ascolname : Chars) (colname : Ptr) : Ptr :=
  .selectExpr type ascolname colname

def newFromList (type : NodeType) (args next : Ptr) : Ptr :=
  .fromList type args next (newExprlistheader .exprListHeader .null .null)

def newWhereList (type : NodeType) (wherestring : Chars) (next : Ptr) : Ptr :=
  .whereList type wherestring next

def newGroupbyList (type : NodeType) (groupbystring : Chars) (next : Ptr) (withRollup : ℤ) : Ptr :=
  .groupbyList type groupbystring next withRollup

def newGroupbyExpr (type : NodeType) (args : Ptr) (sorttype : ℤ) (next : Ptr) : Ptr :=
  .groupbyExpr type args sorttype next

def newHavingList (type : NodeType) (havingstring : Chars) (next : Ptr) : Ptr :=
  .havingList type havingstring next

def newOrderbyList (type : NodeType) (orderbystring : Chars) (next : Ptr) : Ptr :=
  .orderbyList type orderbystring next

def newLimitExpr (type : NodeType) (offset rowCount : Ptr) : Ptr := .limitExpr type offset rowCount

def newOptCsc (type : NodeType) (datatype : ℕ) (s1 s2 : Chars) : Ptr := .optCsc type datatype s1 s2

def newDatatype (type : NodeType) (datatype : ℤ) (length : Ptr) (optUz : ℤ) (optCsc : Ptr)
    (isbinary : ℤ) (enumList : Ptr) : Ptr :=
  .datatype type datatype length optUz optCsc isbinary enumList

def newLength (type : NodeType) (data1 data2 : ℤ) : Ptr := .length type data1 data2

def newEnumList (type : NodeType) (s : Chars) (next : Ptr) : Ptr := .enumList type s next

namespace Ptr

/-- The node's tag, and the struct it was allocated as. -/
def built : Ptr → Option (NodeType × Struct)
  | null | token => none
  | expr t _ => some (t, .expr)
  | exprListHeader t _ _ => some (t, .exprListHeader)
  | exprList t _ _ => some (t, .exprList)
  | columns t _ _ _ => some (t, .columns)
  | exprCal t _ _ _ _ _ _ => some (t, .exprCal)
  | exprFunc t _ _ _ _ _ _ => some (t, .exprFunc)
  | table t _ _ _ _ _ _ => some (t, .table)
  | join t _ _ _ _ => some (t, .join)
  | condition t _ _ => some (t, .condition)
  | queryStmt t _ _ _ _ _ _ _ _ _ _ => some (t, .queryStmt)
  | selectList t _ _ _ => some (t, .selectList)
  | selectExpr t _ _ => some (t, .selectExpr)
  | fromList t _ _ _ => some (t, .fromList)
  | fromExpr t _ _ => some (t, .fromExpr)
  | whereList t _ _ => some (t, .whereList)
  | groupbyList t _ _ _ => some (t, .groupbyList)
  | groupbyExpr t _ _ _ => some (t, .groupbyExpr)
  | havingList t _ _ => some (t, .havingList)
  | orderbyList t _ _ => some (t, .orderbyList)
  | orderbyExpr t _ _ _ => some (t, .orderbyExpr)
  | limitExpr t _ _ => some (t, .limitExpr)
  | optCsc t _ _ _ => some (t, .optCsc)
  | datatype t _ _ _ _ _ _ => some (t, .datatype)
  | length t _ _ => some (t, .length)
  | enumList t _ _ => some (t, .enumList)

/-- The pointers of the node's struct. -/
def fields : Ptr → List Ptr
  | null | token | expr _ _ | optCsc _ _ _ _ | length _ _ _ => []
  | exprListHeader _ header tail => [header, tail]
  | exprList _ data next => [data, next]
  | columns _ _ _ next => [next]
  | exprCal _ _ _ _ _ lnext rnext => [lnext, rnext]
  | exprFunc _ _ _ args parameter1 parameter2 next => [args, parameter1, parameter2, next]
  | table _ _ _ _ _ subquery whcdn => [subquery, whcdn]
  | join _ _ lnext rnext cond => [lnext, rnext, cond]
  | condition _ _ args => [args]
  | queryStmt _ _ _ select source filter groupby having orderby limit into =>
      [select, source, filter, groupby, having, orderby, limit, into]
  | selectList _ _ args next => [args, next]
  | selectExpr _ _ colname => [colname]
  | fromList _ args next whcdn => [args, next, whcdn]
  | fromExpr _ _ next => [next]
  | whereList _ _ next => [next]
  | groupbyList _ _ next _ => [next]
  | groupbyExpr _ args _ next => [args, next]
  | havingList _ _ next => [next]
  | orderbyList _ _ next => [next]
  | orderbyExpr _ args _ next => [args, next]
  | limitExpr _ offset rowCount => [offset, rowCount]
  | datatype _ _ len _ csc _ enums => [len, csc, enums]
  | enumList _ _ next => [next]

/-- Null, or a node whose tag names its struct. -/
def Tagged (p : Ptr) : Prop := p = null ∨ ∃ t, p.built = some (t, t.struct)

/-- The tag of a tagged node names its struct. -/
theorem Tagged.struct_eq {p : Ptr} {t : NodeType} {s : Struct} (h : p.Tagged)
    (hb : p.built = some (t, s)) : t.struct = s := by
  obtain rfl | ⟨t', ht'⟩ := h
  · cases hb
  · rw [hb] at ht'
    cases ht'
    rfl

end Ptr

end Mosito.Ast
