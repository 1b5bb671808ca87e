import Mosito.Sql.ExprAst
import Mosito.Sql.DataType

/-! The productions of expressions and select statements, and what their actions build. -/
namespace Mosito.Ast

/-- The expressions of one keyword or character without a value. Their rules have no action. -/
inductive BareToken where
  | question
  | currentTimestamp
  | currentDate
  | currentTime
  deriving DecidableEq, Repr

/-- The functions of one expression. -/
inductive OneFunction where
  | count
  | sum
  | avg
  | min
  | max
  | trim
  | upper
  deriving DecidableEq, Repr

/-- `trim_ltb`. -/
inductive TrimLtb where
  | leading
  | trailing
  | both
  deriving DecidableEq, Repr

/-- `date_type`. -/
inductive DateType where
  | nil
  | integer
  | string
  | double
  | float
  | char
  deriving DecidableEq, Repr

/-- The units of `interval_exp`. -/
inductive IntervalUnit where
  | dayHour
  | dayMicrosecond
  | dayMinute
  | daySecond
  | day
  | yearMonth
  | year
  | week
  | quarter
  deriving DecidableEq, Repr

/-- The words of `select_opts`. -/
inductive SelectOption where
  | all
  | distinct
  | distinctrow
  | highPriority
  | straightJoin
  | sqlSmallResult
  | sqlBigResult
  | sqlCalcFoundRows
  deriving DecidableEq, Repr

/-- `opt_inner_cross`. -/
inductive InnerCross where
  | nil
  | inner
  | cross
  deriving DecidableEq, Repr

/-- `left_or_right`. -/
inductive LeftRight where
  | left
  | right
  deriving DecidableEq, Repr

def OneFunction.funname : OneFunction → String
  | count => "FCOUNT"
  | sum => "FSUM"
  | avg => "FAVG"
  | min => "FMIN"
  | max => "FMAX"
  | trim => "FTRIM3"
  | upper => "FUPPER"

def TrimLtb.strval : TrimLtb → String
  | leading => "FTRIM1"
  | trailing => "FTRIM2"
  | both => "FTRIM0"

/-- The array `d` is local to the action. -/
def DateType.ast : DateType → Ptr
  | nil => .null
  | integer => newExpr .stringval (.local "int")
  | string => newExpr .stringval (.local "string")
  | double => newExpr .stringval (.local "double")
  | float => newExpr .stringval (.local "float")
  | char => newExpr .stringval (.local "char")

def IntervalUnit.funname : IntervalUnit → String
  | dayHour => "INTERVAL_HOUR"
  | dayMicrosecond => "INTERVAL_MICROSECOND"
  | dayMinute => "INTERVAL_MINUTE"
  | daySecond => "INTERVAL_SECOND"
  | day => "INTERVAL_DAY"
  | yearMonth => "INTERVAL_MONTH"
  | year => "INTERVAL_YEAR"
  | week => "INTERVAL_WEEK"
  | quarter => "INTERVAL_QUARTER"

def SelectOption.bit : SelectOption → ℕ
  | all => 1
  | distinct => 2
  | distinctrow => 4
  | highPriority => 8
  | straightJoin => 16
  | sqlSmallResult => 32
  | sqlBigResult => 64
  | sqlCalcFoundRows => 128

def selectOpts (opts : List SelectOption) : ℕ := opts.foldl (fun v o => v ||| o.bit) 0

def InnerCross.intval : InnerCross → ℤ
  | nil => 0
  | inner => 1
  | cross => 2

def LeftRight.intval : LeftRight → ℤ
  | left => 8
  | right => 16

/-- `opt_outer`. -/
def optOuter (outer : Bool) : ℤ := if outer then 4 else 0

/-- `opt_left_or_right_outer`. -/
def optLeftOrRightOuter : Option (LeftRight × Bool) → ℤ
  | none => 0
  | some (side, outer) => side.intval + optOuter outer

/-- The symbols with a node for a value. -/
inductive Symbol where
  | expr
  | exprList
  | optExprList
  | intervalExp
  | caseList
  | dataType
  | selectStmt
  | selectExprList
  | selectExpr
  | columnList
  | optWhere
  | groupbyList
  | optGroupby
  | optHaving
  | optOrderby
  | optLimit
  | optIntoList
  | tableReferences
  | tableReference
  | tableFactor
  | joinTable
  | joinCondition
  | optJoinCondition
  deriving DecidableEq, Repr

/-- The derivations, rule by rule; rules that differ in a token or a `NOT` only are one constructor.
`lexed` says that the scanner gave a token a value before the keyword that has none. -/
inductive Derivation : Symbol → Type where
  | leaf (l : Leaf) : Derivation .expr
  | bareToken (t : BareToken) (lexed : Bool) : Derivation .expr
  | binary (op : BinaryOp) (l r : Derivation .expr) : Derivation .expr
  | unary (op : UnaryOp) (e : Derivation .expr) : Derivation .expr
  | comparison (c : Comparison) (l r : Derivation .expr) : Derivation .expr
  | comparisonSelect (c : Comparison) (q : Option Quantifier) (l : Derivation .expr)
      (s : Derivation .selectStmt) : Derivation .expr
  | shift (t : ShiftToken) (l r : Derivation .expr) : Derivation .expr
  | assign (name : String) (e : Derivation .expr) : Derivation .expr
  | paren (e : Derivation .expr) : Derivation .expr
  | isNull (negated : Bool) (e : Derivation .expr) : Derivation .expr
  | isBool (negated : Bool) (e : Derivation .expr) (b : BoolToken) : Derivation .expr
  | between (e lower upper : Derivation .expr) : Derivation .expr
  | inList (negated : Bool) (e : Derivation .expr) (es : Derivation .exprList) : Derivation .expr
  | rowInList (negated : Bool) (row es : Derivation .exprList) : Derivation .expr
  | inSelect (negated : Bool) (e : Derivation .expr) (s : Derivation .selectStmt) :
      Derivation .expr
  | rowInSelect (negated : Bool) (row : Derivation .exprList) (s : Derivation .selectStmt) :
      Derivation .expr
  | exist (negated : Bool) (s : Derivation .selectStmt) : Derivation .expr
  | call (name : String) (args : Derivation .optExprList) : Derivation .expr
  | countAll : Derivation .expr
  | oneFunction (f : OneFunction) (e : Derivation .expr) : Derivation .expr
  | substringFrom (e start : Derivation .expr) : Derivation .expr
  | substringFor (e start length : Derivation .expr) : Derivation .expr
  | trimFrom (t : TrimLtb) (what e : Derivation .expr) : Derivation .expr
  | cast (e : Derivation .expr) (t : DateType) : Derivation .expr
  | coalesce (es : Derivation .exprList) : Derivation .expr
  | dateAdd (e : Derivation .expr) (i : Derivation .intervalExp) : Derivation .expr
  | dateSub (e : Derivation .expr) (i : Derivation .intervalExp) : Derivation .expr
  | caseOf (e : Derivation .expr) (cases : Derivation .caseList) : Derivation .expr
  | caseOfElse (e : Derivation .expr) (cases : Derivation .caseList) (other : Derivation .expr) :
      Derivation .expr
  | caseWhen (cases : Derivation .caseList) : Derivation .expr
  | caseWhenElse (cases : Derivation .caseList) (other : Derivation .expr) : Derivation .expr
  | notLike (l r : Derivation .expr) : Derivation .expr
  | binaryKeyword (lexed : Bool) (e : Derivation .expr) : Derivation .expr
  | oneExpr (e : Derivation .expr) : Derivation .exprList
  | consExpr (e : Derivation .expr) (es : Derivation .exprList) : Derivation .exprList
  | parenExprs (e : Derivation .expr) (es : Derivation .exprList) : Derivation .exprList
  | noExprs : Derivation .optExprList
  | exprs (es : Derivation .exprList) : Derivation .optExprList
  | interval (e : Derivation .expr) (unit : IntervalUnit) : Derivation .intervalExp
  | when (e value : Derivation .expr) : Derivation .caseList
  | whens (cases : Derivation .caseList) (e value : Derivation .expr) : Derivation .caseList
  | dataType (t : DataType) : Derivation .dataType
  | select (opts : List SelectOption) (exprs : Derivation .selectExprList) :
      Derivation .selectStmt
  | selectFrom (opts : List SelectOption) (exprs : Derivation .selectExprList)
      (tables : Derivation .tableReferences) (filter : Derivation .optWhere)
      (groupby : Derivation .optGroupby) (having : Derivation .optHaving)
      (orderby : Derivation .optOrderby) (limit : Derivation .optLimit)
      (into : Derivation .optIntoList) : Derivation .selectStmt
  | oneSelect (e : Derivation .selectExpr) : Derivation .selectExprList
  | consSelect (e : Derivation .selectExpr) (es : Derivation .selectExprList) :
      Derivation .selectExprList
  | star : Derivation .selectExprList
  | consStar (es : Derivation .selectExprList) : Derivation .selectExprList
  | selectExpr (e : Derivation .expr) (ascolname : Option String) : Derivation .selectExpr
  | oneColumn (name : String) : Derivation .columnList
  | consColumn (name : String) (columns : Derivation .columnList) : Derivation .columnList
  | noWhere : Derivation .optWhere
  | whereExpr (e : Derivation .expr) : Derivation .optWhere
  | oneGroupby (e : Derivation .expr) (desc : Bool) : Derivation .groupbyList
  | consGroupby (e : Derivation .expr) (desc : Bool) (es : Derivation .groupbyList) :
      Derivation .groupbyList
  | noGroupby : Derivation .optGroupby
  | groupbyExprs (es : Derivation .groupbyList) (rollup : Bool) : Derivation .optGroupby
  | noHaving : Derivation .optHaving
  | havingExpr (e : Derivation .expr) : Derivation .optHaving
  | noOrderby : Derivation .optOrderby
  | orderbyExprs (es : Derivation .groupbyList) : Derivation .optOrderby
  | noLimit : Derivation .optLimit
  | limit (count : Derivation .expr) : Derivation .optLimit
  | limitOffset (offset count : Derivation .expr) : Derivation .optLimit
  | noInto : Derivation .optIntoList
  | into (lexed : Bool) (columns : Derivation .columnList) : Derivation .optIntoList
  | oneTable (t : Derivation .tableReference) : Derivation .tableReferences
  | consTable (t : Derivation .tableReference) (ts : Derivation .tableReferences) :
      Derivation .tableReferences
  | factor (t : Derivation .tableFactor) : Derivation .tableReference
  | joined (j : Derivation .joinTable) : Derivation .tableReference
  | table (dbname : Option String) (tablename : String) (astablename : Option String) :
      Derivation .tableFactor
  | subquery (s : Derivation .selectStmt) (name : String) : Derivation .tableFactor
  | parenTables (ts : Derivation .tableReferences) : Derivation .tableFactor
  | join (kind : InnerCross) (l : Derivation .tableReference) (r : Derivation .tableFactor)
      (condition : Derivation .optJoinCondition) : Derivation .joinTable
  | straightJoin (l : Derivation .tableReference) (r : Derivation .tableFactor) :
      Derivation .joinTable
  | straightJoinOn (l : Derivation .tableReference) (r : Derivation .tableFactor)
      (e : Derivation .expr) : Derivation .joinTable
  | sideJoin (side : LeftRight) (outer : Bool) (l : Derivation .tableReference)
      (r : Derivation .tableFactor) (condition : Derivation .joinCondition) :
      Derivation .joinTable
  | naturalJoin (side : Option (LeftRight × Bool)) (l : Derivation .tableReference)
      (r : Derivation .tableFactor) : Derivation .joinTable
  | onExpr (e : Derivation .expr) : Derivation .joinCondition
  | usingColumns (columns : Derivation .columnList) : Derivation .joinCondition
  | noCondition : Derivation .optJoinCondition
  | condition (c : Derivation .joinCondition) : Derivation .optJoinCondition

def ofBool (b : Bool) : ℤ := if b then 1 else 0

/-- `$$` of a keyword without a value: what the scanner left in `yylval`. -/
def leftover (lexed : Bool) : Ptr := if lexed then .token else .null

/-- `$$` of the rule of a leaf. -/
def leafAst : Leaf → Ptr
  | .name s => newColumn .name .null (.text s) .null
  | .uservar s => newExpr .name (.text s)
  | .nameName t c => newColumn .nameName (.text t) (.text c) .null
  | .nameStar t => newColumn .nameName (.text t) (.text "*") .null
  | .string s => newExpr .stringval (.text s)
  | .intnum s => newExpr .intnum (.text s)
  | .approxnum s => newExpr .approxnum (.text s)
  | .bool b => newExpr .bool (.text b.strval)

/-- A call of `newExprCal` as the rules of the operators make it. -/
def calAst (sign : String) (lnext rnext : Ptr) : Ptr :=
  newExprCal .exprCal (.text sign) .null 0 lnext rnext

/-- A call of `newExprFunc` as the rules make it. -/
def funcAst (funname : String) (args parameter1 parameter2 next : Ptr) : Ptr :=
  newExprFunc .exprFunc (.text funname) args parameter1 parameter2 next

/-- `$$` of the rule. Where a rule has no action, or one that does not set `$$`, it is `$1`, and
null for an empty rule. -/
def Derivation.ast : {s : Symbol} → Derivation s → Ptr
  | _, leaf l => leafAst l
  | _, bareToken _ lexed => leftover lexed
  | _, binary op l r => calAst op.sign l.ast r.ast
  | _, unary op e => calAst op.sign .null e.ast
  | _, comparison c l r => newExprCal .exprCal (.text "CMP") .null c.subtok l.ast r.ast
  | _, comparisonSelect c q l s =>
      newExprCal .exprCal (.text "CMP") (.ofOption (q.map Quantifier.parameter)) c.subtok l.ast
        s.ast
  | _, shift _ l r => calAst (if shiftToken = 1 then "LS" else "RS") l.ast r.ast
  | _, assign _ _ => .null
  | _, paren e => e.ast
  | _, isNull negated e => funcAst (if negated then "ISNN" else "ISN") e.ast .null .null .null
  | _, isBool negated e _ => funcAst (if negated then "ISNB" else "ISB") e.ast .null .null .null
  | _, between e lower upper => funcAst "BA" e.ast lower.ast upper.ast .null
  | _, inList negated e es => calAst (if negated then "NIN" else "INV") e.ast es.ast
  | _, rowInList negated row es => calAst (if negated then "NIN" else "INV") row.ast es.ast
  | _, inSelect negated e s => calAst (if negated then "NINS" else "INS") e.ast s.ast
  | _, rowInSelect negated row s => calAst (if negated then "NINS" else "INS") row.ast s.ast
  | _, exist negated s => calAst (if negated then "NINS" else "EX") .null s.ast
  | _, call name args => newExprCal .exprCal (.text "NAME") (.text name) 0 .null args.ast
  | _, countAll => funcAst "FCOUNTALL" .null .null .null .null
  | _, oneFunction f e => funcAst f.funname .null e.ast .null .null
  | _, substringFrom e start => funcAst "FSUBSTRING0" e.ast start.ast .null .null
  | _, substringFor e start length => funcAst "FSUBSTRING1" e.ast start.ast length.ast .null
  | _, trimFrom t what e => funcAst t.strval .null what.ast e.ast .null
  | _, cast e t => funcAst "FCAST" .null e.ast t.ast .null
  | _, coalesce es => funcAst "FCOALESCE" .null es.ast .null .null
  | _, dateAdd e i => funcAst "FDATE_ADD" e.ast i.ast .null .null
  | _, dateSub e i => funcAst "FDATE_SUB" e.ast i.ast .null .null
  | _, caseOf e cases => funcAst "CASE1" e.ast cases.ast .null .null
  | _, caseOfElse e cases other => funcAst "CASE2" e.ast cases.ast other.ast .null
  | _, caseWhen cases => funcAst "CASE3" .null cases.ast .null .null
  | _, caseWhenElse cases other => funcAst "CASE4" .null cases.ast other.ast .null
  | _, notLike _ r => calAst "NLIKE" .null r.ast
  | _, binaryKeyword lexed _ => leftover lexed
  | _, oneExpr e => newExprList .exprList e.ast .null
  | _, consExpr e es => newExprList .exprList e.ast es.ast
  | _, parenExprs e es => newExprList .exprList e.ast es.ast
  | _, noExprs => .null
  | _, exprs es => es.ast
  | _, interval e unit => funcAst unit.funname e.ast .null .null .null
  | _, when e value => funcAst "WHEN1" .null e.ast value.ast .null
  | _, whens cases e value => funcAst "WHEN2" .null e.ast value.ast cases.ast
  | _, dataType t => t.ast
  | _, select opts es =>
      newQueryStmt .queryStmt .null (selectOpts opts) es.ast .null .null .null .null .null .null
        .null
  | _, selectFrom opts es ts filter groupby having orderby lim dest =>
      newQueryStmt .queryStmt .null (selectOpts opts) es.ast ts.ast filter.ast groupby.ast
        having.ast orderby.ast lim.ast dest.ast
  | _, oneSelect e => newSelectList .selectList 0 e.ast .null
  | _, consSelect e es => newSelectList .selectList 0 e.ast es.ast
  | _, star => newSelectList .selectList 1 .null .null
  | _, consStar es => newSelectList .selectList 1 .null es.ast
  | _, selectExpr e ascolname => newSelectExpr .selectExpr (.ofOption ascolname) e.ast
  | _, oneColumn name => newColumn .column (.text name) .null .null
  | _, consColumn name columns => newColumn .column (.text name) .null columns.ast
  | _, noWhere => .null
  | _, whereExpr e => newWhereList .whereList .null e.ast
  | _, oneGroupby e desc => newGroupbyExpr .groupbyExpr e.ast (ofBool desc) .null
  | _, consGroupby e desc es => newGroupbyExpr .groupbyExpr e.ast (ofBool desc) es.ast
  | _, noGroupby => .null
  | _, groupbyExprs es rollup => newGroupbyList .groupbyList .null es.ast (ofBool rollup)
  | _, noHaving => .null
  | _, havingExpr e => newHavingList .havingList .null e.ast
  | _, noOrderby => .null
  | _, orderbyExprs es => newOrderbyList .orderbyList .null es.ast
  | _, noLimit => .null
  | _, limit count => newLimitExpr .limitExpr .null count.ast
  | _, limitOffset offset count => newLimitExpr .limitExpr offset.ast count.ast
  | _, noInto => .null
  | _, into lexed _ => leftover lexed
  | _, oneTable t => newFromList .fromList t.ast .null
  | _, consTable t ts => newFromList .fromList t.ast ts.ast
  | _, factor t => t.ast
  | _, joined j => j.ast
  | _, table dbname tablename astablename =>
      newTable .table (.ofOption dbname) (.text tablename) (.ofOption astablename) 0 .null
  | _, subquery s name => newTable .table .null .null (.text name) 1 s.ast
  | _, parenTables ts => ts.ast
  | _, join kind l r cond => newJoin .join kind.intval l.ast r.ast cond.ast
  | _, straightJoin l r => newJoin .join (-1) l.ast r.ast .null
  | _, straightJoinOn l r e => newJoin .join (-1) l.ast r.ast (newCondition .condition 1 e.ast)
  | _, sideJoin side outer l r cond =>
      newJoin .join (side.intval + optOuter outer) l.ast r.ast cond.ast
  | _, naturalJoin side l r => newJoin .join (32 + optLeftOrRightOuter side) l.ast r.ast .null
  | _, onExpr e => newCondition .condition 1 e.ast
  | _, usingColumns columns => newCondition .condition 2 columns.ast
  | _, noCondition => .null
  | _, condition c => c.ast

/-! The trees of the operator rules are those of the smaller grammar of `SqlExpr`. -/

def ofNodeType : Mosito.NodeType → NodeType
  | .name => .name
  | .nameName => .nameName
  | .stringval => .stringval
  | .intnum => .intnum
  | .approxnum => .approxnum
  | .bool => .bool
  | .exprList => .exprList
  | .exprCal => .exprCal
  | .exprFunc => .exprFunc

def ofNode : Node (Derivation .selectStmt) → Ptr
  | .null => .null
  | .select s => s.ast
  | .expr t d => .expr (ofNodeType t) (.text d)
  | .columns t p1 p2 next => .columns (ofNodeType t) (.ofOption p1) (.ofOption p2) (ofNode next)
  | .exprList t data next => .exprList (ofNodeType t) (ofNode data) (ofNode next)
  | .exprCal t str sign parameter cmp lnext rnext =>
      .exprCal (ofNodeType t) (.text str) (.text sign) (.ofOption parameter) cmp (ofNode lnext)
        (ofNode rnext)
  | .exprFunc t str funname args p1 p2 next =>
      .exprFunc (ofNodeType t) (.text str) (.text funname) (ofNode args) (ofNode p1) (ofNode p2)
        (ofNode next)

mutual

def ofSqlExpr : SqlExpr (Derivation .selectStmt) → Derivation .expr
  | .leaf l => .leaf l
  | .binary op l r => .binary op (ofSqlExpr l) (ofSqlExpr r)
  | .unary op e => .unary op (ofSqlExpr e)
  | .comparison c l r => .comparison c (ofSqlExpr l) (ofSqlExpr r)
  | .comparisonSelect c q l s => .comparisonSelect c q (ofSqlExpr l) s
  | .shift t l r => .shift t (ofSqlExpr l) (ofSqlExpr r)
  | .paren e => .paren (ofSqlExpr e)
  | .isNull negated e => .isNull negated (ofSqlExpr e)
  | .isBool negated e b => .isBool negated (ofSqlExpr e) b
  | .between e lower upper => .between (ofSqlExpr e) (ofSqlExpr lower) (ofSqlExpr upper)
  | .inList negated e es => .inList negated (ofSqlExpr e) (ofSqlExprList es)
  | .rowInList negated row es => .rowInList negated (ofSqlExprList row) (ofSqlExprList es)
  | .inSelect negated e s => .inSelect negated (ofSqlExpr e) s
  | .rowInSelect negated row s => .rowInSelect negated (ofSqlExprList row) s
  | .exist negated s => .exist negated s
  | .notLike l r => .notLike (ofSqlExpr l) (ofSqlExpr r)

def ofSqlExprList : SqlExprList (Derivation .selectStmt) → Derivation .exprList
  | .one e => .oneExpr (ofSqlExpr e)
  | .cons e es => .consExpr (ofSqlExpr e) (ofSqlExprList es)
  | .paren e es => .parenExprs (ofSqlExpr e) (ofSqlExprList es)

end

theorem ofNode_leaf (l : Leaf) : ofNode l.ast = leafAst l := by
  cases l <;> rfl

mutual

theorem ofSqlExpr_ast (e : SqlExpr (Derivation .selectStmt)) :
    (ofSqlExpr e).ast = ofNode e.ast := by
  cases e with
  | leaf l => exact (ofNode_leaf l).symm
  | binary op l r =>
    rw [ofSqlExpr, Derivation.ast, ofSqlExpr_ast l, ofSqlExpr_ast r]
    rfl
  | unary op e =>
    rw [ofSqlExpr, Derivation.ast, ofSqlExpr_ast e]
    rfl
  | comparison c l r =>
    rw [ofSqlExpr, Derivation.ast, ofSqlExpr_ast l, ofSqlExpr_ast r]
    rfl
  | comparisonSelect c q l s =>
    rw [ofSqlExpr, Derivation.ast, ofSqlExpr_ast l]
    rfl
  | shift t l r =>
    rw [ofSqlExpr, Derivation.ast, ofSqlExpr_ast l, ofSqlExpr_ast r]
    rfl
  | paren e => exact ofSqlExpr_ast e
  | isNull negated e =>
    rw [ofSqlExpr, Derivation.ast, ofSqlExpr_ast e]
    rfl
  | isBool negated e b =>
    rw [ofSqlExpr, Derivation.ast, ofSqlExpr_ast e]
    rfl
  | between e lower upper =>
    rw [ofSqlExpr, Derivation.ast, ofSqlExpr_ast e, ofSqlExpr_ast lower, ofSqlExpr_ast upper]
    rfl
  | inList negated e es =>
    rw [ofSqlExpr, Derivation.ast, ofSqlExpr_ast e, ofSqlExprList_ast es]
    rfl
  | rowInList negated row es =>
    rw [ofSqlExpr, Derivation.ast, ofSqlExprList_ast row, ofSqlExprList_ast es]
    rfl
  | inSelect negated e s =>
    rw [ofSqlExpr, Derivation.ast, ofSqlExpr_ast e]
    rfl
  | rowInSelect negated row s =>
    rw [ofSqlExpr, Derivation.ast, ofSqlExprList_ast row]
    rfl
  | exist negated s => rfl
  | notLike l r =>
    rw [ofSqlExpr, Derivation.ast, ofSqlExpr_ast r]
    rfl

theorem ofSqlExprList_ast (es : SqlExprList (Derivation .selectStmt)) :
    (ofSqlExprList es).ast = ofNode es.ast := by
  cases es with
  | one e =>
    rw [ofSqlExprList, Derivation.ast, ofSqlExpr_ast e]
    rfl
  | cons e es | paren e es =>
    rw [ofSqlExprList, Derivation.ast, ofSqlExpr_ast e, ofSqlExprList_ast es]
    rfl

end

end Mosito.Ast
