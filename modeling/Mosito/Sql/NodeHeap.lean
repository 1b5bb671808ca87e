import Mosito.Sql.NodeStruct
import Mathlib.Logic.Function.Basic

/-! The nodes of the parser at their addresses, and `NodePointer`, from which they are released.
`malloc` does not fail: a constructor without memory ends the process. -/
namespace Mosito.NodeHeap
open Ast (Chars)

/-- `enum nodetype`. -/
inductive Nodetype where
  | none
  | name
  | uservar
  | nameName
  | stringval
  | intnum
  | approxnum
  | bool
  | dateval
  | timeval
  | datatimeval
  | table
  | column
  | join
  | subquery
  | condition
  | queryStmt
  | stmt
  | doStmt
  | truncateStmt
  | selectList
  | selectOpts
  | selectExpr
  | exprListHeader
  | expr
  | exprList
  | exprCal
  | exprFunc
  | exprRelation
  | fromList
  | fromExpr
  | fromTable
  | whereList
  | groupbyList
  | groupbyExpr
  | havingList
  | orderbyList
  | orderbyExpr
  | limitList
  | limitExpr
  | insertStmt
  | insertValList
  | insertVals
  | insertAssign
  | createDatabaseStmt
  | createTableStmt
  | createColList
  | createDef
  | createProjectionStmt
  | alterDatabaseStmt
  | alterTableStmt
  | alterDef
  | createSelectStmt
  | columnAtts
  | optCsc
  | datatype
  | length
  | enumList
  | createIndexStmt
  | indexColList
  | dropIndex
  | dropDatabaseStmt
  | dropTableStmt
  | tableList
  | loadTableStmt
  | showStmt

/-- A `Node *`: null, or the address of a node. -/
abbrev Ptr := Option ℕ

/-- The structs. -/
inductive Node where
  | stmt (type : Nodetype) (data next last : Ptr)
  | expr (type : Nodetype) (data : Chars)
  | exprListHeader (type : Nodetype) (header tail : Ptr)
  | exprList (type : Nodetype) (data next : Ptr)
  | columns (type : Nodetype) (parameter1 parameter2 : Chars) (next : Ptr)
  | exprCal (type : Nodetype) (str sign parameter : Chars) (cmp : ℤ) (lnext rnext : Ptr)
  | exprFunc (type : Nodetype) (str funname : Chars) (args parameter1 parameter2 next : Ptr)
  | table (type : Nodetype) (dbname tablename astablename : Chars) (issubquery : ℤ)
      (subquery whcdn : Ptr)
  | join (type : Nodetype) (jointype : ℤ) (lnext rnext condition : Ptr)
  | condition (type : Nodetype) (conditiontype : ℤ) (args : Ptr)
  | subquery (type : Nodetype) (querystring : Chars) (next : Ptr)
  | queryStmt (type : Nodetype) (querystring : Chars) (selectOpts : ℤ)
      (selectList fromList whereList groupbyList havingList orderbyList limitList intoList : Ptr)
  | selectList (type : Nodetype) (isall : ℤ) (args next : Ptr)
  | selectExpr (type : Nodetype) (ascolname : Chars) (colname : Ptr)
  | fromList (type : Nodetype) (args next whcdn : Ptr)
  | fromExpr (type : Nodetype) (astablename : Chars) (next : Ptr)
  | whereList (type : Nodetype) (wherestring : Chars) (next : Ptr)
  | groupbyList (type : Nodetype) (groupbystring : Chars) (next : Ptr) (withRollup : ℤ)
  | groupbyExpr (type : Nodetype) (args : Ptr) (sorttype : ℤ) (next : Ptr)
  | havingList (type : Nodetype) (havingstring : Chars) (next : Ptr)
  | orderbyList (type : Nodetype) (orderbystring : Chars) (next : Ptr)
  | orderbyExpr (type : Nodetype) (args : Ptr) (sorttype : Chars) (next : Ptr)
  | limitExpr (type : Nodetype) (offset rowCount : Ptr)
  | insertStmt (type : Nodetype) (insertOpt : ℤ) (tablename : Chars)
      (colList insertValList insertAssignList insertAssignListFromSet selectStmt : Ptr)
  | insertValList (type : Nodetype) (insertVals next : Ptr)
  | insertVals (type : Nodetype) (valueType : ℤ) (expr next : Ptr)
  | insertAssignList (type : Nodetype) (colName : Chars) (valueType : ℤ) (expr next : Ptr)
  | createDatabaseStmt (type : Nodetype) (createType check : ℤ) (name : Chars)
  | createTableStmt (type : Nodetype) (createType check : ℤ) (name1 name2 : Chars)
      (list selectStmt : Ptr)
  | createColList (type : Nodetype) (data next : Ptr)
  | createDef (type : Nodetype) (deftype : ℤ) (name : Chars) (datatype colAtts colList : Ptr)
  | columnAtts (type : Nodetype) (datatype num1 : ℤ) (num2 : Float) (s : Chars) (colList : Ptr)
  | createSelectStmt (type : Nodetype) (ignoreReplace temporary : ℤ) (selectStmt : Ptr)
  | createProjectionStmt (type : Nodetype) (tablename : Chars) (columnList : Ptr) (partitionNum : ℤ)
      (partitionAttributeName : Chars)
  | doStmt (type : Nodetype) (data : Ptr)
  | truncateStmt (type : Nodetype) (name : Chars)
  | alterdatabaseStmt (type : Nodetype) (createtype : ℤ) (name : Chars) (opt : Ptr)
  | optCsc (type : Nodetype) (datatype : ℤ) (s1 s2 : Chars)
  | altertableStmt (type : Nodetype) (isignore : ℤ) (name : Chars) (parameter : Ptr)
  | alterDef (type : Nodetype) (altertype : ℤ) (name1 name2 : Chars) (datatype coltype : ℤ)
      (parameter next : Ptr)
  | datatype (type : Nodetype) (datatype : ℤ) (length : Ptr) (optUz : ℤ) (optCsc : Ptr)
      (isbinary : ℤ) (enumList : Ptr)
  | length (type : Nodetype) (data1 data2 : ℤ)
  | enumList (type : Nodetype) (s : Chars) (next : Ptr)
  | createindexStmt (type : Nodetype) (indexAtt : ℤ) (indexName : Chars) (indexType : ℤ)
      (tableName : Chars) (indexColName : Ptr)
  | indexColList (type : Nodetype) (name : Chars) (length : Ptr) (ascDesc : ℤ) (next : Ptr)
  | dropindexStmt (type : Nodetype) (indexName tableName : Chars)
  | dropdatabaseStmt (type : Nodetype) (droptype check : ℤ) (name : Chars)
  | droptableStmt (type : Nodetype) (isTemp isCheck optionRc : ℤ) (tableList : Ptr)
  | loadtableStmt (type : Nodetype) (tableName : Chars) (path : Ptr)
      (columnSeparator tupleSeparator : Chars)
  | tablelist (type : Nodetype) (name1 name2 : Chars) (next : Ptr)
  | showStmt (type : Nodetype) (full : Bool) (showType : ℤ) (databaseName likeString : Chars)

/-- The nodes of the heap, how many addresses `malloc` has given away, and `NodePointer`. -/
structure Nodes where
  heap : ℕ → Option Node
  used : ℕ
  nodePointer : List ℕ

namespace Nodes

def start : Nodes := ⟨fun _ => none, 0, []⟩

def malloc (st : Nodes) : ℕ × Nodes := (st.used, { st with used := st.used + 1 })

/-- The fields of the node at `a` are set. -/
def write (st : Nodes) (a : ℕ) (n : Node) : Nodes :=
  { st with heap := Function.update st.heap a (some n) }

def insertNodePointer (st : Nodes) (a : ℕ) : Nodes :=
  { st with nodePointer := st.nodePointer ++ [a] }

/-- `list->last`, if `list` is a `Stmt`. -/
def last (st : Nodes) (list : ℕ) : Option Ptr :=
  match st.heap list with
  | some (.stmt _ _ _ last) => some last
  | _ => none

/-- `stmt->next=a`. -/
def setNext (st : Nodes) (stmt : Ptr) (a : ℕ) : Option Nodes :=
  stmt.bind fun l =>
    match st.heap l with
    | some (.stmt t data _ last) => some (st.write l (.stmt t data (some a) last))
    | _ => none

/-- `list->last=a`. -/
def setLast (st : Nodes) (list a : ℕ) : Option Nodes :=
  match st.heap list with
  | some (.stmt t data next _) => some (st.write list (.stmt t data next (some a)))
  | _ => none

/-- `none` if a pointer that is no `Stmt` is followed. -/
def newStmt (st : Nodes) (t : Nodetype) (list newNode : Ptr) : Option (Ptr × Nodes) :=
  let (a, st) := st.malloc
  let st := st.write a (.stmt t newNode none (some a))
  match list with
  | some l => do
      let st ← st.setNext (← st.last l) a
      let st ← st.setLast l a
      some (some l, st)
  | none => some (some a, st.insertNodePointer a)

/-- What the other constructors do: a node is allocated, its fields are set, and its pointer is
recorded. -/
def construct (st : Nodes) (n : Node) : Ptr × Nodes :=
  let (a, st) := st.malloc
  (some a, (st.write a n).insertNodePointer a)

def newExpr (st : Nodes) (t : Nodetype) (d : Chars) : Ptr × Nodes := st.construct (.expr t d)

def newExprList (st : Nodes) (t : Nodetype) (data next : Ptr) : Ptr × Nodes :=
  st.construct (.exprList t data next)

def newColumn (st : Nodes) (t : Nodetype) (parameter1 parameter2 : Chars)
    (next : Ptr) : Ptr × Nodes :=
  st.construct (.columns t parameter1 parameter2 next)

def newExprCal (st : Nodes) (type : Nodetype) (sign parameter : Chars) (cmp : ℤ)
    (lnext rnext : Ptr) : Ptr × Nodes :=
  st.construct (.exprCal type (.text "") sign parameter cmp lnext rnext)

def newExprFunc (st : Nodes) (type : Nodetype) (funname : Chars)
    (args parameter1 parameter2 next : Ptr) : Ptr × Nodes :=
  st.construct (.exprFunc type (.text "") funname args parameter1 parameter2 next)

/-- The header is not recorded, and the tag that is passed is not used. -/
def newExprlistheader (st : Nodes) (_type : Nodetype) (header tail : Ptr) : Ptr × Nodes :=
  let (a, st) := st.malloc
  (some a, st.write a (.exprListHeader .exprListHeader header tail))

def newTable (st : Nodes) (type : Nodetype) (dbname tablename astablename : Chars) (issubquery : ℤ)
    (subquery : Ptr) : Ptr × Nodes :=
  let (a, st) := st.malloc
  let (whcdn, st) := st.newExprlistheader .exprListHeader none none
  let st := st.write a (.table type dbname tablename astablename issubquery subquery whcdn)
  (some a, st.insertNodePointer a)

def newJoin (st : Nodes) (type : Nodetype) (jointype : ℤ)
    (lnext rnext condition : Ptr) : Ptr × Nodes :=
  st.construct (.join type jointype lnext rnext condition)

def newCondition (st : Nodes) (type : Nodetype) (conditiontype : ℤ) (args : Ptr) : Ptr × Nodes :=
  st.construct (.condition type conditiontype args)

def newSubquery (st : Nodes) (type : Nodetype) (querystring : Chars) (next : Ptr) : Ptr × Nodes :=
  st.construct (.subquery type querystring next)

def newQueryStmt (st : Nodes) (t : Nodetype) (querystring : Chars) (selectOpts : ℤ)
    (selectList fromList whereList groupbyList havingList orderbyList limitList intoList : Ptr) :
    Ptr × Nodes :=
  st.construct (.queryStmt t querystring selectOpts selectList fromList whereList groupbyList
    havingList orderbyList limitList intoList)

def newSelectList (st : Nodes) (type : Nodetype) (isall : ℤ) (args next : Ptr) : Ptr × Nodes :=
  st.construct (.selectList type isall args next)

def newSelectExpr (st : Nodes) (type : Nodetype) (ascolname : Chars)
    (colname : Ptr) : Ptr × Nodes :=
  st.construct (.selectExpr type ascolname colname)

def newFromList (st : Nodes) (type : Nodetype) (args next : Ptr) : Ptr × Nodes :=
  let (a, st) := st.malloc
  let (whcdn, st) := st.newExprlistheader .exprListHeader none none
  (some a, (st.write a (.fromList type args next whcdn)).insertNodePointer a)

def newFromExpr (st : Nodes) (type : Nodetype) (astablename : Chars) (next : Ptr) : Ptr × Nodes :=
  st.construct (.fromExpr type astablename next)

def newWhereList (st : Nodes) (type : Nodetype) (wherestring : Chars) (next : Ptr) : Ptr × Nodes :=
  st.construct (.whereList type wherestring next)

def newGroupbyList (st : Nodes) (type : Nodetype) (groupbystring : Chars) (next : Ptr)
    (withRollup : ℤ) : Ptr × Nodes :=
  st.construct (.groupbyList type groupbystring next withRollup)

def newGroupbyExpr (st : Nodes) (type : Nodetype) (args : Ptr) (sorttype : ℤ)
    (next : Ptr) : Ptr × Nodes :=
  st.construct (.groupbyExpr type args sorttype next)

def newHavingList (st : Nodes) (type : Nodetype) (havingstring : Chars)
    (next : Ptr) : Ptr × Nodes :=
  st.construct (.havingList type havingstring next)

def newOrderbyList (st : Nodes) (type : Nodetype) (orderbystring : Chars)
    (next : Ptr) : Ptr × Nodes :=
  st.construct (.orderbyList type orderbystring next)

def newOrderbyExpr (st : Nodes) (type : Nodetype) (args : Ptr) (sorttype : Chars)
    (next : Ptr) : Ptr × Nodes :=
  st.construct (.orderbyExpr type args sorttype next)

def newLimitExpr (st : Nodes) (type : Nodetype) (offset rowCount : Ptr) : Ptr × Nodes :=
  st.construct (.limitExpr type offset rowCount)

def newInsertStmt (st : Nodes) (insertOpt : ℤ) (tablename : Chars)
    (colList insertValList insertAssignList insertAssignListFromSet selectStmt : Ptr) :
    Ptr × Nodes :=
  st.construct (.insertStmt .insertStmt insertOpt tablename colList insertValList insertAssignList
    insertAssignListFromSet selectStmt)

def newInsertValueList (st : Nodes) (insertVals next : Ptr) : Ptr × Nodes :=
  st.construct (.insertValList .insertValList insertVals next)

def newInsertVals (st : Nodes) (valueType : ℤ) (expr next : Ptr) : Ptr × Nodes :=
  st.construct (.insertVals .insertVals valueType expr next)

def newInsertAssignList (st : Nodes) (colName : Chars) (valueType : ℤ)
    (expr next : Ptr) : Ptr × Nodes :=
  st.construct (.insertAssignList .insertAssign colName valueType expr next)

def newCreateDatabaseStmt (st : Nodes) (type : Nodetype) (createType check : ℤ)
    (name : Chars) : Ptr × Nodes :=
  st.construct (.createDatabaseStmt type createType check name)

def newCreateTableStmt (st : Nodes) (type : Nodetype) (createType check : ℤ) (name1 name2 : Chars)
    (list selectStmt : Ptr) : Ptr × Nodes :=
  st.construct (.createTableStmt type createType check name1 name2 list selectStmt)

def newCreateColList (st : Nodes) (type : Nodetype) (data next : Ptr) : Ptr × Nodes :=
  st.construct (.createColList type data next)

def newCreateDef (st : Nodes) (type : Nodetype) (deftype : ℤ) (name : Chars)
    (datatype colAtts colList : Ptr) : Ptr × Nodes :=
  st.construct (.createDef type deftype name datatype colAtts colList)

def newColumnAtts (st : Nodes) (type : Nodetype) (datatype num1 : ℤ) (num2 : Float) (s : Chars)
    (colList : Ptr) : Ptr × Nodes :=
  st.construct (.columnAtts type datatype num1 num2 s colList)

def newCreateSelectStmt (st : Nodes) (type : Nodetype) (ignoreReplace temporary : ℤ)
    (selectStmt : Ptr) : Ptr × Nodes :=
  st.construct (.createSelectStmt type ignoreReplace temporary selectStmt)

def newCreateProjectionStmt (st : Nodes) (type : Nodetype) (tablename : Chars) (columnList : Ptr)
    (partitionNum : ℤ) (partitionAttributeName : Chars) : Ptr × Nodes :=
  st.construct (.createProjectionStmt type tablename columnList partitionNum partitionAttributeName)

def newDoStmt (st : Nodes) (type : Nodetype) (data : Ptr) : Ptr × Nodes :=
  st.construct (.doStmt type data)

def newTruncateStmt (st : Nodes) (type : Nodetype) (name : Chars) : Ptr × Nodes :=
  st.construct (.truncateStmt type name)

def newAlterDatabaseStmt (st : Nodes) (type : Nodetype) (createtype : ℤ) (name : Chars)
    (opt : Ptr) : Ptr × Nodes :=
  st.construct (.alterdatabaseStmt type createtype name opt)

def newOptCsc (st : Nodes) (type : Nodetype) (datatype : ℤ) (s1 s2 : Chars) : Ptr × Nodes :=
  st.construct (.optCsc type datatype s1 s2)

def newAlterTableStmt (st : Nodes) (type : Nodetype) (isignore : ℤ) (name : Chars)
    (parameter : Ptr) : Ptr × Nodes :=
  st.construct (.altertableStmt type isignore name parameter)

def newAlterDef (st : Nodes) (type : Nodetype) (altertype : ℤ) (name1 name2 : Chars)
    (datatype coltype : ℤ) (parameter next : Ptr) : Ptr × Nodes :=
  st.construct (.alterDef type altertype name1 name2 datatype coltype parameter next)

def newDatatype (st : Nodes) (type : Nodetype) (datatype : ℤ) (length : Ptr) (optUz : ℤ)
    (optCsc : Ptr) (isbinary : ℤ) (enumList : Ptr) : Ptr × Nodes :=
  st.construct (.datatype type datatype length optUz optCsc isbinary enumList)

def newLength (st : Nodes) (type : Nodetype) (data1 data2 : ℤ) : Ptr × Nodes :=
  st.construct (.length type data1 data2)

def newEnumList (st : Nodes) (type : Nodetype) (s : Chars) (next : Ptr) : Ptr × Nodes :=
  st.construct (.enumList type s next)

def newCreateIndex (st : Nodes) (type : Nodetype) (indexAtt : ℤ) (indexName : Chars) (indexType : ℤ)
    (tableName : Chars) (indexColName : Ptr) : Ptr × Nodes :=
  st.construct (.createindexStmt type indexAtt indexName indexType tableName indexColName)

def newIndexColList (st : Nodes) (type : Nodetype) (name : Chars) (length : Ptr) (ascDesc : ℤ)
    (next : Ptr) : Ptr × Nodes :=
  st.construct (.indexColList type name length ascDesc next)

def newDropIndex (st : Nodes) (type : Nodetype) (indexName tableName : Chars) : Ptr × Nodes :=
  st.construct (.dropindexStmt type indexName tableName)

def newDropDatabase (st : Nodes) (type : Nodetype) (dropType check : ℤ)
    (name : Chars) : Ptr × Nodes :=
  st.construct (.dropdatabaseStmt type dropType check name)

def newDropTable (st : Nodes) (type : Nodetype) (isTemp isCheck optRc : ℤ)
    (tableList : Ptr) : Ptr × Nodes :=
  st.construct (.droptableStmt type isTemp isCheck optRc tableList)

/-- Its print of the separators is left out. -/
def newLoadTable (st : Nodes) (type : Nodetype) (tableName : Chars) (path : Ptr)
    (columnSeparator tupleSeparator : Chars) : Ptr × Nodes :=
  st.construct (.loadtableStmt type tableName path columnSeparator tupleSeparator)

def newTableList (st : Nodes) (type : Nodetype) (name1 name2 : Chars) (next : Ptr) : Ptr × Nodes :=
  st.construct (.tablelist type name1 name2 next)

def newShowStmt (st : Nodes) (showType : ℤ) (full : Bool)
    (databaseName likeString : Chars) : Ptr × Nodes :=
  st.construct (.showStmt .showStmt full showType databaseName likeString)

/-- `free`, which is undefined for a node that is not allocated. -/
def free (st : Nodes) (a : ℕ) : Option Nodes :=
  (st.heap a).map fun _ => { st with heap := Function.update st.heap a none }

/-- The loop frees the entries of `NodePointer`, which is then cleared. -/
def freeAllNode (st : Nodes) : Option Nodes :=
  (st.nodePointer.foldlM free st).map fun st => { st with nodePointer := [] }

end Nodes

/-- The calls of the constructors. -/
inductive Call where
  | newStmt (t : Nodetype) (list newNode : Ptr)
  | newExpr (t : Nodetype) (d : Chars)
  | newExprList (t : Nodetype) (data next : Ptr)
  | newColumn (t : Nodetype) (parameter1 parameter2 : Chars) (next : Ptr)
  | newExprCal (type : Nodetype) (sign parameter : Chars) (cmp : ℤ) (lnext rnext : Ptr)
  | newExprFunc (type : Nodetype) (funname : Chars) (args parameter1 parameter2 next : Ptr)
  | newExprlistheader (type : Nodetype) (header tail : Ptr)
  | newTable (type : Nodetype) (dbname tablename astablename : Chars) (issubquery : ℤ)
      (subquery : Ptr)
  | newJoin (type : Nodetype) (jointype : ℤ) (lnext rnext condition : Ptr)
  | newCondition (type : Nodetype) (conditiontype : ℤ) (args : Ptr)
  | newSubquery (type : Nodetype) (querystring : Chars) (next : Ptr)
  | newQueryStmt (t : Nodetype) (querystring : Chars) (selectOpts : ℤ)
      (selectList fromList whereList groupbyList havingList orderbyList limitList intoList : Ptr)
  | newSelectList (type : Nodetype) (isall : ℤ) (args next : Ptr)
  | newSelectExpr (type : Nodetype) (ascolname : Chars) (colname : Ptr)
  | newFromList (type : Nodetype) (args next : Ptr)
  | newFromExpr (type : Nodetype) (astablename : Chars) (next : Ptr)
  | newWhereList (type : Nodetype) (wherestring : Chars) (next : Ptr)
  | newGroupbyList (type : Nodetype) (groupbystring : Chars) (next : Ptr) (withRollup : ℤ)
  | newGroupbyExpr (type : Nodetype) (args : Ptr) (sorttype : ℤ) (next : Ptr)
  | newHavingList (type : Nodetype) (havingstring : Chars) (next : Ptr)
  | newOrderbyList (type : Nodetype) (orderbystring : Chars) (next : Ptr)
  | newOrderbyExpr (type : Nodetype) (args : Ptr) (sorttype : Chars) (next : Ptr)
  | newLimitExpr (type : Nodetype) (offset rowCount : Ptr)
  | newInsertStmt (insertOpt : ℤ) (tablename : Chars)
      (colList insertValList insertAssignList insertAssignListFromSet selectStmt : Ptr)
  | newInsertValueList (insertVals next : Ptr)
  | newInsertVals (valueType : ℤ) (expr next : Ptr)
  | newInsertAssignList (colName : Chars) (valueType : ℤ) (expr next : Ptr)
  | newCreateDatabaseStmt (type : Nodetype) (createType check : ℤ) (name : Chars)
  | newCreateTableStmt (type : Nodetype) (createType check : ℤ) (name1 name2 : Chars)
      (list selectStmt : Ptr)
  | newCreateColList (type : Nodetype) (data next : Ptr)
  | newCreateDef (type : Nodetype) (deftype : ℤ) (name : Chars) (datatype colAtts colList : Ptr)
  | newColumnAtts (type : Nodetype) (datatype num1 : ℤ) (num2 : Float) (s : Chars) (colList : Ptr)
  | newCreateSelectStmt (type : Nodetype) (ignoreReplace temporary : ℤ) (selectStmt : Ptr)
  | newCreateProjectionStmt (type : Nodetype) (tablename : Chars) (columnList : Ptr)
      (partitionNum : ℤ) (partitionAttributeName : Chars)
  | newDoStmt (type : Nodetype) (data : Ptr)
  | newTruncateStmt (type : Nodetype) (name : Chars)
  | newAlterDatabaseStmt (type : Nodetype) (createtype : ℤ) (name : Chars) (opt : Ptr)
  | newOptCsc (type : Nodetype) (datatype : ℤ) (s1 s2 : Chars)
  | newAlterTableStmt (type : Nodetype) (isignore : ℤ) (name : Chars) (parameter : Ptr)
  | newAlterDef (type : Nodetype) (altertype : ℤ) (name1 name2 : Chars) (datatype coltype : ℤ)
      (parameter next : Ptr)
  | newDatatype (type : Nodetype) (datatype : ℤ) (length : Ptr) (optUz : ℤ) (optCsc : Ptr)
      (isbinary : ℤ) (enumList : Ptr)
  | newLength (type : Nodetype) (data1 data2 : ℤ)
  | newEnumList (type : Nodetype) (s : Chars) (next : Ptr)
  | newCreateIndex (type : Nodetype) (indexAtt : ℤ) (indexName : Chars) (indexType : ℤ)
      (tableName : Chars) (indexColName : Ptr)
  | newIndexColList (type : Nodetype) (name : Chars) (length : Ptr) (ascDesc : ℤ) (next : Ptr)
  | newDropIndex (type : Nodetype) (indexName tableName : Chars)
  | newDropDatabase (type : Nodetype) (dropType check : ℤ) (name : Chars)
  | newDropTable (type : Nodetype) (isTemp isCheck optRc : ℤ) (tableList : Ptr)
  | newLoadTable (type : Nodetype) (tableName : Chars) (path : Ptr)
      (columnSeparator tupleSeparator : Chars)
  | newTableList (type : Nodetype) (name1 name2 : Chars) (next : Ptr)
  | newShowStmt (showType : ℤ) (full : Bool) (databaseName likeString : Chars)

/-- The pointer that a call returns and the nodes after it. -/
def Nodes.call (st : Nodes) : Call → Option (Ptr × Nodes)
  | .newStmt t list newNode => st.newStmt t list newNode
  | .newExpr t d => some (st.newExpr t d)
  | .newExprList t data next => some (st.newExprList t data next)
  | .newColumn t parameter1 parameter2 next => some (st.newColumn t parameter1 parameter2 next)
  | .newExprCal type sign parameter cmp lnext rnext =>
      some (st.newExprCal type sign parameter cmp lnext rnext)
  | .newExprFunc type funname args parameter1 parameter2 next =>
      some (st.newExprFunc type funname args parameter1 parameter2 next)
  | .newExprlistheader type header tail => some (st.newExprlistheader type header tail)
  | .newTable type dbname tablename astablename issubquery subquery =>
      some (st.newTable type dbname tablename astablename issubquery subquery)
  | .newJoin type jointype lnext rnext condition =>
      some (st.newJoin type jointype lnext rnext condition)
  | .newCondition type conditiontype args => some (st.newCondition type conditiontype args)
  | .newSubquery type querystring next => some (st.newSubquery type querystring next)
  | .newQueryStmt t querystring selectOpts selectList fromList whereList groupbyList havingList
      orderbyList limitList intoList =>
      some (st.newQueryStmt t querystring selectOpts selectList fromList whereList groupbyList
        havingList orderbyList limitList intoList)
  | .newSelectList type isall args next => some (st.newSelectList type isall args next)
  | .newSelectExpr type ascolname colname => some (st.newSelectExpr type ascolname colname)
  | .newFromList type args next => some (st.newFromList type args next)
  | .newFromExpr type astablename next => some (st.newFromExpr type astablename next)
  | .newWhereList type wherestring next => some (st.newWhereList type wherestring next)
  | .newGroupbyList type groupbystring next withRollup =>
      some (st.newGroupbyList type groupbystring next withRollup)
  | .newGroupbyExpr type args sorttype next => some (st.newGroupbyExpr type args sorttype next)
  | .newHavingList type havingstring next => some (st.newHavingList type havingstring next)
  | .newOrderbyList type orderbystring next => some (st.newOrderbyList type orderbystring next)
  | .newOrderbyExpr type args sorttype next => some (st.newOrderbyExpr type args sorttype next)
  | .newLimitExpr type offset rowCount => some (st.newLimitExpr type offset rowCount)
  | .newInsertStmt insertOpt tablename colList insertValList insertAssignList
      insertAssignListFromSet selectStmt =>
      some (st.newInsertStmt insertOpt tablename colList insertValList insertAssignList
        insertAssignListFromSet selectStmt)
  | .newInsertValueList insertVals next => some (st.newInsertValueList insertVals next)
  | .newInsertVals valueType expr next => some (st.newInsertVals valueType expr next)
  | .newInsertAssignList colName valueType expr next =>
      some (st.newInsertAssignList colName valueType expr next)
  | .newCreateDatabaseStmt type createType check name =>
      some (st.newCreateDatabaseStmt type createType check name)
  | .newCreateTableStmt type createType check name1 name2 list selectStmt =>
      some (st.newCreateTableStmt type createType check name1 name2 list selectStmt)
  | .newCreateColList type data next => some (st.newCreateColList type data next)
  | .newCreateDef type deftype name datatype colAtts colList =>
      some (st.newCreateDef type deftype name datatype colAtts colList)
  | .newColumnAtts type datatype num1 num2 s colList =>
      some (st.newColumnAtts type datatype num1 num2 s colList)
  | .newCreateSelectStmt type ignoreReplace temporary selectStmt =>
      some (st.newCreateSelectStmt type ignoreReplace temporary selectStmt)
  | .newCreateProjectionStmt type tablename columnList partitionNum partitionAttributeName =>
      some (st.newCreateProjectionStmt type tablename columnList partitionNum
        partitionAttributeName)
  | .newDoStmt type data => some (st.newDoStmt type data)
  | .newTruncateStmt type name => some (st.newTruncateStmt type name)
  | .newAlterDatabaseStmt type createtype name opt =>
      some (st.newAlterDatabaseStmt type createtype name opt)
  | .newOptCsc type datatype s1 s2 => some (st.newOptCsc type datatype s1 s2)
  | .newAlterTableStmt type isignore name parameter =>
      some (st.newAlterTableStmt type isignore name parameter)
  | .newAlterDef type altertype name1 name2 datatype coltype parameter next =>
      some (st.newAlterDef type altertype name1 name2 datatype coltype parameter next)
  | .newDatatype type datatype length optUz optCsc isbinary enumList =>
      some (st.newDatatype type datatype length optUz optCsc isbinary enumList)
  | .newLength type data1 data2 => some (st.newLength type data1 data2)
  | .newEnumList type s next => some (st.newEnumList type s next)
  | .newCreateIndex type indexAtt indexName indexType tableName indexColName =>
      some (st.newCreateIndex type indexAtt indexName indexType tableName indexColName)
  | .newIndexColList type name length ascDesc next =>
      some (st.newIndexColList type name length ascDesc next)
  | .newDropIndex type indexName tableName => some (st.newDropIndex type indexName tableName)
  | .newDropDatabase type dropType check name => some (st.newDropDatabase type dropType check name)
  | .newDropTable type isTemp isCheck optRc tableList =>
      some (st.newDropTable type isTemp isCheck optRc tableList)
  | .newLoadTable type tableName path columnSeparator tupleSeparator =>
      some (st.newLoadTable type tableName path columnSeparator tupleSeparator)
  | .newTableList type name1 name2 next => some (st.newTableList type name1 name2 next)
  | .newShowStmt showType full databaseName likeString =>
      some (st.newShowStmt showType full databaseName likeString)

end Mosito.NodeHeap
