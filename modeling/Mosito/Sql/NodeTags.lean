import Mosito.Sql.Output
import Mosito.Sql.Grammar

/-! Which derivations build trees whose tags name the structs. -/
namespace Mosito.Ast

/-- The lengths of the other types are tagged as lengths. -/
def DataType.clean : DataType → Bool
  | varchar _ _ | varbinary _ => false
  | _ => true

/-- A user variable is tagged as a name. -/
def cleanLeaf : Leaf → Bool
  | .uservar _ => false
  | _ => true

/-- No user variable, no keyword with another token's value and no `VARCHAR` or `VARBINARY` in the
parts whose values the rules use. -/
def Derivation.clean : {s : Symbol} → Derivation s → Bool
  | _, leaf l => cleanLeaf l
  | _, bareToken _ lexed => !lexed
  | _, binary _ l r => l.clean && r.clean
  | _, unary _ e => e.clean
  | _, comparison _ l r => l.clean && r.clean
  | _, comparisonSelect _ _ l s => l.clean && s.clean
  | _, shift _ l r => l.clean && r.clean
  | _, assign _ _ => true
  | _, paren e => e.clean
  | _, isNull _ e => e.clean
  | _, isBool _ e _ => e.clean
  | _, between e lower upper => e.clean && lower.clean && upper.clean
  | _, inList _ e es => e.clean && es.clean
  | _, rowInList _ row es => row.clean && es.clean
  | _, inSelect _ e s => e.clean && s.clean
  | _, rowInSelect _ row s => row.clean && s.clean
  | _, exist _ s => s.clean
  | _, call _ args => args.clean
  | _, countAll => true
  | _, oneFunction _ e => e.clean
  | _, substringFrom e start => e.clean && start.clean
  | _, substringFor e start count => e.clean && start.clean && count.clean
  | _, trimFrom _ what e => what.clean && e.clean
  | _, cast e _ => e.clean
  | _, coalesce es => es.clean
  | _, dateAdd e i => e.clean && i.clean
  | _, dateSub e i => e.clean && i.clean
  | _, caseOf e cases => e.clean && cases.clean
  | _, caseOfElse e cases other => e.clean && cases.clean && other.clean
  | _, caseWhen cases => cases.clean
  | _, caseWhenElse cases other => cases.clean && other.clean
  | _, notLike _ r => r.clean
  | _, binaryKeyword lexed _ => !lexed
  | _, oneExpr e => e.clean
  | _, consExpr e es => e.clean && es.clean
  | _, parenExprs e es => e.clean && es.clean
  | _, noExprs => true
  | _, exprs es => es.clean
  | _, interval e _ => e.clean
  | _, when e value => e.clean && value.clean
  | _, whens cases e value => e.clean && value.clean && cases.clean
  | _, dataType t => t.clean
  | _, select _ es => es.clean
  | _, selectFrom _ es ts filter groupby having orderby lim dest =>
      es.clean && ts.clean && filter.clean && groupby.clean && having.clean && orderby.clean &&
        lim.clean && dest.clean
  | _, oneSelect e => e.clean
  | _, consSelect e es => e.clean && es.clean
  | _, star => true
  | _, consStar es => es.clean
  | _, selectExpr e _ => e.clean
  | _, oneColumn _ => true
  | _, consColumn _ columns => columns.clean
  | _, noWhere => true
  | _, whereExpr e => e.clean
  | _, oneGroupby e _ => e.clean
  | _, consGroupby e _ es => e.clean && es.clean
  | _, noGroupby => true
  | _, groupbyExprs es _ => es.clean
  | _, noHaving => true
  | _, havingExpr e => e.clean
  | _, noOrderby => true
  | _, orderbyExprs es => es.clean
  | _, noLimit => true
  | _, limit count => count.clean
  | _, limitOffset offset count => offset.clean && count.clean
  | _, noInto => true
  | _, into lexed _ => !lexed
  | _, oneTable t => t.clean
  | _, consTable t ts => t.clean && ts.clean
  | _, factor t => t.clean
  | _, joined j => j.clean
  | _, table _ _ _ => true
  | _, subquery s _ => s.clean
  | _, parenTables ts => ts.clean
  | _, join _ l r cond => l.clean && r.clean && cond.clean
  | _, straightJoin l r => l.clean && r.clean
  | _, straightJoinOn l r e => l.clean && r.clean && e.clean
  | _, sideJoin _ _ l r cond => l.clean && r.clean && cond.clean
  | _, naturalJoin _ l r => l.clean && r.clean
  | _, onExpr e => e.clean
  | _, usingColumns columns => columns.clean
  | _, noCondition => true
  | _, condition c => c.clean

open Mosito.Ast.Ptr

/-- `P` is true of null and of the nodes whose tags and casts name the structs, and false of the
values of the scanner and of the nodes whose tags name another struct. -/
structure Discerns (P : Ptr → Prop) : Prop where
  null : P null
  token : ¬ P token
  node : ∀ {p t}, p.built = some (t, t.struct) → p.headed = true → P p
  struct_eq : ∀ {p t s}, P p → p.built = some (t, s) → t.struct = s

theorem Tagged.discerns : Discerns Tagged where
  null := .inl rfl
  token := by simp [Tagged, built]
  node := fun hb _ => .inr ⟨_, hb⟩
  struct_eq := Tagged.struct_eq

theorem Readable.discerns : Discerns Readable where
  null := ⟨.inl rfl, rfl⟩
  token := fun h => Tagged.discerns.token h.1
  node := fun hb hh => ⟨Tagged.discerns.node hb hh, hh⟩
  struct_eq := fun h => h.1.struct_eq

namespace Discerns
variable {P : Ptr → Prop} {p : Ptr} {t : NodeType}

theorem all_null (hP : Discerns P) : Reach.All fields P .null := by
  rw [Reach.all_iff]
  exact ⟨hP.null, nofun⟩

theorem all_leftover_iff (hP : Discerns P) (lexed : Bool) :
    Reach.All fields P (leftover lexed) ↔ lexed = false := by
  cases lexed with
  | false => exact iff_of_true hP.all_null rfl
  | true => exact iff_of_false (fun h => hP.token h.self) nofun

/-- A node with the tag of its struct. -/
theorem all_iff_fields (hP : Discerns P) (hb : p.built = some (t, t.struct))
    (hh : p.headed = true) :
    Reach.All fields P p ↔ ∀ q ∈ p.fields, Reach.All fields P q := by
  rw [Reach.all_iff]
  exact and_iff_right (hP.node hb hh)

theorem all_header (hP : Discerns P) :
    Reach.All fields P (.exprListHeader .exprListHeader .null .null) := by
  rw [hP.all_iff_fields rfl rfl]
  simp [fields, hP.all_null]

theorem all_condition_iff (hP : Discerns P) (conditiontype : ℤ) :
    Reach.All fields P (.condition .condition conditiontype p) ↔ Reach.All fields P p := by
  rw [hP.all_iff_fields rfl rfl]
  simp [fields]

theorem all_leafAst_iff (hP : Discerns P) (l : Leaf) :
    Reach.All fields P (leafAst l) ↔ cleanLeaf l = true := by
  cases l with
  | uservar s =>
    -- the struct is `Expr`, and `t_name` names `Columns`
    apply iff_of_false
    · intro h
      cases hP.struct_eq h.self rfl
    · nofun
  | _ =>
    rw [hP.all_iff_fields rfl rfl]
    simp [leafAst, newColumn, newExpr, fields, cleanLeaf, hP.all_null]

theorem all_optLength (hP : Discerns P) (l : OptLength) : Reach.All fields P l.ast := by
  cases l with
  | nil => exact hP.all_null
  | _ =>
    rw [hP.all_iff_fields rfl rfl]
    simp [OptLength.ast, newLength, fields]

theorem foldl_updateCsc (csc : List Csc) (datatype : ℕ) (s1 s2 : Chars) :
    ∃ datatype' s1' s2', csc.foldl updateCsc (.optCsc .optCsc datatype s1 s2) =
      .optCsc .optCsc datatype' s1' s2' := by
  induction csc generalizing datatype s1 s2 with
  | nil => exact ⟨datatype, s1, s2, rfl⟩
  | cons c csc ih => cases c <;> exact ih _ _ _

theorem all_cscAst (hP : Discerns P) (csc : List Csc) : Reach.All fields P (cscAst csc) := by
  obtain ⟨datatype, s1, s2, h⟩ := foldl_updateCsc csc 0 .null .null
  unfold cscAst newOptCsc
  rw [h, hP.all_iff_fields rfl rfl]
  simp [fields]

theorem all_enumList (hP : Discerns P) (es : EnumList) : Reach.All fields P es.ast := by
  induction es with
  | one s =>
    rw [hP.all_iff_fields rfl rfl]
    simp [EnumList.ast, newEnumList, fields, hP.all_null]
  | snoc es s ih =>
    rw [hP.all_iff_fields rfl rfl]
    simp [EnumList.ast, newEnumList, fields, ih]

theorem all_dateType (hP : Discerns P) (t : DateType) : Reach.All fields P t.ast := by
  cases t with
  | nil => exact hP.all_null
  | _ =>
    rw [hP.all_iff_fields rfl rfl]
    simp [DateType.ast, newExpr, fields]

/-- A length that is tagged as a data type. -/
theorem not_all_length (hP : Discerns P) (data1 data2 : ℤ) :
    ¬ Reach.All fields P (newLength .datatype data1 data2) := by
  intro h
  cases hP.struct_eq h.self rfl

theorem all_dataType_iff (hP : Discerns P) (t : DataType) :
    Reach.All fields P t.ast ↔ t.clean = true := by
  cases t
  all_goals
    rw [hP.all_iff_fields rfl rfl]
    simp [DataType.ast, DataType.clean, newDatatype, fields, hP.all_null, hP.all_optLength,
      hP.all_cscAst, hP.all_enumList, hP.not_all_length]

/-- The tree meets `P` exactly if the derivation is clean. -/
theorem all_ast_iff (hP : Discerns P) {s : Symbol} (d : Derivation s) :
    Reach.All fields P d.ast ↔ d.clean = true := by
  induction d with
  | leaf l => exact hP.all_leafAst_iff l
  | dataType t => exact hP.all_dataType_iff t
  | bareToken t lexed | binaryKeyword lexed e | into lexed columns =>
    simp [Derivation.ast, Derivation.clean, hP.all_leftover_iff]
  | paren _ ih | exprs _ ih | factor _ ih | joined _ ih | parenTables _ ih | condition _ ih =>
    exact ih
  | assign | noExprs | noWhere | noGroupby | noHaving | noOrderby | noLimit | noInto
  | noCondition => exact iff_of_true hP.all_null rfl
  | table dbname tablename astablename =>
    rw [hP.all_iff_fields rfl rfl]
    simp [Derivation.ast, Derivation.clean, newTable, newExprlistheader, fields, hP.all_null,
      hP.all_header]
  | _ =>
    rw [hP.all_iff_fields rfl rfl]
    simp [Derivation.ast, Derivation.clean, fields, calAst, funcAst, newExprCal, newExprFunc,
      newExprList, newQueryStmt, newSelectList, newSelectExpr, newColumn, newWhereList,
      newGroupbyExpr, newGroupbyList, newHavingList, newOrderbyList, newLimitExpr, newFromList,
      newTable, newExprlistheader, newJoin, newCondition, hP.all_null, hP.all_dateType,
      hP.all_header, hP.all_condition_iff, and_assoc, *]

end Discerns

/-- The expressions with the value null. -/
def Derivation.nullValued : {s : Symbol} → Derivation s → Bool
  | _, bareToken _ lexed => !lexed
  | _, assign _ _ => true
  | _, paren e => e.nullValued
  | _, binaryKeyword lexed _ => !lexed
  | _, _ => false

def Derivation.firstKey : Derivation .groupbyList → Derivation .expr
  | oneGroupby e _ => e
  | consGroupby e _ _ => e

/-- The first expression of `ORDER BY`. -/
def Derivation.sortKey : {s : Symbol} → Derivation s → Option (Derivation .expr)
  | _, selectFrom _ _ _ _ _ _ (orderbyExprs es) _ _ => some es.firstKey
  | _, _ => none

theorem leftover_eq_null_iff (lexed : Bool) : leftover lexed = null ↔ lexed = false := by
  cases lexed <;> simp [leftover]

theorem leafAst_ne_null (l : Leaf) : leafAst l ≠ null := by
  cases l <;> nofun

theorem Derivation.ast_eq_null_iff {s : Symbol} (d : Derivation s) (hs : s = .expr) :
    d.ast = null ↔ d.nullValued = true := by
  induction d with
  | leaf l => simp [ast, nullValued, leafAst_ne_null]
  | bareToken t lexed => simp [ast, nullValued, leftover_eq_null_iff]
  | binaryKeyword lexed e => simp [ast, nullValued, leftover_eq_null_iff]
  | assign name e => simp [ast, nullValued]
  | paren e ih => exact ih rfl
  | _ => cases hs <;> exact iff_of_false (by nofun) (by nofun)

/-- The tags of the tree name the structs, and the consumers read fields of the structs only:
`output` from every floor on, and `osgwf_2_lp`, which is called with select statements. -/
structure TagsDetermine {s : Symbol} (d : Derivation s) : Prop where
  tagged : ∀ p, Reach.Reaches fields d.ast p → p.Tagged
  output : ∀ floor, (output d.ast floor).isSome
  sort : s = .selectStmt → (osgwf2Lp d.ast).isSome

theorem Derivation.clean_firstKey {es : Derivation .groupbyList} (h : es.clean = true) :
    es.firstKey.clean = true := by
  cases es with
  | oneGroupby e desc => exact h
  | consGroupby e desc es =>
    rw [clean, Bool.and_eq_true] at h
    exact h.1

theorem Derivation.osgwf2Lp_orderbyExprs {opts es ts filter groupby having lim dest}
    (keys : Derivation .groupbyList) :
    osgwf2Lp (selectFrom opts es ts filter groupby having (orderbyExprs keys) lim dest).ast =
      inOrder [some [.text "I am in 2_lp;", endl], printSortKey keys.firstKey.ast] := by
  cases keys <;> rfl

/-- The first key of a clean statement is printed if it is not null. -/
theorem Derivation.osgwf2Lp_isSome_iff {d : Derivation .selectStmt} (hd : d.clean = true) :
    (osgwf2Lp d.ast).isSome ↔ ∀ e ∈ d.sortKey, e.nullValued = false := by
  cases d with
  | select opts es => simp [ast, newQueryStmt, osgwf2Lp, sortKey]
  | selectFrom opts es ts filter groupby having orderby lim dest =>
    cases orderby with
    | noOrderby => simp [ast, newQueryStmt, osgwf2Lp, sortKey]
    | orderbyExprs keys =>
      have hkeys : keys.clean = true := by simp_all [clean]
      have htagged := ((Tagged.discerns.all_ast_iff _).mpr (clean_firstKey hkeys)).self
      have hnull := ast_eq_null_iff keys.firstKey rfl
      rw [osgwf2Lp_orderbyExprs, inOrder_isSome]
      simp [printSortKey_isSome_iff htagged, hnull, sortKey]

/-- The tags determine the structs exactly if the derivation is clean and the first expression of
`ORDER BY` is not null. -/
theorem tagsDetermine_iff {s : Symbol} (d : Derivation s) :
    TagsDetermine d ↔ d.clean = true ∧ ∀ e ∈ d.sortKey, e.nullValued = false := by
  constructor
  · intro h
    have hclean := (Tagged.discerns.all_ast_iff d).mp h.tagged
    constructor
    · exact hclean
    · intro e he
      cases s with
      | selectStmt => exact (Derivation.osgwf2Lp_isSome_iff hclean).mp (h.sort rfl) e he
      | _ => cases d <;> cases he
  · intro ⟨hclean, hkey⟩
    constructor
    · exact (Tagged.discerns.all_ast_iff d).mpr hclean
    · exact output_isSome ((Readable.discerns.all_ast_iff d).mpr hclean)
    · rintro rfl
      exact (Derivation.osgwf2Lp_isSome_iff hclean).mpr hkey

/-- `select @a`, the type `varchar(10)`, `select b, current_date`, and a select statement with
`order by @a := 1`. -/
theorem not_tagsDetermine_uservar :
    ¬ TagsDetermine (.select [] (.oneSelect (.selectExpr (.leaf (.uservar "a")) none))) ∧
      ¬ TagsDetermine (.dataType (.varchar "10" [])) ∧
      ¬ TagsDetermine (.select [] (.consSelect (.selectExpr (.leaf (.name "b")) none)
        (.oneSelect (.selectExpr (.bareToken .currentDate true) none)))) ∧
      ¬ TagsDetermine (.selectFrom [] .star (.oneTable (.factor (.table none "t" none))) .noWhere
        .noGroupby .noHaving
        (.orderbyExprs (.oneGroupby (.assign "a" (.leaf (.intnum "1"))) false)) .noLimit
        .noInto) := by
  constructor
  · intro h
    exact absurd (h.output 0) (by decide)
  · constructor
    · intro h
      exact absurd ((Tagged.discerns.all_ast_iff _).mp h.tagged) (by decide)
    · constructor
      · intro h
        exact absurd (h.output 0) (by decide)
      · intro h
        exact absurd (h.sort rfl) (by decide)

end Mosito.Ast
