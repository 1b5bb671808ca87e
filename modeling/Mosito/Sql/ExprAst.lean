import Mathlib.Algebra.Order.Ring.Int
import Mathlib.Tactic.Common

/-! The syntax trees that the operator rules of `expr` build. A select statement in an expression
is given by its own tree, from `S`. -/
namespace Mosito
variable {S : Type}

/-- The node types of expressions. -/
inductive NodeType where
  | name
  | nameName
  | stringval
  | intnum
  | approxnum
  | bool
  | exprList
  | exprCal
  | exprFunc
  deriving DecidableEq, Repr

/-- A tree behind a `Node *`. -/
inductive Node (S : Type) where
  | null
  | select (s : S)
  | expr (type : NodeType) (data : String)
  | columns (type : NodeType) (parameter1 parameter2 : Option String) (next : Node S)
  | exprList (type : NodeType) (data next : Node S)
  | exprCal (type : NodeType) (str sign : String) (parameter : Option String) (cmp : ℤ)
      (lnext rnext : Node S)
  | exprFunc (type : NodeType) (str funname : String) (args parameter1 parameter2 next : Node S)

def newExpr (t : NodeType) (d : String) : Node S := .expr t d

def newExprList (t : NodeType) (data next : Node S) : Node S := .exprList t data next

def newColumn (t : NodeType) (parameter1 parameter2 : Option String) (next : Node S) : Node S :=
  .columns t parameter1 parameter2 next

def newExprCal (type : NodeType) (sign : String) (parameter : Option String) (cmp : ℤ)
    (lnext rnext : Node S) : Node S :=
  .exprCal type "" sign parameter cmp lnext rnext

def newExprFunc (type : NodeType) (funname : String) (args parameter1 parameter2 next : Node S) :
    Node S :=
  .exprFunc type "" funname args parameter1 parameter2 next

/-- `BOOL`. -/
inductive BoolToken where
  | true
  | unknown
  | false
  deriving DecidableEq, Repr

/-- `COMPARISON`. -/
inductive Comparison where
  | lt
  | gt
  | ne
  | eq
  | le
  | ge
  | nullSafe
  deriving DecidableEq, Repr

/-- `SHIFT`. -/
inductive ShiftToken where
  | left
  | right
  deriving DecidableEq, Repr

/-- `ANY`, `SOME` and `ALL`. -/
inductive Quantifier where
  | any
  | some
  | all
  deriving DecidableEq, Repr

/-- The operators between two expressions that have a sign of their own. -/
inductive BinaryOp where
  | add
  | sub
  | mul
  | div
  | percent
  | mod
  | andop
  | or
  | xor
  | bitOr
  | bitAnd
  | bitXor
  | like
  | regexp
  | notRegexp
  deriving DecidableEq, Repr

/-- The operators in front of one expression. -/
inductive UnaryOp where
  | minus
  | plus
  | not
  | bang
  deriving DecidableEq, Repr

/-- The `strval` of the token. -/
def BoolToken.strval : BoolToken → String
  | true => "1"
  | unknown => "-1"
  | false => "0"

/-- The `subtok` of the token. -/
def Comparison.subtok : Comparison → ℤ
  | lt => 1
  | gt => 2
  | ne => 3
  | eq => 4
  | le => 5
  | ge => 6
  | nullSafe => 12

def Quantifier.parameter : Quantifier → String
  | any => "ANY"
  | some => "SOME"
  | all => "ALL"

/-- The sign that the operator's rule writes. -/
def BinaryOp.sign : BinaryOp → String
  | add => "+"
  | sub => "-"
  | mul => "*"
  | div => "/"
  | percent => "%"
  | mod => "MOD"
  | andop => "ANDOP"
  | or => "OR"
  | xor => "XOR"
  | bitOr => "|"
  | bitAnd => "&"
  | bitXor => "^"
  | like => "LIKE"
  | regexp => "REGEXP"
  | notRegexp => "NREGEXP"

def UnaryOp.sign : UnaryOp → String
  | minus => "--"
  | plus => "++"
  | not => "NOT"
  | bang => "!"

/-- The number of the token `SHIFT`. -/
def shiftToken : ℕ := 275

/-- The expressions without operators. -/
inductive Leaf where
  | name (name : String)
  | uservar (name : String)
  | nameName (table column : String)
  | nameStar (table : String)
  | string (value : String)
  | intnum (value : String)
  | approxnum (value : String)
  | bool (value : BoolToken)
  deriving DecidableEq, Repr

mutual

/-- The derivations of `expr`, rule by rule. `negated` is the `NOT` inside an operator. -/
inductive SqlExpr (S : Type) where
  | leaf (l : Leaf)
  | binary (op : BinaryOp) (l r : SqlExpr S)
  | unary (op : UnaryOp) (e : SqlExpr S)
  | comparison (c : Comparison) (l r : SqlExpr S)
  | comparisonSelect (c : Comparison) (q : Option Quantifier) (l : SqlExpr S) (s : S)
  | shift (t : ShiftToken) (l r : SqlExpr S)
  | paren (e : SqlExpr S)
  | isNull (negated : Bool) (e : SqlExpr S)
  | isBool (negated : Bool) (e : SqlExpr S) (b : BoolToken)
  | between (e lower upper : SqlExpr S)
  | inList (negated : Bool) (e : SqlExpr S) (es : SqlExprList S)
  | rowInList (negated : Bool) (row es : SqlExprList S)
  | inSelect (negated : Bool) (e : SqlExpr S) (s : S)
  | rowInSelect (negated : Bool) (row : SqlExprList S) (s : S)
  | exist (negated : Bool) (s : S)
  | notLike (l r : SqlExpr S)

/-- The derivations of `expr_list`; `paren` is the rule with parentheses. -/
inductive SqlExprList (S : Type) where
  | one (e : SqlExpr S)
  | cons (e : SqlExpr S) (es : SqlExprList S)
  | paren (e : SqlExpr S) (es : SqlExprList S)

end

/-- `$$` of the rule of a leaf. -/
def Leaf.ast : Leaf → Node S
  | name s => newColumn .name none (some s) .null
  | uservar s => newExpr .name s
  | nameName t c => newColumn .nameName (some t) (some c) .null
  | nameStar t => newColumn .nameName (some t) (some "*") .null
  | string s => newExpr .stringval s
  | intnum s => newExpr .intnum s
  | approxnum s => newExpr .approxnum s
  | bool b => newExpr .bool b.strval

mutual

/-- `$$` of the rule. -/
def SqlExpr.ast : SqlExpr S → Node S
  | .leaf l => l.ast
  | .binary op l r => newExprCal .exprCal op.sign none 0 l.ast r.ast
  | .unary op e => newExprCal .exprCal op.sign none 0 .null e.ast
  | .comparison c l r => newExprCal .exprCal "CMP" none c.subtok l.ast r.ast
  | .comparisonSelect c q l s =>
      newExprCal .exprCal "CMP" (q.map Quantifier.parameter) c.subtok l.ast (.select s)
  | .shift _ l r =>
      newExprCal .exprCal (if shiftToken = 1 then "LS" else "RS") none 0 l.ast r.ast
  | .paren e => e.ast
  | .isNull negated e =>
      newExprFunc .exprFunc (if negated then "ISNN" else "ISN") e.ast .null .null .null
  | .isBool negated e _ =>
      newExprFunc .exprFunc (if negated then "ISNB" else "ISB") e.ast .null .null .null
  | .between e lower upper => newExprFunc .exprFunc "BA" e.ast lower.ast upper.ast .null
  | .inList negated e es =>
      newExprCal .exprCal (if negated then "NIN" else "INV") none 0 e.ast es.ast
  | .rowInList negated row es =>
      newExprCal .exprCal (if negated then "NIN" else "INV") none 0 row.ast es.ast
  | .inSelect negated e s =>
      newExprCal .exprCal (if negated then "NINS" else "INS") none 0 e.ast (.select s)
  | .rowInSelect negated row s =>
      newExprCal .exprCal (if negated then "NINS" else "INS") none 0 row.ast (.select s)
  | .exist negated s =>
      newExprCal .exprCal (if negated then "NINS" else "EX") none 0 .null (.select s)
  | .notLike _ r => newExprCal .exprCal "NLIKE" none 0 .null r.ast

def SqlExprList.ast : SqlExprList S → Node S
  | .one e => newExprList .exprList e.ast .null
  | .cons e es => newExprList .exprList e.ast es.ast
  | .paren e es => newExprList .exprList e.ast es.ast

end

mutual

/-- The expression without its redundant parentheses. Those of a row are among them: the action of
its rule gives the tree of the list inside. -/
def SqlExpr.strip : SqlExpr S → SqlExpr S
  | .leaf l => .leaf l
  | .binary op l r => .binary op l.strip r.strip
  | .unary op e => .unary op e.strip
  | .comparison c l r => .comparison c l.strip r.strip
  | .comparisonSelect c q l s => .comparisonSelect c q l.strip s
  | .shift t l r => .shift t l.strip r.strip
  | .paren e => e.strip
  | .isNull negated e => .isNull negated e.strip
  | .isBool negated e b => .isBool negated e.strip b
  | .between e lower upper => .between e.strip lower.strip upper.strip
  | .inList negated e es => .inList negated e.strip es.strip
  | .rowInList negated row es => .rowInList negated row.strip es.strip
  | .inSelect negated e s => .inSelect negated e.strip s
  | .rowInSelect negated row s => .rowInSelect negated row.strip s
  | .exist negated s => .exist negated s
  | .notLike l r => .notLike l.strip r.strip

def SqlExprList.strip : SqlExprList S → SqlExprList S
  | .one e => .one e.strip
  | .cons e es => .cons e.strip es.strip
  | .paren e es => .cons e.strip es.strip

end

/-- Not a column that may be all columns. -/
def Leaf.clear : Leaf → Bool
  | nameName _ c => c ≠ "*"
  | nameStar _ => false
  | _ => true

mutual

/-- No shift, no `IS [NOT] BOOL`, no `NOT LIKE`, and no column that may be all columns. -/
def SqlExpr.clear : SqlExpr S → Bool
  | .leaf l => l.clear
  | .binary _ l r => l.clear && r.clear
  | .unary _ e => e.clear
  | .comparison _ l r => l.clear && r.clear
  | .comparisonSelect _ _ l _ => l.clear
  | .shift _ _ _ => false
  | .paren e => e.clear
  | .isNull _ e => e.clear
  | .isBool _ _ _ => false
  | .between e lower upper => e.clear && lower.clear && upper.clear
  | .inList _ e es => e.clear && es.clear
  | .rowInList _ row es => row.clear && es.clear
  | .inSelect _ e _ => e.clear
  | .rowInSelect _ row _ => row.clear
  | .exist _ _ => true
  | .notLike _ _ => false

def SqlExprList.clear : SqlExprList S → Bool
  | .one e => e.clear
  | .cons e es => e.clear && es.clear
  | .paren e es => e.clear && es.clear

end

/-! Reading an expression back from its tree. -/

/-- What a tree that is an operand was built from. -/
inductive Operand (S : Type) where
  | null
  | expr (e : SqlExpr S)
  | list (es : SqlExprList S)
  | select (s : S)

def Comparison.ofSubtok (cmp : ℤ) : Option Comparison :=
  [lt, gt, ne, eq, le, ge, nullSafe].find? fun c => c.subtok = cmp

def BoolToken.ofStrval (s : String) : Option BoolToken :=
  [true, unknown, false].find? fun b => b.strval = s

def Quantifier.ofParameter (s : String) : Option Quantifier :=
  [any, some, all].find? fun q => q.parameter = s

def BinaryOp.ofSign (s : String) : Option BinaryOp :=
  [add, sub, mul, div, percent, mod, andop, or, xor, bitOr, bitAnd, bitXor, like, regexp,
    notRegexp].find? fun op => op.sign = s

def UnaryOp.ofSign (s : String) : Option UnaryOp :=
  [minus, plus, not, bang].find? fun op => op.sign = s

@[simp] theorem Comparison.ofSubtok_subtok (c : Comparison) : ofSubtok c.subtok = some c := by
  cases c <;> rfl

@[simp] theorem BoolToken.ofStrval_strval (b : BoolToken) : ofStrval b.strval = some b := by
  cases b <;> rfl

@[simp] theorem BinaryOp.ofSign_sign (op : BinaryOp) : ofSign op.sign = some op := by
  cases op <;> rfl

@[simp] theorem BinaryOp.sign_ne (op : BinaryOp) : op.sign ≠ "CMP" := by
  cases op <;> decide

@[simp] theorem UnaryOp.ofSign_sign (op : UnaryOp) : ofSign op.sign = some op := by
  cases op <;> rfl

/-- The parameter of a comparison with a select statement. -/
def readQuantifier : Option String → Option (Option Quantifier)
  | none => some none
  | some s => (Quantifier.ofParameter s).map some

@[simp] theorem readQuantifier_map (q : Option Quantifier) :
    readQuantifier (q.map Quantifier.parameter) = some q := by
  cases q with
  | none => rfl
  | some q => cases q <;> rfl

def readExpr : NodeType → String → Option Leaf
  | .name, s => some (.uservar s)
  | .stringval, s => some (.string s)
  | .intnum, s => some (.intnum s)
  | .approxnum, s => some (.approxnum s)
  | .bool, s => (BoolToken.ofStrval s).map .bool
  | _, _ => none

def readColumns : NodeType → Option String → Option String → Option Leaf
  | .name, none, some s => some (.name s)
  | .nameName, some t, some c => if c = "*" then none else some (.nameName t c)
  | _, _, _ => none

def readList : Operand S → Operand S → Option (SqlExprList S)
  | .expr e, .null => some (.one e)
  | .expr e, .list es => some (.cons e es)
  | _, _ => none

def readCal (sign : String) (parameter : Option String) (cmp : ℤ) :
    Operand S → Operand S → Option (SqlExpr S)
  | .null, .expr e => (UnaryOp.ofSign sign).map fun op => .unary op e
  | .null, .select s =>
      if sign = "EX" then some (.exist false s)
      else if sign = "NINS" then some (.exist true s)
      else none
  | .expr l, .expr r =>
      if sign = "CMP" then (Comparison.ofSubtok cmp).map fun c => .comparison c l r
      else (BinaryOp.ofSign sign).map fun op => .binary op l r
  | .expr e, .list es =>
      if sign = "INV" then some (.inList false e es)
      else if sign = "NIN" then some (.inList true e es)
      else none
  | .list row, .list es =>
      if sign = "INV" then some (.rowInList false row es)
      else if sign = "NIN" then some (.rowInList true row es)
      else none
  | .expr e, .select s =>
      if sign = "CMP" then (Comparison.ofSubtok cmp).bind fun c =>
        (readQuantifier parameter).map fun q => .comparisonSelect c q e s
      else if sign = "INS" then some (.inSelect false e s)
      else if sign = "NINS" then some (.inSelect true e s)
      else none
  | .list row, .select s =>
      if sign = "INS" then some (.rowInSelect false row s)
      else if sign = "NINS" then some (.rowInSelect true row s)
      else none
  | _, _ => none

def readFunc (funname : String) : Operand S → Operand S → Operand S → Option (SqlExpr S)
  | .expr e, .null, .null =>
      if funname = "ISN" then some (.isNull false e)
      else if funname = "ISNN" then some (.isNull true e)
      else none
  | .expr e, .expr lower, .expr upper =>
      if funname = "BA" then some (.between e lower upper) else none
  | _, _, _ => none

/-- The operand behind a tree, if the tree tells it. -/
def Node.read : Node S → Option (Operand S)
  | .null => some .null
  | .select s => some (.select s)
  | .expr t d => (readExpr t d).map fun l => .expr (.leaf l)
  | .columns t p1 p2 _ => (readColumns t p1 p2).map fun l => .expr (.leaf l)
  | .exprList _ data next =>
      data.read.bind fun d => next.read.bind fun n => (readList d n).map .list
  | .exprCal _ _ sign parameter cmp lnext rnext =>
      lnext.read.bind fun l => rnext.read.bind fun r => (readCal sign parameter cmp l r).map .expr
  | .exprFunc _ _ funname args parameter1 parameter2 _ =>
      args.read.bind fun a => parameter1.read.bind fun p1 => parameter2.read.bind fun p2 =>
        (readFunc funname a p1 p2).map .expr

theorem Leaf.read_ast (l : Leaf) : (l.ast : Node S).read =
    bif l.clear then some (.expr (.leaf l)) else none := by
  cases l <;> simp [Leaf.ast, newExpr, newColumn, Node.read, readExpr, readColumns, Leaf.clear]
  split_ifs <;> simp_all

section Read
variable {l r n : Node S} {x y z : Operand S} {c d e : Bool}

theorem Node.read_null : (null : Node S).read = bif true then some .null else none := rfl

theorem Node.read_select (s : S) : (select s).read = bif true then some (.select s) else none := rfl

theorem Node.read_newExprCal (t : NodeType) (sign : String) (parameter : Option String) (cmp : ℤ)
    (hl : l.read = bif c then some x else none) (hr : r.read = bif d then some y else none) :
    (newExprCal t sign parameter cmp l r).read =
      bif c && d then (readCal sign parameter cmp x y).map .expr else none := by
  rw [newExprCal, read, hl, hr]
  cases c <;> cases d <;> rfl

theorem Node.read_newExprFunc (t : NodeType) (funname : String)
    (hl : l.read = bif c then some x else none) (hr : r.read = bif d then some y else none)
    (hn : n.read = bif e then some z else none) :
    (newExprFunc t funname l r n .null).read =
      bif c && d && e then (readFunc funname x y z).map .expr else none := by
  rw [newExprFunc, read, hl, hr, hn]
  cases c <;> cases d <;> cases e <;> rfl

theorem Node.read_newExprList (t : NodeType) (hl : l.read = bif c then some x else none)
    (hr : r.read = bif d then some y else none) :
    (newExprList t l r).read = bif c && d then (readList x y).map .list else none := by
  rw [newExprList, read, hl, hr]
  cases c <;> cases d <;> rfl

end Read

mutual

/-- The tree of a clear expression tells the expression, and no other tree does. -/
theorem SqlExpr.read_ast (e : SqlExpr S) :
    e.ast.read = bif e.clear then some (.expr e.strip) else none := by
  cases e with
  | leaf l => exact l.read_ast
  | binary op l r =>
    rw [SqlExpr.ast, Node.read_newExprCal _ _ _ _ l.read_ast r.read_ast]
    simp [readCal, SqlExpr.clear, SqlExpr.strip]
  | unary op e =>
    rw [SqlExpr.ast, Node.read_newExprCal _ _ _ _ Node.read_null e.read_ast]
    simp [readCal, SqlExpr.clear, SqlExpr.strip]
  | comparison c l r =>
    rw [SqlExpr.ast, Node.read_newExprCal _ _ _ _ l.read_ast r.read_ast]
    simp [readCal, SqlExpr.clear, SqlExpr.strip]
  | comparisonSelect c q l s =>
    rw [SqlExpr.ast, Node.read_newExprCal _ _ _ _ l.read_ast (Node.read_select s)]
    simp [readCal, SqlExpr.clear, SqlExpr.strip]
  | shift t l r =>
    -- the sign is always "RS"
    rw [SqlExpr.ast, Node.read_newExprCal _ _ _ _ l.read_ast r.read_ast]
    simp [readCal, SqlExpr.clear, shiftToken, BinaryOp.ofSign, BinaryOp.sign]
  | paren e => exact e.read_ast
  | isNull negated e =>
    rw [SqlExpr.ast, Node.read_newExprFunc _ _ e.read_ast Node.read_null Node.read_null]
    cases negated <;> simp [readFunc, SqlExpr.clear, SqlExpr.strip]
  | isBool negated e b =>
    rw [SqlExpr.ast, Node.read_newExprFunc _ _ e.read_ast Node.read_null Node.read_null]
    cases negated <;> simp [readFunc, SqlExpr.clear]
  | between e lower upper =>
    rw [SqlExpr.ast, Node.read_newExprFunc _ _ e.read_ast lower.read_ast upper.read_ast]
    simp [readFunc, SqlExpr.clear, SqlExpr.strip]
  | inList negated e es =>
    rw [SqlExpr.ast, Node.read_newExprCal _ _ _ _ e.read_ast es.read_ast]
    cases negated <;> simp [readCal, SqlExpr.clear, SqlExpr.strip]
  | rowInList negated row es =>
    rw [SqlExpr.ast, Node.read_newExprCal _ _ _ _ row.read_ast es.read_ast]
    cases negated <;> simp [readCal, SqlExpr.clear, SqlExpr.strip]
  | inSelect negated e s =>
    rw [SqlExpr.ast, Node.read_newExprCal _ _ _ _ e.read_ast (Node.read_select s)]
    cases negated <;> simp [readCal, SqlExpr.clear, SqlExpr.strip]
  | rowInSelect negated row s =>
    rw [SqlExpr.ast, Node.read_newExprCal _ _ _ _ row.read_ast (Node.read_select s)]
    cases negated <;> simp [readCal, SqlExpr.clear, SqlExpr.strip]
  | exist negated s =>
    rw [SqlExpr.ast, Node.read_newExprCal _ _ _ _ Node.read_null (Node.read_select s)]
    cases negated <;> simp [readCal, SqlExpr.clear, SqlExpr.strip]
  | notLike l r =>
    -- no operator in front of one expression has the sign "NLIKE"
    rw [SqlExpr.ast, Node.read_newExprCal _ _ _ _ Node.read_null r.read_ast]
    simp [readCal, SqlExpr.clear, UnaryOp.ofSign, UnaryOp.sign]

theorem SqlExprList.read_ast (es : SqlExprList S) :
    es.ast.read = bif es.clear then some (.list es.strip) else none := by
  cases es with
  | one e =>
    rw [SqlExprList.ast, Node.read_newExprList _ e.read_ast Node.read_null]
    simp [readList, SqlExprList.clear, SqlExprList.strip]
  | cons e es =>
    rw [SqlExprList.ast, Node.read_newExprList _ e.read_ast es.read_ast]
    simp [readList, SqlExprList.clear, SqlExprList.strip]
  | paren e es =>
    rw [SqlExprList.ast, Node.read_newExprList _ e.read_ast es.read_ast]
    simp [readList, SqlExprList.clear, SqlExprList.strip]

end

/-- Another expression has the same tree. -/
def SqlExpr.Collides (e : SqlExpr S) : Prop := ∃ e' : SqlExpr S, e'.ast = e.ast ∧ e'.strip ≠ e.strip

def SqlExprList.Collides (es : SqlExprList S) : Prop :=
  ∃ es' : SqlExprList S, es'.ast = es.ast ∧ es'.strip ≠ es.strip

/-- An operand that collides makes what is built from it collide. -/
theorem SqlExpr.Collides.map {e : SqlExpr S} (h : e.Collides) (f : SqlExpr S → SqlExpr S)
    (hast : ∀ x, x.ast = e.ast → (f x).ast = (f e).ast := by simp +contextual [SqlExpr.ast])
    (hstrip : ∀ x, (f x).strip = (f e).strip → x.strip = e.strip := by simp [SqlExpr.strip]) :
    (f e).Collides := by
  obtain ⟨e', ha, hs⟩ := h
  exact ⟨f e', hast e' ha, fun heq => hs (hstrip e' heq)⟩

theorem SqlExprList.Collides.map {es : SqlExprList S} (h : es.Collides)
    (f : SqlExprList S → SqlExpr S)
    (hast : ∀ x, x.ast = es.ast → (f x).ast = (f es).ast := by simp +contextual [SqlExpr.ast])
    (hstrip : ∀ x, (f x).strip = (f es).strip → x.strip = es.strip := by simp [SqlExpr.strip]) :
    (f es).Collides := by
  obtain ⟨es', ha, hs⟩ := h
  exact ⟨f es', hast es' ha, fun heq => hs (hstrip es' heq)⟩

/-- There are at least two expressions. -/
theorem SqlExpr.exists_strip_ne (e : SqlExpr S) : ∃ e' : SqlExpr S, e'.strip ≠ e := by
  by_cases h : e = .leaf (.name "a")
  · exact ⟨.leaf (.name "b"), by simp [h, SqlExpr.strip]⟩
  · exact ⟨.leaf (.name "a"), fun heq => h heq.symm⟩

theorem Leaf.collides (l : Leaf) (h : l.clear = false) : (SqlExpr.leaf l : SqlExpr S).Collides := by
  cases l with
  | nameName t c =>
    have hstar : c = "*" := by simpa [clear] using h
    exact ⟨.leaf (.nameStar t), by rw [hstar]; rfl, by simp [SqlExpr.strip]⟩
  | nameStar t => exact ⟨.leaf (.nameName t "*"), rfl, by simp [SqlExpr.strip]⟩
  | _ => simp [clear] at h

mutual

/-- An expression that is not clear collides. -/
theorem SqlExpr.collides (e : SqlExpr S) (h : e.clear = false) : e.Collides := by
  cases e with
  | leaf l => exact l.collides h
  | binary op l r =>
    rw [SqlExpr.clear, Bool.and_eq_false_iff] at h
    rcases h with h | h
    · exact (l.collides h).map fun x => .binary op x r
    · exact (r.collides h).map fun x => .binary op l x
  | unary op e =>
    exact (e.collides h).map fun x => .unary op x
  | comparison c l r =>
    rw [SqlExpr.clear, Bool.and_eq_false_iff] at h
    rcases h with h | h
    · exact (l.collides h).map fun x => .comparison c x r
    · exact (r.collides h).map fun x => .comparison c l x
  | comparisonSelect c q l s =>
    exact (l.collides h).map fun x => .comparisonSelect c q x s
  | shift t l r =>
    cases t with
    | left => exact ⟨.shift .right l r, rfl, by simp [SqlExpr.strip]⟩
    | right => exact ⟨.shift .left l r, rfl, by simp [SqlExpr.strip]⟩
  | paren e => exact e.collides h
  | isNull negated e =>
    exact (e.collides h).map fun x => .isNull negated x
  | isBool negated e b =>
    cases b with
    | true => exact ⟨.isBool negated e .false, rfl, by simp [SqlExpr.strip]⟩
    | unknown => exact ⟨.isBool negated e .true, rfl, by simp [SqlExpr.strip]⟩
    | false => exact ⟨.isBool negated e .true, rfl, by simp [SqlExpr.strip]⟩
  | between e lower upper =>
    rw [SqlExpr.clear, Bool.and_eq_false_iff, Bool.and_eq_false_iff] at h
    rcases h with (h | h) | h
    · exact (e.collides h).map fun x => .between x lower upper
    · exact (lower.collides h).map fun x => .between e x upper
    · exact (upper.collides h).map fun x => .between e lower x
  | inList negated e es =>
    rw [SqlExpr.clear, Bool.and_eq_false_iff] at h
    rcases h with h | h
    · exact (e.collides h).map fun x => .inList negated x es
    · exact (es.collides h).map fun x => .inList negated e x
  | rowInList negated row es =>
    rw [SqlExpr.clear, Bool.and_eq_false_iff] at h
    rcases h with h | h
    · exact (row.collides h).map fun x => .rowInList negated x es
    · exact (es.collides h).map fun x => .rowInList negated row x
  | inSelect negated e s =>
    exact (e.collides h).map fun x => .inSelect negated x s
  | rowInSelect negated row s =>
    exact (row.collides h).map fun x => .rowInSelect negated x s
  | exist negated s => cases h
  | notLike l r =>
    obtain ⟨l', hl⟩ := SqlExpr.exists_strip_ne l.strip
    exact ⟨.notLike l' r, rfl, by simp [SqlExpr.strip, hl]⟩

theorem SqlExprList.collides (es : SqlExprList S) (h : es.clear = false) : es.Collides := by
  cases es with
  | one e =>
    obtain ⟨e', ha, hs⟩ := e.collides h
    refine ⟨.one e', by rw [SqlExprList.ast, SqlExprList.ast, ha], ?_⟩
    simpa [SqlExprList.strip] using hs
  | cons e es =>
    rw [SqlExprList.clear, Bool.and_eq_false_iff] at h
    rcases h with h | h
    · obtain ⟨e', ha, hs⟩ := e.collides h
      refine ⟨.cons e' es, by rw [SqlExprList.ast, SqlExprList.ast, ha], ?_⟩
      simpa [SqlExprList.strip] using hs
    · obtain ⟨es', ha, hs⟩ := es.collides h
      refine ⟨.cons e es', by rw [SqlExprList.ast, SqlExprList.ast, ha], ?_⟩
      simpa [SqlExprList.strip] using hs
  | paren e es =>
    rw [SqlExprList.clear, Bool.and_eq_false_iff] at h
    rcases h with h | h
    · obtain ⟨e', ha, hs⟩ := e.collides h
      refine ⟨.paren e' es, by rw [SqlExprList.ast, SqlExprList.ast, ha], ?_⟩
      simpa [SqlExprList.strip] using hs
    · obtain ⟨es', ha, hs⟩ := es.collides h
      refine ⟨.paren e es', by rw [SqlExprList.ast, SqlExprList.ast, ha], ?_⟩
      simpa [SqlExprList.strip] using hs

end

/-- The tree determines an expression up to redundant parentheses exactly if the expression is
clear. -/
theorem SqlExpr.ast_determines_iff (e : SqlExpr S) :
    (∀ e' : SqlExpr S, e'.ast = e.ast → e'.strip = e.strip) ↔ e.clear = true := by
  constructor
  · intro hall
    by_contra hclear
    obtain ⟨e', ha, hs⟩ := e.collides (Bool.eq_false_of_not_eq_true hclear)
    exact hs (hall e' ha)
  · intro hclear e' ha
    have hread := e.read_ast
    rw [← ha, e'.read_ast, hclear, cond_true] at hread
    cases hclear' : e'.clear with
    | true =>
      rw [hclear', cond_true, Option.some.injEq, Operand.expr.injEq] at hread
      exact hread
    | false => simp [hclear'] at hread

/-- Both shifts are "RS", `NOT LIKE` drops its left operand, `IS BOOL` drops its right one, and a
quoted column can be `*`. -/
theorem SqlExpr.ast_not_injective :
    (shift .left (.leaf (.name "a")) (.leaf (.name "b")) : SqlExpr Unit).ast =
        (shift .right (.leaf (.name "a")) (.leaf (.name "b"))).ast ∧
      (notLike (.leaf (.name "a")) (.leaf (.string "x")) : SqlExpr Unit).ast =
        (notLike (.leaf (.name "b")) (.leaf (.string "x"))).ast ∧
      (isBool false (.leaf (.name "a")) .true : SqlExpr Unit).ast =
        (isBool false (.leaf (.name "a")) .false).ast ∧
      (leaf (.nameName "t" "*") : SqlExpr Unit).ast = (leaf (.nameStar "t")).ast ∧
      ¬∀ e e' : SqlExpr Unit, e'.ast = e.ast → e'.strip = e.strip := by
  refine ⟨rfl, rfl, rfl, rfl, fun hall => ?_⟩
  have hshift := hall (shift .left (.leaf (.name "a")) (.leaf (.name "b")))
    (shift .right (.leaf (.name "a")) (.leaf (.name "b"))) rfl
  simp [SqlExpr.strip] at hshift

end Mosito
