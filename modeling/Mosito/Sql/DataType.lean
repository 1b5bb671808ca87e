import Mosito.Sql.NodeStruct

/-! The productions of `data_type`, and what their actions build. -/
namespace Mosito.Ast

/-- `opt_length`, with the texts of the tokens `INTNUM`. -/
inductive OptLength where
  | nil
  | one (n : String)
  | two (n m : String)

/-- `UNSIGNED` and `ZEROFILL` in `opt_uz`. -/
inductive Uz where
  | unsigned
  | zerofill
  deriving DecidableEq, Repr

/-- `CHAR SET` and `COLLATE` in `opt_csc`. -/
inductive Csc where
  | charSet (name : String)
  | collate (name : String)
  deriving DecidableEq, Repr

/-- `enum_list`. -/
inductive EnumList where
  | one (s : String)
  | snoc (es : EnumList) (s : String)

/-- The types with a length and `opt_uz`. -/
inductive NumberType where
  | tinyint
  | smallint
  | mediumint
  | int
  | integer
  | bigint
  | real
  | double
  | float
  | decimal
  deriving DecidableEq, Repr

/-- The types without arguments. -/
inductive PlainType where
  | date
  | time
  | timestamp
  | datetime
  | year
  | tinyblob
  | blob
  | mediumblob
  | longblob
  deriving DecidableEq, Repr

inductive TextType where
  | tinytext
  | text
  | mediumtext
  | longtext
  deriving DecidableEq, Repr

/-- `data_type`. -/
inductive DataType where
  | bit (length : OptLength)
  | number (k : NumberType) (length : OptLength) (uz : List Uz)
  | plain (k : PlainType)
  | char (length : OptLength) (csc : List Csc)
  | varchar (n : String) (csc : List Csc)
  | binary (length : OptLength)
  | varbinary (n : String)
  | text (k : TextType) (binary : Bool) (csc : List Csc)
  | enum (es : EnumList) (csc : List Csc)
  | set (es : EnumList) (csc : List Csc)

/-- Of digits, as in the tokens `INTNUM`. The number is exact, while that of the source is an `int`. -/
def atoi (s : String) : ℤ := s.toList.foldl (fun n c => 10 * n + (c.toNat - '0'.toNat : ℕ)) 0

def OptLength.ast : OptLength → Ptr
  | nil => .null
  | one n => newLength .length (atoi n) 0
  | two n m => newLength .length (atoi n) (atoi m)

def uzValue (uz : List Uz) : ℕ :=
  uz.foldl (fun v u => v ||| match u with | .unsigned => 1 | .zerofill => 2) 0

/-- The later productions of `opt_csc` write into the node of the first. -/
def updateCsc (t : Ptr) (c : Csc) : Ptr :=
  match t with
  | .optCsc type datatype s1 s2 =>
      match c with
      | .charSet name => .optCsc type (datatype ||| 1) (.text name) s2
      | .collate name => .optCsc type (datatype ||| 2) s1 (.text name)
  | t => t

def cscAst (csc : List Csc) : Ptr := csc.foldl updateCsc (newOptCsc .optCsc 0 .null .null)

def EnumList.ast : EnumList → Ptr
  | one s => newEnumList .enumList (.text s) .null
  | snoc es s => newEnumList .enumList (.text s) es.ast

def NumberType.code : NumberType → ℤ
  | tinyint => 2
  | smallint => 3
  | mediumint => 4
  | int => 5
  | integer => 6
  | bigint => 7
  | real => 8
  | double => 9
  | float => 10
  | decimal => 11

def PlainType.code : PlainType → ℤ
  | date => 12
  | time => 13
  | timestamp => 14
  | datetime => 15
  | year => 16
  | tinyblob => 21
  | blob => 22
  | mediumblob => 23
  | longblob => 24

def TextType.code : TextType → ℤ
  | tinytext => 25
  | text => 26
  | mediumtext => 27
  | longtext => 28

def DataType.ast : DataType → Ptr
  | bit length => newDatatype .datatype 1 length.ast 0 .null 0 .null
  | number k length uz => newDatatype .datatype k.code length.ast (uzValue uz) .null 0 .null
  | plain k => newDatatype .datatype k.code .null 0 .null 0 .null
  | char length csc => newDatatype .datatype 17 length.ast 0 (cscAst csc) 0 .null
  | varchar n csc =>
      newDatatype .datatype 18 (newLength .datatype (atoi n) 0) 0 (cscAst csc) 0 .null
  | binary length => newDatatype .datatype 19 length.ast 0 .null 0 .null
  | varbinary n => newDatatype .datatype 20 (newLength .datatype (atoi n) 0) 0 .null 0 .null
  | text k isbinary csc =>
      newDatatype .datatype k.code .null 0 (cscAst csc) (if isbinary then 1 else 0) .null
  | enum es csc => newDatatype .datatype 29 .null 0 (cscAst csc) 0 es.ast
  | set es csc => newDatatype .datatype 30 .null 0 (cscAst csc) 0 es.ast

end Mosito.Ast
