import Mosito.Lib.Lexer

/-! The rules of the SQL scanner, `sql.l`, in the order of the source. The patterns do not tell
capital letters from small ones. -/
namespace Mosito
open Lexer

inductive Token where
  | ADD | ALL | ALTER | ANALYZE | AND | ANDOP | ANY | AS | ASC | AUTO_INCREMENT | BEFORE
  | BETWEEN | BIGINT | BINARY | BIT | BLOB | BOTH | BTREE | BY | CALL | CASCADE | CASE | CHANGE
  | CHAR | CHECK | COLLATE | COLUMN | COMMENT | CONDITION | CONSTRAINT | CONTINUE | CONVERT
  | CREATE | CROSS | CURRENT_DATE | CURRENT_TIME | CURRENT_TIMESTAMP | CURRENT_USER | CURSOR
  | DATABASE | DATABASES | DAY | DATE | DATETIME | DAY_HOUR | DAY_MICROSECOND | DAY_MINUTE
  | DAY_SECOND | DECIMAL | DECLARE | DEFAULT | DELAYED | DELETE | DESC | DESCRIBE | DETERMINISTIC
  | DISTINCT | DISTINCTROW | DIV | DOUBLE | DROP | DUAL | EACH | ELSE | ELSEIF | END | ENUM
  | ESCAPED | EXISTS | EXIT | EXPLAIN | FETCH | FLOAT | FOR | FORCE | FOREIGN | FROM | FULLTEXT
  | GRANT | GROUP | HASH | HAVING | HIGH_PRIORITY | HOUR_MICROSECOND | HOUR_MINUTE | HOUR_SECOND
  | IF | IGNORE | IN | INFILE | INNER | INOUT | INSENSITIVE | INSERT | INTEGER | INTERVAL | INTO
  | IS | ITERATE | JOIN | INDEX | KEY | KEYS | KILL | LEADING | LEAVE | LEFT | LIKE | LIMIT
  | LINES | LOAD | LOCALTIME | LOCALTIMESTAMP | LOCK | LONG | LONGBLOB | LONGTEXT | LOOP
  | LOW_PRIORITY | MATCH | MEDIUMBLOB | MEDIUMINT | MEDIUMTEXT | MINUTE_MICROSECOND
  | MINUTE_SECOND | MOD | MODIFIES | NATURAL | NOT | NO_WRITE_TO_BINLOG | NULLX | NUMBER | ON
  | DUPLICATE | OPTIMIZE | OPTION | OPTIONALLY | OR | ORDER | OUT | OUTER | OUTFILE | PARTITIONED
  | PRECISION | PRIMARY | PROCEDURE | PROJECTION | PURGE | QUICK | QUARTER | READ | READS | REAL
  | REFERENCES | REGEXP | RELEASE | RENAME | REPEAT | REPLACE | REQUIRE | RESTRICT | RETURN
  | REVOKE | RIGHT | ROLLUP | SCHEMA | SCHEMAS | SECOND_MICROSECOND | SELECT | SENSITIVE
  | SEPARATOR | SET | SHOW | SMALLINT | SOME | SONAME | SPATIAL | SPECIFIC | SQL | SQLEXCEPTION
  | SQLSTATE | SQLWARNING | SQL_BIG_RESULT | SQL_CALC_FOUND_ROWS | SQL_SMALL_RESULT | SSL
  | STARTING | STRAIGHT_JOIN | TABLE | TABLES | TEMPORARY | TERMINATED | TEXT | THEN | TIME
  | TIMESTAMP | TINYINT | TINYTEXT | TO | TRAILING | TRIGGER | UNDO | UNION | UNIQUE | UNLOCK
  | UNSIGNED | UPDATE | USAGE | USE | USING | UTC_DATE | UTC_TIME | UTC_TIMESTAMP | VALUES
  | VARBINARY | VARCHAR | VARYING | WHEN | WHERE | WEEK | WHILE | WITH | WRITE | XOR | YEAR
  | YEAR_MONTH | ZEROFILL | BEGINT | INTNUM | APPROXNUM | BOOL | STRING | COMPARISON | SHIFT
  | FSUBSTRING | FTRIM | FDATE_ADD | FDATE_SUB | FUPPER | FCOALESCE | FCAST | FCONVERT | FCOUNT
  | NAME | FSUM | FAVG | FMIN | FMAX | USERVAR | ASSIGN
  deriving DecidableEq

/-- What `yylex` returns, with what it leaves in `yylval.subtok` or as a literal in
`yylval.strval`; the copies of `yytext` there are left out. Numbers below 256 stand for the byte
itself. -/
inductive Returned where
  | token (t : Token)
  | subtok (t : Token) (value : ℕ)
  | literal (t : Token) (strval : String)
  | code (c : UInt8)
  deriving DecidableEq

namespace Scanner

/-- The start conditions. -/
inductive Mode where
  | initial
  | comment
  | btwmode
  deriving DecidableEq

/-- `YY_START` and `oldstate`. -/
structure State where
  mode : Mode
  oldstate : Mode
  deriving DecidableEq

abbrev Text := List UInt8
abbrev ScannerRule := Rule UInt8 State Returned

def lower (a : UInt8) : UInt8 := if 65 ≤ a ∧ a ≤ 90 then a + 32 else a

def isDigit (a : UInt8) : Bool := 48 ≤ a && a ≤ 57
def isLetter (a : UInt8) : Bool := 97 ≤ lower a && lower a ≤ 122
def isHex (a : UInt8) : Bool := isDigit a || (97 ≤ lower a && lower a ≤ 102)
def isBlank (a : UInt8) : Bool := a = 32 || a = 9

/-- `[A-Za-z0-9_]` -/
def isNameByte (a : UInt8) : Bool := isLetter a || isDigit a || a = 95

/-- `[0-9a-z_.$]` -/
def isVariableByte (a : UInt8) : Bool := isNameByte a || a = 46 || a = 36

open Pattern

def byte (c : UInt8) : Pattern UInt8 := .one fun a => lower a = lower c

/-- `[^...]` -/
def noneOf (cs : List UInt8) : Pattern UInt8 := .one fun a => !cs.contains a

/-- `.` -/
def dot : Pattern UInt8 := noneOf [10]

def bytes (s : String) : Text := s.toList.map fun c => UInt8.ofNat c.toNat

def word (s : String) : Pattern UInt8 := ((bytes s).map byte).foldr .seq .nil

/-- `BEGIN` -/
def State.begins (s : State) (mode : Option Mode) : State := { s with mode := mode.getD s.mode }

/-- A rule without a start condition is active in all but the exclusive ones. -/
def State.active (only : Option Mode) (s : State) : Bool :=
  match only with
  | some mode => s.mode = mode
  | none => s.mode ≠ .comment

/-- A rule whose action returns a token, or none. -/
def rule (pattern : Pattern UInt8) (token : Option Returned) : ScannerRule where
  active := State.active none
  pattern := pattern
  ahead := none
  action s _ _ := (s, token)

def returning (pattern : Pattern UInt8) (token : Token) : ScannerRule :=
  rule pattern (some (.token token))

/-- `only` is a start condition in front of the pattern; `words` are all texts of the pattern. -/
structure Keyword where
  only : Option Mode
  words : List String
  begins : Option Mode
  token : Returned
  deriving DecidableEq

def keyword (words : List String) (token : Token) : Keyword :=
  ⟨none, words, none, .token token⟩

def Keyword.rule (k : Keyword) : ScannerRule where
  active := State.active k.only
  pattern := (k.words.map word).foldr .alt .empty
  ahead := none
  action s _ _ := (s.begins k.begins, some k.token)

/-- `COMMENT` is the number of the start condition where the keyword's action returns it, since
flex defines a macro of that name behind the tokens. -/
def keywords : List Keyword :=
  [keyword ["ADD"] .ADD, keyword ["ALL"] .ALL, keyword ["ALTER"] .ALTER,
    keyword ["ANALYZE"] .ANALYZE, ⟨some .btwmode, ["AND"], some .initial, .token .AND⟩,
    keyword ["AND"] .ANDOP, keyword ["ANY"] .ANY, keyword ["AS"] .AS, keyword ["ASC"] .ASC,
    keyword ["AUTO_INCREMENT"] .AUTO_INCREMENT, keyword ["BEFORE"] .BEFORE,
    ⟨none, ["BETWEEN"], some .btwmode, .token .BETWEEN⟩, keyword ["INT8", "BIGINT"] .BIGINT,
    keyword ["BINARY"] .BINARY, keyword ["BIT"] .BIT, keyword ["BLOB"] .BLOB,
    keyword ["BOTH"] .BOTH, keyword ["BTREE"] .BTREE, keyword ["BY"] .BY, keyword ["CALL"] .CALL,
    keyword ["CASCADE"] .CASCADE, keyword ["CASE"] .CASE, keyword ["CHANGE"] .CHANGE,
    keyword ["CHAR", "CHARACTER"] .CHAR, keyword ["CHECK"] .CHECK, keyword ["COLLATE"] .COLLATE,
    keyword ["COLUMN"] .COLUMN, ⟨none, ["COMMENT"], none, .code 1⟩,
    keyword ["CONDITION"] .CONDITION, keyword ["CONSTRAINT"] .CONSTRAINT,
    keyword ["CONTINUE"] .CONTINUE, keyword ["CONVERT"] .CONVERT, keyword ["CREATE"] .CREATE,
    keyword ["CROSS"] .CROSS, keyword ["CURRENT_DATE"] .CURRENT_DATE,
    keyword ["CURRENT_TIME"] .CURRENT_TIME, keyword ["CURRENT_TIMESTAMP"] .CURRENT_TIMESTAMP,
    keyword ["CURRENT_USER"] .CURRENT_USER, keyword ["CURSOR"] .CURSOR,
    keyword ["DATABASE"] .DATABASE, keyword ["DATABASES"] .DATABASES, keyword ["DAY"] .DAY,
    keyword ["DATE"] .DATE, keyword ["DATETIME"] .DATETIME, keyword ["HOUR"] .DAY_HOUR,
    keyword ["MICROSECOND"] .DAY_MICROSECOND, keyword ["MINUTE"] .DAY_MINUTE,
    keyword ["SECOND"] .DAY_SECOND, keyword ["NUMERIC", "DEC", "DECIMAL"] .DECIMAL,
    keyword ["DECLARE"] .DECLARE, keyword ["DEFAULT"] .DEFAULT, keyword ["DELAYED"] .DELAYED,
    keyword ["DELETE"] .DELETE, keyword ["DESC"] .DESC, keyword ["DESCRIBE"] .DESCRIBE,
    keyword ["DETERMINISTIC"] .DETERMINISTIC, keyword ["DISTINCT"] .DISTINCT,
    keyword ["DISTINCTROW"] .DISTINCTROW, keyword ["DIV"] .DIV,
    keyword ["FLOAT8", "DOUBLE"] .DOUBLE, keyword ["DROP"] .DROP, keyword ["DUAL"] .DUAL,
    keyword ["EACH"] .EACH, keyword ["ELSE"] .ELSE, keyword ["ELSEIF"] .ELSEIF,
    keyword ["END"] .END, keyword ["ENUM"] .ENUM, keyword ["ESCAPED"] .ESCAPED,
    keyword ["EXISTS"] .EXISTS, keyword ["EXIT"] .EXIT, keyword ["EXPLAIN"] .EXPLAIN,
    keyword ["FETCH"] .FETCH, keyword ["FLOAT", "FLOAT4"] .FLOAT, keyword ["FOR"] .FOR,
    keyword ["FORCE"] .FORCE, keyword ["FOREIGN"] .FOREIGN, keyword ["FROM"] .FROM,
    keyword ["FULLTEXT"] .FULLTEXT, keyword ["GRANT"] .GRANT, keyword ["GROUP"] .GROUP,
    keyword ["HASH"] .HASH, keyword ["HAVING"] .HAVING, keyword ["HIGH_PRIORITY"] .HIGH_PRIORITY,
    keyword ["HOUR_MICROSECOND"] .HOUR_MICROSECOND, keyword ["HOUR_MINUTE"] .HOUR_MINUTE,
    keyword ["HOUR_SECOND"] .HOUR_SECOND, keyword ["IF"] .IF, keyword ["IGNORE"] .IGNORE,
    keyword ["IN"] .IN, keyword ["INFILE"] .INFILE, keyword ["INNER"] .INNER,
    keyword ["INOUT"] .INOUT, keyword ["INSENSITIVE"] .INSENSITIVE, keyword ["INSERT"] .INSERT,
    keyword ["INT", "INT4", "INTEGER", "INT"] .INTEGER, keyword ["INTERVAL"] .INTERVAL,
    keyword ["INTO"] .INTO, keyword ["IS"] .IS, keyword ["ITERATE"] .ITERATE,
    keyword ["JOIN"] .JOIN, keyword ["INDEX"] .INDEX, keyword ["KEY"] .KEY,
    keyword ["KEYS"] .KEYS, keyword ["KILL"] .KILL, keyword ["LEADING"] .LEADING,
    keyword ["LEAVE"] .LEAVE, keyword ["LEFT"] .LEFT, keyword ["LIKE"] .LIKE,
    keyword ["LIMIT"] .LIMIT, keyword ["LINES"] .LINES, keyword ["LOAD"] .LOAD,
    keyword ["LOCALTIME"] .LOCALTIME, keyword ["LOCALTIMESTAMP"] .LOCALTIMESTAMP,
    keyword ["LOCK"] .LOCK, keyword ["LONG"] .LONG, keyword ["LONGBLOB"] .LONGBLOB,
    keyword ["LONGTEXT"] .LONGTEXT, keyword ["LOOP"] .LOOP,
    keyword ["LOW_PRIORITY"] .LOW_PRIORITY, keyword ["MATCH"] .MATCH,
    keyword ["MEDIUMBLOB"] .MEDIUMBLOB, keyword ["MIDDLEINT", "MEDIUMINT"] .MEDIUMINT,
    keyword ["MEDIUMTEXT"] .MEDIUMTEXT, keyword ["MINUTE_MICROSECOND"] .MINUTE_MICROSECOND,
    keyword ["MINUTE_SECOND"] .MINUTE_SECOND, keyword ["MOD"] .MOD,
    keyword ["MODIFIES"] .MODIFIES, keyword ["NATURAL"] .NATURAL, keyword ["NOT"] .NOT,
    keyword ["NO_WRITE_TO_BINLOG"] .NO_WRITE_TO_BINLOG, keyword ["NULL"] .NULLX,
    keyword ["NUMBER"] .NUMBER, keyword ["ON"] .ON, keyword ["DUPLICATE"] .DUPLICATE,
    keyword ["OPTIMIZE"] .OPTIMIZE, keyword ["OPTION"] .OPTION,
    keyword ["OPTIONALLY"] .OPTIONALLY, keyword ["OR"] .OR, keyword ["ORDER"] .ORDER,
    keyword ["OUT"] .OUT, keyword ["OUTER"] .OUTER, keyword ["OUTFILE"] .OUTFILE,
    keyword ["PARTITIONED"] .PARTITIONED, keyword ["PRECISION"] .PRECISION,
    keyword ["PRIMARY"] .PRIMARY, keyword ["PROCEDURE"] .PROCEDURE,
    keyword ["PROJECTION"] .PROJECTION, keyword ["PURGE"] .PURGE, keyword ["QUICK"] .QUICK,
    keyword ["QUARTER"] .QUARTER, keyword ["READ"] .READ, keyword ["READS"] .READS,
    keyword ["REAL"] .REAL, keyword ["REFERENCES"] .REFERENCES,
    keyword ["REGEXP", "RLIKE"] .REGEXP, keyword ["RELEASE"] .RELEASE,
    keyword ["RENAME"] .RENAME, keyword ["REPEAT"] .REPEAT, keyword ["REPLACE"] .REPLACE,
    keyword ["REQUIRE"] .REQUIRE, keyword ["RESTRICT"] .RESTRICT, keyword ["RETURN"] .RETURN,
    keyword ["REVOKE"] .REVOKE, keyword ["RIGHT"] .RIGHT, keyword ["ROLLUP"] .ROLLUP,
    keyword ["SCHEMA"] .SCHEMA, keyword ["SCHEMAS"] .SCHEMAS,
    keyword ["SECOND_MICROSECOND"] .SECOND_MICROSECOND, keyword ["SELECT"] .SELECT,
    keyword ["SENSITIVE"] .SENSITIVE, keyword ["SEPARATOR"] .SEPARATOR, keyword ["SET"] .SET,
    keyword ["SHOW"] .SHOW, keyword ["INT2", "SMALLINT"] .SMALLINT, keyword ["SOME"] .SOME,
    keyword ["SONAME"] .SONAME, keyword ["SPATIAL"] .SPATIAL, keyword ["SPECIFIC"] .SPECIFIC,
    keyword ["SQL"] .SQL, keyword ["SQLEXCEPTION"] .SQLEXCEPTION, keyword ["SQLSTATE"] .SQLSTATE,
    keyword ["SQLWARNING"] .SQLWARNING, keyword ["SQL_BIG_RESULT"] .SQL_BIG_RESULT,
    keyword ["SQL_CALC_FOUND_ROWS"] .SQL_CALC_FOUND_ROWS,
    keyword ["SQL_SMALL_RESULT"] .SQL_SMALL_RESULT, keyword ["SSL"] .SSL,
    keyword ["STARTING"] .STARTING, keyword ["STRAIGHT_JOIN"] .STRAIGHT_JOIN,
    keyword ["TABLE"] .TABLE, keyword ["TABLES"] .TABLES, keyword ["TEMPORARY"] .TEMPORARY,
    keyword ["TERMINATED"] .TERMINATED, keyword ["TEXT"] .TEXT, keyword ["THEN"] .THEN,
    keyword ["TIME"] .TIME, keyword ["TIMESTAMP"] .TIMESTAMP,
    keyword ["INT1", "TINYINT"] .TINYINT, keyword ["TINYTEXT"] .TINYTEXT, keyword ["TO"] .TO,
    keyword ["TRAILING"] .TRAILING, keyword ["TRIGGER"] .TRIGGER, keyword ["UNDO"] .UNDO,
    keyword ["UNION"] .UNION, keyword ["UNIQUE"] .UNIQUE, keyword ["UNLOCK"] .UNLOCK,
    keyword ["UNSIGNED"] .UNSIGNED, keyword ["UPDATE"] .UPDATE, keyword ["USAGE"] .USAGE,
    keyword ["USE"] .USE, keyword ["USING"] .USING, keyword ["UTC_DATE"] .UTC_DATE,
    keyword ["UTC_TIME"] .UTC_TIME, keyword ["UTC_TIMESTAMP"] .UTC_TIMESTAMP,
    keyword ["VALUE", "VALUES"] .VALUES, keyword ["VARBINARY"] .VARBINARY,
    keyword ["VARCHAR", "VARCHARACTER"] .VARCHAR, keyword ["VARYING"] .VARYING,
    keyword ["WHEN"] .WHEN, keyword ["WHERE"] .WHERE, keyword ["WEEK"] .WEEK,
    keyword ["WHILE"] .WHILE, keyword ["WITH"] .WITH, keyword ["WRITE"] .WRITE,
    keyword ["XOR"] .XOR, keyword ["YEAR"] .YEAR, keyword ["MONTH"] .YEAR_MONTH,
    keyword ["ZEROFILL"] .ZEROFILL, keyword ["BEGIN"] .BEGINT]

def digits : Pattern UInt8 := plus (.one isDigit)

/-- `E[-+]?[0-9]+` -/
def exponent : Pattern UInt8 := .seq (byte 69) (.seq (opt (.alt (byte 45) (byte 43))) digits)

def numbers : List ScannerRule :=
  [returning digits .INTNUM,
    returning (.seq digits (.seq (byte 46) (.star (.one isDigit)))) .APPROXNUM,
    returning (.seq (byte 46) digits) .APPROXNUM,
    returning (.seq digits exponent) .APPROXNUM,
    returning (.seq digits (.seq (byte 46) (.seq (.star (.one isDigit)) exponent))) .APPROXNUM,
    returning (.seq (byte 46) (.seq (.star (.one isDigit)) exponent)) .APPROXNUM]

def booleans : List Keyword :=
  [⟨none, ["TRUE"], none, .literal .BOOL "1"⟩,
    ⟨none, ["UNKNOWN"], none, .literal .BOOL "-1"⟩,
    ⟨none, ["FALSE"], none, .literal .BOOL "0"⟩]

/-- A string between two bytes `q`. -/
def quoted (q : UInt8) : Pattern UInt8 :=
  let unit := .alt (.seq (byte 92) dot) (.alt (.seq (byte q) (byte q)) (noneOf [q, 10]))
  .seq (byte q) (.seq (.star unit) (byte q))

/-- `$` -/
def atLineEnd (r : ScannerRule) : ScannerRule := { r with ahead := some fun a => a = 10 }

/-- A string that is not closed on its line. -/
def unterminated (q : UInt8) : ScannerRule :=
  atLineEnd (rule (.seq (byte q) (.star (.alt (.seq (byte 92) dot) (noneOf [q, 10])))) none)

def strings : List ScannerRule :=
  [returning (quoted 39) .STRING, returning (quoted 34) .STRING, unterminated 39,
    unterminated 34]

/-- Hexadecimal and bit strings. -/
def bitStrings : List ScannerRule :=
  let between (c : UInt8) (p : Pattern UInt8) : Pattern UInt8 :=
    .seq (byte c) (.seq (byte 39) (.seq (plus p) (byte 39)))
  let behind (c : UInt8) (p : Pattern UInt8) : Pattern UInt8 :=
    .seq (byte 48) (.seq (byte c) (plus p))
  let binary : Pattern UInt8 := .one fun a => a = 48 || a = 49
  [returning (between 88 (.one isHex)) .STRING, returning (behind 88 (.one isHex)) .STRING,
    returning (behind 66 binary) .STRING, returning (between 66 binary) .STRING]

def comparison (s : String) (subtok : ℕ) : ScannerRule :=
  rule (word s) (some (.subtok .COMPARISON subtok))

def shift (s : String) (subtok : ℕ) : ScannerRule := rule (word s) (some (.subtok .SHIFT subtok))

/-- The first one returns `yytext[0]`. -/
def operators : List ScannerRule :=
  [{ rule (.one fun a => (bytes "-+&~|^/%*(),.;!").contains a) none with
      action := fun s text _ => (s, text.head?.map .code) },
    returning (word "&&") .ANDOP, returning (word "||") .OR,
    comparison "<" 1, comparison ">" 2,
    comparison "!=" 3, comparison "<>" 3,
    comparison "=" 4, comparison "<=" 5,
    comparison ">=" 6, comparison "<=>" 12,
    shift "<<" 1, shift ">>" 2]

/-- `.../"("` -/
def beforeParen (pattern : Pattern UInt8) (token : Token) : ScannerRule :=
  { returning pattern token with ahead := some fun a => a = 40 }

/-- The action looks at the next byte and puts it back. At the end of the text there is none, and
the `EOF` that it gets comes back as the byte 255. -/
def aggregate (name : String) (token : Token) : ScannerRule :=
  { rule (word name) none with
    action := fun s _ rest => (s, some (.token (if rest.head? = some 40 then token else .NAME)))
    atEnd := [255] }

def functions : List ScannerRule :=
  [beforeParen (.seq (word "SUBSTR") (opt (word "ING"))) .FSUBSTRING,
    beforeParen (word "TRIM") .FTRIM, beforeParen (word "DATE_ADD") .FDATE_ADD,
    beforeParen (word "DATE_SUB") .FDATE_SUB, beforeParen (word "UPPER") .FUPPER,
    beforeParen (word "COALESCE") .FCOALESCE, beforeParen (word "CAST") .FCAST,
    beforeParen (word "CONVERT") .FCONVERT, aggregate "COUNT" .FCOUNT, aggregate "SUM" .FSUM,
    aggregate "AVG" .FAVG, aggregate "MIN" .FMIN, aggregate "MAX" .FMAX]

/-- `[A-Za-z][A-Za-z0-9_]*` -/
def nameRule : ScannerRule :=
  returning (.seq (.one isLetter) (.star (.one isNameByte))) .NAME

/-- Names between back quotes, and user variables. -/
def quotedNames : List ScannerRule :=
  let inside (q : UInt8) (p : Pattern UInt8) : Pattern UInt8 :=
    .seq (byte q) (.seq (plus p) (byte q))
  let openEnd (q : UInt8) : Pattern UInt8 := .seq (byte q) (.star (noneOf [q, 10]))
  let userVariable (q : UInt8) : ScannerRule :=
    returning (.seq (byte 64) (inside q (noneOf [q, 10]))) .USERVAR
  let unclosed (q : UInt8) : ScannerRule := atLineEnd (rule (.seq (byte 64) (openEnd q)) none)
  [returning (inside 96 (noneOf [96, 47, 92, 46, 10])) .NAME, atLineEnd (rule (openEnd 96) none),
    returning (.seq (byte 64) (plus (.one isVariableByte))) .USERVAR, userVariable 34,
    userVariable 96, userVariable 39, unclosed 34, unclosed 96, unclosed 39,
    returning (word ":=") .ASSIGN]

def lineComments : List ScannerRule :=
  [rule (.seq (byte 35) (.star dot)) none,
    rule (.seq (word "--") (.seq (.one isBlank) (.star dot))) none]

/-- `"/*"` -/
def openComment : ScannerRule :=
  { rule (word "/*") none with action := fun s _ _ => (⟨.comment, s.mode⟩, none) }

/-- `<COMMENT>"*/"` -/
def closeComment : ScannerRule :=
  { rule (word "*/") none with
    active := State.active (some .comment)
    action := fun s _ _ => ({ s with mode := s.oldstate }, none) }

/-- `<COMMENT>.|\n` -/
def inComment : ScannerRule :=
  { rule (.alt dot (byte 10)) none with active := State.active (some .comment) }

/-- White space, and `mystery character`. -/
def everythingElse : List ScannerRule :=
  [rule (.one fun a => isBlank a || a = 10) none, rule dot none]

def rules : List ScannerRule :=
  keywords.map Keyword.rule ++ numbers ++ booleans.map Keyword.rule ++ strings ++ bitStrings ++
    operators ++ functions ++ [nameRule] ++ quotedNames ++ lineComments ++
    [openComment, closeComment, inComment] ++ everythingElse

/-- `yylex` until the end of a text. In a comment it never gets there: the rule for the end
prints an error and scans on. -/
def yylex (s : State) (text : Text) : Option (List (Lexeme UInt8 Returned) × State) :=
  (scanAll rules s text).bind fun r => if r.2.mode = .comment then none else some r

/-- The texts of a session, one after the other; nothing resets the start condition. -/
def session : State → List Text → Option (List (Lexeme UInt8 Returned) × State)
  | s, [] => some ([], s)
  | s, text :: texts =>
      (yylex s text).bind fun r => (session r.2 texts).map fun t => (r.1 ++ t.1, t.2)

/-- At the start of the program. -/
def start : State := ⟨.initial, .initial⟩

end Scanner
end Mosito
