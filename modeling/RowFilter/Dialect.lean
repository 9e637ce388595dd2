import RowFilter.Value.Basic

/-!
# SQL dialects

A dialect says how names and scalars are written in SQL.

* `Dialect.ansi` : names in double quotes, texts in single quotes, a quote inside written twice;
* `Dialect.mysql` : names in backticks, a backtick inside written twice; texts in single quotes, with
  a quote inside written twice and backslash escapes for the backslash and for four control characters;
* in both, numbers stand bare, and a number that SQL cannot write is `NULL`.
-/

namespace RowFilter

/-- How names and scalars are written. A list has a text too, its literals in one row unless a dialect
says otherwise; compiling walks lists itself and asks for scalars only. -/
structure Dialect where
  name : String → String
  literal : Scalar → String
  row : List Value → String := fun members =>
    ", ".intercalate (members.map (Nested.fold literal ", ".intercalate))

namespace Dialect

/-- A text between two marks, each character inside written as `inside` says. -/
def enclosed (mark : Char) (inside : Char → List Char) (text : String) : String :=
  String.ofList (mark :: (text.toList.flatMap inside ++ [mark]))

/-- A character as itself, and the mark twice. -/
def doubling (mark : Char) (c : Char) : List Char := if c = mark then [c, c] else [c]

/-- A character of a text literal with backslash escapes. -/
def escaping : Char → List Char
  | '\\' => ['\\', '\\']
  | '\'' => ['\'', '\'']
  | '\x00' => ['\\', '0']
  | '\n' => ['\\', 'n']
  | '\r' => ['\\', 'r']
  | '\x1a' => ['\\', 'Z']
  | c => [c]

/-- The mark around names where double quotes are taken by texts. -/
def backtick : Char := '\x60'

/-- A number without quotes; what is no finite number is null. -/
def numberLiteral : Number → String
  | .int i => (Number.int i).text
  | .float x => if x.isFinite then x.text else "NULL"

/-- The dialect of the SQL standard. -/
def ansi : Dialect where
  name := enclosed '"' (doubling '"')
  literal
    | .text s => enclosed '\'' (doubling '\'') s
    | .number n => numberLiteral n

/-- The dialect with backticks and backslash escapes. -/
def mysql : Dialect where
  name := enclosed backtick (doubling backtick)
  literal
    | .text s => enclosed '\'' escaping s
    | .number n => numberLiteral n

/-- The text of a value: the literal of a scalar, the row of a list. -/
def literals (d : Dialect) : Value → String
  | .item s => d.literal s
  | .list members => d.row members

def column (d : Dialect) (table field : String) : String := d.name table ++ "." ++ d.name field

end Dialect

end RowFilter
