import RowFilter.Access
import RowFilter.Condition
import RowFilter.Criteria.Basic
import RowFilter.Criterion
import RowFilter.Dialect
import RowFilter.Limits

/-!
# From criteria to a clause

Compiling has two halves. `plan` reads every key, checks its columns and gives its commands their
arguments; all refusals arise there, and no text is written. `Plan` then says what is asked of a row,
and `Plan.expression?` writes it in a dialect.

* `ColumnTest` : one column, and the conditions of which any may hold;
* `Restriction` : what one key asks: the test of its column, or of any column of its group;
* `TableName` : a table comes from the program and not from a request, so its name is held to a plain
  form: an ASCII letter or an underscore first, then letters, digits and underscores;
* `Compiler` : the settings, and `Compiler.compile`;
* `Clause` : the result, which is empty for criteria without keys.
-/

namespace RowFilter

open Condition (parenthesised)

/-- A column, and the conditions of which any may hold. -/
structure ColumnTest where
  column : String
  conditions : List (Condition Scalar)
deriving DecidableEq

/-- What one key asks of a row. -/
inductive Restriction where
  | column (test : ColumnTest)
  | anyOf (tests : List ColumnTest)
deriving DecidableEq

abbrev Plan : Type := List Restriction

/-- SQL texts of which one must hold, each already in parentheses. -/
def alternatives (sql : List String) : String := parenthesised (" OR ".intercalate sql)

/-- The test of a column as SQL. A single condition needs only its own parentheses. -/
def ColumnTest.render (d : Dialect) (table : String) (t : ColumnTest) : String :=
  let conditions := t.conditions.map fun c =>
    parenthesised ((c.map d.literal).render (d.column table t.column))
  match conditions with
  | [condition] => condition
  | conditions => alternatives conditions

def Restriction.render (d : Dialect) (table : String) : Restriction → String
  | column test => test.render d table
  | anyOf tests => alternatives (tests.map (ColumnTest.render d table))

def Plan.expression? (d : Dialect) (table : String) (p : Plan) : Option String :=
  if p.isEmpty then none else some (" AND ".intercalate (p.map (Restriction.render d table)))

def condition (argument : Value) (field : String) (command : Command) :
    Except ClauseError (Condition Scalar) :=
  match Condition.ofArgument? argument command with
  | some condition => .ok condition
  | none => .error (.wrongShape command field)

/-- The test of a column: the column is checked first, and then each command in the order written. -/
def columnTest (access : Access) (criterion : Criterion) (field : String) :
    Except ClauseError ColumnTest := do
  access.check field
  return ⟨field, ← criterion.commands.mapM (condition criterion.argument field)⟩

/-- What a key and its argument ask, the columns taken in the order written. -/
def restriction (access : Access) (entry : String × Value) : Except ClauseError Restriction := do
  let criterion ← Criterion.read entry.1 entry.2
  match criterion.target with
  | .column field => return .column (← columnTest access criterion field)
  | .anyOf fields => return .anyOf (← fields.mapM (columnTest access criterion))

/-- What all keys ask, or the first refusal. -/
def plan (access : Access) (c : Criteria) : Except ClauseError Plan :=
  c.toList.mapM (restriction access)

/-- A compiled filter, ready to stand in a query. -/
structure Clause where
  expression? : Option String
deriving DecidableEq, Repr

namespace Clause

def isEmpty (c : Clause) : Bool := c.expression?.isNone

def where? (c : Clause) : Option String := c.expression?.map ("WHERE " ++ ·)

/-- The clause as it goes into a query, where an empty one leaves no trace. -/
def text (c : Clause) : String := c.where?.getD ""

end Clause

/-! ## Tables -/

def maxTableName : Nat := 64

def isTableName (text : String) : Bool :=
  match text.toList with
  | [] => false
  | first :: others =>
    (first :: others).length ≤ maxTableName && (first.isAlpha || first == '_') &&
      others.all fun c => c.isAlphanum || c == '_'

/-- A table name of the plain form. -/
structure TableName where
  text : String
  plain : isTableName text = true

namespace TableName

def refusal (text : String) : String := "table name '" ++ text ++ "' is not a plain identifier"

def ofText (text : String) : Except String TableName :=
  if plain : isTableName text = true then .ok ⟨text, plain⟩ else .error (refusal text)

end TableName

/-! ## Compiling -/

/-- The settings of compilation for one table. -/
structure Compiler where
  dialect : Dialect
  table : TableName
  access : Access
  keyLimit : Nat

namespace Compiler

/-- A compiler that admits every column and the default number of keys. -/
def new (dialect : Dialect) (table : TableName) : Compiler :=
  ⟨dialect, table, .everything, defaultKeyLimit⟩

def allow (c : Compiler) (fields : List String) : Compiler :=
  { c with access := c.access.allow fields }

def deny (c : Compiler) (fields : List String) : Compiler :=
  { c with access := c.access.deny fields }

def withAccess (c : Compiler) (access : Access) : Compiler := { c with access }

def withKeyLimit (c : Compiler) (limit : Nat) : Compiler := { c with keyLimit := limit }

/-- The clause that criteria give. The keys are counted before any is read. -/
def compile (c : Compiler) (criteria : Criteria) : Except ClauseError Clause :=
  if c.keyLimit < criteria.size then .error (.tooManyKeys c.keyLimit)
  else (plan c.access criteria).map fun p => ⟨p.expression? c.dialect c.table.text⟩

end Compiler

end RowFilter
