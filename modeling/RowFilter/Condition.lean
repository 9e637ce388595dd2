import RowFilter.Command
import RowFilter.Value.Nested

/-!
# Conditions on a column

A condition is a command that has its argument, in the shape it asks for.

* `Condition.ofArgument?` : a command and an argument joined, if the shape is right;
* `Condition.render` : the condition as SQL on a column, from the SQL of the column and of its literals.

A range holds its lower end and not its upper one. Several ranges give one alternative each, and
outside of several ranges is outside of every one of them.
-/

namespace RowFilter

/-- The comparisons with a single operand. -/
inductive Comparison where
  | equal
  | notEqual
  | greater
  | greaterOrEqual
  | less
deriving DecidableEq, Repr

def Comparison.symbol : Comparison → String
  | equal => "="
  | notEqual => "!="
  | greater => ">"
  | greaterOrEqual => ">="
  | less => "<"

/-- A restriction of one column, with operands of type `α`. -/
inductive Condition (α : Type) where
  | compare (comparison : Comparison) (operand : α)
  | isNull
  | contains (operand : α)
  | startsWith (operand : α)
  | oneOf (operands : List α)
  | within (ranges : List (α × α))
  | outside (ranges : List (α × α))
deriving DecidableEq, Repr

namespace Condition

variable {α β : Type}

/-- The condition of a command and its argument, if the argument has the shape of the command. -/
def ofArgument? (argument : Nested α) : Command → Option (Condition α)
  | .equals => argument.scalar?.map (compare .equal)
  | .differs => argument.scalar?.map (compare .notEqual)
  | .above => argument.scalar?.map (compare .greater)
  | .atLeast => argument.scalar?.map (compare .greaterOrEqual)
  | .isNull => some isNull
  | .contains => argument.scalar?.map contains
  | .startsWith => argument.scalar?.map startsWith
  | .oneOf => argument.scalars?.map oneOf
  | .within => argument.pairs?.map within
  | .outside => argument.pairs?.map outside

def map (f : α → β) : Condition α → Condition β
  | compare comparison a => compare comparison (f a)
  | isNull => isNull
  | contains a => contains (f a)
  | startsWith a => startsWith (f a)
  | oneOf operands => oneOf (operands.map f)
  | within ranges => within (ranges.map (Prod.map f f))
  | outside ranges => outside (ranges.map (Prod.map f f))

def compared (column : String) (comparison : Comparison) (literal : String) : String :=
  column ++ " " ++ comparison.symbol ++ " " ++ literal

def parenthesised (sql : String) : String := "(" ++ sql ++ ")"

/-- Two comparisons of a column that must both hold. -/
def bothCompared (column : String) (first second : Comparison) (literals : String × String) :
    String :=
  parenthesised
    (compared column first literals.1 ++ " AND " ++ compared column second literals.2)

/-- The condition as SQL. The wildcards of a text match are literals beside the operand's, and
adjacent literals are one. -/
def render (column : String) : Condition String → String
  | compare comparison literal => compared column comparison literal
  | isNull => column ++ " IS NULL"
  | contains literal => column ++ " LIKE '%' " ++ literal ++ " '%'"
  | startsWith literal => column ++ " LIKE " ++ literal ++ " '%'"
  | oneOf literals => column ++ " IN " ++ parenthesised (", ".intercalate literals)
  | within ranges =>
    " OR ".intercalate (ranges.map (bothCompared column .greaterOrEqual .less))
  | outside ranges =>
    " AND ".intercalate (ranges.map (bothCompared column .less .greaterOrEqual))

end Condition

end RowFilter
