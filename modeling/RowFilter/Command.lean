/-!
# Commands

A command says how an argument restricts a column. Each has a name, under which filter keys ask for it
in any mixture of upper and lower case, and a shape that its argument must have.

* `Command.name`, `Command.ofName?`, `Command.shape`;
* `ClauseError` : the causes of failure in compiling criteria, and their wording.
-/

namespace RowFilter

inductive Shape where
  | single
  /-- Anything; the argument is not looked at. -/
  | ignored
  | items
  /-- A list of lists of two items, not empty. -/
  | pairs
deriving DecidableEq, Repr

def Shape.description : Shape → String
  | single => "a single value"
  | ignored => "no value"
  | items => "a non-empty list of values"
  | pairs => "a non-empty list of [min, max] pairs"

/-- A way to restrict a column. -/
inductive Command where
  | equals
  | differs
  | above
  | atLeast
  | isNull
  | contains
  | startsWith
  | oneOf
  /-- The column lies in a range of the argument. -/
  | within
  /-- The column lies outside the ranges of the argument. -/
  | outside
deriving DecidableEq, Repr

namespace Command

def all : List Command :=
  [equals, differs, above, atLeast, isNull, contains, startsWith, oneOf, within, outside]

/-- The name of a command in filter keys, in lower case. -/
def name : Command → String
  | equals => "eq"
  | differs => "not"
  | above => "gt"
  | atLeast => "gte"
  | isNull => "null"
  | contains => "like"
  | startsWith => "prefix"
  | oneOf => "in"
  | within => "range"
  | outside => "notrange"

def shape : Command → Shape
  | equals | differs | above | atLeast | contains | startsWith => .single
  | isNull => .ignored
  | oneOf => .items
  | within | outside => .pairs

/-- The command of a name, in which the case of ASCII letters does not matter. -/
def ofName? (name : String) : Option Command :=
  all.find? fun command => command.name.toList == name.toList.map Char.toLower

end Command

/-! ## Refusals -/

inductive ClauseError where
  | tooManyKeys (limit : Nat)
  | fieldNotAllowed (field : String)
  | unknownCommand (name : String)
  | wrongShape (command : Command) (field : String)
deriving DecidableEq, Repr

namespace ClauseError

/-- What the argument of a refused command should have been, in words. -/
def expected? : ClauseError → Option String
  | wrongShape command _ => some command.shape.description
  | _ => none

def message : ClauseError → String
  | tooManyKeys limit => "Filter has more than " ++ toString limit ++ " keys"
  | fieldNotAllowed field => "Field '" ++ field ++ "' is not accessible"
  | unknownCommand name => "Filter command '" ++ name ++ "' is not supported"
  | wrongShape command field =>
    "Filter command '" ++ command.name ++ "' on '" ++ field ++ "' expects " ++
      command.shape.description

end ClauseError

end RowFilter
