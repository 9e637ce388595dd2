import RowFilter.Command
import RowFilter.Value.Basic

/-!
# What one key asks for

A key names a column or a group of columns, and then, after colons, commands. Without commands the
argument decides: a list is looked up, a scalar is compared, and only there does a text that spells a
number count as one.

* `Target.ofText` : the columns that the first part of a key names;
* `Criterion.read` : a key and its argument taken apart.
-/

namespace RowFilter

/-- The columns that a key names: one, or a group of which any may satisfy the key. -/
inductive Target where
  | column (name : String)
  | anyOf (names : List String)
deriving DecidableEq, Repr

namespace Target

/-- What stands between parentheses around a whole text, if it is not empty and has no parenthesis of
its own. -/
def groupBody? : List Char → Option (List Char)
  | '(' :: rest =>
    let body := rest.dropLast
    if rest.getLast? = some ')' ∧ body ≠ [] ∧ '(' ∉ body ∧ ')' ∉ body then some body else none
  | _ => none

/-- A group in parentheses, its names between commas, or else a single name. -/
def ofText (text : String) : Target :=
  match groupBody? text.toList with
  | some body => .anyOf ((body.splitOn ',').map String.ofList)
  | none => .column text

def names : Target → List String
  | column name => [name]
  | anyOf names => names

def isGroup : Target → Bool
  | column _ => false
  | anyOf _ => true

end Target

structure Criterion where
  target : Target
  commands : List Command
  argument : Value

namespace Criterion

def command (name : String) : Except ClauseError Command :=
  match Command.ofName? name with
  | some command => .ok command
  | none => .error (.unknownCommand name)

/-- The text of a target and the names of commands in a key, separated by colons. -/
def parts (key : String) : String × List String :=
  match key.toList.splitOn ':' with
  | [] => (key, [])
  | target :: names => (String.ofList target, names.map String.ofList)

/-- What a key and its argument ask for. -/
def read (key : String) (argument : Value) : Except ClauseError Criterion :=
  match parts key with
  | (target, []) =>
    .ok ⟨.ofText target, [if argument.isList then .oneOf else .equals], Value.numeric argument⟩
  | (target, names) => do
    return ⟨.ofText target, ← names.mapM command, argument⟩

end Criterion

end RowFilter
