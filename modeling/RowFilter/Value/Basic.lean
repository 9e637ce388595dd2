import RowFilter.Number.Basic
import RowFilter.Value.Nested

/-!
# Filter arguments

A `Scalar` is a text or a number, a `Value` a nested list of scalars.

* `Scalar.numeric` : the number in place of a text that spells one;
* `Value.text` : a value as one text, lists in brackets;
* `Value.equal` : equality of values, under which not-a-number differs from itself.
-/

namespace RowFilter

namespace Text

/-- Space, tab, line feed, vertical tab, form feed or carriage return. -/
def isAsciiBlank (c : Char) : Bool := c == ' ' || ('\t' ≤ c && c ≤ '\r')

/-- A text without the characters of one kind at its two ends. -/
def strip (kind : Char → Bool) (text : List Char) : List Char :=
  ((text.dropWhile kind).reverse.dropWhile kind).reverse

end Text

inductive Scalar where
  | text (text : String)
  | number (number : Number)
deriving DecidableEq

/-- An argument: a scalar, or a list of arguments. -/
abbrev Value : Type := Nested Scalar

namespace Scalar

/-- The number that a text spells between blanks. -/
def numberSpelled? (text : String) : Option Number :=
  (Numeral.ofText? (Text.strip Text.isAsciiBlank text.toList)).bind Number.ofNumeral?

/-- The number in place of a text that spells one; anything else as it is. -/
def numeric : Scalar → Scalar
  | .text s => ((numberSpelled? s).map Scalar.number).getD (.text s)
  | .number n => .number n

def display : Scalar → String
  | .text s => s
  | .number n => n.text

def equal : Scalar → Scalar → Bool
  | .text s, .text t => s == t
  | .number m, .number n => m.equal n
  | _, _ => false

end Scalar

namespace Value

/-- The value with the number in place of a text that spells one; lists stay as they are. -/
def numeric : Value → Value
  | .item s => .item s.numeric
  | .list members => .list members

/-- The value as one text: scalars plainly, lists in brackets with a comma and a space between
members. -/
def text (v : Value) : String :=
  v.fold Scalar.display fun members => "[" ++ ", ".intercalate members ++ "]"

def equal (v w : Value) : Bool := Nested.equal Scalar.equal v w

end Value

end RowFilter
