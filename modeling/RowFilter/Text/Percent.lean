import RowFilter.Text.Utf8

/-!
# Percent encoding

In an encoded text `%` and two hexadecimal digits stand for a byte, `+` for a space, and every other
character for itself. A `%` that is not followed by two hexadecimal digits stands for itself too.

* `Text.hexValue?` : the value of a hexadecimal digit;
* `Percent.bytes` : the bytes that an encoded text stands for;
* `Percent.decode?` : the text they spell, unless they are more than `maxBytes`. The bytes are counted
  before their ill-formed parts are replaced.
-/

namespace RowFilter

namespace Text

def hexValue? (c : Char) : Option Nat :=
  if '0' ≤ c ∧ c ≤ '9' then some (c.toNat - '0'.toNat)
  else if 'a' ≤ c ∧ c ≤ 'f' then some (c.toNat - 'a'.toNat + 10)
  else if 'A' ≤ c ∧ c ≤ 'F' then some (c.toNat - 'A'.toNat + 10)
  else none

end Text

namespace Percent

/-- The most bytes one encoded text may stand for. -/
def maxBytes : Nat := 65536

/-- An escape that has begun: a `%`, or a `%` and a first digit with its value. -/
inductive Pending where
  | mark
  | digit (first : Char) (value : Nat)
deriving DecidableEq, Repr

/-- The characters of an escape that turned out to be none, as themselves. -/
def Pending.literal : Pending → List UInt8
  | .mark => String.utf8EncodeChar '%'
  | .digit first _ => String.utf8EncodeChar '%' ++ String.utf8EncodeChar first

/-- A character where an escape may begin. -/
def plain (c : Char) : Option Pending × List UInt8 :=
  if c = '%' then (some .mark, [])
  else if c = '+' then (none, String.utf8EncodeChar ' ')
  else (none, String.utf8EncodeChar c)

/-- A character after a begun escape: it carries the escape on, or it shows that there was none. -/
def continued (p : Pending) (c : Char) : Option Pending × List UInt8 :=
  match p, Text.hexValue? c with
  | .mark, some value => (some (.digit c value), [])
  | .digit _ high, some low => (none, [UInt8.ofNat (high * 16 + low)])
  | p, none => ((plain c).1, p.literal ++ (plain c).2)

def decoder : Transducer (Option Pending) Char UInt8 where
  start := none
  step
    | none, c => plain c
    | some p, c => continued p c
  finish
    | none => []
    | some p => p.literal

def bytes (text : List Char) : List UInt8 := decoder.run text

/-- The text that an encoded text stands for, if it is not too long. -/
def decode? (text : List Char) : Option String :=
  let decoded := bytes text
  if decoded.length ≤ maxBytes then some (Utf8.decode decoded) else none

end Percent

end RowFilter
