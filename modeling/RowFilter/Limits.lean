import RowFilter.Value.Basic

/-!
# Limits

A filter may have only so many keys, and its arguments may nest only so deep. The number of keys is
`defaultKeyLimit` unless a deployment sets another one, as text in the bytes of an environment variable.
-/

namespace RowFilter

/-! ## White space -/

namespace Text

/-- The ranges of the Unicode property White_Space (version 15.1), both ends included. -/
def whiteSpaceRanges : List (Nat × Nat) :=
  [(0x09, 0x0D), (0x20, 0x20), (0x85, 0x85), (0xA0, 0xA0), (0x1680, 0x1680), (0x2000, 0x200A),
    (0x2028, 0x2029), (0x202F, 0x202F), (0x205F, 0x205F), (0x3000, 0x3000)]

def isWhiteSpace (c : Char) : Bool :=
  whiteSpaceRanges.any fun (first, last) => first ≤ c.toNat && c.toNat ≤ last

end Text

/-! ## Limits -/

/-- How many lists of an argument that is read may stand in one another. -/
def maxNesting : Nat := 4

def defaultKeyLimit : Nat := 64

/-- The number of keys that a setting asks for: a positive word between white space. A setting that is absent,
is no UTF-8, or spells something else leaves the default. -/
def keyLimit (setting : Option ByteArray) : Nat :=
  let asked := do
    let text ← String.fromUTF8? (← setting)
    let word ← wordSpelled? (Text.strip Text.isWhiteSpace text.toList)
    if word = 0 then none else some word
  asked.getD defaultKeyLimit

end RowFilter
