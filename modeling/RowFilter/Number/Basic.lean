import RowFilter.Number.Notation

/-!
# Numbers

A `Number` is a 64-bit integer or a double. The two kinds never equal each other.
-/

namespace RowFilter

inductive Number where
  | int (value : Int64)
  | float (value : Binary64)
deriving DecidableEq

namespace Number

/-- An integer in decimal digits, a double by its shortest digits. -/
def text : Number → String
  | .int i => String.ofList (integerDigits i.toInt)
  | .float x => x.text

/-- Equality as numbers within one kind; an integer never equals a double. -/
def equal : Number → Number → Bool
  | .int i, .int j => i == j
  | .float x, .float y => x.equal y
  | _, _ => false

def ofInt? (i : Int) : Option Number :=
  if Int64.minValue.toInt ≤ i ∧ i ≤ Int64.maxValue.toInt then some (.int (Int64.ofInt i)) else none

/-- The number a numeral stands for: an integer if it is written as one and fits sixty-four bits,
otherwise the nearest double, unless that is infinite. -/
def ofNumeral? (n : Numeral) : Option Number :=
  match n.integer?.bind ofInt? with
  | some i => some i
  | none =>
    let x := n.nearest
    if x.isFinite then some (.float x) else none

end Number

end RowFilter
