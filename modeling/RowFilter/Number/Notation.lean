import RowFilter.Number.Shortest

/-!
# How numbers are written

* `Decimal.plain`, `Decimal.scientific` : the two layouts of a decimal;
* `Binary64.text` : a double by its shortest digits, never with an exponent;
* `Binary64.inspected` : the same digits, always with a point and, where the magnitude is very large or
  very small, with an exponent.
-/

namespace RowFilter

namespace Decimal

/-- Digits and a point, without an exponent. -/
def plain (d : Decimal) : List Char :=
  let digits := decimalDigits d.digits
  if 0 ≤ d.exponent then digits ++ List.replicate d.exponent.toNat '0'
  else
    let places := (-d.exponent).toNat
    if places < digits.length then
      digits.take (digits.length - places) ++ '.' :: digits.drop (digits.length - places)
    else '0' :: '.' :: (List.replicate (places - digits.length) '0' ++ digits)

/-- One digit, the others behind a point, and an exponent. -/
def scientific (d : Decimal) : List Char :=
  let digits := decimalDigits d.digits
  let fraction := digits.drop 1
  digits.take 1 ++ (if fraction.isEmpty then [] else '.' :: fraction) ++
    'e' :: integerDigits (d.exponent + fraction.length)

/-- The place of the leading digit: `d` lies between that power of ten and the next. -/
def magnitude (d : Decimal) : Int := d.exponent + ((decimalDigits d.digits).length - 1 : Nat)

end Decimal

def signed (negative : Bool) (magnitude : List Char) : String :=
  String.ofList (if negative then '-' :: magnitude else magnitude)

namespace Binary64

/-- The shortest digits that identify the number, written without an exponent. -/
def text : Binary64 → String
  | .nan => "NaN"
  | .infinity negative => signed negative ['i', 'n', 'f']
  | .finite negative r => signed negative (Decimal.shortest r).plain

/-- The shortest digits that identify the number: with a point and without an exponent for zero and
from `10 ^ -4` up to `10 ^ 16`, with an exponent otherwise. -/
def inspected : Binary64 → String
  | .finite negative r =>
    let d := Decimal.shortest r
    if r.val = 0 ∨ (-4 ≤ d.magnitude ∧ d.magnitude < 16) then
      signed negative (if 0 ≤ d.exponent then d.plain ++ ['.', '0'] else d.plain)
    else signed negative d.scientific
  | x => x.text

end Binary64

end RowFilter
