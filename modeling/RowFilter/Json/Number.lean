import RowFilter.Number.Basic

/-!
# The numbers of JSON texts

An integer without point and exponent keeps its value if it fits, and becomes the nearest double
otherwise. Any other number is a double computed in two steps: the digits are gathered into one
unsigned word, as many as it takes, and the word, rounded to a double, is scaled by a power of ten with
one multiplication or division. The result is the nearest double wherever both the word and the power
of ten are exact, and may miss it by a few places elsewhere.

* `Json.gather` : the digits that fit a word, and how many do not;
* `Json.scaled?` : scaling by a power of ten;
* `Json.number?` : the number a numeral stands for, or nothing if a double cannot hold it.
-/

namespace RowFilter.Json

attribute [local instance (high)] instPowNat

/-- Takes digits into a word from left to right until one does not fit; that digit and all after it are
only counted. -/
def gather (word : Nat) : List Char → Nat × Nat
  | [] => (word, 0)
  | c :: digits =>
    let next := 10 * word + (c.toNat - '0'.toNat)
    if next < wordCount then gather next digits else (word, digits.length + 1)

def maxPower : Nat := 308

/-- The double nearest to a power of ten, as a rank; the last rank stands in for powers that no double
comes near. -/
def powerOfTen (exponent : Nat) : Rank :=
  ((Binary64.ofRatio false (10 ^ exponent) 1).rank?).getD ⟨finiteRanks - 1, by decide⟩

/-- A magnitude scaled by a power of ten, rounding once for each factor; nothing if it grows past the
finite magnitudes. Dividing goes in steps of the largest factor, and ends at zero. -/
def scaled? (magnitude : Rank) (exponent : Int) : Option Rank :=
  if magnitude.val = 0 then some magnitude
  else if (maxPower : Int) < exponent then none
  else if 0 ≤ exponent then (Binary64.product magnitude (powerOfTen exponent.toNat)).rank?
  else if -(maxPower : Int) ≤ exponent then
    (Binary64.quotient magnitude (powerOfTen (-exponent).toNat)).rank?
  else
    (Binary64.quotient magnitude (powerOfTen maxPower)).rank?.bind fun smaller =>
      scaled? smaller (exponent + maxPower)
termination_by (-exponent).toNat
decreasing_by rename_i small; simp only [maxPower] at small ⊢; omega

def writtenExponent (n : Numeral) : Int :=
  match n.exponent with
  | none => 0
  | some e => if e.negative then -(digitsValue e.digits : Int) else digitsValue e.digits

/-- The double that a numeral stands for: its digits in one word, scaled. A digit left out of the whole
part counts as a factor of ten, and one taken in after the point as its inverse. -/
def float? (n : Numeral) : Option Binary64 :=
  let fraction := n.fraction.getD []
  let whole := gather 0 n.whole
  let all := gather whole.1 fraction
  let exponent : Int := writtenExponent n + whole.2 - (fraction.length - all.2 : Nat)
  ((Binary64.ofRatio false all.1 1).rank?).bind fun magnitude =>
    (scaled? magnitude exponent).map (Binary64.finite n.negative)

/-- The number that a numeral stands for. An integer is kept whole if it fits sixty-four bits with its
sign; if its magnitude alone fits a word, it is rounded. -/
def number? (n : Numeral) : Option Number :=
  match n.integer?.bind Number.ofInt? with
  | some i => some i
  | none => (float? n).map Number.float

end RowFilter.Json
