import RowFilter.Number.Numeral

/-!
# The fewest digits that identify a double

A decimal identifies a double if the double is the one nearest to it. Among the decimals that identify
a magnitude, `shortest` gives the one on the coarsest grid of powers of ten, and of two such decimals
the nearer; two equally near ones give the greater.

Only the two grid points next to the magnitude need a trial: every decimal between one of them and the
magnitude identifies the magnitude too. Seventeen digits always suffice, so the search covers the grids
from above the leading digit to below the seventeenth; past them stands the exact expansion, which
identifies the magnitude whatever the search did.
-/

namespace RowFilter

attribute [local instance (high)] instPowNat

/-- `digits * 10 ^ exponent`. -/
structure Decimal where
  digits : Nat
  exponent : Int
deriving DecidableEq, Repr

namespace Decimal

/-- Whether the magnitude of rank `r` is the one nearest to `d`. -/
def identifies (d : Decimal) (r : Rank) : Bool :=
  Binary64.ofDecimal false d.digits d.exponent == .finite false r

/-- The magnitude of rank `r` over `10 ^ exponent`, as numerator and denominator. -/
def onGrid (r : Rank) (exponent : Int) : Nat × Nat :=
  if 0 ≤ exponent then (units r, 2 ^ (1074 : Nat) * 10 ^ exponent.toNat)
  else (units r * 10 ^ (-exponent).toNat, 2 ^ (1074 : Nat))

/-- The grid point next to the magnitude that identifies it, the nearer of two, the upper of two that
are equally near. -/
def onGrid? (r : Rank) (exponent : Int) : Option Decimal :=
  let ratio := onGrid r exponent
  let below : Decimal := ⟨ratio.1 / ratio.2, exponent⟩
  let above : Decimal := ⟨ratio.1 / ratio.2 + 1, exponent⟩
  if 2 * (ratio.1 % ratio.2) < ratio.2 then
    if below.identifies r then some below else if above.identifies r then some above else none
  else
    if above.identifies r then some above else if below.identifies r then some below else none

/-- The coarsest grid worth a trial: `10 ^ topExponent r` is no less than the leading digit's place.
The fraction is the decimal logarithm of two. -/
def topExponent (r : Rank) : Int :=
  (((units r).log2 : Int) - 1073) * 30103 / 100000 + 1

def gridTrials : Nat := 20

/-- The magnitude itself, written out in full. -/
def exact (r : Rank) : Decimal := ⟨units r * 5 ^ (1074 : Nat), -1074⟩

/-- The shortest decimal that identifies the magnitude of rank `r`. -/
def shortest (r : Rank) : Decimal :=
  if r.val = 0 then ⟨0, 0⟩
  else
    ((List.range gridTrials).findSome? fun i : Nat => onGrid? r (topExponent r - i)).getD (exact r)

end Decimal

end RowFilter
