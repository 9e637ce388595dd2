/-!
# Double-precision numbers, exactly

A finite double is a sign and a *rank*, the place of its magnitude among all finite magnitudes in
ascending order. The rank of zero is `0`, and the rank of a magnitude is the number that its sixty-three
magnitude bits spell, so no arithmetic here touches a machine float.

* `Binary64` : not-a-number, two infinities, and the finite numbers;
* `units r` : the magnitude of rank `r` as a multiple of the least positive one, `2 ^ -1074`;
* `Binary64.ofRatio` : the number nearest to a fraction, a tie going to the even rank;
* `Binary64.product`, `Binary64.quotient` : one exact operation, rounded once;
* `Binary64.ofBits`, `Binary64.bits` : the interchange encoding;
* `Binary64.equal` : equality as numbers, under which the two zeros agree and not-a-number agrees with
  nothing.
-/

namespace RowFilter

-- powers of naturals are core's here, and in each module with such powers also where Mathlib's are in scope
attribute [local instance (high)] instPowNat

/-- How many finite magnitudes there are; also the magnitude bits of infinity. -/
abbrev finiteRanks : Nat := 0x7FF0000000000000

/-- The place of a finite magnitude among all of them, from zero upwards. -/
abbrev Rank : Type := Fin finiteRanks

/-- A double-precision number, with a single not-a-number. -/
inductive Binary64 where
  | nan
  | infinity (negative : Bool)
  | finite (negative : Bool) (rank : Rank)
deriving DecidableEq, Repr

/-- The magnitude of rank `r`, in multiples of `2 ^ -1074`. Each run of `2 ^ 52` ranks above the first
has steps twice as wide as the run below it, the first two excepted, which share the least step. -/
def units (r : Nat) : Nat :=
  if r < 2 ^ (52 : Nat) then r else (2 ^ (52 : Nat) + r % 2 ^ (52 : Nat)) * 2 ^ (r / 2 ^ (52 : Nat) - 1)

/-- `num / den` to the nearest natural, halves to the even one. -/
def roundHalfEven (num den : Nat) : Nat :=
  let q := num / den
  let r := num % den
  if 2 * r < den then q
  else if den < 2 * r then q + 1
  else q + q % 2

/-- The rank of the finite magnitude nearest to `num / den`, as if there were no largest one. The
exponent `e` is the least one with which the rounded significand needs no more than fifty-three bits. -/
def nearestRank (num den : Nat) : Nat :=
  let scaled := num * 2 ^ (1074 : Nat)
  let e := (scaled / den).log2 - 52
  roundHalfEven scaled (den * 2 ^ e) + e * 2 ^ (52 : Nat)

namespace Binary64

/-- The number of the given sign and rank; a rank past the last finite one is infinity. -/
def ofRank (negative : Bool) (r : Nat) : Binary64 :=
  if h : r < finiteRanks then .finite negative ⟨r, h⟩ else .infinity negative

/-- The number nearest to `num / den`. -/
def ofRatio (negative : Bool) (num den : Nat) : Binary64 :=
  ofRank negative (nearestRank num den)

def ofDecimal (negative : Bool) (digits : Nat) (exponent : Int) : Binary64 :=
  if 0 ≤ exponent then ofRatio negative (digits * 10 ^ exponent.toNat) 1
  else ofRatio negative digits (10 ^ (-exponent).toNat)

/-- The magnitude of a finite number. -/
def rank? : Binary64 → Option Rank
  | .finite _ r => some r
  | _ => none

def isFinite (x : Binary64) : Bool := x.rank?.isSome

/-- The product of two magnitudes, rounded once. -/
def product (a b : Rank) : Binary64 := ofRatio false (units a * units b) (2 ^ (1074 + 1074 : Nat))

/-- The quotient of two magnitudes, rounded once. -/
def quotient (a b : Rank) : Binary64 := ofRatio false (units a) (units b)

def ofBits (bits : Nat) : Binary64 :=
  let negative := bits / 2 ^ (63 : Nat) % 2 == 1
  let magnitude := bits % 2 ^ (63 : Nat)
  if h : magnitude < finiteRanks then .finite negative ⟨magnitude, h⟩
  else if magnitude = finiteRanks then .infinity negative
  else .nan

/-- The bits that encode a number; not-a-number is written with the quiet bit alone. -/
def bits : Binary64 → Nat
  | .nan => 0x7FF8000000000000
  | .infinity negative => negative.toNat * 2 ^ (63 : Nat) + finiteRanks
  | .finite negative r => negative.toNat * 2 ^ (63 : Nat) + r

def equal : Binary64 → Binary64 → Bool
  | .infinity a, .infinity b => a == b
  | .finite a r, .finite b s => r == s && (a == b || r.val == 0)
  | _, _ => false

end Binary64

end RowFilter
