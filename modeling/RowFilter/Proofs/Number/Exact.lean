import RowFilter.Json.Number
import RowFilter.Proofs.Number.Nearest

/-!
# The exact value of a numeral

* `Numeral.numerator`, `Numeral.denominator` : the value as a fraction;
* `Numeral.Denotes` : the number of that value, whoever reads it;
* `Numeral.RoundsTo` : the double nearest to it, with the sign that is written, and `Numeral.exists_denotes_iff` : a
  numeral denotes a number exactly if its value is rounded to a finite double.
-/

namespace RowFilter.Numeral

attribute [local instance (high)] instPowNat

open Binary64

/-- The power of ten of the last digit. -/
def place (n : Numeral) : Int := Json.writtenExponent n - (n.fraction.getD []).length

def numerator (n : Numeral) : Nat := digitsValue n.digits * 10 ^ n.place.toNat

def denominator (n : Numeral) : Nat := 10 ^ (-n.place).toNat

theorem denominator_pos (n : Numeral) : 0 < n.denominator := Nat.pow_pos (by decide)

/-- The number of a numeral. It is an integer just for those written as one that fit sixty-four bits, and the
nearest double for all others, with the sign that is written. -/
inductive Denotes (n : Numeral) : Number → Prop where
  | int {i : Int64} (integer : n.integer? = some i.toInt) : Denotes n (.int i)
  | float {r : Rank} (other : ∀ i : Int64, n.integer? ≠ some i.toInt)
      (nearest : IsNearest n.numerator n.denominator r) : Denotes n (.float (.finite n.negative r))

theorem Denotes.unique {n : Numeral} {v w : Number} (left : n.Denotes v) (right : n.Denotes w) : v = w := by
  cases left with
  | int integer =>
    cases right with
    | int integer' => rw [Int64.toInt_inj.mp (Option.some.inj (integer.symm.trans integer'))]
    | float other _ => exact absurd integer (other _)
  | float other nearest =>
    cases right with
    | int integer => exact absurd integer (other _)
    | float _ nearest' => rw [Fin.ext (nearest.unique n.denominator_pos nearest')]

theorem integer?_bind_ofInt? (n : Numeral) {v : Number} :
    n.integer?.bind Number.ofInt? = some v ↔ ∃ i : Int64, v = .int i ∧ n.integer? = some i.toInt := by
  constructor
  · intro fits
    obtain ⟨j, integer, inside⟩ := Option.bind_eq_some_iff.mp fits
    unfold Number.ofInt? at inside
    split at inside
    · rename_i range
      refine ⟨Int64.ofInt j, (Option.some.inj inside).symm, ?_⟩
      rw [integer, Int64.toInt_ofInt_of_le range.1 (Int.lt_add_one_iff.mpr range.2)]
    · cases inside
  · rintro ⟨i, rfl, integer⟩
    rw [integer, Option.bind_some, Number.ofInt?, if_pos ⟨i.minValue_le_toInt, i.toInt_le⟩, Int64.ofInt_toInt]

/-! ## Integers -/

theorem digits_of_integer {n : Numeral} (noFraction : n.fraction = none) : n.digits = n.whole := by
  rw [digits, noFraction, Option.getD_none, List.append_nil]

theorem place_of_integer {n : Numeral} (noFraction : n.fraction = none) (noExponent : n.exponent = none) :
    n.place = 0 := by
  rw [place, Json.writtenExponent, noExponent, noFraction]
  rfl

theorem bare_of_integer? {n : Numeral} {i : Int} (integer : n.integer? = some i) :
    n.fraction = none ∧ n.exponent = none := by
  unfold integer? at integer
  split at integer
  · rename_i bare
    rwa [Bool.and_eq_true, Option.isNone_iff_eq_none, Option.isNone_iff_eq_none] at bare
  · cases integer

/-! ## The double of the exact value -/

def RoundsTo (n : Numeral) (x : Binary64) : Prop :=
  ∃ r : Rank, IsNearest n.numerator n.denominator r ∧ x = .finite n.negative r

theorem roundsTo_iff {n : Numeral} {x : Binary64} :
    n.RoundsTo x ↔ ofRatio n.negative n.numerator n.denominator = x ∧ x.isFinite := by
  constructor
  · rintro ⟨r, nearest, rfl⟩
    exact ⟨(ofRatio_eq_finite_iff n.denominator_pos).mpr ⟨rfl, nearest⟩, rfl⟩
  · rintro ⟨rounded, finite⟩
    cases x with
    | nan => cases finite
    | infinity => cases finite
    | finite sign r =>
      obtain ⟨rfl, nearest⟩ := (ofRatio_eq_finite_iff n.denominator_pos).mp rounded
      exact ⟨r, nearest, rfl⟩

theorem denotes_int_iff {n : Numeral} {i : Int64} : n.Denotes (.int i) ↔ n.integer? = some i.toInt := by
  constructor
  · rintro ⟨integer⟩
    exact integer
  · exact .int

theorem denotes_float_iff {n : Numeral} {x : Binary64} :
    n.Denotes (.float x) ↔ (∀ i : Int64, n.integer? ≠ some i.toInt) ∧ n.RoundsTo x := by
  constructor
  · rintro (_ | ⟨other, nearest⟩)
    exact ⟨other, _, nearest, rfl⟩
  · rintro ⟨other, r, nearest, rfl⟩
    exact .float other nearest

theorem numerator_lt_of_integer {n : Numeral} {i : Int64} (integer : n.integer? = some i.toInt) :
    n.numerator < overflow * n.denominator := by
  obtain ⟨noFraction, noExponent⟩ := bare_of_integer? integer
  have least : -2 ^ (63 : Nat) ≤ i.toInt := i.minValue_le_toInt
  have most : i.toInt ≤ 2 ^ (63 : Nat) - 1 := i.toInt_le
  have digits : digitsValue n.whole ≤ 2 ^ (63 : Nat) := by
    rw [integer?, noFraction, noExponent] at integer
    have same := Option.some.inj integer
    split at same <;> omega
  rw [numerator, denominator, place_of_integer noFraction noExponent, digits_of_integer noFraction, Int.neg_zero,
    Int.toNat_zero, Nat.pow_zero, Nat.mul_one, Nat.mul_one]
  calc digitsValue n.whole < 2 ^ (64 : Nat) := Nat.lt_of_le_of_lt digits (by decide)
    _ ≤ overflow := two_pow_le_overflow (by decide)

/-- An integer that fits sixty-four bits is rounded to a finite double, so a numeral denotes a number exactly if its
value is rounded to one. -/
theorem exists_denotes_iff {n : Numeral} : (∃ v, n.Denotes v) ↔ ∃ x, n.RoundsTo x := by
  constructor
  · rintro ⟨_, ⟨integer⟩ | ⟨other, nearest⟩⟩
    · have small : n.numerator < overflow * n.denominator := numerator_lt_of_integer integer
      obtain ⟨r, nearest, -⟩ := exists_ofRatio n.denominator_pos small
      exact ⟨_, r, nearest, rfl⟩
    · exact ⟨_, _, nearest, rfl⟩
  · rintro ⟨x, rounded⟩
    by_cases integer : ∃ i : Int64, n.integer? = some i.toInt
    · obtain ⟨i, integer⟩ := integer
      exact ⟨_, .int integer⟩
    · exact ⟨_, denotes_float_iff.mpr ⟨not_exists.mp integer, rounded⟩⟩

end RowFilter.Numeral
