import Mathlib.Data.Nat.Dist
import Mathlib.Order.Monotone.Basic
import RowFilter.Proofs.Number.Rounding

/-!
# The nearest magnitude

* `units_add`, `units_strictMono` : magnitudes along one run of ranks, and that they grow with the rank;
* `IsNearest` : the rank of a magnitude to which a fraction is at least as near as to any other, an even rank where
  two are equally near;
* `isNearest_nearestRank`, `IsNearest.unique` : rounding finds such a rank, and there is only one;
* `nearestRank_eq_iff`, `nearestRank_mul` : so rounding does not depend on how a fraction is expanded;
* `units_nearestRank` : and it is exact on what fits fifty-three bits, with any number of zeros behind;
* `Binary64.product_eq`, `Binary64.quotient_eq` : so one operation on doubles that hold whole numbers rounds as if
  nothing had been rounded before it.
-/

namespace RowFilter

attribute [local instance (high)] instPowNat

/-! ## Magnitudes -/

/-- Magnitudes from one power of two to the next are multiples of one step. The first two runs of ranks share the
least step. -/
theorem units_add {e k : Nat} (normal : e = 0 ∨ 2 ^ (52 : Nat) ≤ k) (bounded : k ≤ 2 ^ (53 : Nat)) :
    units (e * 2 ^ (52 : Nat) + k) = k * 2 ^ e := by
  unfold units
  split
  · obtain rfl : e = 0 := by omega
    omega
  · rcases Nat.lt_or_eq_of_le bounded with inside | last
    · have run : (e * 2 ^ (52 : Nat) + k) / 2 ^ (52 : Nat) - 1 = e := by omega
      have place : 2 ^ (52 : Nat) + (e * 2 ^ (52 : Nat) + k) % 2 ^ (52 : Nat) = k := by omega
      rw [run, place]
    · have run : (e * 2 ^ (52 : Nat) + k) / 2 ^ (52 : Nat) - 1 = e + 1 := by omega
      have place : (e * 2 ^ (52 : Nat) + k) % 2 ^ (52 : Nat) = 0 := by omega
      rw [run, place, last, Nat.add_zero, Nat.pow_succ' (n := e), ← Nat.mul_assoc]

theorem exists_run (r : Nat) : ∃ e k, r = e * 2 ^ (52 : Nat) + k ∧ (e = 0 ∨ 2 ^ (52 : Nat) ≤ k) ∧ k < 2 ^ (53 : Nat) :=
  ⟨r / 2 ^ (52 : Nat) - 1, r - (r / 2 ^ (52 : Nat) - 1) * 2 ^ (52 : Nat), by omega, by omega, by omega⟩

theorem units_strictMono : StrictMono units := by
  refine strictMono_nat_of_lt_succ fun r => ?_
  obtain ⟨e, k, rfl, normal, bounded⟩ := exists_run r
  have here : units (e * 2 ^ (52 : Nat) + k) = k * 2 ^ e := units_add normal (Nat.le_of_lt bounded)
  have next : units (e * 2 ^ (52 : Nat) + (k + 1)) = (k + 1) * 2 ^ e :=
    units_add (normal.imp_right Nat.le_succ_of_le) bounded
  rw [Nat.add_assoc, here, next]
  exact Nat.mul_lt_mul_of_pos_right (Nat.lt_succ_self k) (Nat.two_pow_pos e)

/-- What fits fifty-three bits is a magnitude, however many zeros stand behind it. -/
theorem exists_units {s j : Nat} (small : s ≤ 2 ^ (53 : Nat)) (zeros : 52 ≤ j) : ∃ r, units r = s * 2 ^ j := by
  rcases Nat.eq_zero_or_pos s with rfl | positive
  · exact ⟨0, (Nat.zero_mul _).symm⟩
  · obtain ⟨i, moved⟩ : ∃ i, i = 52 - s.log2 := ⟨_, rfl⟩
    have least : 2 ^ s.log2 ≤ s := Nat.log2_self_le (Nat.ne_of_gt positive)
    have length : s < 2 ^ (s.log2 + 1) := Nat.lt_log2_self
    have power : 2 ^ s.log2 * 2 ^ i = 2 ^ (s.log2 + i) := (Nat.pow_add 2 _ i).symm
    have lower : 2 ^ (52 : Nat) ≤ s * 2 ^ i := by
      calc 2 ^ (52 : Nat) ≤ 2 ^ (s.log2 + i) := Nat.pow_le_pow_right Nat.two_pos (by omega)
        _ = 2 ^ s.log2 * 2 ^ i := power.symm
        _ ≤ s * 2 ^ i := Nat.mul_le_mul_right _ least
    have upper : s * 2 ^ i ≤ 2 ^ (53 : Nat) := by
      rcases Nat.lt_or_ge s.log2 53 with short | long
      · calc s * 2 ^ i ≤ 2 ^ (s.log2 + 1) * 2 ^ i := Nat.mul_le_mul_right _ (Nat.le_of_lt length)
          _ = 2 ^ (53 : Nat) := by rw [← Nat.pow_add]; congr 1; omega
      · obtain rfl : i = 0 := by omega
        omega
    refine ⟨(j - i) * 2 ^ (52 : Nat) + s * 2 ^ i, ?_⟩
    rw [units_add (.inr lower) upper, Nat.mul_assoc, ← Nat.pow_add]
    congr 2
    omega

/-! ## The nearest one -/

/-- How far the magnitude of rank `r` lies from `num / den`, in parts of `2 ^ -1074 / den`. -/
def gap (num den r : Nat) : Nat := Nat.dist (num * 2 ^ (1074 : Nat)) (units r * den)

theorem gap_eq_zero_iff {num den r : Nat} : gap num den r = 0 ↔ units r * den = num * 2 ^ (1074 : Nat) := by
  unfold gap
  generalize num * 2 ^ (1074 : Nat) = place
  constructor
  · intro zero
    exact (Nat.eq_of_dist_eq_zero zero).symm
  · intro same
    rw [same, Nat.dist_self]

/-- The magnitude of rank `r` is the one nearest to `num / den`: no other is nearer, and if another is as near,
then `r` is even. -/
structure IsNearest (num den r : Nat) : Prop where
  least : ∀ s, gap num den r ≤ gap num den s
  even : ∀ s, s ≠ r → gap num den s = gap num den r → r % 2 = 0

/-- A fraction lies between the magnitudes of ranks `r` and `r + 1`, `rest` parts above the lower one. The two are
`step` parts from one another. -/
structure Between (num den r rest step : Nat) : Prop where
  here : num * 2 ^ (1074 : Nat) = units r * den + rest
  inside : rest < step
  next : units (r + 1) * den = units r * den + step

/-- The exponent that rounding takes leaves a significand of fifty-three bits, or of fewer where it is zero. -/
theorem significand_bounds {scaled den e : Nat} (positive : 0 < den) (least : (scaled / den).log2 - 52 = e) :
    (e = 0 ∨ 2 ^ (52 : Nat) ≤ scaled / (den * 2 ^ e)) ∧ scaled / (den * 2 ^ e) < 2 ^ (53 : Nat) := by
  constructor
  · rcases Nat.eq_zero_or_pos e with zero | large
    · exact .inl zero
    · have big : scaled / den ≠ 0 := by
        intro none
        rw [none, Nat.log2_zero] at least
        omega
      have reached : 2 ^ (52 + e) ≤ scaled / den :=
        Nat.le_trans (Nat.pow_le_pow_right Nat.two_pos (by omega)) (Nat.log2_self_le big)
      rw [Nat.pow_add, Nat.le_div_iff_mul_le positive] at reached
      refine .inr ((Nat.le_div_iff_mul_le (Nat.mul_pos positive (Nat.two_pow_pos e))).mpr ?_)
      rwa [Nat.mul_comm den, ← Nat.mul_assoc]
  · have length : scaled / den < 2 ^ (53 + e) :=
      Nat.lt_of_lt_of_le Nat.lt_log2_self (Nat.pow_le_pow_right Nat.two_pos (by omega))
    rw [← Nat.div_div_eq_div_mul]
    exact Nat.div_lt_of_lt_mul (by rwa [← Nat.pow_add, Nat.add_comm])

/-- Rounding takes the nearer neighbour, and of two that are equally near the even one. -/
theorem exists_between {num den : Nat} (positive : 0 < den) : ∃ r rest step, Between num den r rest step ∧
    nearestRank num den =
      if 2 * rest < step then r else if step < 2 * rest then r + 1 else r + r % 2 := by
  unfold nearestRank roundHalfEven
  dsimp only
  obtain ⟨i, unit⟩ : ∃ i, i = 1074 := ⟨_, rfl⟩
  rw [← unit]
  generalize place : num * 2 ^ i = scaled
  generalize least : (scaled / den).log2 - 52 = e
  obtain ⟨normal, bounded⟩ := significand_bounds positive least
  have whole : den * 2 ^ e * (scaled / (den * 2 ^ e)) + scaled % (den * 2 ^ e) = scaled :=
    Nat.div_add_mod scaled (den * 2 ^ e)
  have inside : scaled % (den * 2 ^ e) < den * 2 ^ e := Nat.mod_lt scaled (Nat.mul_pos positive (Nat.two_pow_pos e))
  generalize scaled / (den * 2 ^ e) = q at normal bounded whole ⊢
  generalize scaled % (den * 2 ^ e) = rest at whole inside ⊢
  have lower : units (e * 2 ^ (52 : Nat) + q) * den = q * (den * 2 ^ e) := by
    rw [units_add normal (Nat.le_of_lt bounded), Nat.mul_assoc, Nat.mul_comm (2 ^ e)]
  have upper : units (e * 2 ^ (52 : Nat) + q + 1) * den = (q + 1) * (den * 2 ^ e) := by
    rw [Nat.add_assoc, units_add (normal.imp_right Nat.le_succ_of_le) bounded, Nat.mul_assoc,
      Nat.mul_comm (2 ^ e)]
  refine ⟨e * 2 ^ (52 : Nat) + q, rest, den * 2 ^ e, ⟨?_, inside, ?_⟩, ?_⟩
  · rw [← unit, place, lower, Nat.mul_comm q]
    exact whole.symm
  · rw [lower, upper, Nat.succ_mul]
  · split_ifs <;> omega

section Order

variable {num den : Nat}

namespace Between

variable {r rest step : Nat} (between : Between num den r rest step)
include between

theorem gap_lower : gap num den r = rest := by
  unfold gap Nat.dist
  rw [between.here]
  omega

theorem gap_upper : gap num den (r + 1) = step - rest := by
  have inside := between.inside
  unfold gap Nat.dist
  rw [between.here, between.next]
  omega

end Between

variable (positive : 0 < den)
include positive

theorem units_mul_lt {r s : Nat} (less : r < s) : units r * den < units s * den :=
  Nat.mul_lt_mul_of_pos_right (units_strictMono less) positive

namespace Between

variable {r rest step : Nat} (between : Between num den r rest step)
include between

theorem lt_gap {s : Nat} (notLower : s ≠ r) (notUpper : s ≠ r + 1) :
    rest < gap num den s ∨ step - rest < gap num den s := by
  have inside := between.inside
  have next := between.next
  unfold gap Nat.dist
  rw [between.here]
  rcases Nat.lt_or_gt_of_ne notLower with less | more
  · have below : units s * den < units r * den := units_mul_lt positive less
    exact .inl (by omega)
  · have above : units (r + 1) * den < units s * den :=
      units_mul_lt positive (Nat.lt_of_le_of_ne more notUpper.symm)
    exact .inr (by omega)

theorem isNearest_lower (near : 2 * rest ≤ step) (tie : 2 * rest = step → r % 2 = 0) : IsNearest num den r := by
  have lower := between.gap_lower
  have upper := between.gap_upper
  constructor
  · intro s
    by_cases isLower : s = r
    · rw [isLower]
    · by_cases isUpper : s = r + 1
      · rw [isUpper]
        omega
      · have other := between.lt_gap positive isLower isUpper
        omega
  · intro s isOther same
    by_cases isUpper : s = r + 1
    · rw [isUpper] at same
      exact tie (by have := between.inside; omega)
    · have other := between.lt_gap positive isOther isUpper
      omega

theorem isNearest_upper (near : step ≤ 2 * rest) (tie : 2 * rest = step → (r + 1) % 2 = 0) :
    IsNearest num den (r + 1) := by
  have lower := between.gap_lower
  have upper := between.gap_upper
  constructor
  · intro s
    by_cases isUpper : s = r + 1
    · rw [isUpper]
    · by_cases isLower : s = r
      · rw [isLower]
        omega
      · have other := between.lt_gap positive isLower isUpper
        omega
  · intro s isOther same
    by_cases isLower : s = r
    · rw [isLower] at same
      exact tie (by have := between.inside; omega)
    · have other := between.lt_gap positive isLower isOther
      omega

end Between

theorem isNearest_nearestRank : IsNearest num den (nearestRank num den) := by
  obtain ⟨r, rest, step, between, found⟩ : ∃ r rest step, Between num den r rest step ∧ nearestRank num den = _ :=
    exists_between positive
  rw [found]
  split_ifs with low high
  · exact between.isNearest_lower positive (by omega) (by omega)
  · exact between.isNearest_upper positive (by omega) (by omega)
  · rcases Nat.mod_two_eq_zero_or_one r with even | odd
    · rw [even, Nat.add_zero]
      exact between.isNearest_lower positive (by omega) fun _ => even
    · rw [odd]
      exact between.isNearest_upper positive (by omega) (by omega)

theorem IsNearest.not_lt {r s : Nat} (left : IsNearest num den r) (right : IsNearest num den s) : ¬ r < s := by
  intro less
  have same : gap num den r = gap num den s := Nat.le_antisymm (left.least s) (right.least r)
  -- both are even, so there is a rank between them, and it is nearer
  have evenLeft := left.even s (Nat.ne_of_gt less) same.symm
  have evenRight := right.even r (Nat.ne_of_lt less) same
  have below : units r * den < units (r + 1) * den := units_mul_lt positive (Nat.lt_add_one r)
  have above : units (r + 1) * den < units s * den := units_mul_lt positive (by omega)
  have nearLeft := left.least (r + 1)
  unfold gap Nat.dist at same nearLeft
  generalize num * 2 ^ (1074 : Nat) = place at same nearLeft
  omega

theorem IsNearest.unique {r s : Nat} (left : IsNearest num den r) (right : IsNearest num den s) : r = s :=
  Nat.le_antisymm (Nat.not_lt.mp (right.not_lt positive left)) (Nat.not_lt.mp (left.not_lt positive right))

theorem nearestRank_eq_iff {r : Nat} : nearestRank num den = r ↔ IsNearest num den r := by
  have found : IsNearest num den (nearestRank num den) := isNearest_nearestRank positive
  constructor
  · rintro rfl
    exact found
  · exact found.unique positive

theorem nearestRank_eq_of_units {r : Nat} (same : units r * den = num * 2 ^ (1074 : Nat)) : nearestRank num den = r := by
  have here : gap num den r = 0 := by rw [gap_eq_zero_iff, same]
  refine (nearestRank_eq_iff positive).mpr ⟨fun s => ?_, fun s other near => ?_⟩
  · rw [here]
    exact Nat.zero_le _
  · rw [here, gap_eq_zero_iff, ← same] at near
    exact absurd (units_strictMono.injective (Nat.eq_of_mul_eq_mul_right positive near)) other

/-- Rounding sees a fraction and not how it is expanded. -/
theorem nearestRank_mul {c : Nat} (factor : 0 < c) : nearestRank (num * c) (den * c) = nearestRank num den := by
  have scaled (r : Nat) : gap (num * c) (den * c) r = gap num den r * c := by
    unfold gap
    generalize 2 ^ (1074 : Nat) = unit
    rw [← Nat.dist_mul_right, ← Nat.mul_assoc, Nat.mul_right_comm num]
  have found : IsNearest num den (nearestRank num den) := isNearest_nearestRank positive
  refine (nearestRank_eq_iff (Nat.mul_pos positive factor)).mpr ⟨fun s => ?_, fun s other same => ?_⟩
  · rw [scaled, scaled]
    exact Nat.mul_le_mul_right c (found.least s)
  · rw [scaled, scaled] at same
    exact found.even s other (Nat.eq_of_mul_eq_mul_right factor same)

end Order

/-- What fits fifty-three bits is rounded to itself, however many zeros stand behind it. -/
theorem units_nearestRank {s : Nat} (small : s ≤ 2 ^ (53 : Nat)) (j : Nat) :
    units (nearestRank (s * 2 ^ j) 1) = s * 2 ^ j * 2 ^ (1074 : Nat) := by
  obtain ⟨i, unit⟩ : ∃ i, i = 1074 := ⟨_, rfl⟩
  obtain ⟨r, magnitude⟩ := exists_units (j := j + i) small (by omega)
  rw [Nat.pow_add, ← Nat.mul_assoc] at magnitude
  have found : nearestRank (s * 2 ^ j) 1 = r :=
    nearestRank_eq_of_units Nat.one_pos (by rw [← unit, Nat.mul_one, magnitude])
  rw [found, ← unit, magnitude]

/-- Half of the least magnitude and less is rounded to zero. -/
theorem nearestRank_eq_zero {num den : Nat} (small : 2 * (num * 2 ^ (1074 : Nat)) < den) : nearestRank num den = 0 := by
  obtain ⟨i, unit⟩ : ∃ i, i = 1074 := ⟨_, rfl⟩
  rw [← unit] at small
  rw [nearestRank, ← unit]
  generalize num * 2 ^ i = scaled at small ⊢
  have none : scaled / den = 0 := Nat.div_eq_of_lt (by omega)
  have rest : scaled % den = scaled := Nat.mod_eq_of_lt (by omega)
  rw [none, Nat.log2_zero, Nat.zero_sub, Nat.pow_zero, Nat.mul_one, Nat.zero_mul, Nat.add_zero, roundHalfEven, rest,
    none, if_pos small]

/-- From the least magnitude upwards nothing is. -/
theorem IsNearest.ne_zero {num den r : Nat} (nearest : IsNearest num den r) (positive : 0 < den)
    (large : den ≤ num * 2 ^ (1074 : Nat)) : r ≠ 0 := by
  rintro rfl
  have nearer := nearest.least 1
  have least : units 1 = 1 := rfl
  have zero : units 0 = 0 := rfl
  unfold gap Nat.dist at nearer
  rw [least, zero] at nearer
  generalize num * 2 ^ (1074 : Nat) = place at large nearer
  omega

/-! ## Doubles -/

namespace Binary64

theorem exists_ofRatio {num den : Nat} (positive : 0 < den) (small : num < overflow * den) :
    ∃ r : Rank, IsNearest num den r ∧ ∀ negative, ofRatio negative num den = .finite negative r := by
  have finite : nearestRank num den < finiteRanks := (nearestRank_lt_iff positive).mpr small
  refine ⟨⟨_, finite⟩, isNearest_nearestRank positive, fun negative => ?_⟩
  rw [ofRatio, ofRank, dif_pos finite]

theorem ofRatio_eq_finite_iff {negative sign : Bool} {num den : Nat} (positive : 0 < den) {r : Rank} :
    ofRatio negative num den = .finite sign r ↔ sign = negative ∧ IsNearest num den r := by
  rw [← nearestRank_eq_iff positive, ofRatio, ofRank]
  split
  · rw [finite.injEq, Fin.ext_iff, eq_comm]
  · rename_i past
    refine iff_of_false nofun fun same => past ?_
    rw [same.2]
    exact r.isLt

theorem ofRatio_eq_infinity {num den : Nat} (negative : Bool) (positive : 0 < den) (large : overflow * den ≤ num) :
    ofRatio negative num den = .infinity negative := by
  have past : ¬ nearestRank num den < finiteRanks := by
    rw [nearestRank_lt_iff positive]
    exact Nat.not_lt.mpr large
  rw [ofRatio, ofRank, dif_neg past]

theorem ofDecimal_eq (negative : Bool) (digits : Nat) (exponent : Int) : ofDecimal negative digits exponent =
    ofRatio negative (digits * 10 ^ exponent.toNat) (10 ^ (-exponent).toNat) := by
  unfold ofDecimal
  split
  · rename_i nonnegative
    rw [Int.toNat_of_nonpos (Int.neg_nonpos_of_nonneg nonnegative), Nat.pow_zero]
  · rename_i negative
    rw [Int.toNat_of_nonpos (Int.le_of_lt (Int.not_le.mp negative)), Nat.pow_zero, Nat.mul_one]

theorem ofRatio_mul (negative : Bool) {num den c : Nat} (positive : 0 < den) (factor : 0 < c) :
    ofRatio negative (num * c) (den * c) = ofRatio negative num den := by
  rw [ofRatio, nearestRank_mul positive factor, ← ofRatio]

theorem ofRatio_zero (negative : Bool) {den : Nat} (positive : 0 < den) :
    ofRatio negative 0 den = .finite negative ⟨0, by decide⟩ := by
  obtain ⟨i, unit⟩ : ∃ i, i = 1074 := ⟨_, rfl⟩
  have here : nearestRank 0 den = 0 := by
    apply nearestRank_eq_of_units positive
    rw [← unit, Nat.zero_mul]
    exact Nat.zero_mul den
  rw [ofRatio, here]
  rfl

theorem product_eq {a b : Rank} {x y : Nat} (left : units a = x * 2 ^ (1074 : Nat)) (right : units b = y * 2 ^ (1074 : Nat)) :
    product a b = ofRatio false (x * y) 1 := by
  obtain ⟨i, unit⟩ : ∃ i, i = 1074 := ⟨_, rfl⟩
  have power : 0 < 2 ^ i * 2 ^ i := Nat.mul_pos (Nat.two_pow_pos i) (Nat.two_pow_pos i)
  have merged : ofRatio false (x * y * (2 ^ i * 2 ^ i)) (1 * (2 ^ i * 2 ^ i)) = ofRatio false (x * y) 1 :=
    ofRatio_mul false Nat.one_pos power
  rw [product, left, right, ← unit, Nat.pow_add, Nat.mul_mul_mul_comm]
  rwa [Nat.one_mul] at merged

theorem quotient_eq {a b : Rank} {x y : Nat} (left : units a = x * 2 ^ (1074 : Nat)) (right : units b = y * 2 ^ (1074 : Nat))
    (positive : 0 < y) : quotient a b = ofRatio false x y := by
  rw [quotient, left, right, ofRatio_mul false positive (Nat.two_pow_pos 1074)]

theorem product_one {a b : Rank} (one : units b = 2 ^ (1074 : Nat)) : product a b = .finite false a := by
  obtain ⟨i, unit⟩ : ∃ i, i = 1074 := ⟨_, rfl⟩
  have same : nearestRank (units a) (2 ^ i) = a := nearestRank_eq_of_units (Nat.two_pow_pos i) (by rw [← unit])
  rw [product, one, ← unit, Nat.pow_add, ofRatio_mul false (Nat.two_pow_pos i) (Nat.two_pow_pos i), ofRatio, same,
    ofRank, dif_pos a.isLt]

end Binary64

end RowFilter
