import Mathlib.Tactic.SplitIfs
import RowFilter.Number.Binary64

/-!
# Where rounding leaves the finite doubles

* `roundHalfEven_lt_iff` : a fraction is rounded below an even number if it lies below the half in front of that
  number;
* `overflow` : half a step past the largest finite magnitude;
* `nearestRank_lt_iff`, `Binary64.isFinite_ofRatio_iff` : a fraction is rounded to a finite double exactly if it
  lies below `overflow`;
* `units_lt`, `le_units`, `le_nearestRank` : finite magnitudes lie below `overflow`, and magnitudes from one
  upwards have ranks from that of one upwards.
-/

namespace RowFilter

attribute [local instance (high)] instPowNat

/-! ## Rounding to a whole number -/

theorem div_le_roundHalfEven (num den : Nat) : num / den ≤ roundHalfEven num den := by
  unfold roundHalfEven
  dsimp only
  split_ifs <;> omega

theorem roundHalfEven_le_div_add_one (num den : Nat) : roundHalfEven num den ≤ num / den + 1 := by
  unfold roundHalfEven
  dsimp only
  split_ifs <;> omega

/-- An even number takes the half in front of it as well, so that half is the bound. -/
theorem roundHalfEven_lt_iff {num den m : Nat} (positive : 0 < den) (even : m % 2 = 0) :
    roundHalfEven num den < m ↔ 2 * num + den < 2 * (m * den) := by
  have whole : den * (num / den) + num % den = num := Nat.div_add_mod num den
  have small : num % den < den := Nat.mod_lt num positive
  unfold roundHalfEven
  dsimp only
  generalize num / den = q at whole ⊢
  generalize num % den = r at whole small ⊢
  rw [Nat.mul_comm] at whole
  rcases Nat.lt_trichotomy (q + 1) m with below | next | above
  · obtain ⟨k, rfl⟩ := Nat.exists_eq_add_of_le below
    have bound : ((q + 1).succ + k) * den = q * den + 2 * den + k * den := by
      rw [Nat.succ_eq_add_one, Nat.add_assoc q, Nat.add_mul, Nat.add_mul]
    split_ifs <;> omega
  · subst next
    have bound : (q + 1) * den = q * den + den := Nat.succ_mul q den
    split_ifs <;> omega
  · have bound : m * den ≤ q * den := Nat.mul_le_mul_right den (by omega)
    split_ifs <;> omega

/-! ## Rounding to a double -/

/-- `2 ^ 1024 - 2 ^ 970`, half a step past the largest finite magnitude. -/
def overflow : Nat := (2 ^ (54 : Nat) - 1) * 2 ^ (970 : Nat)

theorem two_pow_le_overflow {k : Nat} (small : k ≤ 970) : 2 ^ k ≤ overflow := by
  -- the exponent is kept a variable, for powers that large are better not evaluated
  obtain ⟨i, last⟩ : ∃ i, i = 970 := ⟨_, rfl⟩
  rw [← last] at small
  rw [overflow, ← last]
  exact Nat.le_trans (Nat.pow_le_pow_right Nat.two_pos small) (Nat.le_mul_of_pos_left _ (by decide))

theorem overflow_le_two_pow {k : Nat} (large : 1024 ≤ k) : overflow ≤ 2 ^ k := by
  obtain ⟨i, last⟩ : ∃ i, i = 970 := ⟨_, rfl⟩
  rw [overflow, ← last]
  calc (2 ^ (54 : Nat) - 1) * 2 ^ i ≤ 2 ^ (54 : Nat) * 2 ^ i := Nat.mul_le_mul_right _ (Nat.sub_le _ _)
    _ = 2 ^ (54 + i) := (Nat.pow_add 2 54 i).symm
    _ ≤ 2 ^ k := Nat.pow_le_pow_right Nat.two_pos (by omega)

section Scaled

variable {scaled den e k : Nat} (positive : 0 < den)
include positive

/-- Below the last exponent nothing overflows. -/
theorem rank_lt_of_lt (least : (scaled / den).log2 - 52 = e) (below : e ≤ k) (notLast : e < 2045) :
    roundHalfEven scaled (den * 2 ^ e) + e * 2 ^ (52 : Nat) < finiteRanks ∧ scaled < 2 ^ (53 : Nat) * 2 ^ k * den := by
  have length : scaled / den < 2 ^ (53 + e) :=
    Nat.lt_of_lt_of_le Nat.lt_log2_self (Nat.pow_le_pow_right Nat.two_pos (by omega))
  have product : scaled < 2 ^ (53 : Nat) * (den * 2 ^ e) := by
    rw [Nat.div_lt_iff_lt_mul positive, Nat.pow_add] at length
    rwa [Nat.mul_comm den, ← Nat.mul_assoc]
  constructor
  · have quotient : scaled / (den * 2 ^ e) < 2 ^ (53 : Nat) := Nat.div_lt_of_lt_mul (by rwa [Nat.mul_comm])
    have rounded := roundHalfEven_le_div_add_one scaled (den * 2 ^ e)
    simp only [finiteRanks]
    omega
  · have powers : den * 2 ^ e ≤ den * 2 ^ k :=
      Nat.mul_le_mul_left den (Nat.pow_le_pow_right Nat.two_pos below)
    rw [Nat.mul_assoc, Nat.mul_comm (2 ^ k)]
    exact Nat.lt_of_lt_of_le product (Nat.mul_le_mul_left _ powers)

theorem rank_le_of_gt (least : (scaled / den).log2 - 52 = e) (above : k + 2 ≤ e) (pastLast : 2045 < e) :
    finiteRanks ≤ roundHalfEven scaled (den * 2 ^ e) + e * 2 ^ (52 : Nat) ∧ 2 ^ (54 : Nat) * 2 ^ k * den ≤ scaled := by
  have length : 2 ^ (52 + e) ≤ scaled / den := by
    have big : scaled / den ≠ 0 := by
      intro none
      rw [none, Nat.log2_zero] at least
      omega
    exact Nat.le_trans (Nat.pow_le_pow_right Nat.two_pos (by omega)) (Nat.log2_self_le big)
  have product : 2 ^ (52 : Nat) * (den * 2 ^ e) ≤ scaled := by
    rw [Nat.le_div_iff_mul_le positive, Nat.pow_add] at length
    rwa [Nat.mul_comm den, ← Nat.mul_assoc]
  constructor
  · have quotient : 2 ^ (52 : Nat) ≤ scaled / (den * 2 ^ e) :=
      (Nat.le_div_iff_mul_le (Nat.mul_pos positive (Nat.two_pow_pos e))).mpr product
    have rounded := div_le_roundHalfEven scaled (den * 2 ^ e)
    simp only [finiteRanks]
    omega
  · calc 2 ^ (54 : Nat) * 2 ^ k * den = 2 ^ (52 : Nat) * (den * 2 ^ (k + 2)) := by
          rw [Nat.mul_comm den, ← Nat.mul_assoc, ← Nat.pow_add, ← Nat.pow_add, Nat.add_left_comm,
            Nat.add_comm k]
      _ ≤ 2 ^ (52 : Nat) * (den * 2 ^ e) :=
          Nat.mul_le_mul_left _ (Nat.mul_le_mul_left den (Nat.pow_le_pow_right Nat.two_pos above))
      _ ≤ scaled := product

end Scaled

theorem lt_mul_two_pow_iff (num den m i j : Nat) :
    num < m * 2 ^ i * den ↔ num * 2 ^ j < m * 2 ^ (i + j) * den := by
  rw [Nat.pow_add, ← Nat.mul_assoc, Nat.mul_right_comm (m * 2 ^ i) _ den]
  exact (Nat.mul_lt_mul_right (Nat.two_pow_pos j)).symm

/-- A fraction has a finite rank exactly if it lies below `overflow`. -/
theorem nearestRank_lt_iff {num den : Nat} (positive : 0 < den) :
    nearestRank num den < finiteRanks ↔ num < overflow * den := by
  obtain ⟨i, least⟩ : ∃ i, i = 970 := ⟨_, rfl⟩
  rw [overflow, ← least, lt_mul_two_pow_iff num den _ i 1074, nearestRank]
  generalize reach : i + 1074 = k
  generalize num * 2 ^ (1074 : Nat) = scaled
  generalize least : (scaled / den).log2 - 52 = e
  rcases Nat.lt_trichotomy e (k + 1) with below | last | above
  · obtain ⟨finite, small⟩ := rank_lt_of_lt positive least (Nat.le_of_lt_succ below) (by omega)
    refine iff_of_true finite (Nat.lt_of_lt_of_le small (Nat.mul_le_mul_right den ?_))
    exact Nat.mul_le_mul_right _ (by decide)
  · subst last
    have rounded : roundHalfEven scaled (den * 2 ^ (k + 1)) < 2 ^ (53 : Nat) ↔ _ :=
      roundHalfEven_lt_iff (Nat.mul_pos positive (Nat.two_pow_pos (k + 1))) (by decide)
    rw [Nat.pow_succ', Nat.mul_left_comm den] at rounded ⊢
    rw [Nat.mul_assoc _ (2 ^ k), Nat.mul_comm (2 ^ k)]
    generalize den * 2 ^ k = unit at rounded ⊢
    simp only [finiteRanks]
    omega
  · obtain ⟨infinite, large⟩ := rank_le_of_gt positive least above (by omega)
    refine iff_of_false (Nat.not_lt.mpr infinite) (Nat.not_lt.mpr (Nat.le_trans ?_ large))
    exact Nat.mul_le_mul_right den (Nat.mul_le_mul_right _ (by decide))

/-! ## Ranks and magnitudes -/

theorem units_lt (r : Rank) : units r < overflow * 2 ^ (1074 : Nat) := by
  have bounded : r.val < 2047 * 2 ^ (52 : Nat) := r.isLt
  obtain ⟨i, least⟩ : ∃ i, i = 970 := ⟨_, rfl⟩
  rw [overflow, ← least, Nat.mul_assoc, ← Nat.pow_add 2 i 1074]
  unfold units
  split
  · rename_i small
    exact Nat.lt_of_lt_of_le small (Nat.le_trans (by decide) (Nat.le_mul_of_pos_right _ (Nat.two_pow_pos _)))
  · have steps : 2 ^ (r.val / 2 ^ (52 : Nat) - 1) ≤ 2 ^ (i + 1074 + 1) :=
      Nat.pow_le_pow_right Nat.two_pos (by omega)
    have significand : 2 ^ (52 : Nat) + r.val % 2 ^ (52 : Nat) ≤ 2 ^ (53 : Nat) - 1 := by omega
    have product := Nat.mul_le_mul significand steps
    have positive : 0 < 2 ^ (i + 1074) := Nat.two_pow_pos _
    rw [Nat.pow_succ 2 (i + 1074)] at product
    omega

/-- The rank of one is `1023 * 2 ^ 52`. -/
theorem le_units {r : Nat} (large : 1023 * 2 ^ (52 : Nat) ≤ r) : 2 ^ (1074 : Nat) ≤ units r := by
  obtain ⟨i, unit⟩ : ∃ i, i = 1074 := ⟨_, rfl⟩
  rw [← unit, units, if_neg (by omega)]
  calc 2 ^ i = 2 ^ (52 : Nat) * 2 ^ (i - 52) := by rw [← Nat.pow_add]; congr 1; omega
    _ ≤ (2 ^ (52 : Nat) + r % 2 ^ (52 : Nat)) * 2 ^ (r / 2 ^ (52 : Nat) - 1) :=
        Nat.mul_le_mul (Nat.le_add_right _ _) (Nat.pow_le_pow_right Nat.two_pos (by omega))

theorem nearestRank_zero : nearestRank 0 1 = 0 := by
  obtain ⟨i, unit⟩ : ∃ i, i = 1074 := ⟨_, rfl⟩
  rw [nearestRank, ← unit, Nat.zero_mul]
  decide

theorem le_nearestRank {num : Nat} (positive : 0 < num) : 1023 * 2 ^ (52 : Nat) ≤ nearestRank num 1 := by
  obtain ⟨i, unit⟩ : ∃ i, i = 1074 := ⟨_, rfl⟩
  rw [nearestRank, ← unit, Nat.div_one, Nat.one_mul]
  have least : 2 ^ i ≤ num * 2 ^ i := Nat.le_mul_of_pos_left _ positive
  have length : i ≤ (num * 2 ^ i).log2 :=
    (Nat.le_log2 (Nat.ne_of_gt (Nat.lt_of_lt_of_le (Nat.two_pow_pos i) least))).mpr least
  have reached : 2 ^ (num * 2 ^ i).log2 ≤ num * 2 ^ i :=
    Nat.log2_self_le (Nat.ne_of_gt (Nat.lt_of_lt_of_le (Nat.two_pow_pos i) least))
  generalize num * 2 ^ i = scaled at length reached ⊢
  have quotient : 2 ^ (52 : Nat) ≤ scaled / 2 ^ (scaled.log2 - 52) := by
    rw [Nat.le_div_iff_mul_le (Nat.two_pow_pos _), ← Nat.pow_add, Nat.add_sub_of_le (by omega)]
    exact reached
  have rounded := div_le_roundHalfEven scaled (2 ^ (scaled.log2 - 52))
  omega

namespace Binary64

theorem isFinite_ofRank_iff (negative : Bool) (r : Nat) :
    (ofRank negative r).isFinite ↔ r < finiteRanks := by
  unfold ofRank
  split
  · rename_i finite
    exact iff_of_true rfl finite
  · rename_i infinite
    exact iff_of_false Bool.false_ne_true infinite

theorem isFinite_ofRatio_iff (negative : Bool) {num den : Nat} (positive : 0 < den) :
    (ofRatio negative num den).isFinite ↔ num < overflow * den :=
  (isFinite_ofRank_iff negative _).trans (nearestRank_lt_iff positive)

theorem isFinite_product_iff (a b : Rank) :
    (product a b).isFinite ↔ units a * units b < overflow * 2 ^ (1074 + 1074 : Nat) := by
  obtain ⟨i, unit⟩ : ∃ i, i = 1074 := ⟨_, rfl⟩
  rw [product, ← unit]
  exact isFinite_ofRatio_iff false (Nat.two_pow_pos _)

theorem rank?_ofRatio {negative : Bool} {num den : Nat} {r : Rank}
    (found : (ofRatio negative num den).rank? = some r) : r.val = nearestRank num den := by
  unfold ofRatio ofRank at found
  split at found
  · obtain rfl := Option.some.inj found
    rfl
  · cases found

end Binary64

end RowFilter
