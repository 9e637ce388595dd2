import Mathlib.Tactic.Linarith
import RowFilter.Proofs.Json.Number
import RowFilter.Proofs.Number.Exact
import RowFilter.Proofs.Number.Reading

/-!
# Numbers too large for a double

* `Agree` : two numbers agree to so many bits;
* `exists_gather`, `exists_gathered` : the digits in a word agree with all digits of a numeral to sixty bits;
* `agree_nearestRank`, `agree_powerOfTen` : a number and the double nearest to it agree to fifty-three;
* `Overflows.le_value`, `overflows_of_le_value` : so a numeral overflows by its exact value, but for a narrow band.
-/

namespace RowFilter

attribute [local instance (high)] instPowNat

/-! ## Agreement to so many bits -/

/-- Neither number exceeds the other by more than one part in `2 ^ bits`. -/
structure Agree (bits a b : Nat) : Prop where
  left : a * 2 ^ bits ≤ b * (2 ^ bits + 1)
  right : b * 2 ^ bits ≤ a * (2 ^ bits + 1)

namespace Agree

variable {bits a b c d : Nat}

theorem refl (bits a : Nat) : Agree bits a a :=
  ⟨Nat.mul_le_mul_left a (Nat.le_succ _), Nat.mul_le_mul_left a (Nat.le_succ _)⟩

theorem mul_right (close : Agree bits a b) (c : Nat) : Agree bits (a * c) (b * c) := by
  constructor
  · rw [Nat.mul_right_comm a, Nat.mul_right_comm b]
    exact Nat.mul_le_mul_right c close.left
  · rw [Nat.mul_right_comm a, Nat.mul_right_comm b]
    exact Nat.mul_le_mul_right c close.right

theorem le_of_fewer {fewer : Nat} (few : fewer ≤ bits) (le : a * 2 ^ bits ≤ b * (2 ^ bits + 1)) :
    a * 2 ^ fewer ≤ b * (2 ^ fewer + 1) := by
  obtain ⟨more, rfl⟩ := Nat.exists_eq_add_of_le few
  have power : 0 < 2 ^ more := Nat.two_pow_pos more
  refine Nat.le_of_mul_le_mul_right ?_ power
  calc a * 2 ^ fewer * 2 ^ more = a * 2 ^ (fewer + more) := by rw [Nat.pow_add, Nat.mul_assoc]
    _ ≤ b * (2 ^ (fewer + more) + 1) := le
    _ ≤ b * ((2 ^ fewer + 1) * 2 ^ more) := by
        refine Nat.mul_le_mul_left b ?_
        rw [Nat.pow_add, Nat.succ_mul]
        exact Nat.add_le_add_left power _
    _ = b * (2 ^ fewer + 1) * 2 ^ more := (Nat.mul_assoc _ _ _).symm

theorem fewer {fewer : Nat} (close : Agree bits a b) (few : fewer ≤ bits) : Agree fewer a b :=
  ⟨le_of_fewer few close.left, le_of_fewer few close.right⟩

/-- Two steps cost two bits. -/
theorem le_of_two (le : a * (2 ^ (bits + 2) * 2 ^ (bits + 2)) ≤ b * ((2 ^ (bits + 2) + 1) * (2 ^ (bits + 2) + 1))) :
    a * 2 ^ bits ≤ b * (2 ^ bits + 1) := by
  have positive : 0 < 2 ^ bits := Nat.two_pow_pos bits
  have power : 2 ^ (bits + 2) = 4 * 2 ^ bits := by rw [Nat.pow_add, Nat.mul_comm]
  rw [power] at le
  generalize 2 ^ bits = p at le positive ⊢
  have steps : (4 * p + 1) * (4 * p + 1) * p ≤ 4 * p * (4 * p) * (p + 1) := by nlinarith
  have square : 0 < 4 * p * (4 * p) := Nat.mul_pos (by omega) (by omega)
  refine Nat.le_of_mul_le_mul_right ?_ square
  calc a * p * (4 * p * (4 * p)) = a * (4 * p * (4 * p)) * p := Nat.mul_right_comm _ _ _
    _ ≤ b * ((4 * p + 1) * (4 * p + 1)) * p := Nat.mul_le_mul_right p le
    _ = b * ((4 * p + 1) * (4 * p + 1) * p) := Nat.mul_assoc _ _ _
    _ ≤ b * (4 * p * (4 * p) * (p + 1)) := Nat.mul_le_mul_left b steps
    _ = b * (p + 1) * (4 * p * (4 * p)) := by rw [Nat.mul_assoc b, Nat.mul_comm (p + 1)]

theorem trans_le (left : a * 2 ^ (bits + 2) ≤ b * (2 ^ (bits + 2) + 1))
    (right : b * 2 ^ (bits + 2) ≤ c * (2 ^ (bits + 2) + 1)) : a * 2 ^ bits ≤ c * (2 ^ bits + 1) := by
  refine le_of_two ?_
  generalize 2 ^ (bits + 2) = p at left right ⊢
  calc a * (p * p) = a * p * p := (Nat.mul_assoc _ _ _).symm
    _ ≤ b * (p + 1) * p := Nat.mul_le_mul_right p left
    _ = b * p * (p + 1) := Nat.mul_right_comm _ _ _
    _ ≤ c * (p + 1) * (p + 1) := Nat.mul_le_mul_right (p + 1) right
    _ = c * ((p + 1) * (p + 1)) := Nat.mul_assoc _ _ _

theorem trans (left : Agree (bits + 2) a b) (right : Agree (bits + 2) b c) : Agree bits a c :=
  ⟨trans_le left.left right.left, trans_le right.right left.right⟩

theorem mul (left : Agree (bits + 2) a b) (right : Agree (bits + 2) c d) : Agree bits (a * c) (b * d) := by
  have first : Agree (bits + 2) (a * c) (b * c) := left.mul_right c
  have second : Agree (bits + 2) (b * c) (b * d) := by
    rw [Nat.mul_comm b c, Nat.mul_comm b d]
    exact right.mul_right b
  exact first.trans second

/-- What lies between two neighbouring multiples of one number agrees to as many bits as the multiple has. -/
theorem of_between {m step : Nat} (large : 2 ^ bits ≤ m) (left : m * step ≤ a ∧ a ≤ (m + 1) * step)
    (right : m * step ≤ b ∧ b ≤ (m + 1) * step) : Agree bits a b := by
  have steps : 2 ^ bits * step ≤ m * step := Nat.mul_le_mul_right step large
  rw [Nat.succ_mul] at left right
  have leftStep : (b + step) * 2 ^ bits = b * 2 ^ bits + 2 ^ bits * step := by rw [Nat.add_mul, Nat.mul_comm step]
  have rightStep : (a + step) * 2 ^ bits = a * 2 ^ bits + 2 ^ bits * step := by rw [Nat.add_mul, Nat.mul_comm step]
  constructor
  · have most : a * 2 ^ bits ≤ (b + step) * 2 ^ bits := Nat.mul_le_mul_right _ (by omega)
    rw [Nat.mul_succ]
    omega
  · have most : b * 2 ^ bits ≤ (a + step) * 2 ^ bits := Nat.mul_le_mul_right _ (by omega)
    rw [Nat.mul_succ]
    omega

end Agree

/-! ## Rounding -/

theorem exists_units_succ {r : Nat} (normal : 2 ^ (52 : Nat) ≤ r) :
    ∃ step, units (r + 1) = units r + step ∧ 2 ^ (52 : Nat) * step ≤ units r := by
  obtain ⟨e, k, rfl, run, bounded⟩ := exists_run r
  have significand : 2 ^ (52 : Nat) ≤ k := by omega
  have here : units (e * 2 ^ (52 : Nat) + k) = k * 2 ^ e := units_add run (Nat.le_of_lt bounded)
  have next : units (e * 2 ^ (52 : Nat) + (k + 1)) = (k + 1) * 2 ^ e :=
    units_add (run.imp_right Nat.le_succ_of_le) bounded
  refine ⟨2 ^ e, ?_, ?_⟩
  · rw [Nat.add_assoc, next, here, Nat.succ_mul]
  · rw [here]
    exact Nat.mul_le_mul_right _ significand

theorem Agree.of_lower {place rest step : Nat} (small : 2 ^ (52 : Nat) * step ≤ place) (near : 2 * rest ≤ step) :
    Agree 53 place (place + rest) := by
  constructor <;> omega

theorem Agree.of_upper {place rest step : Nat} (small : 2 ^ (52 : Nat) * step ≤ place) (inside : rest < step)
    (near : step ≤ 2 * rest) : Agree 53 (place + step) (place + rest) := by
  constructor <;> omega

/-- The magnitude nearest to a whole number agrees with it to fifty-three bits. -/
theorem agree_nearestRank {num : Nat} (positive : 0 < num) :
    Agree 53 (units (nearestRank num 1)) (num * 2 ^ (1074 : Nat)) := by
  obtain ⟨r, rest, step, between, rounded⟩ : ∃ r rest step, Between num 1 r rest step ∧ nearestRank num 1 = _ :=
    exists_between Nat.one_pos
  have large := le_nearestRank positive
  obtain ⟨here, inside, next⟩ := between
  rw [Nat.mul_one] at here next
  rw [Nat.mul_one] at next
  have normal : 2 ^ (52 : Nat) ≤ r := by
    split_ifs at rounded <;> omega
  obtain ⟨step, same, small⟩ := exists_units_succ normal
  obtain rfl := Nat.add_left_cancel (next.symm.trans same)
  rw [here, rounded]
  split_ifs with low high
  · exact .of_lower small (Nat.le_of_lt low)
  · rw [next]
    exact .of_upper small inside (Nat.le_of_lt high)
  · have tie : 2 * rest = step := Nat.le_antisymm (Nat.not_lt.mp high) (Nat.not_lt.mp low)
    rcases Nat.mod_two_eq_zero_or_one r with even | odd
    · rw [even, Nat.add_zero]
      exact .of_lower small (Nat.le_of_eq tie)
    · rw [odd, next]
      exact .of_upper small inside (Nat.le_of_eq tie.symm)

namespace Json

theorem agree_powerOfTen {exponent : Nat} (small : exponent ≤ maxPower) :
    Agree 53 (units (powerOfTen exponent)) (10 ^ exponent * 2 ^ (1074 : Nat)) := by
  have finite : 10 ^ exponent < overflow :=
    calc 10 ^ exponent ≤ 10 ^ maxPower := Nat.pow_le_pow_right (by decide) small
      _ < overflow := by decide +kernel
  rw [val_powerOfTen finite]
  exact agree_nearestRank (Nat.pow_pos (by decide))

/-! ## The digits in the word -/

theorem digitsValue_cons (c : Char) (digits : List Char) :
    digitsValue (c :: digits) = (c.toNat - '0'.toNat) * 10 ^ digits.length + digitsValue digits := by
  rw [← List.singleton_append, digitsValue_append]
  congr 2
  exact Nat.zero_add _

/-- The digits taken into a word are those in front, and others are left out only for want of room. -/
theorem exists_gather {digits : List Char} (all : ∀ c ∈ digits, c.isDigit) (word : Nat) :
    ∃ taken left, digits = taken ++ left ∧
      gather word digits = (word * 10 ^ taken.length + digitsValue taken, left.length) ∧
      (left = [] ∨ 2 ^ (60 : Nat) ≤ word * 10 ^ taken.length + digitsValue taken) := by
  fun_induction gather word digits with
  | case1 word => exact ⟨[], [], rfl, by simp [digitsValue], .inl rfl⟩
  | case2 word c digits next fits ih =>
    obtain ⟨taken, left, rfl, gathered, room⟩ := ih fun d inDigits => all d (List.mem_cons_of_mem c inDigits)
    have value : next * 10 ^ taken.length + digitsValue taken =
        word * 10 ^ (c :: taken).length + digitsValue (c :: taken) := by
      rw [digitsValue_cons, List.length_cons, Nat.pow_succ', ← Nat.add_assoc, ← Nat.mul_assoc, Nat.mul_comm word,
        ← Nat.add_mul]
    refine ⟨c :: taken, left, rfl, ?_, ?_⟩
    · rw [gathered, value]
    · rwa [value] at room
  | case3 word c digits next full =>
    refine ⟨[], c :: digits, rfl, by simp [digitsValue], .inr ?_⟩
    have digit : c.toNat - '0'.toNat ≤ 9 := digit_le_nine (all c List.mem_cons_self)
    rw [List.length_nil, Nat.pow_zero, Nat.mul_one]
    simp only [wordCount, next] at full
    omega

/-- Digits behind others count for less than one of them. -/
theorem digitsValue_append_bounds (before : List Char) {after : List Char} (all : ∀ c ∈ after, c.isDigit) :
    digitsValue before * 10 ^ after.length ≤ digitsValue (before ++ after) ∧
      digitsValue (before ++ after) ≤ (digitsValue before + 1) * 10 ^ after.length := by
  have rest : digitsValue after < 10 ^ after.length := digitsValue_lt all
  rw [digitsValue_append, Nat.succ_mul]
  omega

/-- The digits in the word agree with all digits to sixty bits. -/
theorem exists_gathered {n : Numeral} (all : ∀ c ∈ n.digits, c.isDigit) :
    ∃ k : Nat, (gathered n).2 = n.place + k ∧ Agree 60 ((gathered n).1 * 10 ^ k) (digitsValue n.digits) := by
  rw [Numeral.digits, List.forall_mem_append] at all
  obtain ⟨whole, wholeLeft, split, ahead, wholeRoom⟩ := exists_gather all.1 0
  obtain ⟨taken, left, fraction, behind, room⟩ := exists_gather all.2 (digitsValue whole)
  rw [Nat.zero_mul, Nat.zero_add] at ahead wholeRoom
  rw [← digitsValue_append] at behind room
  rw [split, fraction, List.forall_mem_append, List.forall_mem_append] at all
  obtain ⟨⟨-, wholeLeftAll⟩, takenAll, leftAll⟩ := all
  have word : (gathered n).1 = digitsValue (whole ++ taken) := by
    rw [gathered, ahead]
    dsimp only
    rw [behind]
  refine ⟨wholeLeft.length + left.length, ?_, ?_⟩
  · rw [gathered, ahead]
    dsimp only
    rw [behind, Numeral.place, fraction, List.length_append]
    dsimp only
    omega
  · rw [word, Numeral.digits, split, fraction]
    rcases wholeRoom with rfl | full
    · rw [List.append_nil, ← List.append_assoc, List.length_nil, Nat.zero_add]
      rcases room with rfl | full
      · rw [List.append_nil, List.length_nil, Nat.pow_zero, Nat.mul_one]
        exact .refl 60 _
      · exact .of_between full ⟨Nat.le_refl _, Nat.mul_le_mul_right _ (Nat.le_succ _)⟩
          (digitsValue_append_bounds _ leftAll)
    · -- a digit after the point may be taken in though one before it was not
      have behindWhole : ∀ c ∈ wholeLeft ++ (taken ++ left), c.isDigit :=
        List.forall_mem_append.mpr ⟨wholeLeftAll, List.forall_mem_append.mpr ⟨takenAll, leftAll⟩⟩
      have length : 10 ^ (wholeLeft ++ (taken ++ left)).length =
          10 ^ taken.length * 10 ^ (wholeLeft.length + left.length) := by
        rw [← Nat.pow_add, List.length_append, List.length_append, Nat.add_left_comm]
      have bounds := digitsValue_append_bounds whole takenAll
      have every := digitsValue_append_bounds whole behindWhole
      rw [length] at every
      rw [List.append_assoc]
      refine .of_between full ?_ every
      rw [← Nat.mul_assoc, ← Nat.mul_assoc]
      exact ⟨Nat.mul_le_mul_right _ bounds.1, Nat.mul_le_mul_right _ bounds.2⟩

theorem agree_value {n : Numeral} (all : ∀ c ∈ n.digits, c.isDigit) :
    Agree 60 ((gathered n).1 * 10 ^ (gathered n).2.toNat * n.denominator)
      (n.numerator * 10 ^ (-(gathered n).2).toNat) := by
  obtain ⟨k, exponent, close⟩ := exists_gathered all
  have exponents : (gathered n).2.toNat + (-n.place).toNat = k + (n.place.toNat + (-(gathered n).2).toNat) := by omega
  have scaled := close.mul_right (10 ^ (n.place.toNat + (-(gathered n).2).toNat))
  rw [Nat.mul_assoc, ← Nat.pow_add, ← exponents, Nat.pow_add, Nat.pow_add] at scaled
  rw [Numeral.denominator, Numeral.numerator, Nat.mul_assoc, Nat.mul_assoc]
  exact scaled

/-! ## Overflow -/

theorem agree_product {n : Numeral} (all : ∀ c ∈ n.digits, c.isDigit) (nonzero : (gathered n).1 ≠ 0)
    (nonnegative : 0 ≤ (gathered n).2) (small : (gathered n).2 ≤ maxPower) :
    Agree 49 (units (nearestRank (gathered n).1 1) * units (powerOfTen (gathered n).2.toNat) * n.denominator)
      (n.numerator * 2 ^ (1074 + 1074 : Nat)) := by
  have value := agree_value all
  rw [Int.toNat_of_nonpos (Int.neg_nonpos_of_nonneg nonnegative), Nat.pow_zero, Nat.mul_one] at value
  have word : Agree 53 _ ((gathered n).1 * 2 ^ (1074 : Nat)) := agree_nearestRank (Nat.pos_of_ne_zero nonzero)
  have power : Agree 53 _ (10 ^ (gathered n).2.toNat * 2 ^ (1074 : Nat)) := agree_powerOfTen (by omega)
  have product := (word.mul power).mul_right n.denominator
  obtain ⟨i, unit⟩ : ∃ i, i = 1074 := ⟨_, rfl⟩
  rw [← unit] at product ⊢
  rw [Nat.mul_mul_mul_comm, ← Nat.pow_add, Nat.mul_right_comm _ (2 ^ (i + i))] at product
  have few : 49 + 2 ≤ 60 := by decide
  exact product.trans ((value.fewer few).mul_right (2 ^ (i + i)))

theorem overflow_le_ten_pow {exponent : Nat} (past : maxPower < exponent) : overflow ≤ 10 ^ exponent :=
  calc overflow ≤ 10 ^ (maxPower + 1) := by decide +kernel
    _ ≤ 10 ^ exponent := Nat.pow_le_pow_right (by decide) past

/-- A numeral that overflows has an exact value of `overflow` or more, but for one part in `2 ^ 49`. -/
theorem Overflows.le_value {n : Numeral} (all : ∀ c ∈ n.digits, c.isDigit) (overflows : Overflows n) :
    overflow * n.denominator * 2 ^ (49 : Nat) ≤ n.numerator * (2 ^ (49 : Nat) + 1) := by
  obtain ⟨-, nonzero, large⟩ := overflows
  by_cases past : (maxPower : Int) < (gathered n).2
  · have value := (agree_value all).left
    have nonpositive : -(gathered n).2 ≤ 0 :=
      Int.neg_nonpos_of_nonneg (Int.le_trans (Int.natCast_nonneg maxPower) (Int.le_of_lt past))
    rw [Int.toNat_of_nonpos nonpositive, Nat.pow_zero, Nat.mul_one] at value
    have reached : overflow ≤ (gathered n).1 * 10 ^ (gathered n).2.toNat :=
      Nat.le_trans (overflow_le_ten_pow (Int.lt_toNat.mpr past)) (Nat.le_mul_of_pos_left _ (Nat.pos_of_ne_zero nonzero))
    refine Agree.le_of_fewer (show 49 ≤ 60 by decide) (Nat.le_trans ?_ value)
    exact Nat.mul_le_mul_right _ (Nat.mul_le_mul_right _ reached)
  · obtain ⟨nonnegative, reached⟩ := large.resolve_left past
    have product := (agree_product all nonzero nonnegative (Int.not_lt.mp past)).left
    obtain ⟨i, unit⟩ : ∃ i, i = 1074 := ⟨_, rfl⟩
    rw [← unit] at reached product
    refine Nat.le_of_mul_le_mul_right ?_ (Nat.two_pow_pos (i + i))
    calc overflow * n.denominator * 2 ^ (49 : Nat) * 2 ^ (i + i)
        = overflow * 2 ^ (i + i) * n.denominator * 2 ^ (49 : Nat) := by
          rw [Nat.mul_right_comm _ (2 ^ (49 : Nat)), Nat.mul_right_comm overflow]
      _ ≤ _ * n.denominator * 2 ^ (49 : Nat) := Nat.mul_le_mul_right _ (Nat.mul_le_mul_right _ reached)
      _ ≤ n.numerator * 2 ^ (i + i) * (2 ^ (49 : Nat) + 1) := product
      _ = n.numerator * (2 ^ (49 : Nat) + 1) * 2 ^ (i + i) := Nat.mul_right_comm _ _ _

/-- A word that is divided stays far below `overflow`. -/
theorem numerator_lt_of_neg {n : Numeral} (all : ∀ c ∈ n.digits, c.isDigit) (negative : (gathered n).2 < 0) :
    n.numerator < overflow * n.denominator := by
  have value := (agree_value all).right
  rw [Int.toNat_of_nonpos (Int.le_of_lt negative), Nat.pow_zero, Nat.mul_one] at value
  have power : 0 < 10 ^ (-(gathered n).2).toNat := Nat.pow_pos (by decide)
  have word : (gathered n).1 * (2 ^ (60 : Nat) + 1) < 2 ^ (128 : Nat) * 2 ^ (60 : Nat) := by
    have small : (gathered n).1 < 2 ^ (64 : Nat) := gathered_lt n
    omega
  refine Nat.lt_of_mul_lt_mul_right (a := 2 ^ (60 : Nat)) ?_
  calc n.numerator * 2 ^ (60 : Nat)
      ≤ n.numerator * 10 ^ (-(gathered n).2).toNat * 2 ^ (60 : Nat) :=
        Nat.mul_le_mul_right _ (Nat.le_mul_of_pos_right _ power)
    _ ≤ (gathered n).1 * n.denominator * (2 ^ (60 : Nat) + 1) := value
    _ = (gathered n).1 * (2 ^ (60 : Nat) + 1) * n.denominator := Nat.mul_right_comm _ _ _
    _ < 2 ^ (128 : Nat) * 2 ^ (60 : Nat) * n.denominator := Nat.mul_lt_mul_of_pos_right word n.denominator_pos
    _ = 2 ^ (128 : Nat) * n.denominator * 2 ^ (60 : Nat) := Nat.mul_right_comm _ _ _
    _ ≤ overflow * n.denominator * 2 ^ (60 : Nat) :=
        Nat.mul_le_mul_right _ (Nat.mul_le_mul_right _ (two_pow_le_overflow (by decide)))

theorem gathered_ne_zero {n : Numeral} (all : ∀ c ∈ n.digits, c.isDigit) (positive : 0 < n.numerator) :
    (gathered n).1 ≠ 0 := by
  intro zero
  have nothing := (agree_value all).right
  rw [zero, Nat.zero_mul, Nat.zero_mul, Nat.zero_mul] at nothing
  have power : 0 < 10 ^ (-(gathered n).2).toNat := Nat.pow_pos (by decide)
  exact absurd nothing (Nat.not_le.mpr (Nat.mul_pos (Nat.mul_pos positive power) (Nat.two_pow_pos 60)))

/-- A numeral overflows if its exact value is past `overflow` by more than one part in `2 ^ 49`. -/
theorem overflows_of_le_value {n : Numeral} (all : ∀ c ∈ n.digits, c.isDigit)
    (large : overflow * n.denominator * (2 ^ (49 : Nat) + 1) ≤ n.numerator * 2 ^ (49 : Nat)) : Overflows n := by
  have atLeast : overflow * n.denominator ≤ n.numerator := by omega
  have nonzero : (gathered n).1 ≠ 0 := by
    have least : 0 < overflow := Nat.lt_of_lt_of_le (by decide) (two_pow_le_overflow (Nat.zero_le 970))
    exact gathered_ne_zero all (Nat.lt_of_lt_of_le (Nat.mul_pos least n.denominator_pos) atLeast)
  refine ⟨?_, nonzero, ?_⟩
  · cases integer : n.integer?.bind Number.ofInt? with
    | none => rfl
    | some v =>
      obtain ⟨i, -, whole⟩ := n.integer?_bind_ofInt?.mp integer
      exact absurd (Numeral.numerator_lt_of_integer whole) (Nat.not_lt.mpr atLeast)
  · rcases Int.lt_or_le maxPower (gathered n).2 with past | small
    · exact .inl past
    · have nonnegative : 0 ≤ (gathered n).2 :=
        Int.not_lt.mp fun negative => absurd (numerator_lt_of_neg all negative) (Nat.not_lt.mpr atLeast)
      refine .inr ⟨nonnegative, ?_⟩
      have product := (agree_product all nonzero nonnegative small).right
      obtain ⟨i, unit⟩ : ∃ i, i = 1074 := ⟨_, rfl⟩
      rw [← unit] at product ⊢
      have edge : 0 < n.denominator * (2 ^ (49 : Nat) + 1) := Nat.mul_pos n.denominator_pos (Nat.succ_pos _)
      refine Nat.le_of_mul_le_mul_right ?_ edge
      calc overflow * 2 ^ (i + i) * (n.denominator * (2 ^ (49 : Nat) + 1))
          = overflow * n.denominator * (2 ^ (49 : Nat) + 1) * 2 ^ (i + i) := by
            rw [Nat.mul_right_comm overflow, ← Nat.mul_assoc overflow]
        _ ≤ n.numerator * 2 ^ (49 : Nat) * 2 ^ (i + i) := Nat.mul_le_mul_right _ large
        _ = n.numerator * 2 ^ (i + i) * 2 ^ (49 : Nat) := Nat.mul_right_comm _ _ _
        _ ≤ _ * n.denominator * (2 ^ (49 : Nat) + 1) := product
        _ = _ * (n.denominator * (2 ^ (49 : Nat) + 1)) := Nat.mul_assoc _ _ _

example : Overflows ⟨false, ['1'], none, some ⟨false, ['3', '0', '9']⟩⟩ :=
  overflows_of_le_value (List.all_eq_true.mp rfl) (by decide +kernel)

end Json

end RowFilter
