import RowFilter.Json.Token
import RowFilter.Proofs.Number.Numeral
import RowFilter.Proofs.Number.Rounding

/-!
# The numbers of JSON texts

* `NumeralText` : how a numeral is written in JSON;
* `Overflows`, `number?_eq_none_iff` : the numerals whose conversion leaves the finite doubles, and that there is
  no other reason not to convert one;
* `scanNumber?_append`, `numeralText_of_scanNumber?` : what is scanned as a number is just a converted numeral;
* `number?_isFinite` : no number is infinite or not-a-number.
-/

namespace RowFilter.Json

attribute [local instance (high)] instPowNat

/-! ## Numerals -/

/-- The texts of a numeral in JSON. There is no plus sign in front, no zero in front of other digits, and a digit
on either side of a point. -/
structure NumeralText (n : Numeral) (text : List Char) : Prop where
  written : n.WrittenAs text
  noPlus : text.head? ≠ some '+'
  whole : n.whole = ['0'] ∨ n.whole ≠ [] ∧ n.whole.head? ≠ some '0'
  fraction : n.fraction ≠ some []

theorem isStrict_iff (n : Numeral) : isStrict n = true ↔
    (n.whole = ['0'] ∨ n.whole ≠ [] ∧ n.whole.head? ≠ some '0') ∧ n.fraction ≠ some [] := by
  simp [isStrict]

theorem NumeralText.head {n : Numeral} {text : List Char} (h : NumeralText n text) :
    ∃ c rest, text = c :: rest ∧ (c = '-' ∨ c.isDigit) := by
  obtain ⟨written, noPlus, whole, -⟩ := h
  cases written with
  | @parts _ sign whole' _ _ _ _ signed all _ _ _ =>
    cases signed with
    | plus => exact absurd rfl noPlus
    | minus => exact ⟨'-', _, rfl, .inl rfl⟩
    | none =>
      have nonempty : whole' ≠ [] := by
        rcases whole with zero | ⟨nonempty, -⟩
        · exact ne_of_eq_of_ne zero (List.cons_ne_nil _ _)
        · exact nonempty
      obtain ⟨d, digits, rfl⟩ := List.exists_cons_of_ne_nil nonempty
      exact ⟨d, _, rfl, .inr (all d List.mem_cons_self)⟩

/-! ## Conversion -/

/-- The digits of a numeral in one word, as many as it takes, and the power of ten that goes with the word. -/
def gathered (n : Numeral) : Nat × Int :=
  let fraction := n.fraction.getD []
  let whole := gather 0 n.whole
  let all := gather whole.1 fraction
  (all.1, writtenExponent n + whole.2 - (fraction.length - all.2 : Nat))

/-- The numerals whose conversion leaves the finite doubles: they are no integer that fits, their digits are not
all zero, and the power of ten has no double or takes the digits to `overflow`. -/
structure Overflows (n : Numeral) : Prop where
  noInteger : n.integer?.bind Number.ofInt? = none
  nonzero : (gathered n).1 ≠ 0
  large : (maxPower : Int) < (gathered n).2 ∨ 0 ≤ (gathered n).2 ∧
    overflow * 2 ^ (1074 + 1074 : Nat) ≤
      units (nearestRank (gathered n).1 1) * units (powerOfTen (gathered n).2.toNat)

theorem gather_lt {word : Nat} (fits : word < wordCount) (digits : List Char) :
    (gather word digits).1 < wordCount := by
  fun_induction gather word digits with
  | case1 => exact fits
  | case2 _ _ _ _ next ih => exact ih next
  | case3 => exact fits

theorem gathered_lt (n : Numeral) : (gathered n).1 < wordCount :=
  gather_lt (gather_lt (by decide) _) _

/-- A word becomes a finite double, which is zero for zero only. -/
theorem exists_rank_of_lt {word : Nat} (fits : word < wordCount) :
    ∃ magnitude : Rank, (Binary64.ofRatio false word 1).rank? = some magnitude ∧
      magnitude.val = nearestRank word 1 ∧ (magnitude.val = 0 ↔ word = 0) := by
  have below : word < overflow * 1 := by
    rw [Nat.mul_one]
    exact Nat.lt_of_lt_of_le fits (two_pow_le_overflow (by decide))
  obtain ⟨magnitude, found⟩ := Option.isSome_iff_exists.mp
    ((Binary64.isFinite_ofRatio_iff false Nat.one_pos).mpr below)
  have rank := Binary64.rank?_ofRatio found
  refine ⟨magnitude, found, rank, ?_⟩
  rw [rank]
  rcases Nat.eq_zero_or_pos word with zero | positive
  · subst zero
    exact iff_of_true nearestRank_zero rfl
  · have large := le_nearestRank positive
    exact iff_of_false (by omega) (by omega)

theorem val_powerOfTen {exponent : Nat} (finite : 10 ^ exponent < overflow) :
    (powerOfTen exponent).val = nearestRank (10 ^ exponent) 1 := by
  obtain ⟨r, found⟩ := Option.isSome_iff_exists.mp
    ((Binary64.isFinite_ofRatio_iff false Nat.one_pos).mpr (Nat.lt_of_lt_of_eq finite (Nat.mul_one overflow).symm))
  rw [powerOfTen, found, Option.getD_some, Binary64.rank?_ofRatio found]

theorem le_units_powerOfTen (exponent : Nat) : 2 ^ (1074 : Nat) ≤ units (powerOfTen exponent) := by
  refine le_units ?_
  unfold powerOfTen
  cases found : (Binary64.ofRatio false (10 ^ exponent) 1).rank? with
  | none => exact (by decide : 1023 * 2 ^ (52 : Nat) ≤ finiteRanks - 1)
  | some r =>
    rw [Option.getD_some, Binary64.rank?_ofRatio found]
    exact le_nearestRank (Nat.pow_pos (by decide))

theorem exists_quotient (magnitude : Rank) (exponent : Nat) :
    ∃ smaller, (Binary64.quotient magnitude (powerOfTen exponent)).rank? = some smaller := by
  have divisor := le_units_powerOfTen exponent
  refine Option.isSome_iff_exists.mp ((Binary64.isFinite_ofRatio_iff false ?_).mpr ?_)
  · exact Nat.lt_of_lt_of_le (Nat.two_pow_pos _) divisor
  · exact Nat.lt_of_lt_of_le (units_lt magnitude) (Nat.mul_le_mul_left _ divisor)

theorem scaled?_ne_none_of_neg {magnitude : Rank} {exponent : Int} (negative : exponent < 0) :
    scaled? magnitude exponent ≠ none := by
  fun_induction scaled? magnitude exponent with
  | case1 => exact Option.some_ne_none _
  | case2 => simp only [maxPower] at *; omega
  | case3 => omega
  | case4 magnitude =>
    obtain ⟨smaller, found⟩ := exists_quotient magnitude _
    rw [found]
    exact Option.some_ne_none _
  | case5 magnitude exponent _ _ _ _ ih =>
    obtain ⟨smaller, found⟩ := exists_quotient magnitude maxPower
    rw [found, Option.bind_some]
    exact ih smaller (by simp only [maxPower] at *; omega)

/-- Scaling fails only for want of a power of ten, or in the one multiplication. -/
theorem scaled?_eq_none_iff {magnitude : Rank} {exponent : Int} : scaled? magnitude exponent = none ↔
    magnitude.val ≠ 0 ∧ ((maxPower : Int) < exponent ∨ 0 ≤ exponent ∧
      overflow * 2 ^ (1074 + 1074 : Nat) ≤ units magnitude * units (powerOfTen exponent.toNat)) := by
  rcases Int.lt_or_le exponent 0 with negative | nonnegative
  · exact iff_of_false (scaled?_ne_none_of_neg negative) (by simp only [maxPower]; omega)
  · rw [scaled?]
    by_cases zero : magnitude.val = 0
    · rw [if_pos zero]
      exact iff_of_false (Option.some_ne_none _) fun h => h.1 zero
    · rw [if_neg zero]
      by_cases past : (maxPower : Int) < exponent
      · rw [if_pos past]
        exact iff_of_true rfl ⟨zero, .inl past⟩
      · have product := Binary64.isFinite_product_iff magnitude (powerOfTen exponent.toNat)
        rw [if_neg past, if_pos nonnegative, ← Option.not_isSome_iff_eq_none]
        refine (not_congr product).trans ?_
        rw [Nat.not_lt]
        exact ⟨fun large => ⟨zero, .inr ⟨nonnegative, large⟩⟩, fun h => (h.2.resolve_left past).2⟩

theorem float?_eq (n : Numeral) : float? n =
    ((Binary64.ofRatio false (gathered n).1 1).rank?).bind fun magnitude =>
      (scaled? magnitude (gathered n).2).map (Binary64.finite n.negative) := rfl

/-- A numeral has no number exactly if its conversion leaves the finite doubles. -/
theorem number?_eq_none_iff (n : Numeral) : number? n = none ↔ Overflows n := by
  obtain ⟨magnitude, found, rank, zero⟩ := exists_rank_of_lt (gathered_lt n)
  have float : (float? n).map Number.float = none ↔ (gathered n).1 ≠ 0 ∧
      ((maxPower : Int) < (gathered n).2 ∨ 0 ≤ (gathered n).2 ∧
        overflow * 2 ^ (1074 + 1074 : Nat) ≤
          units (nearestRank (gathered n).1 1) * units (powerOfTen (gathered n).2.toNat)) := by
    rw [float?_eq, found, Option.bind_some, Option.map_eq_none_iff, Option.map_eq_none_iff,
      scaled?_eq_none_iff, ← rank, ne_eq, zero]
  unfold number?
  split
  · rename_i i integer
    exact iff_of_false (Option.some_ne_none _) fun h => by rw [h.noInteger] at integer; cases integer
  · rename_i integer
    rw [float]
    exact ⟨fun ⟨nonzero, large⟩ => ⟨integer, nonzero, large⟩, fun h => ⟨h.nonzero, h.large⟩⟩

theorem number?_isFinite {n : Numeral} {x : Binary64} (converted : number? n = some (.float x)) :
    x.isFinite := by
  unfold number? at converted
  split at converted
  · rename_i i integer
    obtain ⟨j, -, fits⟩ := Option.bind_eq_some_iff.mp integer
    obtain rfl := Option.some.inj converted
    unfold Number.ofInt? at fits
    split at fits <;> cases fits
  · obtain ⟨y, float, same⟩ := Option.map_eq_some_iff.mp converted
    obtain rfl := Number.float.inj same
    rw [float?_eq] at float
    obtain ⟨_, -, scaled⟩ := Option.bind_eq_some_iff.mp float
    obtain ⟨_, -, rfl⟩ := Option.map_eq_some_iff.mp scaled
    rfl

/-! ## Number tokens -/

theorem scanNumber?_append {n : Numeral} {v : Number} {part rest : List Char}
    (text : NumeralText n part) (converted : number? n = some v) (stops : Numeral.Stops rest) :
    scanNumber? (part ++ rest) = some (v, rest) := by
  rw [scanNumber?, Numeral.scan_append text.written stops]
  dsimp only
  rw [if_pos ((isStrict_iff n).mpr ⟨text.whole, text.fraction⟩), converted]
  rfl

theorem numeralText_of_scanNumber? {v : Number} {text rest : List Char} (noPlus : text.head? ≠ some '+')
    (scanned : scanNumber? text = some (v, rest)) :
    ∃ n part, NumeralText n part ∧ number? n = some v ∧ text = part ++ rest := by
  unfold scanNumber? at scanned
  split at scanned
  · cases scanned
  · rename_i n after found
    split at scanned
    · rename_i strict
      obtain ⟨w, converted, same⟩ := Option.map_eq_some_iff.mp scanned
      obtain ⟨rfl, rfl⟩ := Prod.mk.inj same
      obtain ⟨part, written, rfl⟩ := Numeral.writtenAs_of_scan found
      obtain ⟨whole, fraction⟩ := (isStrict_iff n).mp strict
      refine ⟨n, part, ⟨written, fun plus => noPlus ?_, whole, fraction⟩, converted, rfl⟩
      rw [List.head?_append, plus]
      rfl
    · cases scanned

end RowFilter.Json
