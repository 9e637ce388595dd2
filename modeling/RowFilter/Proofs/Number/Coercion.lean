import RowFilter.Proofs.Number.Exact
import RowFilter.Proofs.Number.Reading
import RowFilter.Proofs.Sql.Numeral
import RowFilter.Proofs.Text.Utf8

/-!
# Which texts count as numbers

* `Numeral.saturated` : a numeral with as much of its exponent as is read, and `ofNumeral?_eq_some_iff_denotes` : the
  number that is read is that of the exact value of `saturated`;
* `Numeral.ReadInFull` : the numerals whose exponent is read in full, or is so large for the digits in front of it that
  the rest of it does not matter, and `ReadInFull.ofRatio_eq` : saturation changes none of these;
* `numeric_text` : so a text counts as a number exactly if it spells a numeral whose value is rounded to a finite
  double, and `numeric_text_misread` : where that is not the value as written.
-/

namespace RowFilter

attribute [local instance (high)] instPowNat

namespace Numeral

open Binary64

/-! ## What is read of an exponent -/

/-- The numeral with as much of its exponent as is read. -/
def saturated (n : Numeral) : Numeral :=
  { n with exponent := n.exponent.map fun e => ⟨e.negative, decimalDigits (saturatedValue e.digits)⟩ }

theorem digits_saturated (n : Numeral) : n.saturated.digits = n.digits := rfl

theorem integer?_saturated (n : Numeral) : n.saturated.integer? = n.integer? := by
  unfold integer? saturated
  rw [Option.isNone_map]

theorem scale_eq {n : Numeral} (small : (Json.writtenExponent n).natAbs < 10 * exponentSaturation) :
    n.scale = n.place := by
  unfold Json.writtenExponent at small
  unfold scale place Json.writtenExponent
  cases written : n.exponent with
  | none => rfl
  | some e =>
    rw [written] at small
    have value : digitsValue e.digits < 10 * exponentSaturation := by
      dsimp only at small
      split at small <;> omega
    dsimp only
    rw [saturatedValue_eq value]

theorem place_saturated (n : Numeral) : n.saturated.place = n.scale := by
  unfold place scale saturated Json.writtenExponent
  cases n.exponent with
  | none => rfl
  | some e => simp only [Option.map_some, digitsValue_decimalDigits]

theorem nearest_eq_ofRatio (n : Numeral) :
    n.nearest = ofRatio n.negative n.saturated.numerator n.saturated.denominator := by
  rw [nearest, ofDecimal_eq, numerator, denominator, place_saturated]
  rfl

/-- The number that is read for a numeral is that of the numeral with as much of its exponent as is read. -/
theorem ofNumeral?_eq_some_iff_denotes {n : Numeral} {v : Number} :
    Number.ofNumeral? n = some v ↔ n.saturated.Denotes v := by
  rw [Number.ofNumeral?]
  cases integer : n.integer?.bind Number.ofInt? with
  | some w =>
    obtain ⟨i, rfl, whole⟩ := n.integer?_bind_ofInt?.mp integer
    have denotes : n.saturated.Denotes (.int i) := .int (by rw [integer?_saturated, whole])
    rw [Option.some.injEq]
    constructor
    · rintro rfl
      exact denotes
    · exact denotes.unique
  | none =>
    have other (i : Int64) : n.saturated.integer? ≠ some i.toInt := by
      rw [integer?_saturated]
      intro whole
      rw [n.integer?_bind_ofInt?.mpr ⟨i, rfl, whole⟩] at integer
      cases integer
    dsimp only
    cases v with
    | int i =>
      rw [denotes_int_iff]
      refine iff_of_false ?_ (other i)
      split <;> nofun
    | float x =>
      rw [denotes_float_iff, roundsTo_iff, and_iff_right other, nearest_eq_ofRatio]
      change (if _ then _ else _) = _ ↔ ofRatio n.negative _ _ = x ∧ _
      generalize ofRatio n.negative n.saturated.numerator n.saturated.denominator = y
      split
      · rename_i finite
        rw [Option.some.injEq, Number.float.injEq]
        constructor
        · rintro rfl
          exact ⟨rfl, finite⟩
        · exact And.left
      · rename_i infinite
        refine iff_of_false nofun ?_
        rintro ⟨rfl, finite⟩
        exact infinite finite

/-! ## Where the rest of an exponent makes no difference -/

theorem two_pow_le_ten_pow {i j : Nat} (bits : i ≤ 1076) (places : 324 ≤ j) : 2 ^ i ≤ 10 ^ j := by
  have most : 2 ^ (93 : Nat) ≤ 10 ^ (28 : Nat) := by decide
  have others : 2 ^ (53 : Nat) ≤ 10 ^ (16 : Nat) := by decide
  obtain ⟨k, times⟩ : ∃ k, k = 11 := ⟨_, rfl⟩
  calc 2 ^ i ≤ 2 ^ (93 * k + 53) := Nat.pow_le_pow_right Nat.two_pos (by omega)
    _ = (2 ^ (93 : Nat)) ^ k * 2 ^ (53 : Nat) := by rw [Nat.pow_add, Nat.pow_mul]
    _ ≤ (10 ^ (28 : Nat)) ^ k * 10 ^ (16 : Nat) := Nat.mul_le_mul (Nat.pow_le_pow_left most k) others
    _ = 10 ^ (28 * k + 16) := by rw [Nat.pow_add, Nat.pow_mul]
    _ ≤ 10 ^ j := Nat.pow_le_pow_right (by decide) (by omega)

theorem ofRatio_of_zero {n : Numeral} (zero : digitsValue n.digits = 0) :
    ofRatio n.negative n.numerator n.denominator = .finite n.negative ⟨0, by decide⟩ := by
  rw [numerator, zero, Nat.zero_mul, ofRatio_zero _ n.denominator_pos]

/-- A numeral with many zeros behind its digits is infinite. -/
theorem ofRatio_of_le_place {n : Numeral} (nonzero : digitsValue n.digits ≠ 0) (high : 324 ≤ n.place) :
    ofRatio n.negative n.numerator n.denominator = .infinity n.negative := by
  apply ofRatio_eq_infinity _ n.denominator_pos
  rw [numerator, denominator, Int.toNat_of_nonpos (by omega), Nat.pow_zero, Nat.mul_one]
  obtain ⟨i, last⟩ : ∃ i, i = 1024 := ⟨_, rfl⟩
  calc overflow ≤ 2 ^ i := overflow_le_two_pow (by omega)
    _ ≤ 10 ^ n.place.toNat := two_pow_le_ten_pow (by omega) (by omega)
    _ ≤ digitsValue n.digits * 10 ^ n.place.toNat := Nat.le_mul_of_pos_left _ (Nat.pos_of_ne_zero nonzero)

/-- A numeral with many zeros between the point and its digits is zero. -/
theorem ofRatio_of_place_le {n : Numeral} {k : Nat} (few : digitsValue n.digits < 10 ^ k)
    (low : n.place + k + 324 ≤ 0) :
    ofRatio n.negative n.numerator n.denominator = .finite n.negative ⟨0, by decide⟩ := by
  have small : 2 * (n.numerator * 2 ^ (1074 : Nat)) < n.denominator := by
    obtain ⟨i, unit⟩ : ∃ i, i = 1074 := ⟨_, rfl⟩
    rw [← unit, numerator, denominator, Int.toNat_of_nonpos (by omega), Nat.pow_zero, Nat.mul_one]
    have power : 0 < 2 ^ (i + 1) := Nat.two_pow_pos _
    calc 2 * (digitsValue n.digits * 2 ^ i) = digitsValue n.digits * 2 ^ (i + 1) := by
          rw [Nat.pow_succ, Nat.mul_comm 2, Nat.mul_assoc]
      _ < 10 ^ k * 2 ^ (i + 1) := Nat.mul_lt_mul_of_pos_right few power
      _ ≤ 10 ^ k * 10 ^ ((-n.place).toNat - k) := Nat.mul_le_mul_left _ (two_pow_le_ten_pow (by omega) (by omega))
      _ = 10 ^ (-n.place).toNat := by
          rw [← Nat.pow_add]
          congr 1
          omega
  rw [ofRatio, nearestRank_eq_zero small]
  rfl

/-- The numerals whose exponent is read in full, or makes no difference from where it is not: all digits are zero, or
those that the exponent has to move past the point are so few that the value is infinite or zero whatever the rest of
the exponent. The bounds are ten times `exponentSaturation`, and 324 less than `exponentSaturation`. -/
inductive ReadInFull (n : Numeral) : Prop where
  | zero (none : digitsValue n.digits = 0)
  | moderate (small : (Json.writtenExponent n).natAbs < 655360)
  | infinite (up : 0 ≤ Json.writtenExponent n) (few : (n.fraction.getD []).length ≤ 65212)
  | vanishing (down : Json.writtenExponent n ≤ 0) (few : n.whole.length ≤ 65212)

/-- An exponent that is not read in full is large, and so is what is read of it. -/
theorem exists_saturation {n : Numeral} (all : ∀ e ∈ n.exponent, ∀ c ∈ e.digits, c.isDigit)
    (large : 10 * exponentSaturation ≤ (Json.writtenExponent n).natAbs) :
    ∃ read : Nat, exponentSaturation ≤ read ∧ 10 * read ≤ (Json.writtenExponent n).natAbs ∧
      n.scale = (Json.writtenExponent n).sign * read - (n.fraction.getD []).length := by
  unfold Json.writtenExponent at large ⊢
  unfold scale
  cases written : n.exponent with
  | none =>
    rw [written] at large
    exact absurd large (by decide)
  | some e =>
    rw [written] at large
    dsimp only at large ⊢
    have value : 10 * exponentSaturation ≤ digitsValue e.digits := by
      split at large <;> omega
    have positive : 0 < digitsValue e.digits := Nat.lt_of_lt_of_le (by decide) value
    obtain ⟨reached, tenth⟩ := saturatedValue_le (all e written) value
    refine ⟨saturatedValue e.digits, reached, ?_, ?_⟩
    · split <;> omega
    · have sign : (digitsValue e.digits : Int).sign = 1 := Int.sign_natCast_of_ne_zero (Nat.ne_of_gt positive)
      split
      · rw [Int.sign_neg, sign, Int.neg_one_mul]
      · rw [sign, Int.one_mul]

theorem ofRatio_saturated {n : Numeral}
    (kept : digitsValue n.digits = 0 ∨ (Json.writtenExponent n).natAbs < 10 * exponentSaturation) :
    ofRatio n.negative n.saturated.numerator n.saturated.denominator =
      ofRatio n.negative n.numerator n.denominator := by
  rcases kept with zero | small
  · exact (ofRatio_of_zero (n := n.saturated) zero).trans (ofRatio_of_zero zero).symm
  · rw [numerator, numerator, denominator, denominator, place_saturated, scale_eq small]
    rfl

/-- What is not read of an exponent changes nothing then. -/
theorem ReadInFull.ofRatio_eq {n : Numeral} (full : n.ReadInFull) {text : List Char} (written : n.WrittenAs text) :
    ofRatio n.negative n.saturated.numerator n.saturated.denominator =
      ofRatio n.negative n.numerator n.denominator := by
  by_cases kept : digitsValue n.digits = 0 ∨ (Json.writtenExponent n).natAbs < 10 * exponentSaturation
  · exact ofRatio_saturated kept
  obtain ⟨nonzero, large⟩ := not_or.mp kept
  have place : n.place = Json.writtenExponent n - (n.fraction.getD []).length := rfl
  obtain ⟨read, reached, tenth, scale⟩ := exists_saturation written.isDigit_exponent (Nat.not_lt.mp large)
  have bound : exponentSaturation = 65536 := rfl
  cases full with
  | zero none => exact absurd none nonzero
  | moderate small => omega
  | infinite up few =>
    rw [Int.sign_eq_one_of_pos (by omega), Int.one_mul] at scale
    have high : ofRatio n.negative n.saturated.numerator n.saturated.denominator = .infinity n.negative :=
      ofRatio_of_le_place (n := n.saturated) nonzero (by rw [place_saturated]; omega)
    exact high.trans (ofRatio_of_le_place nonzero (by omega)).symm
  | vanishing down few =>
    rw [Int.sign_eq_neg_one_of_neg (by omega), Int.neg_one_mul] at scale
    have digits : digitsValue n.digits < 10 ^ n.digits.length := digitsValue_lt written.isDigit_digits
    have length : n.digits.length = n.whole.length + (n.fraction.getD []).length := List.length_append
    have least : n.scale + n.digits.length + 324 ≤ 0 := by omega
    have low := ofRatio_of_place_le (n := n.saturated) digits (by rw [place_saturated]; exact least)
    exact low.trans (ofRatio_of_place_le digits (by omega)).symm

section Saturated

variable {n : Numeral} (same : ofRatio n.negative n.saturated.numerator n.saturated.denominator =
    ofRatio n.negative n.numerator n.denominator)
include same

theorem roundsTo_saturated_iff {x : Binary64} : n.saturated.RoundsTo x ↔ n.RoundsTo x := by
  rw [roundsTo_iff, roundsTo_iff, ← same]
  rfl

theorem denotes_saturated_iff {v : Number} : n.saturated.Denotes v ↔ n.Denotes v := by
  cases v with
  | int i => rw [denotes_int_iff, denotes_int_iff, integer?_saturated]
  | float x => rw [denotes_float_iff, denotes_float_iff, integer?_saturated, roundsTo_saturated_iff same]

end Saturated

end Numeral

/-! ## Texts as numbers -/

theorem numeric_text_number_iff {s : String} {v : Number} :
    Value.numeric (.item (.text s)) = .item (.number v) ↔
      ∃ n : Numeral, n.SpelledBy s.toList ∧ n.saturated.Denotes v := by
  simp only [numeric_text_eq_iff, numberSpelled?_eq_some_iff, Numeral.ofNumeral?_eq_some_iff_denotes]

theorem numeric_text_kept_iff {s : String} : Value.numeric (.item (.text s)) = .item (.text s) ↔
    ∀ n : Numeral, n.SpelledBy s.toList → ∀ x, ¬ n.saturated.RoundsTo x := by
  rw [numeric_text_eq_self_iff]
  constructor
  · intro kept n spelled x rounded
    obtain ⟨v, denotes⟩ := Numeral.exists_denotes_iff.mpr ⟨x, rounded⟩
    exact kept v (numeric_text_number_iff.mpr ⟨n, spelled, denotes⟩)
  · intro none v same
    obtain ⟨n, spelled, denotes⟩ := numeric_text_number_iff.mp same
    obtain ⟨x, rounded⟩ := Numeral.exists_denotes_iff.mp ⟨v, denotes⟩
    exact none n spelled x rounded

/-- A text spells one numeral at most, so that one decides. -/
theorem Numeral.SpelledBy.forall_iff {n : Numeral} {text : List Char} (spelled : n.SpelledBy text)
    {p : Numeral → Prop} : (∀ m : Numeral, m.SpelledBy text → p m) ↔ p n := by
  constructor
  · intro all
    exact all n spelled
  · intro here m other
    rwa [other.unique spelled]

theorem Numeral.SpelledBy.exists_iff {n : Numeral} {text : List Char} (spelled : n.SpelledBy text)
    {p : Numeral → Prop} : (∃ m : Numeral, m.SpelledBy text ∧ p m) ↔ p n := by
  constructor
  · rintro ⟨m, other, here⟩
    rwa [other.unique spelled] at here
  · intro here
    exact ⟨n, spelled, here⟩

/-- A text whose digits can be counted in thirty-two bits counts as a number exactly if it spells a numeral whose value is
rounded to a finite double. It is the number of that value, as far as the exponent is read, and every other text stays a
text. -/
theorem numeric_text (s : String) (_short : s.utf8ByteSize < 2 ^ (31 : Nat)) :
    (∀ v, Value.numeric (.item (.text s)) = .item (.number v) ↔
      ∃ n : Numeral, n.SpelledBy s.toList ∧ n.saturated.Denotes v) ∧
    (Value.numeric (.item (.text s)) = .item (.text s) ↔
      ∀ n : Numeral, n.SpelledBy s.toList → ∀ x, ¬ n.saturated.RoundsTo x) ∧
    ∀ n : Numeral, n.SpelledBy s.toList → n.ReadInFull →
      (∀ v, Value.numeric (.item (.text s)) = .item (.number v) ↔ n.Denotes v) ∧
      (Value.numeric (.item (.text s)) = .item (.text s) ↔ ∀ x, ¬ n.RoundsTo x) := by
  refine ⟨fun v => numeric_text_number_iff, numeric_text_kept_iff, fun n spelled full => ?_⟩
  obtain ⟨written, isText⟩ := spelled.exists_writtenAs
  have same := full.ofRatio_eq isText
  constructor
  · intro v
    rw [numeric_text_number_iff, spelled.exists_iff, Numeral.denotes_saturated_iff same]
  · rw [numeric_text_kept_iff, spelled.forall_iff]
    simp only [Numeral.roundsTo_saturated_iff same]

/-- Blanks, a sign, and a point with no digit behind it. The zero keeps its sign. -/
theorem numeric_text_zero : " -0.\n".utf8ByteSize < 2 ^ (31 : Nat) ∧
    Value.numeric (.item (.text " -0.\n")) = .item (.number (.float (.finite true ⟨0, by decide⟩))) := by
  have short : " -0.\n".utf8ByteSize < 2 ^ (31 : Nat) := by decide
  have written : Numeral.WrittenAs ⟨true, ['0'], some [], none⟩ ['-', '0', '.'] :=
    .parts .minus (List.all_eq_true.mp rfl) (.point (List.forall_mem_nil _)) .none (.inl nofun)
  have spelled : Numeral.SpelledBy ⟨true, ['0'], some [], none⟩ " -0.\n".toList :=
    ⟨[' '], _, ['\n'], rfl, List.all_eq_true.mp rfl, List.all_eq_true.mp rfl, written⟩
  obtain ⟨-, -, full⟩ := numeric_text " -0.\n" short
  refine ⟨short, ((full _ spelled (.zero rfl)).1 _).mpr (Numeral.denotes_float_iff.mpr ⟨nofun, ?_⟩)⟩
  exact Numeral.roundsTo_iff.mpr ⟨Numeral.ofRatio_of_zero rfl, rfl⟩

/-! ### A long exponent -/

namespace Numeral

/-- One and `k` zeros, and an exponent that takes the digits far behind the point. -/
def tiny (k : Nat) : Numeral := ⟨false, '1' :: List.replicate k '0', none, some ⟨true, decimalDigits 655360⟩⟩

def tinyText (k : Nat) : String :=
  String.ofList ('1' :: (List.replicate k '0' ++ 'e' :: '-' :: decimalDigits 655360))

theorem writtenAs_tinyText (k : Nat) : (tiny k).WrittenAs (tinyText k).toList := by
  have digits : ∀ c ∈ '1' :: List.replicate k '0', c.isDigit :=
    List.forall_mem_cons.mpr ⟨by decide, fun _ => Sql.isDigit_of_mem_zeros⟩
  have parts := WrittenAs.parts .none digits .none
    (.mark (.inl rfl) .minus (Sql.decimalDigits_ne_nil 655360) fun _ => Sql.isDigit_of_mem_decimalDigits) (.inl nofun)
  rw [tinyText, String.toList_ofList]
  simpa [tiny] using parts

theorem digitsValue_tiny (k : Nat) : digitsValue (tiny k).digits = 10 ^ k := by
  have digits : (tiny k).digits = ['1'] ++ List.replicate k '0' := List.append_nil _
  have one : digitsValue ['1'] = 1 := rfl
  rw [digits, digitsValue_append_zeros, one, Nat.one_mul]

theorem denotes_tiny {k : Nat} (few : k ≤ 600000) :
    (tiny k).Denotes (.float (.finite false ⟨0, by decide⟩)) := by
  have digits : digitsValue (tiny k).digits < 10 ^ (k + 1) := by
    rw [digitsValue_tiny]
    exact Nat.pow_lt_pow_right (by decide) (Nat.lt_succ_self k)
  have place : (tiny k).place = -655360 := by
    have written : Json.writtenExponent (tiny k) = -(digitsValue (decimalDigits 655360) : Int) := rfl
    rw [Numeral.place, written, digitsValue_decimalDigits]
    rfl
  exact denotes_float_iff.mpr ⟨fun _ => (Option.some_ne_none _).symm, roundsTo_iff.mpr ⟨ofRatio_of_place_le digits (by omega), rfl⟩⟩

/-- The value is zero, and what is read is not, for less of the exponent is read. -/
theorem exists_denotes_saturated_tiny {k : Nat} (many : 65500 ≤ k) (few : k ≤ 65536) :
    ∃ r : Rank, r.val ≠ 0 ∧ (tiny k).saturated.Denotes (.float (.finite false r)) := by
  obtain ⟨i, read, bound⟩ : ∃ i, saturatedValue (decimalDigits 655360) = i ∧ i = 65536 := ⟨_, rfl, by decide⟩
  have place : (tiny k).saturated.place = -i := by
    have written : (tiny k).scale = -(saturatedValue (decimalDigits 655360) : Int) - ([] : List Char).length := rfl
    rw [place_saturated, written, read]
    exact Int.sub_zero _
  have numerator : (tiny k).saturated.numerator = 10 ^ k := by
    rw [Numeral.numerator, digits_saturated, digitsValue_tiny, place, Int.toNat_of_nonpos (by omega), Nat.pow_zero,
      Nat.mul_one]
  have denominator : (tiny k).saturated.denominator = 10 ^ i := by
    rw [Numeral.denominator, place, Int.neg_neg, Int.toNat_natCast]
  have power : 0 < 10 ^ i := Nat.pow_pos (by decide)
  have finite : 10 ^ k < overflow * 10 ^ i := by
    have large : 2 ^ (1 : Nat) ≤ overflow := two_pow_le_overflow (by decide)
    calc 10 ^ k ≤ 10 ^ i := Nat.pow_le_pow_right (by decide) (by omega)
      _ < 2 ^ (1 : Nat) * 10 ^ i := by omega
      _ ≤ overflow * 10 ^ i := Nat.mul_le_mul_right _ large
  obtain ⟨r, nearest, -⟩ := Binary64.exists_ofRatio power finite
  have nonzero : r.val ≠ 0 := by
    refine nearest.ne_zero power ?_
    obtain ⟨j, unit⟩ : ∃ j, j = 1074 := ⟨_, rfl⟩
    rw [← unit]
    calc 10 ^ i ≤ 10 ^ (k + 36) := Nat.pow_le_pow_right (by decide) (by omega)
      _ = 10 ^ k * 10 ^ (36 : Nat) := Nat.pow_add 10 k 36
      _ ≤ 10 ^ k * 2 ^ (120 : Nat) := Nat.mul_le_mul_left _ (by decide)
      _ ≤ 10 ^ k * 2 ^ j := Nat.mul_le_mul_left _ (Nat.pow_le_pow_right Nat.two_pos (by omega))
  refine ⟨r, nonzero, denotes_float_iff.mpr ⟨fun _ => (Option.some_ne_none _).symm, r, ?_, rfl⟩⟩
  rwa [numerator, denominator]

end Numeral

theorem utf8ByteSize_tinyText_lt {k : Nat} (few : k ≤ 65536) : (Numeral.tinyText k).utf8ByteSize < 2 ^ (31 : Nat) := by
  have digits : (decimalDigits 655360).length = 6 := by decide
  have size := Utf8.size_ofList_le ('1' :: (List.replicate k '0' ++ 'e' :: '-' :: decimalDigits 655360))
  simp only [List.length_cons, List.length_append, List.length_replicate, digits] at size
  rw [Numeral.tinyText]
  omega

/-- So the text counts as another number. -/
theorem exists_numeric_tinyText {k : Nat} (many : 65500 ≤ k) (few : k ≤ 65536) : ∃ r : Rank, r.val ≠ 0 ∧
    Value.numeric (.item (.text (Numeral.tinyText k))) = .item (.number (.float (.finite false r))) := by
  obtain ⟨r, nonzero, denotes⟩ := Numeral.exists_denotes_saturated_tiny many few
  have spelled : (Numeral.tiny k).SpelledBy (Numeral.tinyText k).toList := (Numeral.writtenAs_tinyText k).spelledBy
  exact ⟨r, nonzero, numeric_text_number_iff.mpr ⟨_, spelled, denotes⟩⟩

/-- The value of the text is zero, and it counts as some number between zero and one. -/
theorem numeric_text_misread : ∃ (n : Numeral) (s : String), n.WrittenAs s.toList ∧ s.utf8ByteSize < 2 ^ (31 : Nat) ∧
    n.Denotes (.float (.finite false ⟨0, by decide⟩)) ∧
    Value.numeric (.item (.text s)) ≠ .item (.number (.float (.finite false ⟨0, by decide⟩))) := by
  obtain ⟨k, zeros⟩ : ∃ k, k = 65500 := ⟨_, rfl⟩
  obtain ⟨r, nonzero, counts⟩ := exists_numeric_tinyText (k := k) (by omega) (by omega)
  refine ⟨_, _, Numeral.writtenAs_tinyText k, utf8ByteSize_tinyText_lt (by omega), Numeral.denotes_tiny (by omega), ?_⟩
  rw [counts]
  intro same
  obtain ⟨-, zero⟩ := Binary64.finite.inj (Number.float.inj (Scalar.number.inj (Nested.item.inj same)))
  exact nonzero (congrArg Fin.val zero)

end RowFilter
