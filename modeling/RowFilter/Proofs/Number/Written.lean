import RowFilter.Dialect
import RowFilter.Proofs.Finite
import RowFilter.Proofs.Number.Coercion

/-!
# Written numbers are read back

* `Numeral.ReadsAs` : the number that a numeral is taken for by a reader who expects an integer or a double;
* `Decimal.identifies_shortest` : the search for the fewest digits ends with a decimal that identifies the double;
* `Decimal.exists_writtenAs_plain` : the plain layout of a decimal is a numeral with just the value of the decimal;
* `exists_readsAs_numberLiteral` : so the literal of a finite number is bare text that is read back to that number;
* `literals_readsAs` : and so is the literal of a text that counts as a number, to the number of the text, and
  `literals_misread` : where that is not the number as written.
-/

namespace RowFilter

attribute [local instance (high)] instPowNat

open Binary64

/-! ## The shortest digits -/

namespace Decimal

theorem identifies_iff {d : Decimal} {r : Rank} :
    d.identifies r ↔ IsNearest (d.digits * 10 ^ d.exponent.toNat) (10 ^ (-d.exponent).toNat) r := by
  rw [identifies, beq_iff_eq, ofDecimal_eq, ofRatio_eq_finite_iff (Nat.pow_pos (by decide)), and_iff_right rfl]

theorem identifies_of_onGrid? {r : Rank} {exponent : Int} {d : Decimal} (found : onGrid? r exponent = some d) :
    d.identifies r := by
  unfold onGrid? at found
  dsimp only at found
  split_ifs at found
  all_goals
    obtain rfl := Option.some.inj found
    assumption

theorem identifies_zero : identifies ⟨0, 0⟩ ⟨0, by decide⟩ := by
  rw [identifies, beq_iff_eq, ofDecimal_eq, Nat.zero_mul]
  exact ofRatio_zero false Nat.one_pos

theorem identifies_exact (r : Rank) : (exact r).identifies r := by
  obtain ⟨i, unit⟩ : ∃ i : Nat, i = 1074 := ⟨_, rfl⟩
  have places : (-1074 : Int) = -i := by omega
  have power : 0 < 10 ^ i := Nat.pow_pos (by decide)
  have here : nearestRank (units r * 5 ^ i) (10 ^ i) = r := by
    apply nearestRank_eq_of_units power
    rw [← unit, Nat.mul_assoc, ← Nat.mul_pow]
  rw [identifies, beq_iff_eq, exact, ← unit, places, ofDecimal_eq, Int.toNat_neg_natCast, Nat.pow_zero, Nat.mul_one,
    Int.neg_neg, Int.toNat_natCast, ofRatio, here, ofRank, dif_pos r.isLt]

theorem identifies_shortest (r : Rank) : (shortest r).identifies r := by
  unfold shortest
  split
  · rename_i zero
    have least : r = ⟨0, by decide⟩ := Fin.ext zero
    rw [least]
    exact identifies_zero
  · cases found : (List.range gridTrials).findSome? fun i : Nat => onGrid? r (topExponent r - i) with
    | none => exact identifies_exact r
    | some d =>
      obtain ⟨i, -, onGrid⟩ := List.exists_of_findSome?_eq_some found
      exact identifies_of_onGrid? onGrid

end Decimal

/-! ## The plain layout -/

namespace Numeral

structure Equals (n : Numeral) (d : Decimal) : Prop where
  numerator : n.numerator = d.digits * 10 ^ d.exponent.toNat
  denominator : n.denominator = 10 ^ (-d.exponent).toNat

theorem equals_of_place {n : Numeral} {d : Decimal} (digits : digitsValue n.digits = d.digits)
    (place : n.place = d.exponent) : n.Equals d := by
  constructor
  · rw [numerator, digits, place]
  · rw [denominator, place]

theorem Equals.roundsTo {n : Numeral} {d : Decimal} (same : n.Equals d) {r : Rank} (identifies : d.identifies r) :
    n.RoundsTo (.finite n.negative r) := by
  refine ⟨r, ?_, rfl⟩
  rw [same.numerator, same.denominator]
  exact Decimal.identifies_iff.mp identifies

theorem writtenAs_signed (negative : Bool) {whole pointText : List Char} {fraction : Option (List Char)}
    (all : ∀ c ∈ whole, c.isDigit) (pointed : FractionText fraction pointText) (some : whole ≠ []) :
    WrittenAs ⟨negative, whole, fraction, none⟩ (signed negative (whole ++ pointText)).toList := by
  rw [signed, String.toList_ofList]
  cases negative with
  | false => simpa using WrittenAs.parts .none all pointed .none (.inl some)
  | true => simpa using WrittenAs.parts .minus all pointed .none (.inl some)

/-- A text with a point has the value of a decimal with as many places as there are digits behind the point. -/
theorem exists_writtenAs_point (negative : Bool) {whole fraction : List Char} {d : Decimal}
    (allWhole : ∀ c ∈ whole, c.isDigit) (allFraction : ∀ c ∈ fraction, c.isDigit) (some : whole ≠ [])
    (value : digitsValue (whole ++ fraction) = d.digits) (places : -(fraction.length : Int) = d.exponent) :
    ∃ n : Numeral, n.negative = negative ∧ n.WrittenAs (signed negative (whole ++ '.' :: fraction)).toList ∧
      n.Equals d := by
  refine ⟨⟨negative, whole, fraction, none⟩, rfl, writtenAs_signed negative allWhole (.point allFraction) some, ?_⟩
  apply equals_of_place
  · exact value
  · rw [← places, place]
    exact Int.zero_sub _

end Numeral

/-- The plain layout of a decimal is a numeral with the value of the decimal. -/
theorem Decimal.exists_writtenAs_plain (negative : Bool) (d : Decimal) :
    ∃ n : Numeral, n.negative = negative ∧ n.WrittenAs (signed negative d.plain).toList ∧ n.Equals d := by
  have digits : ∀ c ∈ decimalDigits d.digits, c.isDigit := fun _ => Sql.isDigit_of_mem_decimalDigits
  have some : decimalDigits d.digits ≠ [] := Sql.decimalDigits_ne_nil d.digits
  have zeros (k : Nat) : ∀ c ∈ List.replicate k '0', c.isDigit := fun _ => Sql.isDigit_of_mem_zeros
  unfold Decimal.plain
  dsimp only
  split_ifs with whole few
  · have all : ∀ c ∈ decimalDigits d.digits ++ List.replicate d.exponent.toNat '0', c.isDigit :=
      List.forall_mem_append.mpr ⟨digits, zeros _⟩
    refine ⟨⟨negative, decimalDigits d.digits ++ List.replicate d.exponent.toNat '0', none, none⟩, rfl, ?_, ?_, ?_⟩
    · have written := Numeral.writtenAs_signed negative all .none (List.append_ne_nil_of_left_ne_nil some _)
      rwa [List.append_nil] at written
    · rw [Numeral.numerator, Numeral.place_of_integer rfl rfl, Numeral.digits_of_integer rfl, digitsValue_append_zeros,
        digitsValue_decimalDigits, Int.toNat_zero, Nat.pow_zero, Nat.mul_one]
    · rw [Numeral.denominator, Numeral.place_of_integer rfl rfl, Int.toNat_of_nonpos (by omega : -d.exponent ≤ 0),
        Int.neg_zero, Int.toNat_zero]
  · generalize cut : (decimalDigits d.digits).length - (-d.exponent).toNat = k
    apply Numeral.exists_writtenAs_point negative
    · intro c inside
      exact digits c (List.mem_of_mem_take inside)
    · intro c inside
      exact digits c (List.mem_of_mem_drop inside)
    · rw [ne_eq, List.take_eq_nil_iff]
      rintro (none | none)
      · omega
      · exact some none
    · rw [List.take_append_drop, digitsValue_decimalDigits]
    · rw [List.length_drop]
      omega
  · have zero : ∀ c ∈ ['0'], c.isDigit := List.forall_mem_singleton.mpr (by decide)
    apply Numeral.exists_writtenAs_point negative zero
    · exact List.forall_mem_append.mpr ⟨zeros _, digits⟩
    · exact List.cons_ne_nil _ _
    · change digitsValue (List.replicate 1 '0' ++ _) = d.digits
      rw [digitsValue_zeros_append, digitsValue_zeros_append, digitsValue_decimalDigits]
    · rw [List.length_append, List.length_replicate]
      omega

/-! ## Literals -/

namespace Numeral

/-- The number that a numeral is taken for where an integer or a double is expected. -/
inductive ReadsAs (n : Numeral) : Number → Prop where
  | int {i : Int64} (integer : n.integer? = some i.toInt) : ReadsAs n (.int i)
  | float {x : Binary64} (rounded : n.RoundsTo x) : ReadsAs n (.float x)

theorem Denotes.readsAs {n : Numeral} {v : Number} (denotes : n.Denotes v) : n.ReadsAs v := by
  cases denotes with
  | int integer => exact .int integer
  | float _ nearest => exact .float ⟨_, nearest, rfl⟩

end Numeral

theorem ofList_integerDigits (i : Int) :
    String.ofList (integerDigits i) = signed (decide (i < 0)) (decimalDigits i.natAbs) := by
  simp only [integerDigits, signed, decide_eq_true_eq]

theorem exists_readsAs_int (i : Int64) : ∃ n : Numeral, n.WrittenAs (Number.int i).text.toList ∧ n.ReadsAs (.int i) := by
  refine ⟨⟨decide (i.toInt < 0), decimalDigits i.toInt.natAbs, none, none⟩, ?_, .int ?_⟩
  · have written := Numeral.writtenAs_signed (decide (i.toInt < 0)) (fun _ => Sql.isDigit_of_mem_decimalDigits) .none
      (Sql.decimalDigits_ne_nil i.toInt.natAbs)
    rwa [List.append_nil, ← ofList_integerDigits] at written
  · rw [Numeral.integer?]
    simp only [Option.isNone_none, Bool.and_self, if_true, digitsValue_decimalDigits, decide_eq_true_eq]
    congr 1
    split <;> omega

/-- The text of a finite double is a numeral that is rounded to just that double. -/
theorem exists_readsAs_float {x : Binary64} (finite : x.isFinite) :
    ∃ n : Numeral, n.WrittenAs x.text.toList ∧ n.ReadsAs (.float x) := by
  cases x with
  | nan => cases finite
  | infinity => cases finite
  | finite negative r =>
    obtain ⟨n, rfl, written, same⟩ := (Decimal.shortest r).exists_writtenAs_plain negative
    exact ⟨n, written, .float (same.roundsTo (Decimal.identifies_shortest r))⟩

/-- The literal of a finite number is bare text, and it is read back to that number. -/
theorem exists_readsAs_numberLiteral {v : Number} (finite : v.isFinite) : ∃ n : Numeral,
    Sql.isNumeral (Dialect.numberLiteral v).toList ∧ n.WrittenAs (Dialect.numberLiteral v).toList ∧ n.ReadsAs v := by
  cases v with
  | int i =>
    obtain ⟨n, written, reads⟩ := exists_readsAs_int i
    exact ⟨n, Sql.isNumeral_integer i, written, reads⟩
  | float x =>
    obtain ⟨n, written, reads⟩ := exists_readsAs_float finite
    have literal : Dialect.numberLiteral (.float x) = x.text := if_pos finite
    rw [literal]
    exact ⟨n, Sql.isNumeral_finite finite, written, reads⟩

section Shipped

variable {d : Dialect} (shipped : d = .ansi ∨ d = .mysql)
include shipped

theorem literals_number (v : Number) : d.literals (.item (.number v)) = Dialect.numberLiteral v := by
  rcases shipped with rfl | rfl <;> rfl

/-- Numbers in SQL are the numbers that were given. The literal of every finite number is bare text, and the number that
it is read as is the number itself; if that was spelled by a text, then it is the number of the value of the text, as
far as the exponent is read. -/
theorem literals_readsAs :
    (∀ v : Number, v.isFinite → ∃ m : Numeral, Sql.isNumeral (d.literals (.item (.number v))).toList ∧
      m.WrittenAs (d.literals (.item (.number v))).toList ∧ m.ReadsAs v) ∧
    ∀ (s : String) (v : Number), Value.numeric (.item (.text s)) = .item (.number v) →
      ∃ m n : Numeral, Sql.isNumeral (d.literals (Value.numeric (.item (.text s)))).toList ∧
        m.WrittenAs (d.literals (Value.numeric (.item (.text s)))).toList ∧ m.ReadsAs v ∧
        n.SpelledBy s.toList ∧ n.saturated.ReadsAs v ∧ (n.ReadInFull → n.ReadsAs v) := by
  have back (v : Number) (finite : v.isFinite) : ∃ m : Numeral,
      Sql.isNumeral (d.literals (.item (.number v))).toList ∧
      m.WrittenAs (d.literals (.item (.number v))).toList ∧ m.ReadsAs v := by
    rw [literals_number shipped]
    exact exists_readsAs_numberLiteral finite
  refine ⟨back, fun s v counts => ?_⟩
  have spelled : Scalar.numberSpelled? s = some v := numeric_text_eq_iff.mp counts
  obtain ⟨m, bare, written, reads⟩ := back v (Scalar.isFinite_of_numberSpelled? spelled)
  obtain ⟨n, isText, denotes⟩ := numeric_text_number_iff.mp counts
  obtain ⟨_, isNumeral⟩ := isText.exists_writtenAs
  rw [counts]
  exact ⟨m, n, bare, written, reads, isText, denotes.readsAs,
    fun full => ((Numeral.denotes_saturated_iff (full.ofRatio_eq isNumeral)).mp denotes).readsAs⟩

end Shipped

/-- A zero with a sign, and an integer with one, zeros in front and a blank. -/
theorem literals_readsAs_signed :
    (∃ m : Numeral,
      m.WrittenAs (Dialect.mysql.literals (.item (.number (.float (.finite true ⟨0, by decide⟩))))).toList ∧
      m.ReadsAs (.float (.finite true ⟨0, by decide⟩))) ∧
    ∃ m : Numeral, m.WrittenAs (Dialect.ansi.literals (Value.numeric (.item (.text " +007")))).toList ∧
      m.ReadsAs (.int 7) := by
  have counts : Value.numeric (.item (.text " +007")) = .item (.number (.int 7)) := numeric_text_eq_iff.mpr (by decide)
  obtain ⟨m, -, zeroWritten, zeroReads⟩ := (literals_readsAs (.inr rfl)).1 (.float (.finite true ⟨0, by decide⟩)) rfl
  obtain ⟨n, -, -, written, reads, -⟩ := (literals_readsAs (.inl rfl)).2 " +007" (.int 7) counts
  exact ⟨⟨m, zeroWritten, zeroReads⟩, n, written, reads⟩

/-- Where an exponent is not read in full, the literal is not the number as written: the text is zero, and the literal
is read as some number between zero and one. -/
theorem literals_misread : ∃ (m n : Numeral) (s : String) (x y : Binary64), s.utf8ByteSize < 2 ^ (31 : Nat) ∧
    n.WrittenAs s.toList ∧ n.RoundsTo y ∧ Value.numeric (.item (.text s)) = .item (.number (.float x)) ∧
    m.WrittenAs (Dialect.ansi.literals (Value.numeric (.item (.text s)))).toList ∧ m.RoundsTo x ∧ x ≠ y := by
  obtain ⟨k, zeros⟩ : ∃ k, k = 65500 := ⟨_, rfl⟩
  obtain ⟨r, nonzero, counts⟩ := exists_numeric_tinyText (k := k) (by omega) (by omega)
  obtain ⟨-, zero⟩ := Numeral.denotes_float_iff.mp (Numeral.denotes_tiny (k := k) (by omega))
  obtain ⟨m, -, written, ⟨⟩ | ⟨rounded⟩⟩ := exists_readsAs_numberLiteral (v := .float (.finite false r)) rfl
  refine ⟨m, _, _, _, _, utf8ByteSize_tinyText_lt (by omega), Numeral.writtenAs_tinyText k, zero, counts, ?_, rounded,
    ?_⟩
  · rwa [counts, literals_number (.inl rfl)]
  · intro same
    exact nonzero (congrArg Fin.val (finite.inj same).2)

end RowFilter
