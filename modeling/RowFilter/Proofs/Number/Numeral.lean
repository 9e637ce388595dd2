import Mathlib.Data.List.TakeWhile
import RowFilter.Number.Numeral

/-!
# The grammar of numerals

* `Numeral.WrittenAs` : the texts of a numeral, part by part;
* `Numeral.scan_append` : a text of a numeral is scanned to that numeral, if what follows does not carry it on;
* `Numeral.writtenAs_of_scan` : and only a text of a numeral is scanned to it;
* `digitsValue_decimalDigits`, `head?_decimalDigits_ne` : the decimal digits of a number spell it, with no zero in
  front;
* `digitsValue_append` : digits in front of others count by their place, and zeros there (`digitsValue_zeros_append`)
  do not count.
-/

namespace RowFilter

attribute [local instance (high)] instPowNat

/-! ## Decimal digits -/

theorem digitsValue_decimalDigits (n : Nat) : digitsValue (decimalDigits n) = n :=
  Nat.ofDigitChars_toDigits (by decide) (by decide)

theorem digitsValue_append (before after : List Char) :
    digitsValue (before ++ after) = digitsValue before * 10 ^ after.length + digitsValue after := by
  have shifted : digitsValue (before ++ after) = Nat.ofDigitChars 10 after (digitsValue before) :=
    Nat.ofDigitChars_append 0
  rw [shifted, Nat.ofDigitChars_eq_ofDigitChars_zero, Nat.mul_comm]
  rfl

theorem digitsValue_zeros (k : Nat) : digitsValue (List.replicate k '0') = 0 := by
  induction k with
  | zero => rfl
  | succ k ih =>
    rw [List.replicate_succ', digitsValue_append, ih]
    rfl

theorem digitsValue_append_zeros (digits : List Char) (k : Nat) :
    digitsValue (digits ++ List.replicate k '0') = digitsValue digits * 10 ^ k := by
  rw [digitsValue_append, digitsValue_zeros, List.length_replicate, Nat.add_zero]

theorem digitsValue_zeros_append (k : Nat) (digits : List Char) :
    digitsValue (List.replicate k '0' ++ digits) = digitsValue digits := by
  rw [digitsValue_append, digitsValue_zeros, Nat.zero_mul, Nat.zero_add]

theorem head?_decimalDigits_ne {n : Nat} (positive : 0 < n) : (decimalDigits n).head? ≠ some '0' := by
  induction n using Nat.strongRecOn with
  | ind n ih =>
    unfold decimalDigits at ih ⊢
    rw [Nat.toDigits_eq_if (by decide)]
    split
    · rename_i small
      have digit : ∀ m < 10, 0 < m → Nat.digitChar m ≠ '0' := by decide
      simpa using digit n small positive
    · rename_i large
      have first := ih (n / 10) (by omega) (by omega)
      rw [List.head?_append]
      cases found : (Nat.toDigits 10 (n / 10)).head? with
      | none => exact absurd (List.head?_eq_none_iff.mp found) Nat.toDigits_ne_nil
      | some d => rwa [found] at first

namespace Numeral

/-! ## Parts -/

/-- The ways to write a sign. A plus sign may be left out. -/
inductive SignText : Bool → List Char → Prop where
  | none : SignText false []
  | plus : SignText false ['+']
  | minus : SignText true ['-']

inductive FractionText : Option (List Char) → List Char → Prop where
  | none : FractionText none []
  | point {digits : List Char} (all : ∀ c ∈ digits, c.isDigit) : FractionText (some digits) ('.' :: digits)

inductive ExponentText : Option WrittenExponent → List Char → Prop where
  | none : ExponentText none []
  | mark {negative : Bool} {sign digits : List Char} {letter : Char} (isMark : letter = 'e' ∨ letter = 'E')
      (signed : SignText negative sign) (nonempty : digits ≠ []) (all : ∀ c ∈ digits, c.isDigit) :
      ExponentText (some ⟨negative, digits⟩) (letter :: (sign ++ digits))

/-- The texts of a numeral. There is a digit before or after the point. -/
inductive WrittenAs : Numeral → List Char → Prop where
  | parts {negative : Bool} {sign whole pointText markText : List Char} {fraction : Option (List Char)}
      {exponent : Option WrittenExponent} (signed : SignText negative sign)
      (all : ∀ c ∈ whole, c.isDigit) (pointed : FractionText fraction pointText)
      (marked : ExponentText exponent markText) (some : whole ≠ [] ∨ fraction.getD [] ≠ []) :
      WrittenAs ⟨negative, whole, fraction, exponent⟩ (sign ++ (whole ++ (pointText ++ markText)))

/-- What may follow a numeral without carrying it on. -/
def Stops (rest : List Char) : Prop :=
  ∀ c ∈ rest.head?, c.isDigit = false ∧ c ≠ '.' ∧ c ≠ 'e' ∧ c ≠ 'E'

/-! ## Texts of numerals are scanned -/

theorem digits_append {digits rest : List Char} (all : ∀ c ∈ digits, c.isDigit)
    (stops : ∀ c ∈ rest.head?, c.isDigit = false) :
    (digits ++ rest).takeWhile Char.isDigit = digits ∧ (digits ++ rest).dropWhile Char.isDigit = rest := by
  rw [List.takeWhile_append_of_pos all, List.dropWhile_append_of_pos all]
  cases rest with
  | nil => exact ⟨List.append_nil digits, rfl⟩
  | cons c rest =>
    have noDigit : ¬ c.isDigit = true := by simpa using stops c rfl
    rw [List.takeWhile_cons_of_neg noDigit, List.dropWhile_cons_of_neg noDigit]
    exact ⟨List.append_nil digits, rfl⟩

theorem scanSign_append {negative : Bool} {sign rest : List Char} (signed : SignText negative sign)
    (bare : ∀ c ∈ rest.head?, c ≠ '-' ∧ c ≠ '+') : scanSign (sign ++ rest) = (negative, rest) := by
  cases signed with
  | plus => rfl
  | minus => rfl
  | none =>
    rw [List.nil_append]
    unfold scanSign
    split
    · exact absurd rfl (bare '-' rfl).1
    · exact absurd rfl (bare '+' rfl).2
    · rfl

theorem scanFraction_append {fraction : Option (List Char)} {part rest : List Char}
    (pointed : FractionText fraction part) (stops : ∀ c ∈ rest.head?, c.isDigit = false ∧ c ≠ '.') :
    scanFraction (part ++ rest) = (fraction, rest) := by
  cases pointed with
  | none =>
    rw [List.nil_append]
    unfold scanFraction
    split
    · exact absurd rfl (stops '.' rfl).2
    · rfl
  | point all =>
    obtain ⟨taken, dropped⟩ := digits_append all fun c first => (stops c first).1
    rw [List.cons_append, scanFraction, taken, dropped]

theorem bare_of_isDigit {c : Char} (digit : c.isDigit) : c ≠ '-' ∧ c ≠ '+' := by
  constructor
  · rintro rfl
    exact absurd digit (by decide)
  · rintro rfl
    exact absurd digit (by decide)

theorem scanExponent_append {exponent : Option WrittenExponent} {part rest : List Char}
    (marked : ExponentText exponent part) (stops : Stops rest) :
    scanExponent (part ++ rest) = some (exponent, rest) := by
  cases marked with
  | none =>
    cases rest with
    | nil => rfl
    | cons c rest =>
      have noMark : ¬ (c = 'e' ∨ c = 'E') := not_or.mpr (stops c rfl).2.2
      rw [List.nil_append, scanExponent, if_neg noMark]
  | @mark negative sign digits letter isMark signed nonempty all =>
    have bare : ∀ c ∈ (digits ++ rest).head?, c ≠ '-' ∧ c ≠ '+' := by
      obtain ⟨d, digits, rfl⟩ := List.exists_cons_of_ne_nil nonempty
      rintro c ⟨⟩
      exact bare_of_isDigit (all d List.mem_cons_self)
    obtain ⟨taken, dropped⟩ := digits_append all fun c first => (stops c first).1
    rw [List.cons_append, List.append_assoc, scanExponent, if_pos isMark, scanSign_append signed bare]
    dsimp only
    rw [taken, dropped, if_neg (by simpa using nonempty)]

theorem head?_exponentText {exponent : Option WrittenExponent} {part rest : List Char}
    (marked : ExponentText exponent part) (stops : Stops rest) :
    ∀ c ∈ (part ++ rest).head?, c.isDigit = false ∧ c ≠ '.' := by
  cases marked with
  | none => exact fun c first => ⟨(stops c first).1, (stops c first).2.1⟩
  | mark isMark _ _ _ =>
    rintro c ⟨⟩
    rcases isMark with rfl | rfl <;> decide

theorem head?_fractionText {fraction : Option (List Char)} {part rest : List Char}
    (pointed : FractionText fraction part) (stops : ∀ c ∈ rest.head?, c.isDigit = false) :
    ∀ c ∈ (part ++ rest).head?, c.isDigit = false := by
  cases pointed with
  | none => exact stops
  | point =>
    rintro c ⟨⟩
    decide

theorem head?_digits {whole part rest : List Char} {fraction : Option (List Char)}
    (all : ∀ c ∈ whole, c.isDigit) (pointed : FractionText fraction part)
    (some : whole ≠ [] ∨ fraction.getD [] ≠ []) :
    ∀ c ∈ (whole ++ (part ++ rest)).head?, c ≠ '-' ∧ c ≠ '+' := by
  cases whole with
  | cons d whole =>
    rintro c ⟨⟩
    exact bare_of_isDigit (all d List.mem_cons_self)
  | nil =>
    cases pointed with
    | none => simp at some
    | point =>
      rintro c ⟨⟩
      decide

/-- A text of a numeral is scanned to that numeral, if what follows does not carry it on. -/
theorem scan_append {n : Numeral} {part rest : List Char} (written : n.WrittenAs part)
    (stops : Stops rest) : scan (part ++ rest) = some (n, rest) := by
  cases written with
  | @parts negative sign whole pointText markText fraction exponent signed all pointed marked some =>
    have afterPoint := head?_exponentText marked stops
    have afterWhole := head?_fractionText pointed fun c first => (afterPoint c first).1
    obtain ⟨taken, dropped⟩ := digits_append all afterWhole
    have given : ¬ (whole.isEmpty && (fraction.getD []).isEmpty) = true := by
      rw [Bool.and_eq_true, List.isEmpty_iff, List.isEmpty_iff]
      rintro ⟨noWhole, noFraction⟩
      rcases some with some | some
      · exact some noWhole
      · exact some noFraction
    rw [List.append_assoc, List.append_assoc, List.append_assoc, scan,
      scanSign_append signed (head?_digits all pointed some)]
    dsimp only
    rw [taken, dropped, scanFraction_append pointed afterPoint, if_neg given,
      scanExponent_append marked stops]
    rfl

/-! ## Only texts of numerals are scanned -/

theorem signText_scanSign (text : List Char) :
    ∃ sign, SignText (scanSign text).1 sign ∧ text = sign ++ (scanSign text).2 := by
  unfold scanSign
  split
  · exact ⟨_, .minus, rfl⟩
  · exact ⟨_, .plus, rfl⟩
  · exact ⟨_, .none, rfl⟩

theorem isDigit_of_mem_takeWhile (text : List Char) : ∀ c ∈ text.takeWhile Char.isDigit, c.isDigit :=
  fun _ => List.mem_takeWhile_imp

theorem fractionText_scanFraction (text : List Char) :
    ∃ part, FractionText (scanFraction text).1 part ∧ text = part ++ (scanFraction text).2 := by
  unfold scanFraction
  split
  · rename_i rest
    refine ⟨_, .point (isDigit_of_mem_takeWhile rest), ?_⟩
    rw [List.cons_append, List.takeWhile_append_dropWhile]
  · exact ⟨_, .none, rfl⟩

theorem exponentText_of_scanExponent {text rest : List Char} {exponent : Option WrittenExponent}
    (scanned : scanExponent text = some (exponent, rest)) :
    ∃ part, ExponentText exponent part ∧ text = part ++ rest := by
  unfold scanExponent at scanned
  split at scanned
  · obtain ⟨rfl, rfl⟩ := Prod.mk.inj (Option.some.inj scanned)
    exact ⟨_, .none, rfl⟩
  · rename_i c tail
    split at scanned
    · rename_i isMark
      dsimp only at scanned
      split at scanned
      · cases scanned
      · rename_i some
        obtain ⟨rfl, rfl⟩ := Prod.mk.inj (Option.some.inj scanned)
        obtain ⟨sign, signed, split⟩ := signText_scanSign tail
        refine ⟨_, .mark isMark signed (by simpa using some) (isDigit_of_mem_takeWhile _), ?_⟩
        rw [List.cons_append, List.append_assoc, List.takeWhile_append_dropWhile, ← split]
    · obtain ⟨rfl, rfl⟩ := Prod.mk.inj (Option.some.inj scanned)
      exact ⟨_, .none, rfl⟩

/-- Only a text of a numeral is scanned to it. -/
theorem writtenAs_of_scan {n : Numeral} {text rest : List Char} (scanned : scan text = some (n, rest)) :
    ∃ part, n.WrittenAs part ∧ text = part ++ rest := by
  unfold scan at scanned
  dsimp only at scanned
  split at scanned
  · cases scanned
  · rename_i some
    obtain ⟨⟨exponent, after⟩, exponentScanned, found⟩ := Option.map_eq_some_iff.mp scanned
    obtain ⟨rfl, rfl⟩ := Prod.mk.inj found
    obtain ⟨sign, signed, afterSign⟩ := signText_scanSign text
    obtain ⟨pointText, pointed, afterWhole⟩ :=
      fractionText_scanFraction ((scanSign text).2.dropWhile Char.isDigit)
    obtain ⟨markText, marked, afterPoint⟩ := exponentText_of_scanExponent exponentScanned
    refine ⟨_, .parts signed (isDigit_of_mem_takeWhile _) pointed marked ?_, ?_⟩
    · rwa [Bool.and_eq_true, List.isEmpty_iff, List.isEmpty_iff, not_and_or] at some
    · rw [List.append_assoc, List.append_assoc, List.append_assoc, ← afterPoint, ← afterWhole,
        List.takeWhile_append_dropWhile, ← afterSign]

end Numeral

end RowFilter
