import Mathlib.Data.List.Induction
import RowFilter.Proofs.Number.Numeral
import RowFilter.Value.Basic

/-!
# The number that a text spells

* `Numeral.SpelledBy` : the texts of a numeral, with blanks around them, and `Numeral.spelledBy_iff` : these are
  recognised, and no others;
* `numberSpelled?_of_spelledBy` : so such a text spells the number of that numeral;
* `saturatedValue_eq`, `saturatedValue_le` : a written exponent is read as it stands if it lies below ten times
  `exponentSaturation`, and as no more than a tenth of it otherwise.
-/

namespace RowFilter

attribute [local instance (high)] instPowNat

/-! ## Texts between blanks -/

section Strip

variable {kind : Char → Bool}

theorem dropWhile_append_of_head {before text : List Char} (all : ∀ c ∈ before, kind c)
    (stops : ∀ c ∈ text.head?, kind c = false) : (before ++ text).dropWhile kind = text := by
  rw [List.dropWhile_append_of_pos all]
  cases text with
  | nil => rfl
  | cons c text => rw [List.dropWhile_cons_of_neg (by simpa using stops c rfl)]

theorem strip_append {before text after : List Char} (allBefore : ∀ c ∈ before, kind c)
    (allAfter : ∀ c ∈ after, kind c) (plain : ∀ c ∈ text, kind c = false) (nonempty : text ≠ []) :
    Text.strip kind (before ++ (text ++ after)) = text := by
  obtain ⟨c, rest, rfl⟩ := List.exists_cons_of_ne_nil nonempty
  have front : (before ++ (c :: rest ++ after)).dropWhile kind = c :: rest ++ after := by
    apply dropWhile_append_of_head allBefore
    rintro d ⟨⟩
    exact plain c List.mem_cons_self
  have back : (after.reverse ++ (c :: rest).reverse).dropWhile kind = (c :: rest).reverse := by
    apply dropWhile_append_of_head
    · intro d inside
      exact allAfter d (List.mem_reverse.mp inside)
    · intro d isLast
      exact plain d (List.mem_reverse.mp (List.mem_of_mem_head? isLast))
  rw [Text.strip, front, List.reverse_append, back, List.reverse_reverse]

theorem exists_strip (kind : Char → Bool) (text : List Char) : ∃ before after,
    text = before ++ (Text.strip kind text ++ after) ∧ (∀ c ∈ before, kind c) ∧ ∀ c ∈ after, kind c := by
  refine ⟨text.takeWhile kind, ((text.dropWhile kind).reverse.takeWhile kind).reverse, ?_, ?_, ?_⟩
  · rw [Text.strip, ← List.reverse_append, List.takeWhile_append_dropWhile, List.reverse_reverse,
      List.takeWhile_append_dropWhile]
  · exact fun c => List.mem_takeWhile_imp
  · intro c inside
    exact List.mem_takeWhile_imp (List.mem_reverse.mp inside)

end Strip

theorem not_isAsciiBlank_of_isDigit {c : Char} (digit : c.isDigit) : Text.isAsciiBlank c = false := by
  have lower : '0' ≤ c := by
    simp only [Char.isDigit, Bool.and_eq_true, decide_eq_true_eq] at digit
    exact digit.1
  have space : c ≠ ' ' := by
    rintro rfl
    exact absurd lower (by decide)
  have control : ¬ c ≤ '\r' := fun upper => absurd (Char.le_trans lower upper) (by decide)
  simp [Text.isAsciiBlank, space, control]

namespace Numeral

theorem SignText.not_isAsciiBlank {negative : Bool} {sign : List Char} (signed : SignText negative sign) :
    ∀ c ∈ sign, Text.isAsciiBlank c = false := by
  cases signed with
  | none => exact nofun
  | plus | minus => exact List.forall_mem_singleton.mpr rfl

theorem WrittenAs.not_isAsciiBlank {n : Numeral} {text : List Char} (written : n.WrittenAs text) :
    ∀ c ∈ text, Text.isAsciiBlank c = false := by
  cases written with
  | parts signed all pointed marked some =>
    intro c inText
    simp only [List.mem_append] at inText
    rcases inText with inSign | inWhole | inPoint | inMark
    · exact signed.not_isAsciiBlank c inSign
    · exact not_isAsciiBlank_of_isDigit (all c inWhole)
    · cases pointed with
      | none => cases inPoint
      | point all =>
        rcases List.mem_cons.mp inPoint with rfl | inDigits
        · decide
        · exact not_isAsciiBlank_of_isDigit (all c inDigits)
    · cases marked with
      | none => cases inMark
      | mark isMark signed nonempty all =>
        simp only [List.mem_cons, List.mem_append] at inMark
        rcases inMark with rfl | inSign | inDigits
        · rcases isMark with rfl | rfl <;> decide
        · exact signed.not_isAsciiBlank c inSign
        · exact not_isAsciiBlank_of_isDigit (all c inDigits)

theorem WrittenAs.isDigit_digits {n : Numeral} {text : List Char} (written : n.WrittenAs text) :
    ∀ c ∈ n.digits, c.isDigit := by
  cases written with
  | parts _ all pointed _ _ =>
    refine List.forall_mem_append.mpr ⟨all, ?_⟩
    cases pointed with
    | none => exact nofun
    | point all => exact all

theorem WrittenAs.isDigit_exponent {n : Numeral} {text : List Char} (written : n.WrittenAs text) :
    ∀ e ∈ n.exponent, ∀ c ∈ e.digits, c.isDigit := by
  cases written with
  | parts _ _ _ marked _ =>
    cases marked with
    | none => exact nofun
    | mark _ _ _ all =>
      rintro e ⟨⟩
      exact all

theorem WrittenAs.ne_nil {n : Numeral} {text : List Char} (written : n.WrittenAs text) : text ≠ [] := by
  rintro rfl
  have scanned : scan ([] ++ []) = some (n, []) := scan_append written nofun
  cases scanned

theorem ofText?_eq_some_iff {n : Numeral} {text : List Char} : ofText? text = some n ↔ n.WrittenAs text := by
  constructor
  · intro found
    unfold ofText? at found
    split at found
    · rename_i m scanned
      obtain rfl := Option.some.inj found
      obtain ⟨part, written, rfl⟩ := writtenAs_of_scan scanned
      rwa [List.append_nil]
    · cases found
  · intro written
    have scanned : scan (text ++ []) = some (n, []) := scan_append written nofun
    rw [List.append_nil] at scanned
    rw [ofText?, scanned]

/-- A text spells a numeral if it is written so, with any number of blanks on either side. -/
def SpelledBy (n : Numeral) (text : List Char) : Prop :=
  ∃ before written after, text = before ++ (written ++ after) ∧ (∀ c ∈ before, Text.isAsciiBlank c) ∧
    (∀ c ∈ after, Text.isAsciiBlank c) ∧ n.WrittenAs written

theorem WrittenAs.spelledBy {n : Numeral} {text : List Char} (written : n.WrittenAs text) : n.SpelledBy text :=
  ⟨[], text, [], (List.append_nil text).symm, nofun, nofun, written⟩

theorem spelledBy_iff {n : Numeral} {text : List Char} :
    n.SpelledBy text ↔ ofText? (Text.strip Text.isAsciiBlank text) = some n := by
  rw [ofText?_eq_some_iff]
  constructor
  · rintro ⟨before, written, after, rfl, allBefore, allAfter, isText⟩
    rwa [strip_append allBefore allAfter isText.not_isAsciiBlank isText.ne_nil]
  · intro written
    obtain ⟨before, after, split, allBefore, allAfter⟩ := exists_strip Text.isAsciiBlank text
    exact ⟨before, _, after, split, allBefore, allAfter, written⟩

theorem SpelledBy.unique {m n : Numeral} {text : List Char} (left : m.SpelledBy text) (right : n.SpelledBy text) :
    m = n :=
  Option.some.inj ((spelledBy_iff.mp left).symm.trans (spelledBy_iff.mp right))

theorem SpelledBy.exists_writtenAs {n : Numeral} {text : List Char} (spelled : n.SpelledBy text) :
    ∃ written, n.WrittenAs written := by
  obtain ⟨_, written, _, _, _, _, isText⟩ := spelled
  exact ⟨written, isText⟩

end Numeral

theorem numberSpelled?_eq_some_iff {t : String} {v : Number} :
    Scalar.numberSpelled? t = some v ↔ ∃ n : Numeral, n.SpelledBy t.toList ∧ Number.ofNumeral? n = some v := by
  simp only [Scalar.numberSpelled?, Option.bind_eq_some_iff, Numeral.spelledBy_iff]

theorem numberSpelled?_of_spelledBy {n : Numeral} {t : String} (spelled : n.SpelledBy t.toList) :
    Scalar.numberSpelled? t = Number.ofNumeral? n := by
  rw [Scalar.numberSpelled?, Numeral.spelledBy_iff.mp spelled]
  rfl

theorem numberSpelled?_of_writtenAs {n : Numeral} {t : String} (written : n.WrittenAs t.toList) :
    Scalar.numberSpelled? t = Number.ofNumeral? n :=
  numberSpelled?_of_spelledBy written.spelledBy

theorem numeric_text_eq_iff {t : String} {v : Number} :
    Value.numeric (.item (.text t)) = .item (.number v) ↔ Scalar.numberSpelled? t = some v := by
  rw [Value.numeric, Scalar.numeric]
  cases Scalar.numberSpelled? t with
  | none => simp
  | some w => simp

theorem numeric_text_eq_self_iff {t : String} :
    Value.numeric (.item (.text t)) = .item (.text t) ↔ ∀ v, Value.numeric (.item (.text t)) ≠ .item (.number v) := by
  rw [Value.numeric, Scalar.numeric]
  cases Scalar.numberSpelled? t with
  | none => simp
  | some w => simp

/-! ## Written exponents -/

section Saturation

theorem digitsValue_concat (digits : List Char) (c : Char) :
    digitsValue (digits ++ [c]) = 10 * digitsValue digits + (c.toNat - '0'.toNat) :=
  List.foldl_append ..

theorem saturatedValue_concat (digits : List Char) (c : Char) : saturatedValue (digits ++ [c]) =
    if saturatedValue digits < exponentSaturation then 10 * saturatedValue digits + (c.toNat - '0'.toNat)
    else saturatedValue digits :=
  List.foldl_append ..

/-- The last digit is always taken in, unless it would take the value past ten times the bound. -/
theorem saturatedValue_eq {digits : List Char} (small : digitsValue digits < 10 * exponentSaturation) :
    saturatedValue digits = digitsValue digits := by
  induction digits using List.reverseRecOn with
  | nil => rfl
  | append_singleton digits c ih =>
    rw [digitsValue_concat] at small
    have read : saturatedValue digits = digitsValue digits := ih (by omega)
    rw [saturatedValue_concat, digitsValue_concat, read, if_pos (by omega)]

theorem digit_le_nine {c : Char} (digit : c.isDigit) : c.toNat - '0'.toNat ≤ 9 := by
  have upper : c.toNat ≤ '9'.toNat := by
    simp only [Char.isDigit, Bool.and_eq_true, decide_eq_true_eq] at digit
    exact UInt32.le_iff_toNat_le.mp digit.2
  exact Nat.sub_le_sub_right upper _

theorem digitsValue_lt {digits : List Char} (all : ∀ c ∈ digits, c.isDigit) : digitsValue digits < 10 ^ digits.length := by
  induction digits using List.reverseRecOn with
  | nil => decide
  | append_singleton digits c ih =>
    have last : c.toNat - '0'.toNat ≤ 9 := digit_le_nine (all c (by simp))
    have before : digitsValue digits < 10 ^ digits.length := ih fun d inDigits => all d (by simp [inDigits])
    rw [digitsValue_concat, List.length_append, List.length_singleton, Nat.pow_succ]
    omega

/-- A larger exponent loses a digit at least. -/
theorem saturatedValue_le {digits : List Char} (all : ∀ c ∈ digits, c.isDigit)
    (large : 10 * exponentSaturation ≤ digitsValue digits) :
    exponentSaturation ≤ saturatedValue digits ∧ 10 * saturatedValue digits ≤ digitsValue digits := by
  induction digits using List.reverseRecOn with
  | nil => exact absurd large (by decide)
  | append_singleton digits c ih =>
    have last : c.toNat - '0'.toNat ≤ 9 := digit_le_nine (all c (by simp))
    rw [digitsValue_concat] at large ⊢
    rw [saturatedValue_concat]
    by_cases small : digitsValue digits < 10 * exponentSaturation
    · rw [saturatedValue_eq small, if_neg (by omega)]
      omega
    · obtain ⟨reached, tenth⟩ := ih (fun d inDigits => all d (by simp [inDigits])) (by omega)
      rw [if_neg (by omega)]
      omega

end Saturation

end RowFilter
