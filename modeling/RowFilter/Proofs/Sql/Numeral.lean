import Mathlib.Data.List.TakeWhile
import Mathlib.Tactic.SplitIfs
import RowFilter.Number.Basic

/-!
# Numbers without quotes

* `isNumeral` : an optional minus sign and digits, perhaps with a point and more digits behind them;
* `isNumeral_letters` : such a text has only digits, points and minus signs in it;
* `isNumeral_integer`, `isNumeral_finite` : so are all integers and all finite doubles written.
-/

namespace RowFilter.Sql

/-- Digits, or digits, a point and digits. -/
def isUnsigned (text : List Char) : Bool :=
  !(text.takeWhile Char.isDigit).isEmpty &&
    match text.dropWhile Char.isDigit with
    | [] => true
    | '.' :: fraction => !fraction.isEmpty && fraction.all Char.isDigit
    | _ => false

def isNumeral : List Char → Bool
  | '-' :: text => isUnsigned text
  | text => isUnsigned text

theorem isUnsigned_digits {digits : List Char} (some : digits ≠ [])
    (all : ∀ c ∈ digits, c.isDigit) : isUnsigned digits := by
  rw [isUnsigned, List.takeWhile_eq_self_iff.mpr all, List.dropWhile_eq_nil_iff.mpr all]
  simpa using some

theorem isUnsigned_point {whole fraction : List Char} (someWhole : whole ≠ [])
    (someFraction : fraction ≠ []) (allWhole : ∀ c ∈ whole, c.isDigit)
    (allFraction : ∀ c ∈ fraction, c.isDigit) : isUnsigned (whole ++ '.' :: fraction) := by
  have point : Char.isDigit '.' = false := by decide
  rw [isUnsigned, List.takeWhile_append_of_pos allWhole, List.dropWhile_append_of_pos allWhole,
    List.takeWhile_cons_of_neg (by simp [point]), List.dropWhile_cons_of_neg (by simp [point])]
  simpa [someWhole, someFraction] using allFraction

theorem isNumeral_negative {text : List Char} (h : isUnsigned text) : isNumeral ('-' :: text) := h

theorem isNumeral_of_isUnsigned {text : List Char} (h : isUnsigned text) : isNumeral text := by
  unfold isNumeral
  split
  · rename_i rest
    have minus : Char.isDigit '-' = false := by decide
    rw [isUnsigned, List.takeWhile_cons_of_neg (by simp [minus])] at h
    simp at h
  · exact h

theorem isUnsigned_letters {text : List Char} (h : isUnsigned text) :
    text ≠ [] ∧ ∀ c ∈ text, c.isDigit ∨ c = '.' := by
  rw [isUnsigned, Bool.and_eq_true] at h
  obtain ⟨someDigit, rest⟩ := h
  constructor
  · rintro rfl
    simp at someDigit
  · intro c inText
    rw [← List.takeWhile_append_dropWhile (p := Char.isDigit) (l := text), List.mem_append] at inText
    rcases inText with inDigits | inRest
    · exact .inl (List.mem_takeWhile_imp inDigits)
    · split at rest
      · rename_i none
        simp [none] at inRest
      · rename_i fraction found
        rw [found, List.mem_cons] at inRest
        rw [Bool.and_eq_true, List.all_eq_true] at rest
        rcases inRest with point | inFraction
        · exact .inr point
        · exact .inl (rest.2 c inFraction)
      · simp at rest

theorem isNumeral_letters {text : List Char} (h : isNumeral text) :
    text ≠ [] ∧ ∀ c ∈ text, c.isDigit ∨ c = '.' ∨ c = '-' := by
  unfold isNumeral at h
  split at h
  · obtain ⟨-, letters⟩ := isUnsigned_letters h
    refine ⟨by simp, fun c inText => ?_⟩
    rcases List.mem_cons.mp inText with minus | inRest
    · exact .inr (.inr minus)
    · exact (letters c inRest).imp_right .inl
  · obtain ⟨some, letters⟩ := isUnsigned_letters h
    exact ⟨some, fun c inText => (letters c inText).imp_right .inl⟩

/-! ## Integers -/

theorem isDigit_of_mem_decimalDigits {n : Nat} {c : Char} (h : c ∈ decimalDigits n) : c.isDigit :=
  Nat.isDigit_of_mem_toDigits (by decide) (by decide) h

theorem isDigit_of_mem_zeros {k : Nat} {c : Char} (h : c ∈ List.replicate k '0') : c.isDigit := by
  rw [List.eq_of_mem_replicate h]
  decide

theorem decimalDigits_ne_nil (n : Nat) : decimalDigits n ≠ [] := by
  unfold decimalDigits
  rw [Nat.toDigits_eq_if (by decide)]
  split <;> simp

theorem isUnsigned_decimalDigits (n : Nat) : isUnsigned (decimalDigits n) :=
  isUnsigned_digits (decimalDigits_ne_nil n) fun _ => isDigit_of_mem_decimalDigits

theorem isNumeral_integer (i : Int64) : isNumeral (Number.int i).text.toList := by
  rw [Number.text, String.toList_ofList, integerDigits]
  split
  · exact isNumeral_negative (isUnsigned_decimalDigits _)
  · exact isNumeral_of_isUnsigned (isUnsigned_decimalDigits _)

/-! ## Doubles -/

/-- Digits followed by zeros, digits cut by a point, or zeros behind a point and then digits. -/
theorem isUnsigned_plain (d : Decimal) : isUnsigned d.plain := by
  have digits : ∀ c ∈ decimalDigits d.digits, c.isDigit := fun _ => isDigit_of_mem_decimalDigits
  have some := decimalDigits_ne_nil d.digits
  unfold Decimal.plain
  dsimp only
  split_ifs with whole few
  · refine isUnsigned_digits (by simp [some]) fun c h => ?_
    rcases List.mem_append.mp h with h | h
    · exact digits c h
    · exact isDigit_of_mem_zeros h
  · refine isUnsigned_point ?_ ?_ (fun c h => digits c (List.mem_of_mem_take h))
      (fun c h => digits c (List.mem_of_mem_drop h))
    · rw [ne_eq, List.take_eq_nil_iff]
      rintro (none | none)
      · omega
      · exact some none
    · rw [ne_eq, List.drop_eq_nil_iff]
      omega
  · change isUnsigned (['0'] ++ '.' :: _) = true
    have zero : ∀ c ∈ ['0'], c.isDigit := List.forall_mem_singleton.mpr (by decide)
    refine isUnsigned_point (by simp) (by simp [some]) zero fun c h => ?_
    rcases List.mem_append.mp h with h | h
    · exact isDigit_of_mem_zeros h
    · exact digits c h

theorem isNumeral_finite {x : Binary64} (finite : x.isFinite) : isNumeral x.text.toList := by
  cases x with
  | nan => exact absurd finite (by decide)
  | infinity negative => cases negative <;> exact absurd finite (by decide)
  | finite negative r =>
    rw [Binary64.text, signed, String.toList_ofList]
    split
    · exact isNumeral_negative (isUnsigned_plain _)
    · exact isNumeral_of_isUnsigned (isUnsigned_plain _)

end RowFilter.Sql
