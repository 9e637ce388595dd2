import RowFilter.Json.Token
import RowFilter.Proofs.Text.Percent

/-!
# The text literals of JSON

* `CharText` : all the ways to write a character in a literal: itself, a short escape, or its UTF-16 units in
  hexadecimal digits;
* `scanText?_charText`, `scanText?_append` : characters written in any way are read, whatever follows;
* `encodes_of_scanText?` : and only such characters are.
-/

namespace RowFilter.Json

open Percent (Encodes)
open Text (hexValue?)

/-! ## Ways to write a character -/

/-- The letters that stand for a character behind a backslash. -/
inductive ShortEscape : Char → Char → Prop where
  | quote : ShortEscape '"' '"'
  | backslash : ShortEscape '\\' '\\'
  | slash : ShortEscape '/' '/'
  | backspace : ShortEscape 'b' '\x08'
  | formFeed : ShortEscape 'f' '\x0c'
  | lineFeed : ShortEscape 'n' '\n'
  | carriageReturn : ShortEscape 'r' '\r'
  | tab : ShortEscape 't' '\t'

/-- A UTF-16 unit as four hexadecimal digits of either case. -/
inductive UnitText (unit : Nat) : List Char → Prop where
  | digits {a b c d : Char} (first : hexValue? a = some (unit / 4096))
      (second : hexValue? b = some (unit / 256 % 16)) (third : hexValue? c = some (unit / 16 % 16))
      (fourth : hexValue? d = some (unit % 16)) : UnitText unit ['\\', 'u', a, b, c, d]

def highSurrogate (c : Char) : Nat := 0xD800 + (c.toNat - 0x10000) / 0x400

def lowSurrogate (c : Char) : Nat := 0xDC00 + (c.toNat - 0x10000) % 0x400

inductive CharText (c : Char) : List Char → Prop where
  | raw (noControl : 0x20 ≤ c.toNat) (noQuote : c ≠ '"') (noBackslash : c ≠ '\\') : CharText c [c]
  | short {letter : Char} (escape : ShortEscape letter c) : CharText c ['\\', letter]
  | unit {part : List Char} (small : c.toNat < 0x10000) (here : UnitText c.toNat part) : CharText c part
  | pair {first second : List Char} (large : 0x10000 ≤ c.toNat) (high : UnitText (highSurrogate c) first)
      (low : UnitText (lowSurrogate c) second) : CharText c (first ++ second)

/-! ## Escapes -/

theorem unescape?_eq_some_iff {letter c : Char} : unescape? letter = some c ↔ ShortEscape letter c := by
  constructor
  · intro found
    unfold unescape? at found
    split at found <;> cases found <;> constructor
  · intro escape
    cases escape <;> rfl

theorem hexValue?_lt {c : Char} {value : Nat} (digit : hexValue? c = some value) : value < 16 := by
  unfold hexValue? at digit
  split_ifs at digit with number lower upper
  · have last : c.toNat ≤ 57 := number.2
    obtain rfl := Option.some.inj digit
    rw [show '0'.toNat = 48 from rfl]
    omega
  · have last : c.toNat ≤ 102 := lower.2
    obtain rfl := Option.some.inj digit
    rw [show 'a'.toNat = 97 from rfl]
    omega
  · have last : c.toNat ≤ 70 := upper.2
    obtain rfl := Option.some.inj digit
    rw [show 'A'.toNat = 65 from rfl]
    omega

theorem unit?_eq_some_iff {a b c d : Char} {unit : Nat} :
    unit? a b c d = some unit ↔ UnitText unit ['\\', 'u', a, b, c, d] := by
  constructor
  · intro found
    simp only [unit?, Option.bind_eq_bind, Option.bind_eq_some_iff, Option.pure_def, Option.some.injEq] at found
    obtain ⟨p, first, q, second, r, third, s, fourth, rfl⟩ := found
    have small := And.intro (hexValue?_lt second) (And.intro (hexValue?_lt third) (hexValue?_lt fourth))
    refine .digits ?_ ?_ ?_ ?_
    · rw [first]
      exact congrArg some (by omega)
    · rw [second]
      exact congrArg some (by omega)
    · rw [third]
      exact congrArg some (by omega)
    · rw [fourth]
      exact congrArg some (by omega)
  · rintro ⟨first, second, third, fourth⟩
    rw [unit?, first, second, third, fourth]
    exact congrArg some (by omega)

/-! ## Surrogates -/

theorem valid_char (c : Char) : c.toNat < 0xD800 ∨ 0xDFFF < c.toNat ∧ c.toNat < 0x110000 := c.valid

/-- A surrogate pair stands for the one character that it is written for. -/
theorem paired_surrogates {c : Char} (large : 0x10000 ≤ c.toNat) :
    isHighSurrogate (highSurrogate c) = true ∧ isLowSurrogate (lowSurrogate c) = true ∧
      paired (highSurrogate c) (lowSurrogate c) = c := by
  have valid := valid_char c
  rw [isHighSurrogate, isLowSurrogate, highSurrogate, lowSurrogate, paired]
  refine ⟨by simp; omega, by simp; omega, ?_⟩
  rw [show 0x10000 + (0xD800 + (c.toNat - 0x10000) / 0x400 - 0xD800) * 0x400 +
    (0xDC00 + (c.toNat - 0x10000) % 0x400 - 0xDC00) = c.toNat by omega]
  exact Char.ofNat_toNat c

theorem surrogates_paired {high low : Nat} (isHigh : isHighSurrogate high = true)
    (isLow : isLowSurrogate low = true) : 0x10000 ≤ (paired high low).toNat ∧
      highSurrogate (paired high low) = high ∧ lowSurrogate (paired high low) = low := by
  simp only [isHighSurrogate, isLowSurrogate, Bool.and_eq_true, decide_eq_true_eq] at isHigh isLow
  have code : (paired high low).toNat = 0x10000 + (high - 0xD800) * 0x400 + (low - 0xDC00) :=
    Utf8.toNat_ofNat (.inr ⟨by omega, by omega⟩)
  rw [highSurrogate, lowSurrogate, code]
  omega

/-! ## Literals are read -/

theorem scanText?_charText {c : Char} {part : List Char} (written : CharText c part) (done rest : List Char) :
    scanText? done (part ++ rest) = scanText? (c :: done) rest := by
  have valid := valid_char c
  cases written with
  | raw noControl noQuote noBackslash =>
    rw [List.singleton_append, scanText?, if_neg noQuote, if_neg (Nat.not_lt.mpr noControl)]
    · exact fun _ _ _ _ _ backslash _ => noBackslash backslash
    · exact fun _ _ backslash _ => noBackslash backslash
  | @short letter escape =>
    rw [List.cons_append, List.singleton_append, scanText?, unescape?_eq_some_iff.mpr escape]
    rintro _ _ _ _ _ rfl _
    cases escape
  | unit small here =>
    cases here with
    | digits first second third fourth =>
      have noHigh : ¬ isHighSurrogate c.toNat = true := by
        simp only [isHighSurrogate, Bool.and_eq_true, decide_eq_true_eq]
        omega
      have noLow : ¬ isLowSurrogate c.toNat = true := by
        simp only [isLowSurrogate, Bool.and_eq_true, decide_eq_true_eq]
        omega
      simp only [List.cons_append, List.nil_append]
      rw [scanText?, unit?_eq_some_iff.mpr (.digits first second third fourth)]
      dsimp only
      rw [if_neg noHigh, if_neg noLow, Char.ofNat_toNat]
  | pair large high low =>
    obtain ⟨isHigh, isLow, itself⟩ := paired_surrogates large
    cases high with
    | digits first second third fourth =>
      cases low with
      | digits fifth sixth seventh eighth =>
        simp only [List.cons_append, List.nil_append]
        rw [scanText?, unit?_eq_some_iff.mpr (.digits first second third fourth)]
        dsimp only
        simp only [isHigh, if_true, unit?_eq_some_iff.mpr (.digits fifth sixth seventh eighth)]
        rw [if_pos isLow, itself]

theorem scanText?_append {chars body : List Char} (written : Encodes CharText chars body)
    (done rest : List Char) :
    scanText? done (body ++ '"' :: rest) = some (String.ofList (done.reverse ++ chars), rest) := by
  induction written generalizing done with
  | nil => simp [scanText?]
  | @cons c part chars body here _ ih =>
    rw [List.append_assoc, scanText?_charText here, ih, List.reverse_cons, List.append_assoc,
      List.singleton_append]

/-! ## Only literals are read -/

theorem charText_of_unit {a b c d : Char} {unit : Nat} (spelled : unit? a b c d = some unit)
    (noHigh : ¬ isHighSurrogate unit = true) (noLow : ¬ isLowSurrogate unit = true) :
    CharText (Char.ofNat unit) ['\\', 'u', a, b, c, d] := by
  have here := unit?_eq_some_iff.mp spelled
  have small : unit < 0x10000 := by
    cases here with
    | digits first _ _ _ =>
      have := hexValue?_lt first
      omega
  simp only [isHighSurrogate, isLowSurrogate, Bool.and_eq_true, decide_eq_true_eq] at noHigh noLow
  have code : (Char.ofNat unit).toNat = unit := Utf8.toNat_ofNat (by unfold Nat.isValidChar; omega)
  exact .unit (by rwa [code]) (by rwa [code])

theorem charText_of_pair {a b c d e f g h : Char} {high low : Nat} (first : unit? a b c d = some high)
    (second : unit? e f g h = some low) (isHigh : isHighSurrogate high = true)
    (isLow : isLowSurrogate low = true) :
    CharText (paired high low) (['\\', 'u', a, b, c, d] ++ ['\\', 'u', e, f, g, h]) := by
  obtain ⟨large, isFirst, isSecond⟩ := surrogates_paired isHigh isLow
  refine .pair large ?_ ?_
  · rw [isFirst]
    exact unit?_eq_some_iff.mp first
  · rw [isSecond]
    exact unit?_eq_some_iff.mp second

theorem exists_encodes_cons {c : Char} {part done after rest : List Char} {s : String} (here : CharText c part)
    (others : ∃ chars body, Encodes CharText chars body ∧ after = body ++ '"' :: rest ∧
      s = String.ofList ((c :: done).reverse ++ chars)) :
    ∃ chars body, Encodes CharText chars body ∧ part ++ after = body ++ '"' :: rest ∧
      s = String.ofList (done.reverse ++ chars) := by
  obtain ⟨chars, body, written, rfl, rfl⟩ := others
  refine ⟨c :: chars, part ++ body, .cons here written, (List.append_assoc part body _).symm, ?_⟩
  rw [List.reverse_cons, List.append_assoc, List.singleton_append]

/-- What is read up to a quote is characters written in these ways. -/
theorem encodes_of_scanText? {done text rest : List Char} {s : String}
    (scanned : scanText? done text = some (s, rest)) : ∃ chars body, Encodes CharText chars body ∧
      text = body ++ '"' :: rest ∧ s = String.ofList (done.reverse ++ chars) := by
  fun_induction scanText? done text with
  | case3 _ _ _ _ _ _ first isHigh _ _ _ _ _ _ second isLow ih =>
    exact exists_encodes_cons (charText_of_pair first second isHigh isLow) (ih scanned)
  | case7 _ _ _ _ _ _ _ spelled noHigh noLow ih =>
    exact exists_encodes_cons (charText_of_unit spelled noHigh noLow) (ih scanned)
  | case9 _ _ _ _ _ escape ih =>
    exact exists_encodes_cons (.short (unescape?_eq_some_iff.mp escape)) (ih scanned)
  | case10 done _ _ _ =>
    obtain ⟨rfl, rfl⟩ := Prod.mk.inj (Option.some.inj scanned)
    exact ⟨[], [], .nil, rfl, by rw [List.append_nil]⟩
  | case12 done c after _ noEscape noQuote printable ih =>
    have noBackslash : c ≠ '\\' := by
      intro backslash
      cases after with
      | nil => simp [scanText?] at scanned
      | cons letter after => exact noEscape letter after backslash rfl
    exact exists_encodes_cons (.raw (Nat.not_lt.mp printable) noQuote noBackslash) (ih scanned)
  | _ => cases scanned

end RowFilter.Json
