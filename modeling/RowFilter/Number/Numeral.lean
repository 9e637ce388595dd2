import RowFilter.Number.Binary64

/-!
# Decimal numerals

A numeral is a sign, digits with at most one point among them, and perhaps a written exponent.

* `digitsValue`, `decimalDigits`, `integerDigits` : from digits to a number and back;
* `Numeral.scan` : the longest numeral at the start of a text, and what follows it;
* `Numeral.integer?`, `Numeral.nearest` : the exact integer that a numeral without point and exponent
  spells, and the double nearest to the numeral's exact value;
* `wordSpelled?` : the unsigned machine word that a text of digits spells.
-/

namespace RowFilter

attribute [local instance (high)] instPowNat

/-- The natural number that a run of decimal digits spells. -/
def digitsValue (digits : List Char) : Nat :=
  digits.foldl (fun n c => 10 * n + (c.toNat - '0'.toNat)) 0

/-- The decimal digits of a natural number, without leading zeros. -/
def decimalDigits (n : Nat) : List Char := Nat.toDigits 10 n

def integerDigits (i : Int) : List Char :=
  if i < 0 then '-' :: decimalDigits i.natAbs else decimalDigits i.natAbs

structure WrittenExponent where
  negative : Bool
  digits : List Char
deriving DecidableEq, Repr

/-- Where a written exponent stops growing: once its digits so far reach this value, the digits after
them are passed over. Only a numeral with about as many digits of its own can tell the difference. -/
def exponentSaturation : Nat := 65536

def saturatedValue (digits : List Char) : Nat :=
  digits.foldl (fun n c => if n < exponentSaturation then 10 * n + (c.toNat - '0'.toNat) else n) 0

/-- A numeral taken apart. `fraction` holds the digits after the point and is `none` without a point. -/
structure Numeral where
  negative : Bool
  whole : List Char
  fraction : Option (List Char)
  exponent : Option WrittenExponent
deriving DecidableEq, Repr

namespace Numeral

/-- Whether a sign leads the text, which one, and the rest. A plus sign and no sign mean the same. -/
def scanSign : List Char → Bool × List Char
  | '-' :: rest => (true, rest)
  | '+' :: rest => (false, rest)
  | rest => (false, rest)

/-- The digits after a point, if a point leads the text. -/
def scanFraction : List Char → Option (List Char) × List Char
  | '.' :: rest => (some (rest.takeWhile Char.isDigit), rest.dropWhile Char.isDigit)
  | rest => (none, rest)

/-- A written exponent, if an exponent mark leads the text; a mark without digits spoils the numeral. -/
def scanExponent : List Char → Option (Option WrittenExponent × List Char)
  | [] => some (none, [])
  | c :: rest =>
    if c = 'e' ∨ c = 'E' then
      let signed := scanSign rest
      let digits := signed.2.takeWhile Char.isDigit
      if digits.isEmpty then none
      else some (some ⟨signed.1, digits⟩, signed.2.dropWhile Char.isDigit)
    else some (none, c :: rest)

/-- The longest numeral at the start of a text, and the rest of the text. A numeral has a digit before
or after its point. -/
def scan (text : List Char) : Option (Numeral × List Char) :=
  let signed := scanSign text
  let whole := signed.2.takeWhile Char.isDigit
  let pointed := scanFraction (signed.2.dropWhile Char.isDigit)
  if whole.isEmpty && (pointed.1.getD []).isEmpty then none
  else
    (scanExponent pointed.2).map fun (exponent, rest) =>
      (⟨signed.1, whole, pointed.1, exponent⟩, rest)

theorem length_scanSign_le (text : List Char) : (scanSign text).2.length ≤ text.length := by
  unfold scanSign; split <;> simp

theorem length_scanFraction_le (text : List Char) : (scanFraction text).2.length ≤ text.length := by
  unfold scanFraction
  split
  · rename_i rest
    have := (List.dropWhile_sublist Char.isDigit (l := rest)).length_le
    simp only [List.length_cons]
    omega
  · simp

theorem length_le_of_scanExponent {text rest : List Char} {e : Option WrittenExponent}
    (h : scanExponent text = some (e, rest)) : rest.length ≤ text.length := by
  unfold scanExponent at h
  split at h
  · simp_all
  · rename_i c tail
    split at h
    · simp only at h
      split at h
      · simp at h
      · simp only [Option.some.injEq, Prod.mk.injEq] at h
        have drop := (List.dropWhile_sublist Char.isDigit (l := (scanSign tail).2)).length_le
        have sign := length_scanSign_le tail
        rw [← h.2, List.length_cons]
        omega
    · simp only [Option.some.injEq, Prod.mk.injEq] at h
      exact Nat.le_of_eq (congrArg List.length h.2).symm

theorem length_add_whole_le_of_scan {text rest : List Char} {n : Numeral}
    (h : scan text = some (n, rest)) : rest.length + n.whole.length ≤ text.length := by
  unfold scan at h
  simp only at h
  split at h
  · simp at h
  · obtain ⟨⟨e, after⟩, scanned, found⟩ := Option.map_eq_some_iff.mp h
    obtain ⟨rfl, rfl⟩ := Prod.mk.inj found
    have sign := length_scanSign_le text
    have digits := congrArg List.length
      (List.takeWhile_append_dropWhile (p := Char.isDigit) (l := (scanSign text).2))
    have point := length_scanFraction_le ((scanSign text).2.dropWhile Char.isDigit)
    have mark := length_le_of_scanExponent scanned
    rw [List.length_append] at digits
    simp only at mark ⊢
    omega

def ofText? (text : List Char) : Option Numeral :=
  match scan text with
  | some (n, []) => some n
  | _ => none

def digits (n : Numeral) : List Char := n.whole ++ n.fraction.getD []

/-- The power of ten that `digits` are a multiple of. -/
def scale (n : Numeral) : Int :=
  let written : Int := match n.exponent with
    | none => 0
    | some e => if e.negative then -(saturatedValue e.digits : Int) else saturatedValue e.digits
  written - (n.fraction.getD []).length

/-- The integer spelled by a numeral that has neither a point nor an exponent. -/
def integer? (n : Numeral) : Option Int :=
  if n.fraction.isNone && n.exponent.isNone then
    some (if n.negative then -(digitsValue n.whole : Int) else digitsValue n.whole)
  else none

def nearest (n : Numeral) : Binary64 :=
  Binary64.ofDecimal n.negative (digitsValue n.digits) n.scale

end Numeral

/-! ## Machine words -/

/-- One past the largest unsigned 64-bit word. -/
def wordCount : Nat := 2 ^ (64 : Nat)

/-- The word that digits spell, leading zeros allowed, if there is a digit and the word is not too large. -/
def wordOfDigits? (digits : List Char) : Option Nat :=
  if digits.isEmpty || !digits.all Char.isDigit then none
  else if digitsValue digits < wordCount then some (digitsValue digits) else none

/-- The word that a text spells, a plus sign allowed in front. -/
def wordSpelled? : List Char → Option Nat
  | '+' :: digits => wordOfDigits? digits
  | digits => wordOfDigits? digits

end RowFilter
