import RowFilter.Text.Percent
import RowFilter.Proofs.Text.Utf8

/-!
# Encoded texts are decoded to what was encoded

* `Percent.Escapes` : bytes written as escapes, with digits of either case;
* `Percent.Spells` : all the ways to write one character, and `Percent.Strict` the one that copies nothing but
  letters, digits and three marks;
* `Percent.output_spells` : a character written in any way is decoded to its bytes, whatever follows;
* `Percent.decode?_of_encodes` : so a text encoded in any way is decoded to that text, if it has not too many
  bytes.
-/

namespace RowFilter.Percent

open Text (hexValue?)

/-! ## Encodings -/

/-- Each byte as a `%` and two hexadecimal digits. -/
inductive Escapes : List UInt8 → List Char → Prop where
  | nil : Escapes [] []
  | cons {b : UInt8} {high low : Char} {bytes : List UInt8} {text : List Char}
      (first : hexValue? high = some (b.toNat / 16)) (second : hexValue? low = some (b.toNat % 16))
      (others : Escapes bytes text) : Escapes (b :: bytes) ('%' :: high :: low :: text)

/-- The ways to write a character: itself, unless it means something else, a `+` for a space, or escapes for its
bytes. -/
inductive Spells : Char → List Char → Prop where
  | itself {c : Char} (noMark : c ≠ '%') (noPlus : c ≠ '+') : Spells c [c]
  | plus : Spells ' ' ['+']
  | escaped {c : Char} {part : List Char} (escapes : Escapes (String.utf8EncodeChar c) part) :
      Spells c part

/-- The characters that even a strict encoding copies. -/
def isUnreserved (c : Char) : Bool := c.isAlphanum || c == '_' || c == '-' || c == '.'

def Strict (c : Char) (part : List Char) : Prop :=
  if isUnreserved c then part = [c] else Escapes (String.utf8EncodeChar c) part

/-- A text with each character written in one of the given ways. -/
inductive Encodes (way : Char → List Char → Prop) : List Char → List Char → Prop where
  | nil : Encodes way [] []
  | cons {c : Char} {part text encoded : List Char} (here : way c part)
      (others : Encodes way text encoded) : Encodes way (c :: text) (part ++ encoded)

theorem Encodes.imp {way way' : Char → List Char → Prop} (weaker : ∀ c part, way c part → way' c part)
    {text encoded : List Char} (h : Encodes way text encoded) : Encodes way' text encoded := by
  induction h with
  | nil => exact .nil
  | cons here _ ih => exact .cons (weaker _ _ here) ih

theorem Strict.spells {c : Char} {part : List Char} (strict : Strict c part) : Spells c part := by
  unfold Strict at strict
  split at strict
  · rename_i unreserved
    subst strict
    refine .itself ?_ ?_
    · rintro rfl
      exact absurd unreserved (by decide)
    · rintro rfl
      exact absurd unreserved (by decide)
  · exact .escaped strict

/-! ## A strict encoder -/

def escape (b : UInt8) : List Char := ['%', Nat.digitChar (b.toNat / 16), Nat.digitChar (b.toNat % 16)]

def encodeChar (c : Char) : List Char :=
  if isUnreserved c then [c] else (String.utf8EncodeChar c).flatMap escape

def encode (text : List Char) : List Char := text.flatMap encodeChar

theorem hexValue?_digitChar : ∀ n < 16, hexValue? (Nat.digitChar n) = some n := by decide

theorem escapes_escape (bytes : List UInt8) : Escapes bytes (bytes.flatMap escape) := by
  induction bytes with
  | nil => exact .nil
  | cons b bytes ih =>
    have small : b.toNat < 256 := b.toNat_lt
    exact .cons (hexValue?_digitChar _ (by omega)) (hexValue?_digitChar _ (by omega)) ih

theorem encodes_encode (text : List Char) : Encodes Strict text (encode text) := by
  induction text with
  | nil => exact .nil
  | cons c text ih =>
    refine .cons ?_ ih
    unfold Strict encodeChar
    split
    · rfl
    · exact escapes_escape _

/-! ## The letters of a strict encoding -/

theorem isAlphanum_of_hexValue? {c : Char} {value : Nat} (digit : hexValue? c = some value) :
    c.isAlphanum = true := by
  unfold hexValue? at digit
  show ((decide ('A' ≤ c ∧ c ≤ 'Z') || 'a' ≤ c && c ≤ 'z') || '0' ≤ c && c ≤ '9') = true
  simp only [Bool.or_eq_true, decide_eq_true_eq, Bool.and_eq_true]
  split_ifs at digit with number lower upper
  · exact .inr number
  · exact .inl (.inr ⟨lower.1, Char.le_trans lower.2 (by decide)⟩)
  · exact .inl (.inl ⟨upper.1, Char.le_trans upper.2 (by decide)⟩)

theorem Escapes.letters {bytes : List UInt8} {text : List Char} (escapes : Escapes bytes text) :
    ∀ c ∈ text, isUnreserved c ∨ c = '%' := by
  have unreserved {c : Char} {value : Nat} (digit : hexValue? c = some value) : isUnreserved c := by
    rw [isUnreserved, isAlphanum_of_hexValue? digit]
    rfl
  induction escapes with
  | nil => exact fun c inside => absurd inside List.not_mem_nil
  | cons first second _ ih =>
    rw [List.forall_mem_cons, List.forall_mem_cons, List.forall_mem_cons]
    exact ⟨.inr rfl, .inl (unreserved first), .inl (unreserved second), ih⟩

theorem letters_of_encodes {text encoded : List Char} (h : Encodes Strict text encoded) :
    ∀ c ∈ encoded, isUnreserved c ∨ c = '%' := by
  induction h with
  | nil => exact fun c inside => absurd inside List.not_mem_nil
  | cons here _ ih =>
    refine List.forall_mem_append.mpr ⟨?_, ih⟩
    unfold Strict at here
    split at here
    · rename_i unreserved
      subst here
      exact List.forall_mem_singleton.mpr (.inl unreserved)
    · exact here.letters

/-! ## Decoding -/

theorem output_plain (c : Char) (rest : List Char) :
    decoder.output none (c :: rest) = (plain c).2 ++ decoder.output (plain c).1 rest := rfl

theorem output_escape {first second : Char} {high low : Nat} (firstDigit : hexValue? first = some high)
    (secondDigit : hexValue? second = some low) (rest : List Char) :
    decoder.output none ('%' :: first :: second :: rest) =
      UInt8.ofNat (16 * high + low) :: decoder.output none rest := by
  have begun : continued .mark first = (some (.digit first high), []) := by
    simp only [continued, firstDigit]
  have ended : continued (.digit first high) second = (none, [UInt8.ofNat (16 * high + low)]) := by
    simp only [continued, secondDigit, Nat.mul_comm high]
  calc decoder.output none ('%' :: first :: second :: rest)
      = (continued .mark first).2 ++ decoder.output (continued .mark first).1 (second :: rest) := rfl
    _ = decoder.output (some (.digit first high)) (second :: rest) := by rw [begun, List.nil_append]
    _ = (continued (.digit first high) second).2 ++
          decoder.output (continued (.digit first high) second).1 rest := rfl
    _ = UInt8.ofNat (16 * high + low) :: decoder.output none rest := by rw [ended, List.singleton_append]

theorem output_escapes {bytes : List UInt8} {text : List Char} (escapes : Escapes bytes text)
    (rest : List Char) : decoder.output none (text ++ rest) = bytes ++ decoder.output none rest := by
  induction escapes with
  | nil => rfl
  | cons first second _ ih =>
    rw [List.cons_append, List.cons_append, List.cons_append, output_escape first second, ih, Nat.div_add_mod,
      UInt8.ofNat_toNat, List.cons_append]

theorem output_spells {c : Char} {part : List Char} (spells : Spells c part) (rest : List Char) :
    decoder.output none (part ++ rest) = String.utf8EncodeChar c ++ decoder.output none rest := by
  cases spells with
  | itself noMark noPlus =>
    rw [List.singleton_append, output_plain, plain, if_neg noMark, if_neg noPlus]
  | plus => rfl
  | escaped escapes => exact output_escapes escapes rest

theorem bytes_of_encodes {text encoded : List Char} (h : Encodes Spells text encoded) :
    bytes encoded = text.flatMap String.utf8EncodeChar := by
  rw [bytes, Transducer.run_eq_output]
  change decoder.output none encoded = _
  induction h with
  | nil => rfl
  | cons here _ ih => rw [output_spells here, ih, List.flatMap_cons]

theorem decode?_of_encodes {text encoded : List Char} (h : Encodes Spells text encoded) :
    decode? encoded =
      if (String.ofList text).utf8ByteSize ≤ maxBytes then some (String.ofList text) else none := by
  rw [decode?, bytes_of_encodes h, ← Utf8.size_ofList, Utf8.decode_flatMap]

end RowFilter.Percent
