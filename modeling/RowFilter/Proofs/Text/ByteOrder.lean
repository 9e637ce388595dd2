import Mathlib.Tactic.SplitIfs

/-!
# Texts are ordered as their bytes are

* `Text.utf8` : the bytes of a text, and `utf8_eq` : character by character;
* `encodeChar_append_lt` : a greater character has greater bytes, whatever follows either;
* `utf8_lt_utf8` : so the order of texts by their characters is the order of their bytes.
-/

namespace RowFilter.Text

def utf8 (text : String) : List UInt8 := text.toUTF8.data.toList

theorem utf8_eq (text : String) : utf8 text = text.toList.flatMap String.utf8EncodeChar := by
  have encoded : (String.ofList text.toList).toByteArray = text.toList.utf8Encode :=
    String.toByteArray_ofList
  rw [String.ofList_toList] at encoded
  rw [utf8, String.toUTF8_eq_toByteArray, encoded, List.utf8Encode, List.data_toByteArray]

section Bytes

variable {m n : Nat} (hm : m < 256) (hn : n < 256)
include hm hn

theorem byte_lt_iff : UInt8.ofNat m < UInt8.ofNat n ↔ m < n := by
  rw [UInt8.lt_iff_toNat_lt, UInt8.toNat_ofNat', UInt8.toNat_ofNat', Nat.mod_eq_of_lt hm,
    Nat.mod_eq_of_lt hn]

theorem byte_eq_iff : UInt8.ofNat m = UInt8.ofNat n ↔ m = n := by
  rw [← UInt8.toNat_inj, UInt8.toNat_ofNat', UInt8.toNat_ofNat', Nat.mod_eq_of_lt hm,
    Nat.mod_eq_of_lt hn]

end Bytes

/-- Characters of different sizes differ in the first byte already, and those of one size have their
digits to the base 64 in order. -/
theorem encodeChar_append_lt {c d : Char} (less : c < d) (r s : List UInt8) :
    String.utf8EncodeChar c ++ r < String.utf8EncodeChar d ++ s := by
  have below : c.val.toNat < d.val.toNat := less
  have valid : d.val.toNat < 0xD800 ∨ 0xDFFF < d.val.toNat ∧ d.val.toNat < 0x110000 := d.valid
  unfold String.utf8EncodeChar
  generalize c.val.toNat = v at below
  generalize d.val.toNat = w at below valid
  dsimp only
  split_ifs <;>
    simp (disch := omega) only [List.cons_append, List.nil_append, List.cons_lt_cons_iff, byte_lt_iff,
      byte_eq_iff, Nat.mod_eq_of_lt] <;>
    omega

theorem utf8_lt_utf8 {s t : String} (less : s < t) : utf8 s < utf8 t := by
  have characters : s.toList < t.toList := less
  rw [utf8_eq, utf8_eq]
  generalize s.toList = cs, t.toList = ds at characters
  induction characters with
  | @nil d ds =>
    have some : 0 < (String.utf8EncodeChar d).length := by
      rw [String.length_utf8EncodeChar]
      exact d.utf8Size_pos
    obtain ⟨b, bytes, written⟩ := List.exists_cons_of_length_pos some
    rw [List.flatMap_cons, written]
    exact List.nil_lt_cons b _
  | rel first => exact encodeChar_append_lt first _ _
  | cons _ ih => exact List.append_left_lt ih

end RowFilter.Text
