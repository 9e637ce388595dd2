import RowFilter.Text.Utf8
import Mathlib.Tactic.SplitIfs

/-!
# Well-formed bytes are decoded to their characters

* `Transducer.output` : what a machine writes from a state, symbol by symbol, and `Transducer.run_eq_output` :
  one pass with an accumulator comes to the same;
* `Utf8.output_one`, `output_two`, `output_three`, `output_four` : how a well-formed sequence of bytes begins;
* `Utf8.output_inner`, `Utf8.output_last` : and how it goes on and ends;
* `Utf8.output_encodeChar` : the bytes of a character are read as that character, whatever follows;
* `Utf8.decode_flatMap` : so the bytes of a text are read as that text;
* `Utf8.size_ofList` : how many bytes a text has: from one to four a character (`Utf8.length_le_size_ofList`,
  `Utf8.size_ofList_le`).
-/

namespace RowFilter

/-! ## Machines -/

namespace Transducer

variable {σ α β : Type}

def output (t : Transducer σ α β) (s : σ) : List α → List β
  | [] => t.finish s
  | x :: rest => (t.step s x).2 ++ t.output (t.step s x).1 rest

theorem run_eq_output (t : Transducer σ α β) (input : List α) : t.run input = t.output t.start input := by
  have collected : ∀ (input : List α) (s : σ) (done : List β),
      let ended := input.foldl t.advance (s, done)
      ((t.finish ended.1).reverse ++ ended.2).reverse = done.reverse ++ t.output s input := by
    intro input
    induction input with
    | nil =>
      intro s done
      simp [output]
    | cons x rest ih =>
      intro s done
      have moved := ih (t.step s x).1 ((t.step s x).2.reverse ++ done)
      rw [List.reverse_append, List.reverse_reverse, List.append_assoc] at moved
      exact moved
  exact collected input t.start []

end Transducer

/-! ## The bytes of a character -/

namespace Utf8

theorem toNat_ofNat {code : Nat} (valid : code.isValidChar) : (Char.ofNat code).toNat = code := by
  rw [Char.ofNat, dif_pos valid]
  rfl

theorem output_lead (b : UInt8) (rest : List UInt8) :
    decoder.output none (b :: rest) = (lead b.toNat).2 ++ decoder.output (lead b.toNat).1 rest := rfl

theorem output_continued (p : Pending) (b : UInt8) (rest : List UInt8) :
    decoder.output (some p) (b :: rest) =
      (continued p b.toNat).2 ++ decoder.output (continued p b.toNat).1 rest := rfl

section Continued

variable {b : UInt8} {code missing low high : Nat}

theorem output_last (above : low ≤ b.toNat) (below : b.toNat ≤ high) (rest : List UInt8) :
    decoder.output (some ⟨code, 1, low, high⟩) (b :: rest) =
      Char.ofNat (code * 64 + (b.toNat - 0x80)) :: decoder.output none rest := by
  rw [output_continued, continued, if_pos ⟨above, below⟩, if_pos rfl]
  rfl

theorem output_inner (more : missing ≠ 1) (above : low ≤ b.toNat) (below : b.toNat ≤ high)
    (rest : List UInt8) :
    decoder.output (some ⟨code, missing, low, high⟩) (b :: rest) =
      decoder.output (some ⟨code * 64 + (b.toNat - 0x80), missing - 1, 0x80, 0xBF⟩) rest := by
  rw [output_continued, continued, if_pos ⟨above, below⟩, if_neg more]
  rfl

end Continued

theorem output_one {b : UInt8} (ascii : b.toNat < 0x80) (rest : List UInt8) :
    decoder.output none (b :: rest) = Char.ofNat b.toNat :: decoder.output none rest := by
  rw [output_lead, lead, if_pos ascii]
  rfl

theorem output_two {b x : UInt8} (start : 0xC2 ≤ b.toNat) (upTo : b.toNat < 0xE0) (low : 0x80 ≤ x.toNat)
    (high : x.toNat ≤ 0xBF) (rest : List UInt8) :
    decoder.output none (b :: x :: rest) =
      Char.ofNat ((b.toNat - 0xC0) * 64 + (x.toNat - 0x80)) :: decoder.output none rest := by
  rw [output_lead, lead, if_neg (by omega), if_neg (by omega), if_pos upTo]
  exact output_last low high rest

/-- The first two bytes of three. After E0 the second may not be small, and after ED not large, or the bytes
would spell a shorter sequence's number or a surrogate. -/
theorem output_three {b x : UInt8} (start : 0xE0 ≤ b.toNat) (upTo : b.toNat < 0xF0) (low : 0x80 ≤ x.toNat)
    (high : x.toNat ≤ 0xBF) (notShort : b.toNat = 0xE0 → 0xA0 ≤ x.toNat)
    (noSurrogate : b.toNat = 0xED → x.toNat ≤ 0x9F) (rest : List UInt8) :
    decoder.output none (b :: x :: rest) =
      decoder.output (some ⟨(b.toNat - 0xE0) * 64 + (x.toNat - 0x80), 1, 0x80, 0xBF⟩) rest := by
  rw [output_lead, lead, if_neg (by omega), if_neg (by omega), if_neg (by omega)]
  by_cases first : b.toNat = 0xE0
  · rw [if_pos first]
    exact output_inner (by simp) (notShort first) high rest
  · rw [if_neg first]
    by_cases surrogates : b.toNat = 0xED
    · rw [if_pos surrogates]
      exact output_inner (by simp) low (noSurrogate surrogates) rest
    · rw [if_neg surrogates, if_pos upTo]
      exact output_inner (by simp) low high rest

/-- The first two bytes of four. After F0 the second may not be small, and after F4 not large, or the bytes
would spell a shorter sequence's number or one past the last code point. -/
theorem output_four {b x : UInt8} (start : 0xF0 ≤ b.toNat) (upTo : b.toNat ≤ 0xF4) (low : 0x80 ≤ x.toNat)
    (high : x.toNat ≤ 0xBF) (notShort : b.toNat = 0xF0 → 0x90 ≤ x.toNat)
    (notPast : b.toNat = 0xF4 → x.toNat ≤ 0x8F) (rest : List UInt8) :
    decoder.output none (b :: x :: rest) =
      decoder.output (some ⟨(b.toNat - 0xF0) * 64 + (x.toNat - 0x80), 2, 0x80, 0xBF⟩) rest := by
  rw [output_lead, lead, if_neg (by omega), if_neg (by omega), if_neg (by omega), if_neg (by omega),
    if_neg (by omega), if_neg (by omega)]
  by_cases first : b.toNat = 0xF0
  · rw [if_pos first]
    exact output_inner (by simp) (notShort first) high rest
  · rw [if_neg first]
    by_cases last : b.toNat = 0xF4
    · rw [if_neg (by omega), if_pos last]
      exact output_inner (by simp) low (notPast last) rest
    · rw [if_pos (by omega)]
      exact output_inner (by simp) low high rest

theorem output_encodeChar (c : Char) (rest : List UInt8) :
    decoder.output none (String.utf8EncodeChar c ++ rest) = c :: decoder.output none rest := by
  have byte {n : Nat} (small : n < 256) : (UInt8.ofNat n).toNat = n := by
    rw [UInt8.toNat_ofNat', Nat.mod_eq_of_lt small]
  have itself : Char.ofNat c.val.toNat = c := Char.ofNat_toNat c
  have valid : c.val.toNat < 0xD800 ∨ 0xDFFF < c.val.toNat ∧ c.val.toNat < 0x110000 := c.valid
  unfold String.utf8EncodeChar
  generalize c.val.toNat = v at itself valid
  -- one case for each number of bytes; in each the bytes spell the code point again
  dsimp only
  split_ifs with one two three
  · have b := byte (n := v) (by omega)
    rw [List.singleton_append, output_one (by omega), b, itself]
  · have b := byte (n := v / 64 % 32 + 192) (by omega)
    have x := byte (n := v % 64 + 128) (by omega)
    have code : (v / 64 % 32 + 192 - 0xC0) * 64 + (v % 64 + 128 - 0x80) = v := by omega
    rw [List.cons_append, List.singleton_append, output_two (by omega) (by omega) (by omega) (by omega),
      b, x, code, itself]
  · have b := byte (n := v / 4096 % 16 + 224) (by omega)
    have x := byte (n := v / 64 % 64 + 128) (by omega)
    have y := byte (n := v % 64 + 128) (by omega)
    have code : ((v / 4096 % 16 + 224 - 0xE0) * 64 + (v / 64 % 64 + 128 - 0x80)) * 64 +
        (v % 64 + 128 - 0x80) = v := by omega
    rw [List.cons_append, List.cons_append, List.singleton_append,
      output_three (by omega) (by omega) (by omega) (by omega) (by omega) (by omega),
      output_last (by omega) (by omega), b, x, y, code, itself]
  · have b := byte (n := v / 262144 % 8 + 240) (by omega)
    have x := byte (n := v / 4096 % 64 + 128) (by omega)
    have y := byte (n := v / 64 % 64 + 128) (by omega)
    have z := byte (n := v % 64 + 128) (by omega)
    have code : (((v / 262144 % 8 + 240 - 0xF0) * 64 + (v / 4096 % 64 + 128 - 0x80)) * 64 +
        (v / 64 % 64 + 128 - 0x80)) * 64 + (v % 64 + 128 - 0x80) = v := by omega
    rw [List.cons_append, List.cons_append, List.cons_append, List.singleton_append,
      output_four (by omega) (by omega) (by omega) (by omega) (by omega) (by omega),
      output_inner (by simp) (by omega) (by omega), output_last (by omega) (by omega),
      b, x, y, z, code, itself]

theorem decode_flatMap (text : List Char) :
    decode (text.flatMap String.utf8EncodeChar) = String.ofList text := by
  have read : decoder.output none (text.flatMap String.utf8EncodeChar) = text := by
    induction text with
    | nil => rfl
    | cons c text ih => rw [List.flatMap_cons, output_encodeChar, ih]
  rw [decode, Transducer.run_eq_output]
  exact congrArg String.ofList read

/-! ## The size of a text -/

theorem size_ofList (text : List Char) :
    (String.ofList text).utf8ByteSize = (text.flatMap String.utf8EncodeChar).length :=
  List.size_toByteArray

theorem size_ofList_cons (c : Char) (text : List Char) :
    (String.ofList (c :: text)).utf8ByteSize = c.utf8Size + (String.ofList text).utf8ByteSize := by
  rw [size_ofList, size_ofList, List.flatMap_cons, List.length_append, String.length_utf8EncodeChar]

theorem size_ofList_le (text : List Char) : (String.ofList text).utf8ByteSize ≤ 4 * text.length := by
  induction text with
  | nil => exact Nat.le_refl 0
  | cons c text ih =>
    have here : c.utf8Size ≤ 4 := c.utf8Size_le_four
    rw [size_ofList_cons, List.length_cons]
    omega

theorem length_le_size_ofList (text : List Char) : text.length ≤ (String.ofList text).utf8ByteSize := by
  induction text with
  | nil => exact Nat.le_refl 0
  | cons c text ih =>
    have here : 0 < c.utf8Size := c.utf8Size_pos
    rw [size_ofList_cons, List.length_cons]
    omega

end Utf8

end RowFilter
