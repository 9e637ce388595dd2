import RowFilter.Proofs.Text.Restart
import RowFilter.Query.Reader

/-!
# What a query string decodes to

* `Percent.encodes_itself` : a text without marks is an encoding of itself;
* `Query.decode_undoes` : whichever way each character of a text is encoded, decoding gives the text again if it has
  no more than `Percent.maxBytes` bytes, and is refused if it has more;
* `Query.decode_around` : whatever broken escapes and ill-formed bytes stand before and behind a character that can be
  part of no escape, they are decoded as if they stood alone.
-/

namespace RowFilter

theorem Percent.encodes_itself {text : List Char} (plain : ∀ c ∈ text, c ≠ '%' ∧ c ≠ '+') :
    Encodes Spells text text := by
  induction text with
  | nil => exact .nil
  | cons c text ih =>
    obtain ⟨⟨noMark, noPlus⟩, others⟩ := List.forall_mem_cons.mp plain
    exact .cons (.itself noMark noPlus) (ih others)

namespace Query

open Percent

theorem decode_eq (text : List Char) : decode text =
    if (bytes text).length ≤ maxBytes then .ok (Utf8.decode (bytes text)) else .error .tooLong := by
  rw [decode, decode?]
  by_cases short : (bytes text).length ≤ maxBytes
  · rw [if_pos short, if_pos short]
  · rw [if_neg short, if_neg short]

/-- Decoding undoes every encoding of a text that is not too long. -/
theorem decode_undoes (s : String) {encoded : List Char} (encodes : Encodes Spells s.toList encoded) :
    decode encoded = if s.utf8ByteSize ≤ maxBytes then .ok s else .error .tooLong := by
  rw [decode_eq, bytes_of_encodes encodes, ← Utf8.size_ofList, Utf8.decode_flatMap, String.ofList_toList]

/-- Escapes with digits of either case, a copied character, a plus sign for a space and an escaped plus sign; and one
letter too many. -/
theorem decode_undoes_mixed : decode "%C3%a91+%2B".toList = .ok "é1 +" ∧
    decode (List.replicate 65537 'a') = .error .tooLong := by
  constructor
  · have accented : String.utf8EncodeChar 'é' = [0xC3, 0xA9] := by decide
    have plus : String.utf8EncodeChar '+' = [0x2B] := by decide
    have letters : "é1 +".toList = ['é', '1', ' ', '+'] := by decide
    have parts : "%C3%a91+%2B".toList =
        ['%', 'C', '3', '%', 'a', '9'] ++ (['1'] ++ (['+'] ++ (['%', '2', 'B'] ++ []))) := by decide
    have encodes : Encodes Spells "é1 +".toList "%C3%a91+%2B".toList := by
      rw [letters, parts]
      refine .cons (.escaped ?_) (.cons (.itself (by decide) (by decide)) (.cons .plus (.cons (.escaped ?_) .nil)))
      · rw [accented]
        exact .cons rfl rfl (.cons rfl rfl .nil)
      · rw [plus]
        exact .cons rfl rfl .nil
    rw [decode_undoes _ encodes]
    exact if_pos (by decide)
  · obtain ⟨k, many⟩ : ∃ k, k = 65537 := ⟨_, rfl⟩
    have plain : ∀ c ∈ List.replicate k 'a', c ≠ '%' ∧ c ≠ '+' := by
      intro c letter
      rw [List.eq_of_mem_replicate letter]
      decide
    have encodes : Encodes Spells (String.ofList (List.replicate k 'a')).toList (List.replicate k 'a') := by
      rw [String.toList_ofList]
      exact encodes_itself plain
    have size := Utf8.length_le_size_ofList (List.replicate k 'a')
    rw [List.length_replicate] at size
    have long : ¬ (String.ofList (List.replicate k 'a')).utf8ByteSize ≤ maxBytes := by
      rw [maxBytes]
      omega
    rw [← many, decode_undoes _ encodes, if_neg long]

theorem decode_eq_ok_iff {text : List Char} {r : String} :
    decode text = .ok r ↔ (bytes text).length ≤ maxBytes ∧ r = Utf8.decode (bytes text) := by
  rw [decode_eq]
  by_cases short : (bytes text).length ≤ maxBytes
  · rw [if_pos short, Except.ok.injEq, eq_comm]
    exact (and_iff_right short).symm
  · rw [if_neg short]
    exact ⟨nofun, fun accepted => absurd accepted.1 short⟩

/-- A character that is part of no escape divides an encoded text: it is decoded if the bytes of its two sides and of
the character are not too many, and then side by side. No text grows. -/
theorem decode_around (before after : List Char) {c : Char} (plain : c ∉ marks) :
    ((∃ r, decode (before ++ c :: after) = .ok r) ↔
      (bytes before).length + c.utf8Size + (bytes after).length ≤ maxBytes) ∧
    (∀ r, decode (before ++ c :: after) = .ok r → ∃ left right, decode before = .ok left ∧
      decode after = .ok right ∧ r = left ++ String.singleton c ++ right) ∧
    ∀ text r, decode text = .ok r → r.utf8ByteSize ≤ (String.ofList text).utf8ByteSize := by
  have divided := bytes_append_cons before after plain
  have length : (bytes (before ++ c :: after)).length =
      (bytes before).length + c.utf8Size + (bytes after).length := by
    rw [divided, List.length_append, List.length_append, String.length_utf8EncodeChar, Nat.add_assoc]
  refine ⟨?_, ?_, ?_⟩
  · rw [← length]
    simp only [decode_eq_ok_iff, exists_and_left, exists_eq, and_true]
  · intro r accepted
    obtain ⟨short, rfl⟩ := decode_eq_ok_iff.mp accepted
    refine ⟨_, _, decode_eq_ok_iff.mpr ⟨by omega, rfl⟩, decode_eq_ok_iff.mpr ⟨by omega, rfl⟩, ?_⟩
    rw [divided, Utf8.decode_append_encodeChar]
  · intro text r accepted
    obtain ⟨-, rfl⟩ := decode_eq_ok_iff.mp accepted
    exact size_decode_le text

/-- A sequence of bytes and an escape that break off, and behind the letter a byte that carries no sequence on. -/
theorem decode_around_broken :
    'é' ∉ marks ∧ decode ("%E2%82%4".toList ++ 'é' :: "%A9%".toList) = .ok "\uFFFD%4é\uFFFD%" := by
  have plain : 'é' ∉ marks := by decide
  obtain ⟨accepted, sides, -⟩ := decode_around "%E2%82%4".toList "%A9%".toList plain
  obtain ⟨r, decoded⟩ := accepted.mpr (by decide)
  obtain ⟨left, right, first, second, rfl⟩ := sides r decoded
  have left_eq : decode "%E2%82%4".toList = .ok "\uFFFD%4" := by rfl
  have right_eq : decode "%A9%".toList = .ok "\uFFFD%" := by rfl
  rw [left_eq, Except.ok.injEq] at first
  rw [right_eq, Except.ok.injEq] at second
  refine ⟨plain, ?_⟩
  rw [decoded, ← first, ← second]
  rfl

end Query

end RowFilter
