import RowFilter.Proofs.Query.Assignment
import RowFilter.Proofs.Query.BracketKey
import RowFilter.Proofs.Query.Decoding
import RowFilter.Proofs.Text.Separator

/-!
# What a query string spells

The assignments of a query string, said with no reader in view: by the marks that stand between its pieces, and by
what escapes and brackets mean.

* `Percent.StandsFor` : the bytes that an encoded text stands for, and `Percent.standsFor_iff` : they are decoded;
* `Decodes` : the text that these bytes spell;
* `CutAt`, `BracketKey.Splits` : a piece cut at its first equals sign, and a key taken apart at its brackets;
* `PieceSpells`, `Spells` : the assignment of a piece, and those of a query string;
* `assignments_eq_ok_iff` : the assignments that are read are the ones that the query string spells.
-/

namespace RowFilter

/-! ## Escapes -/

namespace Percent

open Text (hexValue?)

/-- The digits of base sixteen and their values, with small or capital letters. -/
def HexDigit (c : Char) (value : Nat) : Prop :=
  "0123456789abcdef".toList[value]? = some c ∨ "0123456789ABCDEF".toList[value]? = some c

/-- The bytes that an encoded text stands for: those of its characters, but one byte for an escape, and a space for a
plus sign. A percent sign without two digits behind it is a character like any other. -/
inductive StandsFor : List Char → List UInt8 → Prop where
  | nil : StandsFor [] []
  | escape {first second : Char} {high low : Nat} {text : List Char} {bytes : List UInt8}
      (firstDigit : HexDigit first high) (secondDigit : HexDigit second low) (others : StandsFor text bytes) :
      StandsFor ('%' :: first :: second :: text) (UInt8.ofNat (16 * high + low) :: bytes)
  | percent {text : List Char} {bytes : List UInt8}
      (noEscape : ∀ first second rest high low, text = first :: second :: rest →
        ¬ (HexDigit first high ∧ HexDigit second low)) (others : StandsFor text bytes) :
      StandsFor ('%' :: text) (String.utf8EncodeChar '%' ++ bytes)
  | plus {text : List Char} {bytes : List UInt8} (others : StandsFor text bytes) :
      StandsFor ('+' :: text) (String.utf8EncodeChar ' ' ++ bytes)
  | itself {c : Char} {text : List Char} {bytes : List UInt8} (noMark : c ≠ '%') (noPlus : c ≠ '+')
      (others : StandsFor text bytes) : StandsFor (c :: text) (String.utf8EncodeChar c ++ bytes)

theorem hexDigit_iff_mem {c : Char} {value : Nat} :
    HexDigit c value ↔ (c, value) ∈ "0123456789abcdef".toList.zipIdx ++ "0123456789ABCDEF".toList.zipIdx := by
  rw [HexDigit, List.mem_append, List.mk_mem_zipIdx_iff_getElem?, List.mk_mem_zipIdx_iff_getElem?]

theorem hexValue?_eq_some_iff {c : Char} {value : Nat} : hexValue? c = some value ↔ HexDigit c value := by
  rw [hexDigit_iff_mem]
  constructor
  · intro digit
    have all : marks.all (fun c => (hexValue? c).all fun value =>
        decide ((c, value) ∈ "0123456789abcdef".toList.zipIdx ++ "0123456789ABCDEF".toList.zipIdx)) = true := by
      decide +kernel
    have found := List.all_eq_true.mp all c (mem_marks_of_hexValue? digit)
    rw [digit, Option.all_some] at found
    exact of_decide_eq_true found
  · have all : ∀ digit ∈ "0123456789abcdef".toList.zipIdx ++ "0123456789ABCDEF".toList.zipIdx,
        hexValue? digit.1 = some digit.2 := by decide +kernel
    exact all (c, value)

theorem plain_of_hexValue? {c : Char} {value : Nat} (digit : hexValue? c = some value) :
    plain c = (none, String.utf8EncodeChar c) := by
  have noMark : c ≠ '%' := by
    rintro rfl
    cases digit
  have noPlus : c ≠ '+' := by
    rintro rfl
    cases digit
  rw [plain, if_neg noMark, if_neg noPlus]

/-- What follows a percent sign is read as if it stood alone, unless it makes an escape of it. -/
theorem output_percent {text : List Char} (noEscape : ∀ first second rest high low, text = first :: second :: rest →
    ¬ (HexDigit first high ∧ HexDigit second low)) :
    decoder.output none ('%' :: text) = String.utf8EncodeChar '%' ++ decoder.output none text := by
  rw [output_plain]
  show [] ++ decoder.output (some .mark) text = _
  rw [List.nil_append]
  cases text with
  | nil => rfl
  | cons c rest =>
    rw [output_plain, Transducer.output]
    show (continued .mark c).2 ++ decoder.output (continued .mark c).1 rest = _
    cases digit : hexValue? c with
    | none => simp only [continued, digit, Pending.literal, List.append_assoc]
    | some high =>
      simp only [continued, digit, plain_of_hexValue? digit, List.nil_append]
      cases rest with
      | nil => simp only [Transducer.output, decoder, Pending.literal, List.append_nil]
      | cons d rest =>
        have noDigit : hexValue? d = none := by
          rw [Option.eq_none_iff_forall_ne_some]
          intro low also
          exact noEscape c d rest high low rfl ⟨hexValue?_eq_some_iff.mp digit, hexValue?_eq_some_iff.mp also⟩
        rw [output_plain, Transducer.output]
        show (continued (.digit c high) d).2 ++ decoder.output (continued (.digit c high) d).1 rest = _
        simp only [continued, noDigit, Pending.literal, List.append_assoc]

theorem standsFor_output (text : List Char) : StandsFor text (decoder.output none text) := by
  induction length : text.length using Nat.strongRecOn generalizing text with
  | ind n ih =>
    cases text with
    | nil => exact .nil
    | cons c rest =>
      have behind (later : List Char) (shorter : later.length ≤ rest.length) :
          StandsFor later (decoder.output none later) :=
        ih later.length (by rw [← length, List.length_cons]; omega) later rfl
      by_cases mark : c = '%'
      · subst mark
        by_cases escape : ∃ first second text high low, rest = first :: second :: text ∧
            HexDigit first high ∧ HexDigit second low
        · obtain ⟨first, second, text, high, low, rfl, firstDigit, secondDigit⟩ := escape
          rw [output_escape (hexValue?_eq_some_iff.mpr firstDigit) (hexValue?_eq_some_iff.mpr secondDigit)]
          exact .escape firstDigit secondDigit (behind text (by simp only [List.length_cons]; omega))
        · have noEscape : ∀ first second text high low, rest = first :: second :: text →
              ¬ (HexDigit first high ∧ HexDigit second low) := by
            intro first second text high low same digits
            exact escape ⟨first, second, text, high, low, same, digits⟩
          rw [output_percent noEscape]
          exact .percent noEscape (behind rest (Nat.le_refl _))
      · by_cases plus : c = '+'
        · subst plus
          exact .plus (behind rest (Nat.le_refl _))
        · rw [output_plain, plain, if_neg mark, if_neg plus]
          exact .itself mark plus (behind rest (Nat.le_refl _))

theorem StandsFor.output_eq {text : List Char} {bytes : List UInt8} (standsFor : StandsFor text bytes) :
    decoder.output none text = bytes := by
  induction standsFor with
  | nil => rfl
  | escape firstDigit secondDigit _ ih =>
    rw [output_escape (hexValue?_eq_some_iff.mpr firstDigit) (hexValue?_eq_some_iff.mpr secondDigit), ih]
  | percent noEscape _ ih => rw [output_percent noEscape, ih]
  | plus _ ih =>
    rw [← ih]
    rfl
  | itself noMark noPlus _ ih => rw [output_plain, plain, if_neg noMark, if_neg noPlus, ih]

/-- An encoded text is decoded to the bytes that it stands for. -/
theorem standsFor_iff {text : List Char} {decoded : List UInt8} :
    StandsFor text decoded ↔ bytes text = decoded := by
  rw [bytes, Transducer.run_eq_output]
  constructor
  · exact StandsFor.output_eq
  · rintro rfl
    exact standsFor_output text

end Percent

namespace Query

open Percent (StandsFor standsFor_iff maxBytes)

/-- The text that an encoded text stands for: it has the character of each part of not too many bytes. -/
def Decodes (encoded : List Char) (s : String) : Prop :=
  ∃ bytes parts, StandsFor encoded bytes ∧ bytes.length ≤ maxBytes ∧ Utf8.Parted bytes parts ∧
    s = String.ofList (parts.map Utf8.Part.char)

theorem decode_eq_ok_iff_decodes {encoded : List Char} {s : String} : decode encoded = .ok s ↔ Decodes encoded s := by
  rw [decode_eq_ok_iff]
  constructor
  · rintro ⟨short, rfl⟩
    obtain ⟨parts, parted, text⟩ := Utf8.exists_parted (Percent.bytes encoded)
    exact ⟨_, parts, standsFor_iff.mpr rfl, short, parted, text⟩
  · rintro ⟨_, parts, standsFor, short, parted, rfl⟩
    obtain rfl := standsFor_iff.mp standsFor
    exact ⟨short, (Utf8.decode_of_parted parted).symm⟩

/-! ## Pieces -/

/-- A piece cut at its first equals sign. Without one, all of it is the key, and the argument is empty. -/
inductive CutAt : List Char → List Char → List Char → Prop where
  | sign {key argument : List Char} (noSign : '=' ∉ key) : CutAt (key ++ '=' :: argument) key argument
  | none {key : List Char} (noSign : '=' ∉ key) : CutAt key key []

theorem cutAt_iff {piece key argument : List Char} : CutAt piece key argument ↔ cut piece = (key, argument) := by
  have before {key : List Char} (noSign : '=' ∉ key) : ∀ c ∈ key, (c != '=') = true := fun _ inside =>
    bne_iff_ne.mpr (ne_of_mem_of_not_mem inside noSign)
  constructor
  · rintro (noSign | noSign)
    · rw [cut, List.takeWhile_append_of_pos (before noSign), List.dropWhile_append_of_pos (before noSign)]
      simp
    · rw [cut, List.takeWhile_eq_self_iff.mpr (before noSign), List.dropWhile_eq_nil_iff.mpr (before noSign)]
      rfl
  · intro found
    obtain ⟨rfl, rfl⟩ := Prod.mk.inj found
    have noSign : '=' ∉ piece.takeWhile (· != '=') := fun inside => by
      simpa using List.mem_takeWhile_imp inside
    have whole := List.takeWhile_append_dropWhile (p := (· != '=')) (l := piece)
    cases rest : piece.dropWhile (· != '=') with
    | nil =>
      rw [rest, List.append_nil] at whole
      rw [List.drop_nil, whole]
      exact .none (whole ▸ noSign)
    | cons c argument =>
      have sign : c = '=' := by
        have stopped := List.dropWhile_get_zero_not (· != '=') piece (by rw [rest]; exact Nat.succ_pos _)
        simpa [rest] using stopped
      subst sign
      have cutAt := @CutAt.sign _ argument noSign
      rwa [← rest, whole] at cutAt

/-- A key taken apart: one that ends in brackets into its name and its path, and every other one left whole. -/
def BracketKey.Splits (text : String) (key : BracketKey) : Prop :=
  key.WrittenAs text ∨ key = ⟨text, []⟩ ∧ ∀ other : BracketKey, ¬ other.WrittenAs text

theorem BracketKey.splits_iff {text : String} {key : BracketKey} : Splits text key ↔ ofText text = key := by
  constructor
  · rintro (written | ⟨rfl, noBrackets⟩)
    · exact written.ofText_eq
    · exact (writtenAs_or_whole text).resolve_left (noBrackets _)
  · rintro rfl
    rcases writtenAs_or_whole text with written | whole
    · exact .inl written
    · refine .inr ⟨whole, fun other written => written.nonempty ?_⟩
      rw [← written.ofText_eq, whole]

/-- The assignment of a piece: both halves decoded, and the key taken apart. -/
def PieceSpells (piece : List Char) (a : Assignment) : Prop :=
  ∃ rawKey rawArgument key, CutAt piece rawKey rawArgument ∧ Decodes rawKey key ∧ Decodes rawArgument a.argument ∧
    BracketKey.Splits key ⟨a.name, a.path⟩

theorem pieceSpells_iff {piece : List Char} {a : Assignment} :
    PieceSpells piece a ↔ Assignment.ofPair (cut piece) = .ok a := by
  obtain ⟨name, path, argument⟩ := a
  simp only [Assignment.ofPair, bind_eq_ok_iff, decode_eq_ok_iff_decodes]
  constructor
  · rintro ⟨rawKey, rawArgument, key, cutAt, decodedKey, decodedArgument, splits⟩
    rw [cutAt_iff.mp cutAt]
    refine ⟨key, decodedKey, argument, decodedArgument, ?_⟩
    rw [BracketKey.splits_iff.mp splits]
    rfl
  · rintro ⟨key, decodedKey, other, decodedArgument, same⟩
    obtain ⟨rfl, rfl, rfl⟩ := Assignment.mk.inj (Except.ok.inj same)
    exact ⟨_, _, key, cutAt_iff.mpr rfl, decodedKey, decodedArgument, BracketKey.splits_iff.mpr rfl⟩

/-! ## Query strings -/

/-- The assignments of a query string: those of the pieces between its ampersands, a question mark in front left out.
Neither an empty piece nor an assignment to the empty name counts. -/
def Spells (query : String) (as : List Assignment) : Prop :=
  ∃ mark pieces all, query.toList = mark ++ ['&'].intercalate pieces ∧
    (mark = ['?'] ∨ mark = [] ∧ query.toList.head? ≠ some '?') ∧ pieces ≠ [] ∧ (∀ piece ∈ pieces, '&' ∉ piece) ∧
    List.Forall₂ PieceSpells (pieces.filter (· ≠ [])) all ∧ as = all.filter (·.name ≠ "")

theorem pieces_eq {query : String} {mark : List Char} {raw : List (List Char)}
    (spelled : query.toList = mark ++ ['&'].intercalate raw)
    (leads : mark = ['?'] ∨ mark = [] ∧ query.toList.head? ≠ some '?') (nonempty : raw ≠ [])
    (plain : ∀ piece ∈ raw, '&' ∉ piece) : pieces (withoutMark query.toList) = raw.filter (· ≠ []) := by
  have rest : withoutMark query.toList = ['&'].intercalate raw := by
    rcases leads with rfl | ⟨rfl, noMark⟩
    · rw [spelled]
      rfl
    · rw [List.nil_append] at spelled
      rw [← spelled]
      unfold withoutMark
      split
      · rename_i mark
        rw [mark] at noMark
        exact absurd rfl noMark
      · rfl
  rw [pieces, rest, List.splitOn_intercalate '&' plain nonempty]
  congr 1
  funext piece
  cases piece <;> rfl

theorem exists_pieces (query : String) : ∃ mark raw, query.toList = mark ++ ['&'].intercalate raw ∧
    (mark = ['?'] ∨ mark = [] ∧ query.toList.head? ≠ some '?') ∧ raw ≠ [] ∧ ∀ piece ∈ raw, '&' ∉ piece := by
  have plain (text : List Char) : ∀ piece ∈ text.splitOn '&', '&' ∉ piece := fun piece inside =>
    (forall_mem_splitOn '&' text piece inside).1
  have joined (text : List Char) : ['&'].intercalate (text.splitOn '&') = text := List.intercalate_splitOn '&'
  cases text : query.toList with
  | nil => exact ⟨[], [].splitOn '&', (joined []).symm, .inr ⟨rfl, nofun⟩, List.splitOn_ne_nil _ _, plain _⟩
  | cons c rest =>
    by_cases mark : c = '?'
    · subst mark
      refine ⟨['?'], rest.splitOn '&', ?_, .inl rfl, List.splitOn_ne_nil _ _, plain _⟩
      rw [joined]
      rfl
    · refine ⟨[], (c :: rest).splitOn '&', (joined _).symm, .inr ⟨rfl, ?_⟩, List.splitOn_ne_nil _ _, plain _⟩
      rw [List.head?_cons]
      exact fun same => mark (Option.some.inj same)

/-- The assignments that are read are those that the query string spells. -/
theorem assignments_eq_ok_iff {query : String} {as : List Assignment} :
    assignments query = .ok as ↔ Spells query as := by
  have said (raw : List (List Char)) (all : List Assignment) :
      (raw.map cut).mapM Assignment.ofPair = .ok all ↔ List.Forall₂ PieceSpells raw all := by
    rw [mapM_eq_ok_iff, List.forall₂_map_left_iff]
    exact ⟨fun each => each.imp fun _ _ => pieceSpells_iff.mpr, fun each => each.imp fun _ _ => pieceSpells_iff.mp⟩
  have named (all : List Assignment) : all.filter Assignment.isNamed = all.filter (·.name ≠ "") := by
    congr 1
    funext a
    rw [Bool.eq_iff_iff]
    simp [Assignment.isNamed]
  unfold assignments pairs
  rw [map_eq_ok_iff]
  constructor
  · rintro ⟨all, through, rfl⟩
    obtain ⟨mark, raw, spelled, leads, nonempty, plain⟩ := exists_pieces query
    rw [pieces_eq spelled leads nonempty plain, said] at through
    exact ⟨mark, raw, all, spelled, leads, nonempty, plain, through, named all⟩
  · rintro ⟨mark, raw, all, spelled, leads, nonempty, plain, through, rfl⟩
    rw [pieces_eq spelled leads nonempty plain]
    exact ⟨all, (said _ _).mpr through, (named all)⟩

end Query

end RowFilter
