import RowFilter.Proofs.Text.IllFormed
import RowFilter.Proofs.Text.Percent

/-!
# Where a reader starts afresh

An escape that breaks off, or a sequence of bytes that does, ends before the next symbol that cannot be part of it.
What stands before such a symbol is read as if the input ended there, and the rest as if it began there.

* `Transducer.Invariant` : what holds of every state that a machine reaches;
* `Transducer.Restarts` : a symbol that ends whatever has begun, and `Transducer.run_append_cons` : the output around
  it;
* `Percent.bytes_append_cons` : a character that is part of no escape divides an encoded text;
* `Utf8.decode_append_encodeChar` : the bytes of a character divide a sequence of bytes, well formed or not;
* `Percent.itemsWithin_bytes` : an encoded text is a row of escapes and copied characters, and
  `Percent.size_decode_le` : as only escaped bytes are ever replaced, a decoded text is no longer than the encoded one.
-/

namespace RowFilter

/-! ## Machines -/

namespace Transducer

variable {σ α β : Type} {t : Transducer σ α β} {holds : σ → Prop} {x : α}

/-- A property of the state at the start and after every symbol. -/
structure Invariant (t : Transducer σ α β) (holds : σ → Prop) : Prop where
  start : holds t.start
  step : ∀ s x, holds s → holds (t.step s x).1

/-- In every state, a symbol has what is to be written at the end of the input written first, and then counts as the
first symbol of a new input. -/
def Restarts (t : Transducer σ α β) (holds : σ → Prop) (x : α) : Prop :=
  ∀ s, holds s → t.step s x = ((t.step t.start x).1, t.finish s ++ (t.step t.start x).2)

theorem output_cons_of_restarts (restarts : t.Restarts holds x) {s : σ} (here : holds s) (after : List α) :
    t.output s (x :: after) = t.finish s ++ t.output t.start (x :: after) := by
  rw [output, restarts s here, output, List.append_assoc]

theorem output_append_cons (invariant : t.Invariant holds) (restarts : t.Restarts holds x) {s : σ} (here : holds s)
    (before after : List α) :
    t.output s (before ++ x :: after) = t.output s before ++ t.output t.start (x :: after) := by
  induction before generalizing s with
  | nil => exact output_cons_of_restarts restarts here after
  | cons y before ih =>
    rw [List.cons_append, output, ih (invariant.step s y here), ← List.append_assoc, ← output]

theorem run_append_cons (invariant : t.Invariant holds) (restarts : t.Restarts holds x) (before after : List α) :
    t.run (before ++ x :: after) = t.run before ++ t.run (x :: after) := by
  rw [run_eq_output, run_eq_output, run_eq_output]
  exact output_append_cons invariant restarts invariant.start before after

end Transducer

/-! ## Escapes -/

namespace Percent

open Text (hexValue?)

/-- The characters that mean something else than themselves, or may be part of an escape. -/
def marks : List Char := "%+0123456789abcdefABCDEF".toList

theorem mem_marks_of_hexValue? {c : Char} {value : Nat} (digit : hexValue? c = some value) : c ∈ marks := by
  have itself : Char.ofNat c.toNat = c := Char.ofNat_toNat c
  have small : ∀ n < 128, (hexValue? (Char.ofNat n)).isSome → Char.ofNat n ∈ marks := by decide
  have bound : c.toNat < 128 := by
    unfold hexValue? at digit
    split_ifs at digit with number lower upper
    · exact Nat.lt_of_le_of_lt number.2 (by decide)
    · exact Nat.lt_of_le_of_lt lower.2 (by decide)
    · exact Nat.lt_of_le_of_lt upper.2 (by decide)
  rw [← itself]
  apply small c.toNat bound
  rw [itself, digit]
  rfl

theorem invariant_decoder : decoder.Invariant fun _ => True := ⟨trivial, fun _ _ _ => trivial⟩

/-- Only a digit carries an escape on. -/
theorem restarts_decoder {c : Char} (noDigit : hexValue? c = none) : decoder.Restarts (fun _ => True) c := by
  rintro (_ | _ | _) -
  · rfl
  · show continued _ c = _
    simp only [continued, noDigit]
    rfl
  · show continued _ c = _
    simp only [continued, noDigit]
    rfl

theorem bytes_append_cons (before after : List Char) {c : Char} (plain : c ∉ marks) :
    bytes (before ++ c :: after) = bytes before ++ (String.utf8EncodeChar c ++ bytes after) := by
  have noDigit : hexValue? c = none :=
    Option.eq_none_iff_forall_ne_some.mpr fun _ digit => plain (mem_marks_of_hexValue? digit)
  have itself : Spells c [c] := by
    apply Spells.itself
    · rintro rfl
      exact plain (by decide)
    · rintro rfl
      exact plain (by decide)
  have first : bytes (c :: after) = String.utf8EncodeChar c ++ bytes after := by
    rw [bytes, bytes, Transducer.run_eq_output, Transducer.run_eq_output]
    exact output_spells itself after
  rw [← first]
  exact Transducer.run_append_cons invariant_decoder (restarts_decoder noDigit) before after

end Percent

/-! ## Sequences of bytes -/

namespace Utf8

/-- A state that is reached, so that what has been read is the beginning of a character. -/
def IsReached (s : Option Pending) : Prop := ∃ taken, Unwritten s taken

theorem invariant_decoder : decoder.Invariant IsReached where
  start := ⟨[], .none⟩
  step := by
    rintro s b ⟨taken, unwritten⟩
    obtain ⟨left, -, next⟩ := readUpTo_step unwritten b
    exact ⟨left, next⟩

/-- Only a continuation byte carries a sequence on. -/
theorem restarts_decoder {b : UInt8} (noContinuation : b.toNat < 0x80 ∨ 0xC0 ≤ b.toNat) :
    decoder.Restarts IsReached b := by
  rintro (_ | p) ⟨taken, unwritten⟩
  · rfl
  · cases unwritten with
    | some begun =>
      have range := begun.range
      show continued p b.toNat = _
      rw [continued, if_neg (by omega)]
      rfl

/-- The first byte of a character is no continuation byte. -/
theorem exists_encodeChar (c : Char) :
    ∃ b bytes, String.utf8EncodeChar c = b :: bytes ∧ (b.toNat < 0x80 ∨ 0xC0 ≤ b.toNat) := by
  obtain ⟨b, bytes, encoded⟩ := List.exists_cons_of_ne_nil (String.utf8EncodeChar_ne_nil (c := c))
  refine ⟨b, bytes, encoded, ?_⟩
  have first := first_byte encoded
  omega

theorem decode_append_encodeChar (before : List UInt8) (c : Char) (after : List UInt8) :
    decode (before ++ (String.utf8EncodeChar c ++ after)) = decode before ++ String.singleton c ++ decode after := by
  obtain ⟨b, bytes, encoded, first⟩ := exists_encodeChar c
  have divided : decoder.run (before ++ (String.utf8EncodeChar c ++ after)) =
      decoder.run before ++ decoder.run (String.utf8EncodeChar c ++ after) := by
    rw [encoded, List.cons_append]
    exact Transducer.run_append_cons invariant_decoder (restarts_decoder first) before (bytes ++ after)
  have second : decoder.run (String.utf8EncodeChar c ++ after) = c :: decoder.run after := by
    rw [Transducer.run_eq_output, Transducer.run_eq_output]
    exact output_encodeChar c after
  apply String.toList_injective
  simp [decode, divided, second]

end Utf8

/-! ## The items of an encoded text -/

namespace Percent

open Text (hexValue?)

/-- What an encoded text is made of. -/
inductive Item where
  | escaped (b : UInt8)
  | copied (c : Char)

namespace Item

def bytes : Item → List UInt8
  | escaped b => [b]
  | copied c => String.utf8EncodeChar c

/-- How many bytes an item takes up in the encoded text, where a plus sign is a copied space. -/
def size : Item → Nat
  | escaped _ => 3
  | copied c => c.utf8Size

end Item

/-- The bytes are those of the items, and the items take up at most so many bytes of the encoded text. -/
def ItemsWithin (bytes : List UInt8) (room : Nat) : Prop :=
  ∃ items : List Item, bytes = items.flatMap Item.bytes ∧ (items.map Item.size).sum ≤ room

theorem ItemsWithin.append {bytes bytes' : List UInt8} {room room' : Nat} (first : ItemsWithin bytes room)
    (second : ItemsWithin bytes' room') : ItemsWithin (bytes ++ bytes') (room + room') := by
  obtain ⟨items, rfl, size⟩ := first
  obtain ⟨items', rfl, size'⟩ := second
  refine ⟨items ++ items', by simp, ?_⟩
  simp only [List.map_append, List.sum_append]
  omega

theorem itemsWithin_nil (room : Nat) : ItemsWithin [] room := ⟨[], rfl, Nat.zero_le room⟩

theorem itemsWithin_copied (c : Char) : ItemsWithin (String.utf8EncodeChar c) c.utf8Size :=
  ⟨[.copied c], by simp [Item.bytes], by simp [Item.size]⟩

/-- What has been read of an escape is copied after all if the text ends, or goes on in another way. -/
theorem itemsWithin_finish (s : Option Pending) : ItemsWithin (decoder.finish s) (decoder.finish s).length := by
  rcases s with _ | _ | ⟨first, value⟩
  · exact itemsWithin_nil 0
  · exact itemsWithin_copied '%'
  · have copied := (itemsWithin_copied '%').append (itemsWithin_copied first)
    rw [← String.length_utf8EncodeChar, ← String.length_utf8EncodeChar, ← List.length_append] at copied
    exact copied

/-- How much of the text is written by the next symbol, if what has begun afterwards is not counted. -/
theorem itemsWithin_plain (c : Char) :
    ∃ room, ItemsWithin (plain c).2 room ∧ room + (decoder.finish (plain c).1).length = c.utf8Size := by
  unfold plain
  split_ifs with mark plus
  · subst mark
    exact ⟨0, itemsWithin_nil 0, by decide⟩
  · subst plus
    exact ⟨1, itemsWithin_copied ' ', by decide⟩
  · exact ⟨c.utf8Size, itemsWithin_copied c, rfl⟩

theorem length_literal_digit (first : Char) (value : Nat) :
    (Pending.digit first value).literal.length = 1 + first.utf8Size := by
  rw [Pending.literal, List.length_append, String.length_utf8EncodeChar, String.length_utf8EncodeChar]
  rfl

theorem itemsWithin_step (s : Option Pending) (c : Char) :
    ∃ room, ItemsWithin (decoder.step s c).2 room ∧
      room + (decoder.finish (decoder.step s c).1).length ≤ (decoder.finish s).length + c.utf8Size := by
  cases digit : hexValue? c with
  | none =>
    obtain ⟨room, items, size⟩ := itemsWithin_plain c
    rw [restarts_decoder digit s trivial]
    refine ⟨_, (itemsWithin_finish s).append items, ?_⟩
    show _ + (decoder.finish (plain c).1).length ≤ _
    omega
  | some value =>
    rcases s with _ | _ | ⟨first, high⟩
    · obtain ⟨room, items, size⟩ := itemsWithin_plain c
      refine ⟨room, items, ?_⟩
      show _ + (decoder.finish (plain c).1).length ≤ _
      omega
    · have carried : decoder.step (some .mark) c = (some (.digit c value), []) := by
        show continued .mark c = _
        simp only [continued, digit]
      rw [carried]
      refine ⟨0, itemsWithin_nil 0, ?_⟩
      show 0 + (Pending.digit c value).literal.length ≤ 1 + c.utf8Size
      rw [length_literal_digit]
      omega
    · have done : decoder.step (some (.digit first high)) c = (none, [UInt8.ofNat (high * 16 + value)]) := by
        show continued (.digit first high) c = _
        simp only [continued, digit]
      have one := c.utf8Size_pos
      have two := first.utf8Size_pos
      rw [done]
      refine ⟨3, ⟨[.escaped _], rfl, Nat.le_refl 3⟩, ?_⟩
      show 3 + 0 ≤ (Pending.digit first high).literal.length + c.utf8Size
      rw [length_literal_digit]
      omega

theorem itemsWithin_output (s : Option Pending) (text : List Char) :
    ItemsWithin (decoder.output s text) ((decoder.finish s).length + (String.ofList text).utf8ByteSize) := by
  induction text generalizing s with
  | nil => exact itemsWithin_finish s
  | cons c rest ih =>
    obtain ⟨room, items, size⟩ := itemsWithin_step s c
    obtain ⟨all, same, total⟩ := items.append (ih (decoder.step s c).1)
    rw [Utf8.size_ofList_cons]
    exact ⟨all, same, by omega⟩

theorem itemsWithin_bytes (text : List Char) : ItemsWithin (bytes text) (String.ofList text).utf8ByteSize := by
  have whole := itemsWithin_output none text
  rw [bytes, Transducer.run_eq_output]
  simpa [decoder] using whole

/-- Between two copied characters nothing but escaped bytes can be replaced, each by three bytes at most. -/
theorem size_decode_items_le (run : List UInt8) (items : List Item) :
    (Utf8.decode (run ++ items.flatMap Item.bytes)).utf8ByteSize ≤ 3 * run.length + (items.map Item.size).sum := by
  induction items generalizing run with
  | nil => simpa using Utf8.size_decode_le run
  | cons item items ih =>
    cases item with
    | escaped b =>
      have longer := ih (run ++ [b])
      simp [Item.bytes, Item.size] at longer ⊢
      omega
    | copied c =>
      have before := Utf8.size_decode_le run
      have after := ih []
      simp only [List.flatMap_cons, Item.bytes, List.map_cons, List.sum_cons, Item.size,
        Utf8.decode_append_encodeChar, String.utf8ByteSize_append, String.utf8ByteSize_singleton]
      simp only [List.nil_append, List.length_nil] at after
      omega

theorem size_decode_le (text : List Char) :
    (Utf8.decode (bytes text)).utf8ByteSize ≤ (String.ofList text).utf8ByteSize := by
  obtain ⟨items, same, size⟩ := itemsWithin_bytes text
  have short := size_decode_items_le [] items
  rw [List.nil_append, ← same] at short
  simp only [List.length_nil] at short
  omega

end Percent

end RowFilter
