import RowFilter.Proofs.Query.BracketKey
import RowFilter.Proofs.Query.Decoding
import RowFilter.Proofs.Query.Independence
import RowFilter.Proofs.Query.Placement
import RowFilter.Proofs.Text.ByteOrder

/-!
# How large the keys and arguments of a query string may be

The bytes of a decoded text are counted before its ill-formed parts are replaced, so the text itself may have more.

* `LeavesRoom` : the encoded texts with room for the characters in place of ill-formed parts, and `leavesRoom_iff` :
  those from which a text of no more bytes than allowed is decoded;
* `TextsWithin` : criteria with keys and texts of at most so many bytes, and `textsWithin_of_read` : they have no more
  than what is decoded for them;
* `decoded_size` : the bounds, and `decoded_size_exceeded` : a text with more bytes than are counted.
-/

namespace RowFilter.Query

open Assignment Percent

/-! ## Decoded texts -/

/-- With the surplus of the characters that stand in place of ill-formed parts, the bytes are still not too many. -/
def LeavesRoom (encoded : List Char) : Prop :=
  ∃ parts, Utf8.Parted (bytes encoded) parts ∧
    (bytes encoded).length + (parts.map Utf8.Part.surplus).sum ≤ maxBytes

theorem leavesRoom_iff {encoded : List Char} {r : String} (decoded : decode encoded = .ok r) :
    LeavesRoom encoded ↔ r.utf8ByteSize ≤ maxBytes := by
  obtain ⟨-, rfl⟩ := decode_eq_ok_iff.mp decoded
  constructor
  · rintro ⟨parts, parted, room⟩
    rwa [Utf8.size_of_parted parted]
  · intro room
    obtain ⟨parts, parted, -⟩ := Utf8.exists_parted (bytes encoded)
    rw [Utf8.size_of_parted parted] at room
    exact ⟨parts, parted, room⟩

theorem size_of_utf8 {encoded : List Char} {text : String} (wellFormed : bytes encoded = Text.utf8 text) :
    (Utf8.decode (bytes encoded)).utf8ByteSize = (bytes encoded).length := by
  rw [wellFormed, Text.utf8_eq, Utf8.decode_flatMap, Utf8.size_ofList]

theorem size_le_of_decode {encoded : List Char} {r : String} (decoded : decode encoded = .ok r) :
    r.utf8ByteSize ≤ 3 * maxBytes := by
  obtain ⟨short, rfl⟩ := decode_eq_ok_iff.mp decoded
  exact Nat.le_trans (Utf8.size_decode_le _) (Nat.mul_le_mul_left 3 short)

/-- Copies of a character that is part of no escape count in full before and after decoding. -/
theorem sizes_replicate_append {c : Char} (plain : c ∉ marks) (k : Nat) (rest : List Char) :
    (bytes (List.replicate k c ++ rest)).length = k * c.utf8Size + (bytes rest).length ∧
    (Utf8.decode (bytes (List.replicate k c ++ rest))).utf8ByteSize =
      k * c.utf8Size + (Utf8.decode (bytes rest)).utf8ByteSize := by
  induction k with
  | zero => simp
  | succ k ih =>
    have first := bytes_append_cons [] (List.replicate k c ++ rest) plain
    have decoded := Utf8.decode_append_encodeChar (bytes []) c (bytes (List.replicate k c ++ rest))
    have none : bytes [] = [] := rfl
    have empty : (Utf8.decode []).utf8ByteSize = 0 := rfl
    rw [← first, List.nil_append, none] at decoded
    rw [List.nil_append, none, List.nil_append] at first
    rw [List.replicate_succ, List.cons_append, decoded, first]
    simp only [List.length_append, String.length_utf8EncodeChar, String.utf8ByteSize_append,
      String.utf8ByteSize_singleton, empty, ih, Nat.succ_mul]
    omega

/-! ## Criteria -/

def TextsWithin (bound : Nat) (c : Criteria) : Prop :=
  ∀ entry ∈ c.toList, entry.1.utf8ByteSize ≤ bound ∧
    ∀ text, .text text ∈ entry.2.items → text.utf8ByteSize ≤ bound

theorem size_name_le (key : String) : (BracketKey.ofText key).name.utf8ByteSize ≤ key.utf8ByteSize := by
  have size := congrArg String.utf8ByteSize (BracketKey.text_ofText key)
  rw [BracketKey.text, String.ofList_append, String.ofList_toList, String.utf8ByteSize_append] at size
  omega

/-- What holds of the items of a value, and of a new one, holds of them all once it is put in. -/
theorem forall_items_put {R : Scalar → Prop} {s : Scalar} (new : R s) (path : List String) {v? : Option Value}
    (old : ∀ v ∈ v?, ∀ t ∈ v.items, R t) : ∀ t ∈ (put (.item s) path v?).items, R t := by
  induction path generalizing v? with
  | nil =>
    rw [put, Nested.items_item, List.forall_mem_singleton]
    exact new
  | cons segment path ih =>
    rw [put_cons, Nested.items_list, List.forall_mem_flatMap]
    refine forall_mem_placeAt (fun _ => ih) ?_
    match v? with
    | some (.list members) =>
      have within := old _ rfl
      rwa [Nested.items_list, List.forall_mem_flatMap] at within
    | some (.item _) | none => exact nofun

theorem forall_items_listed {R : Scalar → Prop} {as : List Assignment} (arguments : ∀ a ∈ as, R (.text a.argument))
    {l : Entries} (old : ∀ entry ∈ l, ∀ t ∈ entry.2.items, R t) : ∀ entry ∈ listed l as, ∀ t ∈ entry.2.items, R t := by
  induction as generalizing l with
  | nil => exact old
  | cons a as ih =>
    rw [List.forall_mem_cons] at arguments
    exact ih arguments.2 (Entries.forall_mem_update (fun _ => forall_items_put arguments.1 a.path) old)

theorem textsWithin_of_read {limit bound : Nat} {query : String} {c : Criteria} (done : read limit query = .ok c)
    (decoded : ∀ pair ∈ pairs query, ∀ r, decode pair.1 = .ok r ∨ decode pair.2 = .ok r → r.utf8ByteSize ≤ bound) :
    TextsWithin bound c := by
  obtain ⟨as, assigned, -, rfl, -⟩ := read_eq_ok_iff.mp done
  obtain ⟨all, through, rfl⟩ := map_eq_ok_iff.mp assigned
  have short : ∀ a ∈ all.filter isNamed, a.name.utf8ByteSize ≤ bound ∧ a.argument.utf8ByteSize ≤ bound := by
    intro a inside
    obtain ⟨pair, member, made⟩ := exists_of_forall₂_right (mapM_eq_ok_iff.mp through) (List.mem_of_mem_filter inside)
    obtain ⟨key, first, made⟩ := bind_eq_ok_iff.mp made
    obtain ⟨argument, second, made⟩ := bind_eq_ok_iff.mp made
    obtain rfl := Except.ok.inj made
    exact ⟨Nat.le_trans (size_name_le key) (decoded pair member key (.inl first)),
      decoded pair member argument (.inr second)⟩
  intro entry member
  constructor
  · have key : entry.1 ∈ (makeAll .empty (all.filter isNamed)).keys := List.mem_map_of_mem member
    rw [keys_makeAll, List.mem_eraseDups] at key
    obtain ⟨a, inside, name⟩ := List.mem_map.mp key
    rw [← name]
    exact (short a inside).1
  · rw [toList_makeAll_empty] at member
    have items := forall_items_listed (R := fun s => ∀ text, s = .text text → text.utf8ByteSize ≤ bound)
      (fun a inside text same => Scalar.text.inj same ▸ (short a inside).2) (List.forall_mem_nil _) entry member
    exact fun text inside => items _ inside text rfl

/-- A decoded text has at most three times `maxBytes` bytes, and no more than `maxBytes` exactly if its ill-formed
parts leave room for the characters in their place, as is so if there are none. The same bounds hold for the keys and
texts in criteria that a query string gives, if they hold for its raw keys and arguments. -/
theorem decoded_size (encoded : List Char) (limit : Nat) (query : String) :
    (∀ r, decode encoded = .ok r → r.utf8ByteSize ≤ 3 * maxBytes ∧
      (r.utf8ByteSize ≤ maxBytes ↔ LeavesRoom encoded) ∧
      ∀ text, bytes encoded = Text.utf8 text → LeavesRoom encoded) ∧
    ∀ c, read limit query = .ok c → TextsWithin (3 * maxBytes) c ∧
      ((∀ pair ∈ pairs query, LeavesRoom pair.1 ∧ LeavesRoom pair.2) → TextsWithin maxBytes c) := by
  constructor
  · intro r decoded
    refine ⟨size_le_of_decode decoded, (leavesRoom_iff decoded).symm, fun text wellFormed => ?_⟩
    rw [leavesRoom_iff decoded]
    obtain ⟨short, rfl⟩ := decode_eq_ok_iff.mp decoded
    rw [size_of_utf8 wellFormed]
    exact short
  · intro c done
    constructor
    · refine textsWithin_of_read done fun pair _ r decoded => ?_
      rcases decoded with key | argument
      · exact size_le_of_decode key
      · exact size_le_of_decode argument
    · intro room
      refine textsWithin_of_read done fun pair member r decoded => ?_
      rcases decoded with key | argument
      · exact (leavesRoom_iff key).mp (room pair member).1
      · exact (leavesRoom_iff argument).mp (room pair member).2

/-- One byte that is no text behind 65535 letters is replaced by three. -/
theorem decoded_size_exceeded :
    ∃ r, decode (List.replicate 65535 'x' ++ "%FF".toList) = .ok r ∧ maxBytes < r.utf8ByteSize := by
  obtain ⟨k, many⟩ : ∃ k, k = 65535 := ⟨_, rfl⟩
  have plain : 'x' ∉ marks := by decide
  obtain ⟨raw, replaced⟩ := sizes_replicate_append plain k "%FF".toList
  have letter : 'x'.utf8Size = 1 := by rfl
  have one : (bytes "%FF".toList).length = 1 := by rfl
  have three : (Utf8.decode (bytes "%FF".toList)).utf8ByteSize = 3 := by rfl
  have most : maxBytes = 65536 := rfl
  rw [letter, Nat.mul_one, one] at raw
  rw [letter, Nat.mul_one, three] at replaced
  rw [← many]
  refine ⟨_, decode_eq_ok_iff.mpr ⟨?_, rfl⟩, ?_⟩ <;> omega

end RowFilter.Query
