import Mathlib
import RowFilter.Proofs.Json.Grammar
import RowFilter.Proofs.Json.Members
import RowFilter.Proofs.Nesting
import RowFilter.Proofs.Sql.Numeral

/-!
# What is written as JSON is read back

* `document` : the document that a value is written as;
* `argument_document` : such a document stands for its value, if that is not too deep;
* `tokenText_integer` : an integer is written by its decimal digits, among others;
* `read_document` : members written as an object are read back, the last under each key, in the order of the bytes
  of their keys.
-/

namespace RowFilter.Json

/-! ## Values as documents -/

def scalarDocument : Scalar → Document
  | .text s => .text s
  | .number n => .number n

def document (v : Value) : Document := v.fold scalarDocument .array

theorem document_item (s : Scalar) : document (.item s) = scalarDocument s := by
  rw [document, Nested.fold]

theorem document_list (members : List Value) : document (.list members) = .array (members.map document) := by
  rw [document, Nested.fold]
  rfl

def documents (members : List (String × Value)) : List (String × Document) :=
  members.map fun member => (member.1, document member.2)

theorem argument_document_within {room : Nat} {v : Value}
    (shallow : Nested.Within (fun _ => True) (fun _ => True) room v) : argument room (document v) = .ok v := by
  induction shallow with
  | @item room s =>
    rw [document_item]
    cases s <;> cases room <;> rfl
  | @list room members _ _ ih =>
    have through : (members.map document).mapM (argument room) = .ok members := by
      rw [mapM_eq_ok_iff, List.forall₂_map_left_iff, List.forall₂_same]
      exact ih
    rw [document_list]
    change ((members.map document).mapM (argument room) >>= fun values => pure (Nested.list values)) = _
    rw [through]
    rfl

theorem argument_document {room : Nat} {v : Value} (shallow : v.depth ≤ room) :
    argument room (document v) = .ok v := argument_document_within (Nested.within_of_depth_le shallow)

/-! ## Integers -/

theorem wellFormed_whole (n : Nat) :
    decimalDigits n = ['0'] ∨ decimalDigits n ≠ [] ∧ (decimalDigits n).head? ≠ some '0' := by
  rcases Nat.eq_zero_or_pos n with zero | positive
  · exact .inl (zero ▸ rfl)
  · exact .inr ⟨Sql.decimalDigits_ne_nil n, head?_decimalDigits_ne positive⟩

def wholeNumeral (i : Int) : Numeral := ⟨i < 0, decimalDigits i.natAbs, none, none⟩

theorem numeralText_wholeNumeral (i : Int) : NumeralText (wholeNumeral i) (integerDigits i) := by
  have all : ∀ c ∈ decimalDigits i.natAbs, c.isDigit := fun _ => Sql.isDigit_of_mem_decimalDigits
  have nonempty := Sql.decimalDigits_ne_nil i.natAbs
  have noPlus : (decimalDigits i.natAbs).head? ≠ some '+' := fun plus =>
    absurd (all '+' (List.mem_of_head? plus)) (by decide)
  have written {negative : Bool} {sign : List Char} (signed : Numeral.SignText negative sign) :
      Numeral.WrittenAs ⟨negative, decimalDigits i.natAbs, none, none⟩ (sign ++ decimalDigits i.natAbs) := by
    have parts := Numeral.WrittenAs.parts signed all .none .none (.inl nonempty)
    rwa [List.append_nil, List.append_nil] at parts
  unfold wholeNumeral integerDigits
  split
  · rename_i negative
    rw [decide_eq_true negative]
    exact ⟨written .minus, nofun, wellFormed_whole i.natAbs, nofun⟩
  · rename_i nonnegative
    rw [decide_eq_false nonnegative]
    exact ⟨written .none, noPlus, wellFormed_whole i.natAbs, nofun⟩

theorem integer?_wholeNumeral (i : Int) : (wholeNumeral i).integer? = some i := by
  rw [Numeral.integer?, wholeNumeral]
  simp only [Option.isNone_none, Bool.and_self, if_true, digitsValue_decimalDigits, decide_eq_true_eq]
  exact congrArg some (by split <;> omega)

theorem number?_wholeNumeral (i : Int64) : number? (wholeNumeral i.toInt) = some (.int i) := by
  have fits : Number.ofInt? i.toInt = some (.int i) := by
    rw [Number.ofInt?, if_pos ⟨i.minValue_le_toInt, i.toInt_le⟩, Int64.ofInt_toInt]
  rw [number?, integer?_wholeNumeral, Option.bind_some, fits]

/-- An integer is written by its decimal digits, with a minus sign in front of a negative one. -/
theorem tokenText_integer (i : Int64) : TokenText (.number (.int i)) (integerDigits i.toInt) :=
  .number (numeralText_wholeNumeral i.toInt) (number?_wholeNumeral i)

/-! ## Objects -/

theorem distinctKeys_documents (members : List (String × Value)) :
    distinctKeys (documents members) = distinctKeys members := by
  rw [distinctKeys, documents, List.map_map]
  rfl

/-- Every sorted member is the document of the last value under its key. -/
theorem mem_sortedMembers_documents_iff {members : List (String × Value)} {key : String} {d : Document} :
    (key, d) ∈ sortedMembers (documents members) ↔ ∃ v, last? members key = some v ∧ d = document v := by
  rw [mem_sortedMembers_iff, documents, last?_map, Option.map_eq_some_iff]
  simp only [eq_comm]

theorem entry_document {key : String} {v : Value} (shallow : v.depth ≤ maxNesting) :
    entry (key, document v) = .ok (key, v) :=
  entry_eq_ok_iff.mpr ⟨rfl, argument_document shallow⟩

/-- The sorted members have the last value under each key as their arguments. -/
theorem exists_entries {members : List (String × Value)}
    (shallow : ∀ member ∈ members, member.2.depth ≤ maxNesting) :
    ∃ entries, (sortedMembers (documents members)).mapM entry = .ok entries ∧
      ∀ key v, (key, v) ∈ entries ↔ last? members key = some v := by
  have lasts : ∀ member ∈ sortedMembers (documents members), ∃ v, last? members member.1 = some v ∧
      entry member = .ok (member.1, v) := by
    rintro ⟨key, d⟩ inside
    obtain ⟨v, last, rfl⟩ := mem_sortedMembers_documents_iff.mp inside
    exact ⟨v, last, entry_document (shallow _ (mem_of_last? last))⟩
  have accepted : ∀ member ∈ sortedMembers (documents members), ∃ e, entry member = .ok e := by
    intro member inside
    obtain ⟨v, -, given⟩ := lasts member inside
    exact ⟨(member.1, v), given⟩
  obtain ⟨entries, through⟩ := mapM_ok_iff_forall.mpr accepted
  have related := mapM_eq_ok_iff.mp through
  refine ⟨entries, through, fun key v => ⟨fun inside => ?_, fun last => ?_⟩⟩
  · obtain ⟨member, there, given⟩ := exists_of_forall₂_right related inside
    obtain ⟨w, last, same⟩ := lasts member there
    obtain ⟨rfl, rfl⟩ := Prod.mk.inj (Except.ok.inj (given.symm.trans same))
    exact last
  · have there := mem_sortedMembers_documents_iff.mpr ⟨v, last, rfl⟩
    obtain ⟨e, inside, given⟩ := exists_of_forall₂_right related.flip there
    have shallow := shallow _ (mem_of_last? last)
    rwa [← Except.ok.inj (given.symm.trans (entry_document shallow))]

theorem exists_read {members : List (String × Value)} {text : String} {limit : Nat}
    (shallow : ∀ member ∈ members, member.2.depth ≤ maxNesting)
    (written : (Document.object (documents members)).WrittenAs text) (room : distinctKeys members ≤ limit) :
    ∃ entries, read limit text = .ok (.ofList entries) ∧
      (sortedMembers (documents members)).mapM entry = .ok entries ∧
      ∀ key v, (key, v) ∈ (Criteria.ofList entries).toList ↔ last? members key = some v := by
  obtain ⟨entries, through, lasts⟩ := exists_entries shallow
  refine ⟨entries, ?_, through, ?_⟩
  · rw [read, Document.ofText?_eq_some_iff.mpr written]
    exact criteria_object_eq_ok_iff.mpr ⟨distinctKeys_documents members ▸ room, entries, through, rfl⟩
  · rwa [toList_of_mapM_entry through]

/-- Members that are written as an object are read back: each key with the value that stands last under it, in the
order of the bytes of the keys, whatever the order they are written in. Where no key is written twice, these are
just the members. Any text of the object will do; one way to write an integer are its decimal digits. -/
theorem read_document {members : List (String × Value)} {text : String} {limit : Nat}
    (shallow : ∀ member ∈ members, member.2.depth ≤ maxNesting)
    (written : (Document.object (documents members)).WrittenAs text)
    (room : distinctKeys members ≤ limit) :
    (∃ c, read limit text = .ok c ∧
      (∀ key v, (key, v) ∈ c.toList ↔ last? members key = some v) ∧
      (c.keys.Pairwise fun k l => Text.utf8 k < Text.utf8 l) ∧
      ((members.map Prod.fst).Nodup → c.toList.Perm members)) ∧
    ∀ i : Int64, TokenText (.number (.int i)) (integerDigits i.toInt) := by
  obtain ⟨entries, done, through, lasts⟩ := exists_read shallow written room
  have list := toList_of_mapM_entry through
  have keys : Entries.keys entries = (sortedMembers (documents members)).map Prod.fst := keys_of_mapM_entry through
  refine ⟨⟨.ofList entries, done, lasts, ?_, fun distinct => ?_⟩, tokenText_integer⟩
  · rw [Criteria.keys_eq, list, keys]
    exact pairwise_sortedMembers _
  · have once : entries.Nodup := by
      apply List.Nodup.of_map Prod.fst
      apply (congrArg List.Nodup keys).mpr
      exact nodup_sortedMembers _
    rw [list, List.perm_ext_iff_of_nodup once (.of_map Prod.fst distinct)]
    rintro ⟨key, v⟩
    rw [← list, lasts, last?_eq_some_iff distinct]

/-- Escapes of all kinds, blanks, an empty list, and a key that is written twice. -/
theorem read_document_escaped :
    ∃ c, read 2 "\x7b\"b\": [-5,[]],\n\"\\u0061\":\"\\n\\u00E9\",\"b\" :\"\\ud83D\\uDe00\"\x7d" = .ok c ∧
      ("a", .item (.text "\né")) ∈ c.toList ∧ ("b", .item (.text "😀")) ∈ c.toList := by
  have both := @read_document
    [("b", .list [.item (.number (.int (-5))), .list []]), ("a", .item (.text "\né")), ("b", .item (.text "😀"))]
    "\x7b\"b\": [-5,[]],\n\"\\u0061\":\"\\n\\u00E9\",\"b\" :\"\\ud83D\\uDe00\"\x7d" 2
    (by simp [maxNesting, Nested.depth, Nested.fold])
    (Document.ofText?_eq_some_iff.mp (by cbv)) (by decide)
  obtain ⟨⟨c, done, lasts, -⟩, -⟩ := both
  exact ⟨c, done, (lasts _ _).mpr rfl, (lasts _ _).mpr rfl⟩

end RowFilter.Json
