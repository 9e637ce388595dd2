import RowFilter.Proofs.Query.BracketKey
import RowFilter.Proofs.Query.Independence
import RowFilter.Proofs.Query.Leaves
import RowFilter.Proofs.Text.Percent
import RowFilter.Proofs.Text.Separator

/-!
# Reading a query string undoes writing one

Entries are written by one pair for each leaf, all of those of one name next to each other.

* `Spelling` : the assignments that write entries, and `listed_spelling` : making them gives the entries;
* `Written` : their texts, strictly encoded and joined, `exists_written` : there always are some, and
  `assignments_written` : reading them back;
* `read_written` : so a query string that is written for entries is read as these entries.
-/

namespace RowFilter.Query

open Assignment

/-! ## Entries by their assignments -/

/-- Assignments that write entries one after another, each by its leaves. -/
inductive Spelling : Entries → List Assignment → Prop where
  | nil : Spelling [] []
  | cons {name : String} {v : Value} {own : List Assignment} {entries : Entries} {as : List Assignment}
      (named : ∀ a ∈ own, a.name = name) (writes : List.Forall₂ Writes (leaves v) own)
      (others : Spelling entries as) : Spelling ((name, v) :: entries) (own ++ as)

def entryOf (name : String) (present : Option Value) : Entries := (present.map (name, ·)).toList

theorem update_entryOf {l : Entries} {name : String} (fresh : name ∉ l.keys) (present : Option Value)
    (f : Option Value → Value) :
    Entries.update (l ++ entryOf name present) name f = l ++ entryOf name (some (f present)) := by
  cases present with
  | none =>
    have absent : name ∉ Entries.keys (l ++ entryOf name none) := by
      simpa [entryOf] using fresh
    rw [Entries.update_of_not_mem absent]
    exact congrArg (· ++ [(name, f none)]) (List.append_nil l)
  | some v => exact Entries.update_split fresh List.not_mem_nil v f

theorem listed_own {l : Entries} {name : String} (fresh : name ∉ l.keys) {own : List Assignment}
    (named : ∀ a ∈ own, a.name = name) (present : Option Value) :
    listed (l ++ entryOf name present) own = l ++ entryOf name (valueAll present own) := by
  -- the name is new at the start only, so the induction is over what it holds so far
  induction own generalizing present with
  | nil => rfl
  | cons a own ih =>
    rw [List.forall_mem_cons] at named
    have others := ih named.2 (some (a.value present))
    rw [← update_entryOf fresh, ← named.1] at others
    rw [listed, List.foldl_cons, ← named.1]
    exact others

theorem listed_append (l : Entries) (as bs : List Assignment) :
    listed l (as ++ bs) = listed (listed l as) bs := List.foldl_append

theorem listed_spelling {entries : Entries} {as : List Assignment} (spelling : Spelling entries as)
    {room : Nat} (spellable : ∀ entry ∈ entries, Spellable room entry.2) {l : Entries}
    (distinct : (l ++ entries).keys.Nodup) : listed l as = l ++ entries := by
  induction spelling generalizing l with
  | nil => exact (List.append_nil l).symm
  | @cons name v own entries as named writes _ ih =>
    rw [List.forall_mem_cons] at spellable
    rw [← List.singleton_append, ← List.append_assoc] at distinct ⊢
    have fresh : name ∉ l.keys := by
      rw [Entries.keys_append, Entries.keys_append, List.nodup_append] at distinct
      intro inside
      exact (List.nodup_append.mp distinct.1).2.2 name inside name List.mem_cons_self rfl
    have entry := listed_own fresh named none
    rw [spellable.1.valueAll_leaves own writes, entryOf, Option.map_none, Option.toList_none,
      List.append_nil] at entry
    rw [listed_append, entry]
    exact ih spellable.2 distinct

theorem Spelling.exists_leaf {entries : Entries} {as : List Assignment} (spelling : Spelling entries as) :
    ∀ a ∈ as, ∃ entry ∈ entries, a.name = entry.1 ∧ ∃ leaf ∈ leaves entry.2, Writes leaf a := by
  induction spelling with
  | nil => exact fun _ inside => absurd inside List.not_mem_nil
  | @cons name v own entries as named writes _ ih =>
    intro a inside
    rcases List.mem_append.mp inside with here | later
    · obtain ⟨leaf, isLeaf, written⟩ := exists_of_forall₂_right writes here
      exact ⟨(name, v), List.mem_cons_self, named a here, leaf, isLeaf, written⟩
    · obtain ⟨entry, member, found⟩ := ih a later
      exact ⟨entry, List.mem_cons_of_mem _ member, found⟩

/-! ## Assignments by their texts -/

def Assignment.key (a : Assignment) : BracketKey := ⟨a.name, a.path⟩

/-- A key, an equals sign and an argument, both strictly encoded. -/
inductive Piece (a : Assignment) : List Char → Prop where
  | intro {key argument : List Char}
      (keyEncoded : Percent.Encodes Percent.Strict a.key.text.toList key)
      (argumentEncoded : Percent.Encodes Percent.Strict a.argument.toList argument) :
      Piece a (key ++ '=' :: argument)

theorem Assignment.piece_encode (a : Assignment) :
    Piece a (Percent.encode a.key.text.toList ++ '=' :: Percent.encode a.argument.toList) :=
  ⟨Percent.encodes_encode _, Percent.encodes_encode _⟩

/-- A query string that writes assignments one after another. -/
def Written (as : List Assignment) (query : String) : Prop :=
  ∃ pieces, List.Forall₂ Piece as pieces ∧
    (query.toList = ['&'].intercalate pieces ∨ query.toList = '?' :: ['&'].intercalate pieces)

def Short (a : Assignment) : Prop :=
  a.key.text.utf8ByteSize ≤ Percent.maxBytes ∧ a.argument.utf8ByteSize ≤ Percent.maxBytes

instance (a : Assignment) : Decidable (Short a) := inferInstanceAs (Decidable (_ ∧ _))

theorem exists_written {entries : Entries} {room : Nat}
    (spellable : ∀ entry ∈ entries, Spellable room entry.2) :
    ∃ as query, Spelling entries as ∧ Written as query := by
  have spelling : ∃ as, Spelling entries as := by
    induction entries with
    | nil => exact ⟨[], .nil⟩
    | cons entry entries ih =>
      rw [List.forall_mem_cons] at spellable
      obtain ⟨as, others⟩ := ih spellable.2
      obtain ⟨name, v⟩ := entry
      have writes : List.Forall₂ Writes (leaves v)
          ((leaves v).map fun leaf => ⟨name, leaf.1.map indexText, leaf.2.display⟩) := by
        refine List.forall₂_map_right_iff.mpr (List.forall₂_same.mpr fun leaf inside => ?_)
        obtain ⟨-, s, isText⟩ := spellable.1.of_mem_leaves leaf inside
        refine ⟨spelled_map_indexText leaf.1, ?_⟩
        rw [isText, Scalar.display]
      exact ⟨_, .cons (List.forall_mem_map.mpr fun _ _ => rfl) writes others⟩
  obtain ⟨as, spelling⟩ := spelling
  have pieces : List.Forall₂ Piece as (as.map fun a =>
      Percent.encode a.key.text.toList ++ '=' :: Percent.encode a.argument.toList) :=
    List.forall₂_map_right_iff.mpr (List.forall₂_same.mpr fun a _ => a.piece_encode)
  exact ⟨as, _, spelling, _, pieces, .inl String.toList_ofList⟩

theorem decode_encoded {text : String} {encoded : List Char}
    (h : Percent.Encodes Percent.Strict text.toList encoded) (short : text.utf8ByteSize ≤ Percent.maxBytes) :
    decode encoded = .ok text := by
  have decoded := Percent.decode?_of_encodes (h.imp fun _ _ => Percent.Strict.spells)
  rw [String.ofList_toList, if_pos short] at decoded
  rw [decode, decoded]

theorem cut_append {key : List Char} (plain : '=' ∉ key) (argument : List Char) :
    cut (key ++ '=' :: argument) = (key, argument) := by
  have inKey : ∀ c ∈ key, (c != '=') = true := fun _ inside =>
    bne_iff_ne.mpr (ne_of_mem_of_not_mem inside plain)
  rw [cut, List.takeWhile_append_of_pos inKey, List.dropWhile_append_of_pos inKey]
  simp

theorem not_mem_encoded {text encoded : List Char} (h : Percent.Encodes Percent.Strict text encoded)
    {c : Char} (reserved : Percent.isUnreserved c = false) (noMark : c ≠ '%') : c ∉ encoded := by
  intro inside
  rcases Percent.letters_of_encodes h c inside with unreserved | mark
  · rw [reserved] at unreserved
    cases unreserved
  · exact noMark mark

theorem Piece.not_mem {a : Assignment} {piece : List Char} (h : Piece a piece) {c : Char}
    (reserved : Percent.isUnreserved c = false) (noMark : c ≠ '%') (noEquals : c ≠ '=') : c ∉ piece := by
  obtain ⟨keyEncoded, argumentEncoded⟩ := h
  rw [List.mem_append, List.mem_cons, not_or, not_or]
  exact ⟨not_mem_encoded keyEncoded reserved noMark, noEquals,
    not_mem_encoded argumentEncoded reserved noMark⟩

theorem ofPair_cut {a : Assignment} {piece : List Char} (h : Piece a piece) (short : Short a)
    (plain : '[' ∉ a.name.toList) (closed : ∀ segment ∈ a.path, ']' ∉ segment.toList) :
    ofPair (cut piece) = .ok a := by
  obtain ⟨keyEncoded, argumentEncoded⟩ := h
  rw [cut_append (not_mem_encoded keyEncoded (by decide) (by decide))]
  have apart : BracketKey.ofText a.key.text = a.key := BracketKey.ofText_text plain closed
  simp only [ofPair, decode_encoded keyEncoded short.1, decode_encoded argumentEncoded short.2]
  change Except.ok (Assignment.mk _ _ a.argument) = .ok a
  rw [apart, key]

theorem pieces_intercalate {ps : List (List Char)} (plain : ∀ piece ∈ ps, '&' ∉ piece)
    (some : ∀ piece ∈ ps, piece ≠ []) : pieces (['&'].intercalate ps) = ps := by
  cases ps with
  | nil => rfl
  | cons p ps =>
    rw [pieces, List.splitOn_intercalate '&' plain (List.cons_ne_nil p ps), List.filter_eq_self]
    intro piece inside
    simpa using some piece inside

theorem withoutMark_of_not_mem {text : List Char} (plain : '?' ∉ text) : withoutMark text = text := by
  unfold withoutMark
  split
  · exact absurd List.mem_cons_self plain
  · rfl

theorem pairs_written {as : List Assignment} {query : String} (written : Written as query) :
    ∃ ps, List.Forall₂ Piece as ps ∧ pairs query = ps.map cut := by
  obtain ⟨ps, spelled, joined⟩ := written
  have plain {c : Char} (reserved : Percent.isUnreserved c = false) (noMark : c ≠ '%') (noEquals : c ≠ '=') :
      ∀ piece ∈ ps, c ∉ piece := by
    intro piece inside
    obtain ⟨a, -, h⟩ := exists_of_forall₂_right spelled inside
    exact h.not_mem reserved noMark noEquals
  have nonempty : ∀ piece ∈ ps, piece ≠ [] := by
    intro piece inside
    obtain ⟨a, -, ⟨_, _⟩⟩ := exists_of_forall₂_right spelled inside
    simp
  have parted : pieces (['&'].intercalate ps) = ps :=
    pieces_intercalate (plain (by decide) (by decide) (by decide)) nonempty
  have noMark : '?' ∉ ['&'].intercalate ps :=
    not_mem_intercalate (by decide) (plain (by decide) (by decide) (by decide))
  refine ⟨ps, spelled, ?_⟩
  rcases joined with joined | joined
  · rw [pairs, joined, withoutMark_of_not_mem noMark, parted]
  · rw [pairs, joined, withoutMark, parted]

theorem assignments_written {as : List Assignment} {query : String} (written : Written as query)
    (short : ∀ a ∈ as, Short a) (named : ∀ a ∈ as, a.name ≠ "" ∧ '[' ∉ a.name.toList)
    (closed : ∀ a ∈ as, ∀ segment ∈ a.path, ']' ∉ segment.toList) :
    assignments query = .ok as := by
  obtain ⟨ps, spelled, cuts⟩ := pairs_written written
  have decoded : (pairs query).mapM ofPair = .ok as := by
    rw [cuts, mapM_eq_ok_iff, List.forall₂_map_left_iff]
    have each : ∀ a ∈ as, ∀ piece, Piece a piece → ofPair (cut piece) = .ok a := fun a inside _ h =>
      ofPair_cut h (short a inside) (named a inside).2 (closed a inside)
    have both := (List.forall₂_and_left as ps).mpr ⟨each, spelled⟩
    exact (both.imp fun a piece h => h.1 piece h.2).flip
  have kept : as.filter isNamed = as := by
    refine List.filter_eq_self.mpr fun a inside => ?_
    simpa [isNamed] using (named a inside).1
  rw [assignments, decoded]
  exact congrArg Except.ok kept

/-- Entries that are written as a query string are read from it, just these and in their order. -/
theorem read_written {entries : Entries} {as : List Assignment} {query : String} {limit : Nat}
    (distinct : entries.keys.Nodup) (named : ∀ name ∈ entries.keys, name ≠ "" ∧ '[' ∉ name.toList)
    (spellable : ∀ entry ∈ entries, Spellable maxNesting entry.2) (spelling : Spelling entries as)
    (written : Written as query) (short : ∀ a ∈ as, Short a) (few : entries.length ≤ limit) :
    ∃ c, read limit query = .ok c ∧ c.toList = entries := by
  have made : (makeAll .empty as).toList = entries := by
    rw [toList_makeAll_empty, listed_spelling (l := []) spelling spellable distinct, List.nil_append]
  have room : (makeAll .empty as).size ≤ limit := by
    have size : (makeAll .empty as).size = (makeAll .empty as).toList.length := rfl
    rw [size, made]
    exact few
  have assigned : assignments query = .ok as := by
    refine assignments_written written short (fun a inside => ?_) (fun a inside => ?_)
    · obtain ⟨entry, member, name, -⟩ := spelling.exists_leaf a inside
      rw [name]
      exact named entry.1 (List.mem_map_of_mem member)
    · obtain ⟨-, -, -, leaf, -, writes⟩ := spelling.exists_leaf a inside
      exact writes.path.not_mem_close
  have shallow : ∀ a ∈ as, a.path.length ≤ maxNesting := by
    intro a inside
    obtain ⟨entry, member, -, leaf, isLeaf, writes⟩ := spelling.exists_leaf a inside
    rw [writes.path.length_eq]
    exact ((spellable entry member).of_mem_leaves leaf isLeaf).1
  exact ⟨_, read_eq_ok_iff.mpr ⟨as, assigned, shallow, rfl, room⟩, made⟩

/-- A list of a text and of another list, whose last bracket is left empty, and marks that have to be escaped. -/
theorem read_written_nested :
    ∃ c, read 2 "?tag%5b0%5d=a%26b&tag%5b1%5d%5b%5d=%c3%bc&q=x%3d1" = .ok c ∧
      c.toList = [("tag", .list [.item (.text "a&b"), .list [.item (.text "ü")]]),
        ("q", .item (.text "x=1"))] := by
  have digits : (indexText 0 = "0") ∧ (indexText 1 = "1") := by decide
  have first : Spelled [0] ["0"] := digits.1 ▸ .cons .nil
  have second : Spelled [1, 0] ["1", ""] := digits.2 ▸ .cons .last
  have spelling : Spelling
      [("tag", .list [.item (.text "a&b"), .list [.item (.text "ü")]]), ("q", .item (.text "x=1"))]
      [⟨"tag", ["0"], "a&b"⟩, ⟨"tag", ["1", ""], "ü"⟩, ⟨"q", [], "x=1"⟩] :=
    @Spelling.cons _ _ [_, _] _ _ (by decide) (.cons ⟨first, rfl⟩ (.cons ⟨second, rfl⟩ .nil))
      (@Spelling.cons _ _ [_] _ _ (by decide) (.cons ⟨.nil, rfl⟩ .nil) .nil)
  have inner : Spellable 3 (.list [.item (.text "ü")]) :=
    .list (List.cons_ne_nil _ _) (by decide) (List.forall_mem_singleton.mpr (.text "ü"))
  have outer : Spellable 4 (.list [.item (.text "a&b"), .list [.item (.text "ü")]]) :=
    .list (List.cons_ne_nil _ _) (by decide)
      (List.forall_mem_cons.mpr ⟨.text "a&b", List.forall_mem_singleton.mpr inner⟩)
  refine read_written (by decide) (by decide) ?_ spelling ?_ (by decide) (by decide)
  · exact List.forall_mem_cons.mpr ⟨outer, List.forall_mem_singleton.mpr (.text "x=1")⟩
  · exact ⟨_, .cons (piece_encode _) (.cons (piece_encode _) (.cons (piece_encode _) .nil)), .inr rfl⟩

end RowFilter.Query
