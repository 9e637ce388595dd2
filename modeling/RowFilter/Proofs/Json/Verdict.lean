import RowFilter.Proofs.Json.Grammar
import RowFilter.Proofs.Json.Members

/-!
# What reading a JSON body answers

* `visits` : the documents met on the way through a document, and `fault?` : what is wrong with one of them;
* `refusal?_argument` : a document is refused for the first fault on the way through it;
* `Sorted` : the last member under each key, in the order of the bytes of the keys;
* `refusal?_criteria_object` : an object with few enough keys is refused for its first sorted member at fault;
* `readBytes_eq` : bytes are read as the text that they encode;
* `read_verdict` : which of the answers a text gets.
-/

namespace RowFilter.Json

/-! ## Faults of a document -/

mutual

/-- The documents met on the way through a document, depth first and from left to right, each with the number of
arrays it lies inside. An object is met and not entered. -/
def visits (inside : Nat) : Document → List (Nat × Document)
  | .array items => (inside, .array items) :: visitsAll (inside + 1) items
  | d => [(inside, d)]

def visitsAll (inside : Nat) : List Document → List (Nat × Document)
  | [] => []
  | d :: ds => visits inside d ++ visitsAll inside ds

end

def fault? : Nat × Document → Option Refusal
  | (_, .bool _) => some .unsupported
  | (_, .object _) => some .unsupported
  | (inside, .array _) => if maxNesting ≤ inside then some .tooDeep else none
  | _ => none

mutual

/-- A document is refused for the first fault on the way through it. -/
theorem refusal?_argument {room inside : Nat} (depth : inside + room = maxNesting) (d : Document) :
    refusal? (argument room d) = (visits inside d).findSome? fault? := by
  cases d with
  | null | text | number | bool | object => cases room <;> rfl
  | array items =>
    cases room with
    | zero =>
      have full : maxNesting ≤ inside := by omega
      rw [visits, List.findSome?_cons, fault?, if_pos full]
      rfl
    | succ room =>
      have free : ¬ maxNesting ≤ inside := by omega
      rw [visits, List.findSome?_cons, fault?, if_neg free]
      change refusal? (items.mapM (argument room) >>= fun values => pure (Nested.list values)) = _
      rw [refusal?_bind_pure, refusal?_mapM]
      exact findSome?_argument (by omega) items

theorem findSome?_argument {room inside : Nat} (depth : inside + room = maxNesting) (ds : List Document) :
    ds.findSome? (fun d => refusal? (argument room d)) = (visitsAll inside ds).findSome? fault? := by
  cases ds with
  | nil => rfl
  | cons d ds =>
    rw [visitsAll, List.findSome?_append, List.findSome?_cons, refusal?_argument depth d,
      findSome?_argument depth ds]
    cases (visits inside d).findSome? fault? <;> rfl

end

/-! ## Faults of an object -/

/-- The first fault on the way through a document, one that lies in no array yet. -/
def firstFault? (d : Document) : Option Refusal := (visits 0 d).findSome? fault?

/-- The last member under each key, in the order of the bytes of the keys. -/
structure Sorted (members sorted : List (String × Document)) : Prop where
  mem_iff : ∀ key d, (key, d) ∈ sorted ↔ last? members key = some d
  ascending : (sorted.map Prod.fst).Pairwise fun k l => Text.utf8 k < Text.utf8 l

theorem sorted_sortedMembers (members : List (String × Document)) : Sorted members (sortedMembers members) :=
  ⟨fun _ _ => mem_sortedMembers_iff, pairwise_sortedMembers members⟩

theorem Sorted.eq {members sorted : List (String × Document)} (h : Sorted members sorted) :
    sorted = sortedMembers members := by
  have distinct {l : List (String × Document)} (ascending : l.Pairwise fun a b =>
      Text.utf8 a.1 < Text.utf8 b.1) : l.Nodup := by
    apply ascending.imp
    rintro a _ less rfl
    exact List.lt_irrefl _ less
  have first := h.ascending
  have second := pairwise_sortedMembers members
  rw [List.pairwise_map] at first second
  have same : sorted.Perm (sortedMembers members) := by
    rw [List.perm_ext_iff_of_nodup (distinct first) (distinct second)]
    rintro ⟨key, d⟩
    rw [h.mem_iff, mem_sortedMembers_iff]
  exact same.eq_of_pairwise (fun a b _ _ less greater => absurd greater (List.lt_asymm less)) first second

theorem refusal?_entry (member : String × Document) :
    refusal? (entry member) = (firstFault? member.2).map (Refusal.under member.1) := by
  have fault : refusal? (argument maxNesting member.2) = firstFault? member.2 :=
    refusal?_argument (Nat.zero_add maxNesting) member.2
  rw [← fault, entry]
  cases argument maxNesting member.2 <;> rfl

theorem criteria_of_not_object {d : Document} (other : ∀ ms, d ≠ .object ms) (limit : Nat) :
    criteria limit d = .error .expectedObject := by
  cases d with
  | object ms => exact absurd rfl (other ms)
  | _ => rfl

/-- An object with few enough keys is refused for its first sorted member at fault. -/
theorem refusal?_criteria_object {limit : Nat} {members : List (String × Document)}
    (room : distinctKeys members ≤ limit) : refusal? (criteria limit (.object members)) =
      (sortedMembers members).findSome? fun member => (firstFault? member.2).map (Refusal.under member.1) := by
  rw [criteria_object_of_le room, refusal?_bind_pure, refusal?_mapM]
  simp only [refusal?_entry]

/-! ## Texts and bytes -/

theorem read_of_writtenAs {d : Document} {text : String} (written : d.WrittenAs text) (limit : Nat) :
    read limit text = criteria limit d := by
  rw [read, Document.ofText?_eq_some_iff.mpr written]

theorem read_of_not_writtenAs {text : String} (none : ¬ ∃ d, Document.WrittenAs d text) (limit : Nat) :
    read limit text = .error .invalidJson := by
  have parsed : Document.ofText? text = Option.none :=
    Option.eq_none_iff_forall_ne_some.mpr fun d found => none ⟨d, Document.ofText?_eq_some_iff.mp found⟩
  rw [read, parsed]

theorem readBytes_eq (limit : Nat) (bytes : ByteArray) :
    (∃ text : String, text.toUTF8 = bytes ∧ readBytes limit bytes = read limit text) ∨
      (¬ ∃ text : String, text.toUTF8 = bytes) ∧ readBytes limit bytes = .error .invalidJson := by
  unfold readBytes String.fromUTF8?
  by_cases valid : bytes.IsValidUTF8
  · rw [dif_pos valid]
    exact .inl ⟨String.fromUTF8 bytes valid, rfl, rfl⟩
  · rw [dif_neg valid]
    refine .inr ⟨?_, rfl⟩
    rintro ⟨text, rfl⟩
    exact valid text.isValidUTF8

/-! ## Answers -/

/-- What calls for each answer to a text: for a refusal, or for none. -/
inductive Answers (limit : Nat) (text : String) : Option ReadError → Prop where
  | invalidJson (noDocument : ¬ ∃ d, Document.WrittenAs d text) : Answers limit text (some .invalidJson)
  | expectedObject {d : Document} (written : d.WrittenAs text) (other : ∀ ms, d ≠ .object ms) :
      Answers limit text (some .expectedObject)
  | tooManyKeys {members : List (String × Document)} (written : (Document.object members).WrittenAs text)
      (more : limit < distinctKeys members) : Answers limit text (some (.tooManyKeys limit))
  /-- The keys are few enough, and of their last members, in the order of the keys, this is the first at fault. -/
  | fault {members before after : List (String × Document)} {key : String} {d : Document} {refusal : Refusal}
      (written : (Document.object members).WrittenAs text) (room : distinctKeys members ≤ limit)
      (inOrder : Sorted members (before ++ (key, d) :: after))
      (clear : ∀ member ∈ before, firstFault? member.2 = none) (first : firstFault? d = some refusal) :
      Answers limit text (some (refusal.under key))
  | accepted {members sorted : List (String × Document)} (written : (Document.object members).WrittenAs text)
      (room : distinctKeys members ≤ limit) (inOrder : Sorted members sorted)
      (clear : ∀ member ∈ sorted, firstFault? member.2 = none) : Answers limit text none

theorem Answers.refusal?_read {limit : Nat} {text : String} {answer : Option ReadError}
    (answers : Answers limit text answer) : refusal? (read limit text) = answer := by
  cases answers with
  | invalidJson noDocument =>
    rw [read_of_not_writtenAs noDocument]
    rfl
  | expectedObject written other =>
    rw [read_of_writtenAs written, criteria_of_not_object other]
    rfl
  | tooManyKeys written more =>
    rw [read_of_writtenAs written, criteria_object_of_lt more]
    rfl
  | fault written room inOrder clear first =>
    rw [read_of_writtenAs written, refusal?_criteria_object room, ← inOrder.eq, List.findSome?_eq_some_iff]
    exact ⟨_, _, _, rfl, Option.map_eq_some_iff.mpr ⟨_, first, rfl⟩, fun member inside =>
      Option.map_eq_none_iff.mpr (clear member inside)⟩
  | accepted written room inOrder clear =>
    rw [read_of_writtenAs written, refusal?_criteria_object room, ← inOrder.eq, List.findSome?_eq_none_iff]
    exact fun member inside => Option.map_eq_none_iff.mpr (clear member inside)

theorem answers_read (limit : Nat) (text : String) : Answers limit text (refusal? (read limit text)) := by
  by_cases noDocument : ¬ ∃ d, Document.WrittenAs d text
  · rw [read_of_not_writtenAs noDocument]
    exact .invalidJson noDocument
  obtain ⟨d, written⟩ := not_not.mp noDocument
  rw [read_of_writtenAs written]
  by_cases other : ∀ ms, d ≠ .object ms
  · rw [criteria_of_not_object other]
    exact .expectedObject written other
  obtain ⟨members, rfl⟩ : ∃ ms, d = .object ms := by simpa using other
  rcases Nat.lt_or_ge limit (distinctKeys members) with more | room
  · rw [criteria_object_of_lt more]
    exact .tooManyKeys written more
  have sorted := sorted_sortedMembers members
  rw [refusal?_criteria_object room]
  cases found : (sortedMembers members).findSome? fun member =>
      (firstFault? member.2).map (Refusal.under member.1) with
  | none =>
    rw [List.findSome?_eq_none_iff] at found
    exact .accepted written room sorted fun member inside => Option.map_eq_none_iff.mp (found member inside)
  | some e =>
    obtain ⟨before, ⟨key, d⟩, after, split, first, clear⟩ := List.findSome?_eq_some_iff.mp found
    obtain ⟨refusal, fault, rfl⟩ := Option.map_eq_some_iff.mp first
    rw [split] at sorted
    exact .fault written room sorted (fun member inside => Option.map_eq_none_iff.mp (clear member inside)) fault

/-- What reading a JSON body answers. A text that is no JSON text is refused as such; then one that is no object;
then one with too many keys, whatever its members are; then, for each key in the order of their bytes, one whose
last member is at fault, for the first fault on the way through that member; and nothing else is refused. Bytes
are read as the text that they encode, and refused where they encode none. A text is no JSON text for the size of
a number only if the conversion of that number leaves the finite doubles. -/
theorem read_verdict (limit : Nat) :
    (∀ text answer, refusal? (read limit text) = answer ↔ Answers limit text answer) ∧
    (∀ bytes : ByteArray,
      (∃ text : String, text.toUTF8 = bytes ∧ readBytes limit bytes = read limit text) ∨
        (¬ ∃ text : String, text.toUTF8 = bytes) ∧ readBytes limit bytes = .error .invalidJson) ∧
    ∀ n, number? n = none ↔ Overflows n := by
  refine ⟨fun text answer => ⟨?_, Answers.refusal?_read⟩, readBytes_eq limit, number?_eq_none_iff⟩
  rintro rfl
  exact answers_read limit text

end RowFilter.Json
