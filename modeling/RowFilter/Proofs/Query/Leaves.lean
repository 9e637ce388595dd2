import RowFilter.Proofs.Number.Numeral
import RowFilter.Proofs.Query.Assignment
import RowFilter.Proofs.Sql.Numeral

/-!
# A value put together leaf by leaf

A query string spells a nested list by its leaves. Each comes with the indices that lead to it, and putting one
after another at the end of its path gives the list again.

* `leaves` : the scalars of a value in depth-first order, with their indices;
* `Spelled` : how indices are written as segments of a path;
* `Spellable` : the values that can be written so;
* `placeAt_index` : the index behind all members leads to a new one, and from then on to that member;
* `valueAll_leavesFrom` : the members of a list get their places one after another;
* `Spellable.valueAll_leaves` : all leaves put together are the value.
-/

namespace RowFilter.Query

open Assignment

/-! ## Leaves -/

mutual

/-- The scalars of a value from left to right, each with the indices that lead to it. -/
def leaves : Value → List (List Nat × Scalar)
  | .item s => [([], s)]
  | .list members => leavesFrom 0 members

def leavesFrom (i : Nat) : List Value → List (List Nat × Scalar)
  | [] => []
  | v :: members => (leaves v).map (fun leaf => (i :: leaf.1, leaf.2)) ++ leavesFrom (i + 1) members

end

def indexText (i : Nat) : String := String.ofList (decimalDigits i)

/-- Indices as segments of a path. The last one may be left empty. -/
inductive Spelled : List Nat → List String → Prop where
  | nil : Spelled [] []
  | last {i : Nat} : Spelled [i] [""]
  | cons {i : Nat} {is : List Nat} {path : List String} (others : Spelled is path) :
      Spelled (i :: is) (indexText i :: path)

/-- A text, or a list of such, with at most `room` lists in one another and none of them empty. No list has more
members than there are machine words, for these count them. -/
inductive Spellable : Nat → Value → Prop where
  | text {room : Nat} (s : String) : Spellable room (.item (.text s))
  | list {room : Nat} {members : List Value} (some : members ≠ [])
      (countable : members.length ≤ wordCount) (each : ∀ v ∈ members, Spellable room v) :
      Spellable (room + 1) (.list members)

structure Writes (leaf : List Nat × Scalar) (a : Assignment) : Prop where
  path : Spelled leaf.1 a.path
  scalar : leaf.2 = .text a.argument

theorem spelled_map_indexText (is : List Nat) : Spelled is (is.map indexText) := by
  induction is with
  | nil => exact .nil
  | cons i is ih => exact .cons ih

theorem Spelled.length_eq {is : List Nat} {path : List String} (spelled : Spelled is path) :
    path.length = is.length := by
  induction spelled with
  | nil => rfl
  | last => rfl
  | cons _ ih => rw [List.length_cons, List.length_cons, ih]

theorem Spelled.not_mem_close {is : List Nat} {path : List String} (spelled : Spelled is path) :
    ∀ segment ∈ path, ']' ∉ segment.toList := by
  induction spelled with
  | nil => exact fun _ inside => absurd inside List.not_mem_nil
  | last => exact List.forall_mem_singleton.mpr List.not_mem_nil
  | cons _ ih =>
    refine List.forall_mem_cons.mpr ⟨fun inside => ?_, ih⟩
    rw [indexText, String.toList_ofList] at inside
    exact absurd (Sql.isDigit_of_mem_decimalDigits inside) (by decide)

theorem leavesFrom_ne_nil {i : Nat} {v : Value} (some : leaves v ≠ []) (members : List Value) :
    leavesFrom i (v :: members) ≠ [] := by
  rw [leavesFrom]
  simpa using fun none => absurd none some

theorem Spellable.leaves_ne_nil {room : Nat} {v : Value} (spellable : Spellable room v) :
    leaves v ≠ [] := by
  induction spellable with
  | text s => simp [leaves]
  | @list _ members some _ _ ih =>
    cases members with
    | nil => exact absurd rfl some
    | cons v members => exact leavesFrom_ne_nil (ih v List.mem_cons_self) members

theorem mem_leavesFrom {i : Nat} {members : List Value} {leaf : List Nat × Scalar}
    (inside : leaf ∈ leavesFrom i members) :
    ∃ v ∈ members, ∃ j is, (is, leaf.2) ∈ leaves v ∧ leaf.1 = j :: is := by
  induction members generalizing i with
  | nil => exact absurd inside List.not_mem_nil
  | cons v members ih =>
    rw [leavesFrom, List.mem_append, List.mem_map] at inside
    rcases inside with ⟨⟨is, s⟩, here, rfl⟩ | later
    · exact ⟨v, List.mem_cons_self, i, is, here, rfl⟩
    · obtain ⟨w, member, found⟩ := ih later
      exact ⟨w, List.mem_cons_of_mem v member, found⟩

theorem ne_nil_of_mem_leaves_list {members : List Value} :
    ∀ leaf ∈ leaves (.list members), leaf.1 ≠ [] := by
  intro leaf inside
  obtain ⟨-, -, j, is, -, indices⟩ := mem_leavesFrom inside
  rw [indices]
  exact List.cons_ne_nil j is

theorem Spellable.of_mem_leaves {room : Nat} {v : Value} (spellable : Spellable room v) :
    ∀ leaf ∈ leaves v, leaf.1.length ≤ room ∧ ∃ s, leaf.2 = .text s := by
  induction spellable with
  | text s => simp [leaves]
  | list _ _ _ ih =>
    intro leaf inside
    obtain ⟨v, member, j, is, there, indices⟩ := mem_leavesFrom inside
    obtain ⟨short, isText⟩ := ih v member (is, leaf.2) there
    rw [indices, List.length_cons]
    exact ⟨Nat.succ_le_succ short, isText⟩

/-! ## One segment -/

theorem wordSpelled?_decimalDigits {n : Nat} (word : n < wordCount) :
    wordSpelled? (decimalDigits n) = some n := by
  have digits : (decimalDigits n).all Char.isDigit = true :=
    List.all_eq_true.mpr fun _ => Sql.isDigit_of_mem_decimalDigits
  have some : (decimalDigits n).isEmpty = false := by
    simpa using Sql.decimalDigits_ne_nil n
  have spelled : wordOfDigits? (decimalDigits n) = .some n := by
    rw [wordOfDigits?, some, digits, digitsValue_decimalDigits, if_neg (by decide), if_pos word]
  unfold wordSpelled?
  split
  · rename_i digits' signed
    rw [signed] at digits
    exact absurd digits (by simp [Char.isDigit])
  · exact spelled

theorem placeAt_index {done : List Value} (word : done.length < wordCount) (fill : Option Value → Value)
    (last : Option Value) :
    placeAt fill (indexText done.length) (done ++ last.toList) = done ++ [fill last] := by
  have spelled : wordSpelled? (indexText done.length).toList = some done.length := by
    rw [indexText, String.toList_ofList, wordSpelled?_decimalDigits word]
  cases last with
  | none =>
    have index : index? (indexText done.length) done = none := by
      simp [index?, spelled]
    rw [Option.toList_none, List.append_nil, placeAt, index]
  | some v =>
    have index : index? (indexText done.length) (done ++ [v]) = some done.length := by
      simp [index?, spelled]
    rw [Option.toList_some, placeAt, index]
    simp

/-! ## Many assignments -/

namespace Assignment

def within (segment : String) (a : Assignment) : Assignment := { a with path := segment :: a.path }

/-- What assignments make of a value, or of nothing, one after another. -/
def valueAll (present : Option Value) (as : List Assignment) : Option Value :=
  as.foldl (fun present a => some (a.value present)) present

theorem valueAll_append (present : Option Value) (as bs : List Assignment) :
    valueAll present (as ++ bs) = valueAll (valueAll present as) bs := List.foldl_append

theorem value_within (segment : String) (a : Assignment) (members : List Value) :
    (a.within segment).value (some (.list members)) = .list (placeAt a.value segment members) := rfl

theorem value_none {a : Assignment} (nested : a.path ≠ []) : a.value none = a.value (some (.list [])) := by
  unfold value
  cases path : a.path with
  | nil => exact absurd path nested
  | cons segment path => rfl

end Assignment

/-- Assignments under one index make up one member, behind those that are there. -/
theorem valueAll_within {done : List Value} (word : done.length < wordCount) (last : Option Value)
    (as : List Assignment) :
    valueAll (some (.list (done ++ last.toList))) (as.map (within (indexText done.length))) =
      some (.list (done ++ (valueAll last as).toList)) := by
  induction as generalizing last with
  | nil => rfl
  | cons a as ih =>
    have first : (a.within (indexText done.length)).value (some (.list (done ++ last.toList))) =
        .list (done ++ (some (a.value last)).toList) := by
      rw [value_within, placeAt_index word]
      rfl
    have others := ih (some (a.value last))
    rw [← first] at others
    exact others

/-- Where no leaf is a member itself, the first segment is never the empty one. -/
theorem exists_within {i : Nat} {ls : List (List Nat × Scalar)} {as : List Assignment}
    (deeper : ∀ leaf ∈ ls, leaf.1 ≠ [])
    (written : List.Forall₂ Writes (ls.map fun leaf => (i :: leaf.1, leaf.2)) as) :
    ∃ inner, as = inner.map (within (indexText i)) ∧ List.Forall₂ Writes ls inner := by
  induction ls generalizing as with
  | nil =>
    cases written
    exact ⟨[], rfl, .nil⟩
  | cons leaf ls ih =>
    rw [List.forall_mem_cons] at deeper
    obtain ⟨is, s⟩ := leaf
    rw [List.map_cons, List.forall₂_cons_left_iff] at written
    obtain ⟨⟨name, path, argument⟩, others, ⟨spelled, scalar⟩, rest, rfl⟩ := written
    obtain ⟨inner, rfl, writes⟩ := ih deeper.2 rest
    cases spelled with
    | last => exact absurd rfl deeper.1
    | cons spelled => exact ⟨⟨name, _, argument⟩ :: inner, rfl, .cons ⟨spelled, scalar⟩ writes⟩

theorem valueAll_member {done : List Value} (word : done.length < wordCount) {v : Value}
    (whole : ∀ as, List.Forall₂ Writes (leaves v) as → valueAll none as = some v) {as : List Assignment}
    (written : List.Forall₂ Writes ((leaves v).map fun leaf => (done.length :: leaf.1, leaf.2)) as) :
    valueAll (some (.list done)) as = some (.list (done ++ [v])) := by
  cases v with
  | item s =>
    rw [leaves, List.map_singleton, List.forall₂_cons_left_iff] at written
    obtain ⟨⟨name, path, argument⟩, others, ⟨spelled, scalar⟩, rest, rfl⟩ := written
    cases rest
    obtain rfl : s = .text argument := scalar
    cases spelled with
    | last => rfl
    | cons none =>
      cases none
      have placed := placeAt_index word (put (.item (.text argument)) []) none
      rw [Option.toList_none, List.append_nil] at placed
      exact congrArg (fun members => some (Nested.list members)) placed
  | list members =>
    obtain ⟨inner, rfl, writes⟩ := exists_within ne_nil_of_mem_leaves_list written
    have made := valueAll_within word none inner
    rw [whole inner writes, Option.toList_none, List.append_nil, Option.toList_some] at made
    exact made

theorem valueAll_leavesFrom {done members : List Value} (countable : done.length + members.length ≤ wordCount)
    (whole : ∀ v ∈ members, ∀ as, List.Forall₂ Writes (leaves v) as → valueAll none as = some v)
    {as : List Assignment} (written : List.Forall₂ Writes (leavesFrom done.length members) as) :
    valueAll (some (.list done)) as = some (.list (done ++ members)) := by
  -- the invariant is that the next index is the number of members done
  induction members generalizing done as with
  | nil =>
    cases written
    rw [List.append_nil]
    rfl
  | cons v members ih =>
    rw [List.length_cons] at countable
    rw [List.forall_mem_cons] at whole
    obtain ⟨first, others, rfl, here, later⟩ := forall₂_append written
    have next : (done ++ [v]).length = done.length + 1 := List.length_append
    rw [← next] at later
    rw [valueAll_append, valueAll_member (by omega) whole.1 here,
      ih (by omega) whole.2 later, List.append_assoc, List.singleton_append]

theorem Spellable.valueAll_leaves {room : Nat} {v : Value} (spellable : Spellable room v) :
    ∀ as, List.Forall₂ Writes (leaves v) as → valueAll none as = some v := by
  induction spellable with
  | text s =>
    intro as written
    rw [leaves, List.forall₂_cons_left_iff] at written
    obtain ⟨⟨name, path, argument⟩, others, ⟨spelled, scalar⟩, rest, rfl⟩ := written
    cases rest
    cases spelled
    obtain rfl : s = argument := Scalar.text.inj scalar
    rfl
  | @list room members some countable each ih =>
    intro as written
    have fromEmpty : valueAll (.some (.list [])) as = .some (.list members) :=
      valueAll_leavesFrom (by simpa using countable) ih written
    cases as with
    | nil =>
      have nonempty := (Spellable.list some countable each).leaves_ne_nil
      exact absurd (List.forall₂_nil_right_iff.mp written) nonempty
    | cons a as =>
      obtain ⟨leaf, ls, writes, -, parts⟩ := List.forall₂_cons_right_iff.mp written
      have nested : a.path ≠ [] := by
        have inside : leaf ∈ leaves (.list members) := parts ▸ List.mem_cons_self
        have deeper : leaf.1 ≠ [] := ne_nil_of_mem_leaves_list leaf inside
        rw [← List.length_pos_iff] at deeper ⊢
        rw [writes.path.length_eq]
        exact deeper
      rw [valueAll, List.foldl_cons, value_none nested]
      exact fromEmpty

end RowFilter.Query
