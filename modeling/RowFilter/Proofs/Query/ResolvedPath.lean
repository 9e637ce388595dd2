import RowFilter.Proofs.Criteria.Refinement
import RowFilter.Proofs.Query.Placement

/-!
# An argument changes what stands at one place

In the lists at hand, each segment of a path resolves to one index. A leaf at the end of the path is then found behind
these indices, and behind all others stands what stood there before.

* `SpellsWord`, `ResolvesTo` : what a segment spells, and the index that it resolves to in a list;
* `ResolvedPath` : the indices that a path resolves to, of which there is always one sequence
  (`existsUnique_resolvedPath`);
* `valueAt?` : what stands behind indices;
* `Changed`, `changed_placeAt` : one list with a member changed or one more at the end;
* `Updated` : a value with a leaf behind indices, `Updated.list` : the step from a member to its list, and
  `put_updates` : what becomes of any value at any path.
-/

namespace RowFilter.Query

/-! ## Segments -/

/-- Decimal digits, with or without a plus sign, that spell an unsigned word. -/
def SpellsWord (text : List Char) (word : Nat) : Prop :=
  ∃ digits, (text = digits ∨ text = '+' :: digits) ∧ digits ≠ [] ∧ (∀ d ∈ digits, d.isDigit) ∧
    digitsValue digits = word ∧ word < wordCount

/-- In a list of so many members, a segment resolves to the member whose index it spells, and to the place behind the
last member if it spells no such index. -/
def ResolvesTo (segment : String) (length i : Nat) : Prop :=
  i < length ∧ SpellsWord segment.toList i ∨ i = length ∧ ∀ j < length, ¬ SpellsWord segment.toList j

theorem wordOfDigits?_eq_some_iff {digits : List Char} {word : Nat} : wordOfDigits? digits = some word ↔
    digits ≠ [] ∧ (∀ d ∈ digits, d.isDigit) ∧ digitsValue digits = word ∧ word < wordCount := by
  unfold wordOfDigits?
  by_cases digit : digits = [] ∨ ¬ ∀ d ∈ digits, d.isDigit
  · rw [if_pos (by simpa using digit)]
    refine ⟨nofun, fun spelled => ?_⟩
    rcases digit with none | other
    · exact absurd none spelled.1
    · exact absurd spelled.2.1 other
  · rw [if_neg (by simpa using digit)]
    obtain ⟨some, all⟩ := not_or.mp digit
    by_cases small : digitsValue digits < wordCount
    · rw [if_pos small, Option.some.injEq]
      constructor
      · rintro rfl
        exact ⟨some, not_not.mp all, rfl, small⟩
      · exact fun spelled => spelled.2.2.1
    · rw [if_neg small]
      refine ⟨nofun, fun spelled => ?_⟩
      obtain ⟨-, -, rfl, word⟩ := spelled
      exact absurd word small

theorem wordSpelled?_eq_some_iff {text : List Char} {word : Nat} :
    wordSpelled? text = some word ↔ SpellsWord text word := by
  unfold wordSpelled?
  split
  · rename_i digits
    rw [wordOfDigits?_eq_some_iff]
    constructor
    · exact fun spelled => ⟨digits, .inr rfl, spelled⟩
    · rintro ⟨all, rfl | same, some, each, spelled⟩
      · exact absurd (each '+' List.mem_cons_self) (by decide)
      · obtain rfl := List.tail_eq_of_cons_eq same
        exact ⟨some, each, spelled⟩
  · rename_i noPlus
    rw [wordOfDigits?_eq_some_iff]
    constructor
    · exact fun spelled => ⟨text, .inl rfl, spelled⟩
    · rintro ⟨digits, rfl | same, spelled⟩
      · exact spelled
      · exact absurd same (noPlus digits)

theorem index?_eq_some_iff {segment : String} {members : List Value} {i : Nat} :
    index? segment members = some i ↔ i < members.length ∧ SpellsWord segment.toList i := by
  rw [index?, Option.filter_eq_some_iff, wordSpelled?_eq_some_iff, decide_eq_true_eq, and_comm]

theorem resolvesTo_iff {segment : String} {members : List Value} {i : Nat} :
    ResolvesTo segment members.length i ↔ i = (index? segment members).getD members.length := by
  cases found : index? segment members with
  | some j =>
    obtain ⟨inside, spelled⟩ := index?_eq_some_iff.mp found
    rw [Option.getD_some]
    constructor
    · rintro (here | ⟨-, nowhere⟩)
      · exact Option.some.inj ((index?_eq_some_iff.mpr here).symm.trans found)
      · exact absurd spelled (nowhere j inside)
    · rintro rfl
      exact .inl ⟨inside, spelled⟩
  | none =>
    have nowhere : ∀ j < members.length, ¬ SpellsWord segment.toList j := by
      intro j inside spelled
      rw [index?_eq_some_iff.mpr ⟨inside, spelled⟩] at found
      cases found
    rw [Option.getD_none]
    constructor
    · rintro (⟨inside, spelled⟩ | ⟨last, -⟩)
      · exact absurd spelled (nowhere i inside)
      · exact last
    · exact fun last => .inr ⟨last, nowhere⟩

/-! ## Paths -/

/-- The indices that the segments of a path resolve to, each in the list that the ones before it lead to. Whatever is
no list counts as an empty one. -/
inductive ResolvedPath : List String → List Value → List Nat → Prop where
  | nil {members : List Value} : ResolvedPath [] members []
  | cons {segment : String} {path : List String} {members : List Value} {i : Nat} {is : List Nat}
      (here : ResolvesTo segment members.length i) (inside : ResolvedPath path (Value.members members[i]?) is) :
      ResolvedPath (segment :: path) members (i :: is)

theorem existsUnique_resolvedPath (path : List String) (members : List Value) :
    ∃! is, ResolvedPath path members is := by
  induction path generalizing members with
  | nil =>
    refine ⟨[], .nil, fun is resolved => ?_⟩
    cases resolved
    rfl
  | cons segment path ih =>
    obtain ⟨i, here⟩ : ∃ i, ResolvesTo segment members.length i := ⟨_, resolvesTo_iff.mpr rfl⟩
    obtain ⟨is, inside, unique⟩ := ih (Value.members members[i]?)
    refine ⟨i :: is, .cons here inside, fun other resolved => ?_⟩
    cases resolved with
    | cons here' inside' =>
      obtain rfl := (resolvesTo_iff.mp here').trans (resolvesTo_iff.mp here).symm
      rw [unique _ inside']

def valueAt? (v? : Option Value) : List Nat → Option Value
  | [] => v?
  | i :: is => valueAt? (Value.members v?)[i]? is

/-! ## One list -/

/-- Members of which the one at an index is new: it stands in place of another one, or behind the last. -/
def Changed (members : List Value) (i : Nat) (v : Value) (changed : List Value) : Prop :=
  i < members.length ∧ changed = members.set i v ∨ i = members.length ∧ changed = members ++ [v]

namespace Changed

variable {members changed : List Value} {i j : Nat} {v : Value}

theorem getElem?_self (h : Changed members i v changed) : changed[i]? = some v := by
  rcases h with ⟨inside, rfl⟩ | ⟨rfl, rfl⟩
  · exact List.getElem?_set_self inside
  · exact List.getElem?_concat_length

theorem getElem?_of_ne (h : Changed members i v changed) (other : j ≠ i) : changed[j]? = members[j]? := by
  rcases h with ⟨-, rfl⟩ | ⟨rfl, rfl⟩
  · exact List.getElem?_set_ne other.symm
  · rcases Nat.lt_or_gt_of_ne other with inside | outside
    · exact List.getElem?_append_left inside
    · have short : (members ++ [v]).length ≤ j := by
        rw [List.length_append]
        exact outside
      rw [List.getElem?_eq_none short, List.getElem?_eq_none (Nat.le_of_lt outside)]

end Changed

theorem changed_placeAt {segment : String} {members : List Value} {i : Nat}
    (here : ResolvesTo segment members.length i) (fill : Option Value → Value) :
    Changed members i (fill members[i]?) (placeAt fill segment members) := by
  have index := resolvesTo_iff.mp here
  unfold placeAt
  cases found : index? segment members with
  | some j =>
    rw [found, Option.getD_some] at index
    subst index
    exact .inl ⟨index?_lt found, rfl⟩
  | none =>
    rw [found, Option.getD_none] at index
    subst index
    rw [List.getElem?_length]
    exact .inr ⟨rfl, rfl⟩

/-! ## Values -/

/-- A value with a leaf behind indices. On the way there each list has one member changed or one more at its end, and
behind indices that neither lead further along nor beyond stands what stood there before. -/
structure Updated (leaf : Value) (is : List Nat) (before : Option Value) (after : Value) : Prop where
  reaches : valueAt? (some after) is = some leaf
  onTheWay : ∀ js i ks, is = js ++ i :: ks → ∃ v changed, valueAt? (some after) js = some (.list changed) ∧
    Changed (Value.members (valueAt? before js)) i v changed
  elsewhere : ∀ js, ¬ js <+: is → ¬ is <+: js → valueAt? (some after) js = valueAt? before js

namespace Updated

theorem here (leaf : Value) (before : Option Value) : Updated leaf [] before leaf where
  reaches := rfl
  onTheWay js i ks none := absurd none (by simp)
  elsewhere js _ beyond := absurd List.nil_prefix beyond

theorem list {leaf : Value} {i : Nat} {is : List Nat} {before : Option Value} {v : Value} {changed : List Value}
    (one : Changed (Value.members before) i v changed) (member : Updated leaf is (Value.members before)[i]? v) :
    Updated leaf (i :: is) before (.list changed) where
  reaches := by
    show valueAt? changed[i]? is = some leaf
    rw [one.getElem?_self]
    exact member.reaches
  onTheWay js k ks split := by
    cases js with
    | nil =>
      obtain rfl := List.head_eq_of_cons_eq split
      exact ⟨v, changed, rfl, one⟩
    | cons j js =>
      obtain rfl := List.head_eq_of_cons_eq split
      show ∃ v' changed', valueAt? changed[i]? js = _ ∧ _
      rw [one.getElem?_self]
      exact member.onTheWay js k ks (List.tail_eq_of_cons_eq split)
  elsewhere js before' beyond := by
    cases js with
    | nil => exact absurd List.nil_prefix before'
    | cons j js =>
      show valueAt? changed[j]? js = valueAt? (Value.members before)[j]? js
      by_cases same : j = i
      · subst same
        rw [List.prefix_cons_inj] at before' beyond
        rw [one.getElem?_self]
        exact member.elsewhere js before' beyond
      · rw [one.getElem?_of_ne same]

end Updated

/-- In a list, in any other value, and in no value at all, a path resolves to indices in just one way. The leaf is put
behind these, and nothing else changes. -/
theorem put_updates (leaf : Value) (path : List String) (v? : Option Value) :
    (∃! is, ResolvedPath path (Value.members v?) is) ∧
    ∀ is, ResolvedPath path (Value.members v?) is → Updated leaf is v? (put leaf path v?) := by
  refine ⟨existsUnique_resolvedPath path _, fun is resolved => ?_⟩
  induction path generalizing v? is with
  | nil =>
    cases resolved
    exact .here leaf v?
  | cons segment path ih =>
    cases resolved with
    | cons here inside =>
      rw [put_cons]
      exact .list (changed_placeAt here (put leaf path)) (ih _ _ inside)

/-- The eleventh member, after a plus sign and a zero; and in it an index past the end, which adds a member. -/
example (a b x : Value) : put x ["+010", "7"] (some (.list (List.replicate 10 a ++ [.list [b]]))) =
    .list (List.replicate 10 a ++ [.list [b, x]]) := by
  rfl

end RowFilter.Query
