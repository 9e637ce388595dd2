import RowFilter.Proofs.Criteria.Entries
import Mathlib.Data.List.InsertIdx

/-!
# Criteria are a plain list of pairs, found faster

Criteria keep their entries in an array and the position of each key in a map. Nothing that is done with
them tells them from a plain list of pairs.

* `Indexed` : positions that are right for keys; it is kept when a key goes last (`Indexed.push`) and when
  one is taken out and the later ones move up (`Indexed.erase`);
* `Criteria.WellFormed.update`, `Criteria.WellFormed.remove` : so every operation keeps criteria well formed;
* `Criteria.toList_update`, `Criteria.toList_remove`, `Criteria.WellFormed.get?_eq` : and does to the list of
  their entries what the plain operation does;
* `criteria_refine` : every run of operations gives the answers that a plain list gives.
-/

namespace RowFilter

/-! ## Positions -/

/-- Positions that are those of the keys of a list. -/
def Indexed (positions : String → Option Nat) (keys : List String) : Prop :=
  ∀ (key : String) (i : Nat), positions key = some i ↔ keys[i]? = some key

namespace Indexed

variable {positions : String → Option Nat} {keys : List String} {key : String}

theorem eq_none_iff (indexed : Indexed positions keys) : positions key = none ↔ key ∉ keys := by
  rw [Option.eq_none_iff_forall_ne_some, List.mem_iff_getElem?, not_exists]
  exact forall_congr' fun i => not_congr (indexed key i)

theorem push (indexed : Indexed positions keys) (fresh : key ∉ keys) :
    Indexed (fun k => if k = key then some keys.length else positions k) (keys ++ [key]) := by
  intro k i
  have before : keys[i]? = some k → i < keys.length := fun found =>
    (List.getElem?_eq_some_iff.mp found).1
  by_cases same : k = key
  · subst same
    have absent : keys[i]? ≠ some k := fun found => fresh (List.mem_of_getElem? found)
    simp only [if_pos, Option.some.injEq]
    rw [List.getElem?_append]
    split
    · rename_i inside
      exact ⟨fun at_end => by omega, fun found => absurd found absent⟩
    · rename_i outside
      constructor
      · rintro rfl
        simp
      · intro found
        have last := (List.getElem?_eq_some_iff.mp found).1
        simp only [List.length_singleton] at last
        omega
  · simp only [if_neg same]
    rw [indexed k i, List.getElem?_append]
    split
    · exact Iff.rfl
    · rename_i outside
      constructor
      · intro found
        exact absurd (before found) outside
      · intro found
        have last := List.mem_singleton.mp (List.mem_of_getElem? found)
        exact absurd last same

/-- With the key at position `i` out, the positions behind it go down by one. -/
theorem erase (indexed : Indexed positions keys) {i : Nat} (here : positions key = some i) :
    Indexed (fun k => if k = key then none else (positions k).map fun j => if i < j then j - 1 else j)
      (keys.eraseIdx i) := by
  intro k j
  have other (m : Nat) : keys[m]? = some key ↔ m = i := by
    rw [← indexed key m, here, Option.some.injEq, eq_comm]
  dsimp only
  rw [List.getElem?_eraseIdx]
  by_cases same : k = key
  · subst same
    rw [if_pos rfl]
    constructor
    · intro found
      cases found
    · intro found
      split at found
      · have := (other j).mp found
        omega
      · have := (other (j + 1)).mp found
        omega
  · rw [if_neg same, Option.map_eq_some_iff]
    constructor
    · rintro ⟨m, found, moved⟩
      rw [indexed k m] at found
      have elsewhere : m ≠ i := by
        rintro rfl
        exact same (Option.some.inj (found.symm.trans ((other m).mpr rfl)))
      split at moved
      · rw [if_neg (by omega), show j + 1 = m by omega]
        exact found
      · rw [if_pos (by omega), ← moved]
        exact found
    · intro found
      split at found
      · refine ⟨j, (indexed k j).mpr found, ?_⟩
        rw [if_neg (by omega)]
      · refine ⟨j + 1, (indexed k (j + 1)).mpr found, ?_⟩
        rw [if_pos (by omega), Nat.add_sub_cancel]

end Indexed

namespace Criteria

/-! ## Well-formed criteria -/

variable {c : Criteria}

theorem keys_eq (c : Criteria) : c.keys = Entries.keys c.toList := rfl

theorem wellFormed_iff : c.WellFormed ↔ c.keys.Nodup ∧ Indexed (c.positions[·]?) c.keys := by
  simp only [WellFormed, Indexed, keys, toList, List.getElem?_map, Array.getElem?_toList]

theorem wellFormed_empty : empty.WellFormed := by
  simp [wellFormed_iff, empty, keys, toList, Indexed]

namespace WellFormed

theorem indexed (h : c.WellFormed) : Indexed (c.positions[·]?) c.keys := (wellFormed_iff.mp h).2

theorem exists_split (h : c.WellFormed) {key : String} {i : Nat} (found : c.positions[key]? = some i) :
    ∃ (before : Entries) (value : Value) (after : Entries),
      c.toList = before ++ (key, value) :: after ∧ before.length = i ∧ key ∉ before.keys ∧
        key ∉ after.keys := by
  have there : c.keys[i]? = some key := (h.indexed key i).mp found
  have present : key ∈ Entries.keys c.toList := List.mem_of_getElem? there
  obtain ⟨before, value, after, split, fresh, last⟩ := Entries.exists_split h.1 present
  refine ⟨before, value, after, split, ?_, fresh, last⟩
  have position : c.keys[before.length]? = some key := by
    rw [keys_eq, split, Entries.keys_append, Entries.keys_cons, List.getElem?_append_right (by simp [Entries.keys])]
    simp [Entries.keys]
  exact Option.some.inj (((h.indexed key _).mpr position).symm.trans found)

theorem positions_lt (h : c.WellFormed) {key : String} {i : Nat} (found : c.positions[key]? = some i) :
    i < c.size := by
  obtain ⟨before, value, after, split, rfl, -, -⟩ := h.exists_split found
  have total : c.size = c.toList.length := rfl
  rw [total, split, List.length_append, List.length_cons]
  omega

end WellFormed

/-! ## The operations on one key -/

theorem modify_middle {α : Type} (before : List α) (a : α) (after : List α) (f : α → α) :
    (before ++ a :: after).modify before.length f = before ++ f a :: after := by
  induction before with
  | nil => rfl
  | cons b before ih =>
    rw [List.cons_append, List.length_cons, List.modify_succ_cons, ih, List.cons_append]

theorem WellFormed.get?_eq (h : c.WellFormed) (key : String) :
    c.get? key = Entries.get? c.toList key := by
  unfold get?
  cases found : c.positions[key]? with
  | none =>
    have absent : key ∉ Entries.keys c.toList := h.indexed.eq_none_iff.mp found
    rw [Entries.get?_eq_none_iff.mpr absent, Option.bind_none]
  | some i =>
    obtain ⟨before, value, after, split, rfl, fresh, -⟩ := h.exists_split found
    rw [split, Entries.get?_split fresh, Option.bind_some, ← Array.getElem?_toList,
      show c.entries.toList = before ++ (key, value) :: after from split,
      List.getElem?_append_right (Nat.le_refl _), Nat.sub_self]
    rfl

theorem WellFormed.toList_update (h : c.WellFormed) (key : String) (f : Option Value → Value) :
    (c.update key f).toList = Entries.update c.toList key f := by
  unfold update
  split
  · rename_i i found
    obtain ⟨before, value, after, split, rfl, fresh, last⟩ := h.exists_split found
    rw [split, Entries.update_split fresh last, toList, Array.toList_modify,
      show c.entries.toList = before ++ (key, value) :: after from split, modify_middle]
  · rename_i found
    have absent : key ∉ Entries.keys c.toList := h.indexed.eq_none_iff.mp found
    rw [Entries.update_of_not_mem absent, toList, Array.toList_push]
    rfl

theorem WellFormed.keys_update (h : c.WellFormed) (key : String) (f : Option Value → Value) :
    (c.update key f).keys = if key ∈ c.keys then c.keys else c.keys ++ [key] := by
  rw [keys_eq, h.toList_update, Entries.keys_update]
  rfl

theorem WellFormed.update (h : c.WellFormed) (key : String) (f : Option Value → Value) :
    (c.update key f).WellFormed := by
  refine wellFormed_iff.mpr ⟨?_, ?_⟩
  · rw [keys_eq, h.toList_update]
    exact Entries.nodup_keys_update h.1 key f
  · rw [h.keys_update]
    unfold Criteria.update
    split
    · rename_i i found
      have present : key ∈ c.keys := by
        refine Decidable.not_not.mp fun absent => ?_
        rw [h.indexed.eq_none_iff.mpr absent] at found
        cases found
      rw [if_pos present]
      exact h.indexed
    · rename_i found
      have absent : key ∉ c.keys := h.indexed.eq_none_iff.mp found
      have inserted : (fun k => (c.positions.insert key c.entries.size)[k]?) =
          fun k => if k = key then some c.keys.length else c.positions[k]? := by
        funext k
        rw [Std.HashMap.getElem?_insert, beq_eq_decide, keys, toList, List.length_map, Array.length_toList]
        simp only [decide_eq_true_eq, @eq_comm String key k]
      rw [if_neg absent]
      change Indexed (fun k => (c.positions.insert key c.entries.size)[k]?) (c.keys ++ [key])
      rw [inserted]
      exact h.indexed.push absent

theorem WellFormed.toList_remove (h : c.WellFormed) (key : String) :
    (c.remove key).toList = Entries.remove c.toList key := by
  unfold remove
  split
  · rename_i i found
    obtain ⟨before, value, after, split, rfl, fresh, last⟩ := h.exists_split found
    rw [split, Entries.remove_split fresh last, toList, Array.toList_eraseIdxIfInBounds,
      show c.entries.toList = before ++ (key, value) :: after from split,
      List.eraseIdx_append_of_length_le (Nat.le_refl _), Nat.sub_self]
    rfl
  · rename_i found
    have absent : key ∉ Entries.keys c.toList := h.indexed.eq_none_iff.mp found
    rw [Entries.remove_of_not_mem absent]

theorem WellFormed.remove (h : c.WellFormed) (key : String) : (c.remove key).WellFormed := by
  refine wellFormed_iff.mpr ⟨?_, ?_⟩
  · rw [keys_eq, h.toList_remove]
    exact (List.filter_sublist.map Prod.fst).nodup h.1
  · unfold Criteria.remove
    split
    · rename_i i found
      have erased : (fun k => ((c.positions.erase key).map fun _ j => if i < j then j - 1 else j)[k]?) =
          fun k => if k = key then none
            else (c.positions[k]?).map fun j => if i < j then j - 1 else j := by
        funext k
        rw [Std.HashMap.getElem?_map, Std.HashMap.getElem?_erase, beq_eq_decide]
        simp only [decide_eq_true_eq, @eq_comm String key k]
        split <;> rfl
      change Indexed
        (fun k => ((c.positions.erase key).map fun _ j => if i < j then j - 1 else j)[k]?) _
      rw [erased, keys, toList, Array.toList_eraseIdxIfInBounds, ← List.eraseIdx_map]
      exact h.indexed.erase found
    · exact h.indexed

theorem WellFormed.insert (h : c.WellFormed) (key : String) (value : Value) :
    (c.insert key value).WellFormed := h.update key _

theorem WellFormed.insertMany (h : c.WellFormed) (pairs : List (String × Value)) :
    (c.insertMany pairs).WellFormed ∧
      (c.insertMany pairs).toList = Entries.insertMany c.toList pairs := by
  unfold Criteria.insertMany Entries.insertMany
  induction pairs generalizing c with
  | nil => exact ⟨h, rfl⟩
  | cons pair pairs ih =>
    rw [List.foldl_cons, List.foldl_cons, Entries.insert, ← h.toList_update]
    exact ih (h.insert pair.1 pair.2)

theorem wellFormed_ofList (pairs : List (String × Value)) : (ofList pairs).WellFormed :=
  (wellFormed_empty.insertMany pairs).1

theorem toList_ofList {pairs : List (String × Value)} (distinct : (Entries.keys pairs).Nodup) :
    (ofList pairs).toList = pairs := by
  have inserted := (wellFormed_empty.insertMany pairs).2
  have listed : Entries.insertMany [] pairs = pairs := Entries.insertMany_of_nodup (l := []) distinct
  exact inserted.trans listed

end Criteria

/-! ## Runs -/

/-- The members of a value that is a list. A scalar, or no value at all, counts as an empty list. -/
def Value.members : Option Value → List Value
  | some (.list members) => members
  | _ => []

inductive Operation where
  /-- A value for a key; the answer is the value that it had. -/
  | exchange (key : String) (value : Value)
  | insert (key : String) (value : Value)
  | insertMany (pairs : List (String × Value))
  /-- Criteria made of pairs, in place of those at hand. -/
  | ofList (pairs : List (String × Value))
  /-- A key taken out; the answer is the value that it had. -/
  | take (key : String)
  /-- The members of the list under a key changed; whatever is no list gives way to an empty one. -/
  | changeMembers (key : String) (change : List Value → List Value)
  | get? (key : String)
  | size
  | isEmpty
  | toList

inductive Answer where
  | done
  | value (value? : Option Value)
  | count (count : Nat)
  | flag (flag : Bool)
  | entries (entries : List (String × Value))

def Criteria.perform (c : Criteria) : Operation → Answer × Criteria
  | .exchange key value => (c.exchange key value).map .value id
  | .insert key value => (.done, c.insert key value)
  | .insertMany pairs => (.done, c.insertMany pairs)
  | .ofList pairs => (.done, ofList pairs)
  | .take key => (c.take key).map .value id
  | .changeMembers key change =>
    (.done, c.update key fun present => .list (change (Value.members present)))
  | .get? key => (.value (c.get? key), c)
  | .size => (.count c.size, c)
  | .isEmpty => (.flag c.isEmpty, c)
  | .toList => (.entries c.toList, c)

def Entries.perform (l : Entries) : Operation → Answer × Entries
  | .exchange key value => (.value (l.get? key), l.insert key value)
  | .insert key value => (.done, l.insert key value)
  | .insertMany pairs => (.done, l.insertMany pairs)
  | .ofList pairs => (.done, insertMany [] pairs)
  | .take key => (.value (l.get? key), l.remove key)
  | .changeMembers key change =>
    (.done, l.update key fun present => .list (change (Value.members present)))
  | .get? key => (.value (l.get? key), l)
  | .size => (.count l.length, l)
  | .isEmpty => (.flag (decide (l = [])), l)
  | .toList => (.entries l, l)

/-- The answers of operations one after another, and what there is in the end. -/
def Operation.run {σ : Type} (perform : σ → Operation → Answer × σ) (s : σ) :
    List Operation → List Answer × σ
  | [] => ([], s)
  | operation :: operations =>
    let first := perform s operation
    let rest := run perform first.2 operations
    (first.1 :: rest.1, rest.2)

namespace Criteria.WellFormed

variable {c : Criteria}

/-- One operation keeps criteria well formed, and on them it is the operation on their list. -/
theorem perform (h : c.WellFormed) (operation : Operation) :
    (c.perform operation).2.WellFormed ∧
      (c.perform operation).1 = (Entries.perform c.toList operation).1 ∧
      (c.perform operation).2.toList = (Entries.perform c.toList operation).2 := by
  cases operation with
  | exchange key value =>
    have inserted := h.toList_update key fun _ => value
    exact ⟨h.insert key value, congrArg Answer.value (h.get?_eq key), inserted⟩
  | insert key value =>
    have inserted := h.toList_update key fun _ => value
    exact ⟨h.insert key value, rfl, inserted⟩
  | insertMany pairs => exact ⟨(h.insertMany pairs).1, rfl, (h.insertMany pairs).2⟩
  | ofList pairs =>
    have made := wellFormed_empty.insertMany pairs
    exact ⟨made.1, rfl, made.2⟩
  | take key =>
    exact ⟨h.remove key, congrArg Answer.value (h.get?_eq key), h.toList_remove key⟩
  | changeMembers key change => exact ⟨h.update key _, rfl, h.toList_update key _⟩
  | get? key => exact ⟨h, congrArg Answer.value (h.get?_eq key), rfl⟩
  | size => exact ⟨h, rfl, rfl⟩
  | isEmpty =>
    have same : c.isEmpty = decide (c.toList = []) := by
      rw [Criteria.isEmpty, ← Array.isEmpty_toList, Criteria.toList]
      cases c.entries.toList <;> rfl
    exact ⟨h, congrArg Answer.flag same, rfl⟩
  | toList => exact ⟨h, rfl, rfl⟩

theorem run (h : c.WellFormed) (operations : List Operation) :
    (Operation.run Criteria.perform c operations).2.WellFormed ∧
      (Operation.run Criteria.perform c operations).1 =
        (Operation.run Entries.perform c.toList operations).1 ∧
      (Operation.run Criteria.perform c operations).2.toList =
        (Operation.run Entries.perform c.toList operations).2 := by
  induction operations generalizing c with
  | nil => exact ⟨h, rfl, rfl⟩
  | cons operation operations ih =>
    obtain ⟨next, answer, left⟩ := h.perform operation
    have rest := ih next
    rw [left] at rest
    refine ⟨rest.1, ?_, rest.2.2⟩
    exact congrArg₂ List.cons answer rest.2.1

end Criteria.WellFormed

/-- Whatever has been done with criteria from the start, their keys are distinct, the map holds exactly the
position of each, none of them outside of the array, and all answers are those of a plain list of pairs,
which is what the entries are. So two histories that leave the same entries give the same answers for ever
after. -/
theorem criteria_refine (history : List Operation) :
    let c := (Operation.run Criteria.perform .empty history).2
    c.keys.Nodup ∧
    (∀ (key : String) (i : Nat), c.positions[key]? = some i ↔
      (c.entries[i]?).map Prod.fst = some key) ∧
    (∀ (key : String) (i : Nat), c.positions[key]? = some i → i < c.entries.size) ∧
    (Operation.run Criteria.perform .empty history).1 =
      (Operation.run Entries.perform [] history).1 ∧
    c.toList = (Operation.run Entries.perform [] history).2 ∧
    ∀ other, (Operation.run Criteria.perform .empty other).2.toList = c.toList →
      ∀ later, (Operation.run Criteria.perform c later).1 =
        (Operation.run Criteria.perform (Operation.run Criteria.perform .empty other).2 later).1 := by
  intro c
  have reached : c.WellFormed := (Criteria.wellFormed_empty.run history).1
  refine ⟨reached.1, reached.2, fun key i => reached.positions_lt, ?_, ?_, ?_⟩
  · exact (Criteria.wellFormed_empty.run history).2.1
  · exact (Criteria.wellFormed_empty.run history).2.2
  · intro other same later
    have alsoReached := (Criteria.wellFormed_empty.run other).1
    rw [(reached.run later).2.1, (alsoReached.run later).2.1, same]

end RowFilter
