import RowFilter.Proofs.Nesting
import RowFilter.Proofs.Query.Assignment

/-!
# What a query string puts together

* `Grown` : texts, in lists of which none is empty, so many at most in one another;
* `put_cons` : the first step of a path leads into a list, if need be an empty one;
* `forall_mem_placeAt`, `grown_put` : an argument at the end of a path leaves a value so, through whatever members
  the path leads;
* `Given` : criteria of such values;
* `given_of_readPair` : one pair keeps them so, and `given_of_read` : so does a query string.
-/

namespace RowFilter.Query

open Assignment

/-! ## Values -/

/-- Texts, in lists of which none is empty, at most `room` of these in one another. -/
abbrev Grown (room : Nat) (v : Value) : Prop := v.Within (fun s => ∃ text, s = .text text) (· ≠ []) room

theorem index?_lt {segment : String} {members : List Value} {i : Nat} (found : index? segment members = some i) :
    i < members.length := by
  simpa using (Option.filter_eq_some_iff.mp found).2

section Place

variable {fill : Option Value → Value} {segment : String} {members : List Value}

theorem placeAt_ne_nil : placeAt fill segment members ≠ [] := by
  unfold placeAt
  split
  · rename_i i found
    have inside := index?_lt found
    rw [ne_eq, List.set_eq_nil_iff]
    rintro rfl
    exact Nat.not_lt_zero i inside
  · exact List.append_ne_nil_of_right_ne_nil members (List.cons_ne_nil _ [])

/-- What holds of all members holds of them still, if it does of what one, or a new one, is filled with. -/
theorem forall_mem_placeAt {P : Value → Prop} (filled : ∀ v?, (∀ v ∈ v?, P v) → P (fill v?))
    (each : ∀ v ∈ members, P v) : ∀ v ∈ placeAt fill segment members, P v := by
  unfold placeAt
  split
  · rename_i i _
    intro v inside
    rcases List.mem_or_eq_of_mem_set inside with old | rfl
    · exact each v old
    · exact filled _ fun w found => each w (List.mem_of_getElem? found)
  · rw [List.forall_mem_append, List.forall_mem_singleton]
    exact ⟨each, filled none nofun⟩

end Place

theorem put_cons (leaf : Value) (segment : String) (path : List String) (v? : Option Value) :
    put leaf (segment :: path) v? = .list (placeAt (put leaf path) segment (Value.members v?)) := by
  match v? with
  | some (.list _) | some (.item _) | none => rfl

/-- Whatever stands on a path, a text at its end leaves lists non-empty, and no deeper than there is room for. -/
theorem grown_put (text : String) {path : List String} {room : Nat} (short : path.length ≤ room) {v? : Option Value}
    (grown : ∀ v ∈ v?, Grown room v) : Grown room (put (.item (.text text)) path v?) := by
  induction path generalizing room v? with
  | nil => exact .item ⟨text, rfl⟩
  | cons segment path ih =>
    cases room with
    | zero => exact absurd short (Nat.not_succ_le_zero _)
    | succ room =>
      have filled (w? : Option Value) (grown : ∀ w ∈ w?, Grown room w) :
          Grown room (put (.item (.text text)) path w?) := ih (Nat.le_of_succ_le_succ short) grown
      have members : ∀ w ∈ Value.members v?, Grown room w := by
        match v? with
        | some (.list _) =>
          cases grown _ rfl with
          | list _ each => exact each
        | some (.item _) | none => exact nofun
      rw [put_cons]
      exact .list placeAt_ne_nil (forall_mem_placeAt filled members)

/-! ## Criteria -/

/-- Criteria that a query string may give: few enough keys that have names and are distinct, with values put
together from texts. -/
structure Given (limit : Nat) (c : Criteria) : Prop where
  wellFormed : c.WellFormed
  named : "" ∉ c.keys
  room : c.size ≤ limit
  grown : ∀ entry ∈ c.toList, Grown maxNesting entry.2

theorem given_empty (limit : Nat) : Given limit .empty :=
  ⟨Criteria.wellFormed_empty, nofun, Nat.zero_le limit, nofun⟩

/-- One pair, wherever it leads, keeps criteria so. -/
theorem given_of_readPair {limit : Nat} {c next : Criteria} {pair : List Char × List Char} (given : Given limit c)
    (accepted : readPair limit c pair = .ok next) : Given limit next := by
  rcases readPair_cases accepted with rfl | ⟨a, named, short, rfl, room⟩
  · exact given
  · refine ⟨given.wellFormed.update a.name a.value, ?_, room, ?_⟩
    · have name : a.name ≠ "" := by
        rintro none
        rw [isNamed, none] at named
        cases named
      rw [make, given.wellFormed.keys_update]
      split
      · exact given.named
      · rw [List.mem_append, List.mem_singleton, not_or]
        exact ⟨given.named, name.symm⟩
    · rw [make, given.wellFormed.toList_update]
      exact Entries.forall_mem_update (fun v? grown => grown_put a.argument short grown) given.grown

theorem given_of_read {limit : Nat} {query : String} {c : Criteria} (done : read limit query = .ok c) :
    Given limit c :=
  foldlM_invariant (fun _ _ _ => given_of_readPair) (given_empty limit) done

end RowFilter.Query
