import RowFilter.Proofs.Query.Spelled

/-!
# Keys of a query string do not interfere

Reading threads one value after another through the same criteria, yet what a name ends up with depends on
its own assignments alone.

* `Assignment.listed` : assignments made on a plain list of pairs, and `toList_makeAll` : making them in
  criteria comes to the same;
* `keys_listed` : the names stand in the order in which they first appear;
* `get?_listed` : the value of a name is made by its own assignments, in order;
* `read_by_name` : what reading gives.
-/

namespace RowFilter.Query

open Assignment

theorem eraseDups_of_nodup {α : Type} [BEq α] [LawfulBEq α] {as : List α} (distinct : as.Nodup) :
    as.eraseDups = as := by
  induction as with
  | nil => rfl
  | cons a as ih =>
    obtain ⟨fresh, distinct⟩ := List.nodup_cons.mp distinct
    have others : as.filter (fun b => !b == a) = as := by
      refine List.filter_eq_self.mpr fun b member => ?_
      have other : b ≠ a := fun same => fresh (same ▸ member)
      simpa using other
    rw [List.eraseDups_cons, others, ih distinct]

/-! ## Assignments on a plain list -/

namespace Assignment

/-- A plain list of pairs with assignments made, from first to last. -/
def listed (l : Entries) (as : List Assignment) : Entries :=
  as.foldl (fun l a => l.update a.name a.value) l

/-- What a name holds after an assignment to it: a text where there are no brackets, and else the list that it
held, or an empty one, with the text put at the end of the path. -/
def next (present : Option Value) (a : Assignment) : Option Value :=
  match a.path with
  | [] => some (.item (.text a.argument))
  | segment :: path =>
    some (put (.item (.text a.argument)) (segment :: path) (some (.list (Value.members present))))

theorem some_value (a : Assignment) (present : Option Value) : some (a.value present) = next present a := by
  unfold value next
  cases a.path with
  | nil => rfl
  | cons segment path =>
    rcases present with _ | _ | members <;> rfl

theorem keys_listed {l : Entries} (distinct : l.keys.Nodup) (as : List Assignment) :
    (listed l as).keys = (l.keys ++ as.map name).eraseDups := by
  induction as generalizing l with
  | nil => rw [List.map_nil, List.append_nil, eraseDups_of_nodup distinct, listed, List.foldl_nil]
  | cons a as ih =>
    have first : (l.keys ++ a.name :: as.map name).eraseDups =
        ((l.update a.name a.value).keys ++ as.map name).eraseDups := by
      rw [Entries.keys_update]
      split
      · rename_i present
        rw [List.eraseDups_append, List.eraseDups_append, List.cons_removeAll, if_neg (by simpa)]
      · rw [List.append_assoc, List.singleton_append]
    rw [List.map_cons, first]
    exact ih (Entries.nodup_keys_update distinct a.name a.value)

theorem get?_listed (l : Entries) (as : List Assignment) (name : String) :
    (listed l as).get? name = (as.filter fun a => a.name = name).foldl next (l.get? name) := by
  induction as generalizing l with
  | nil => rfl
  | cons a as ih =>
    have step : (listed l (a :: as)).get? name = (listed (l.update a.name a.value) as).get? name := rfl
    rw [step, ih, Entries.get?_update]
    by_cases own : a.name = name
    · rw [List.filter_cons_of_pos (by simpa using own), List.foldl_cons, if_pos own.symm, own, some_value]
    · rw [List.filter_cons_of_neg (by simpa using own), if_neg (Ne.symm own)]

end Assignment

/-! ## Assignments in criteria -/

theorem toList_makeAll {c : Criteria} (h : c.WellFormed) (as : List Assignment) :
    (makeAll c as).WellFormed ∧ (makeAll c as).toList = listed c.toList as := by
  unfold makeAll listed
  induction as generalizing c with
  | nil => exact ⟨h, rfl⟩
  | cons a as ih =>
    rw [List.foldl_cons, List.foldl_cons, ← h.toList_update]
    exact ih (h.update a.name a.value)

section Made

variable (as : List Assignment)

theorem wellFormed_makeAll : (makeAll .empty as).WellFormed :=
  (toList_makeAll Criteria.wellFormed_empty as).1

theorem toList_makeAll_empty : (makeAll .empty as).toList = listed [] as :=
  (toList_makeAll Criteria.wellFormed_empty as).2

theorem keys_makeAll : (makeAll .empty as).keys = (as.map name).eraseDups := by
  rw [Criteria.keys_eq, toList_makeAll_empty, keys_listed (l := []) List.nodup_nil]
  rfl

theorem size_makeAll : (makeAll .empty as).size = (as.map name).eraseDups.length := by
  rw [← keys_makeAll, Criteria.keys, List.length_map]
  rfl

theorem get?_makeAll (name : String) :
    (makeAll .empty as).get? name = (as.filter fun a => a.name = name).foldl next none := by
  rw [(wellFormed_makeAll as).get?_eq, toList_makeAll_empty, get?_listed]
  rfl

end Made

/-- What a query string gives that can be read. Its keys are the names that it assigns to, in the order in
which they first appear, and each has the value that its own assignments make of nothing, one after
another. So query strings in which every name has the same assignments in the same order give every name the
same value, however the names are mixed. -/
theorem read_by_name {limit : Nat} {query : String} {c : Criteria} (done : read limit query = .ok c) :
    ∃ as, (∀ as', Spells query as' ↔ as' = as) ∧
      c.keys = (as.map name).eraseDups ∧
      (∀ name, c.get? name = (as.filter fun a => a.name = name).foldl next none) ∧
      (∀ entry ∈ c.toList,
        some entry.2 = (as.filter fun a => a.name = entry.1).foldl next none) ∧
      ∀ limit' query' c' as', read limit' query' = .ok c' → Spells query' as' →
        (∀ name, (as.filter fun a => a.name = name) = as'.filter fun a => a.name = name) →
          ∀ name, c.get? name = c'.get? name := by
  obtain ⟨as, assigned, -, rfl, -⟩ := read_eq_ok_iff.mp done
  refine ⟨as, fun as' => ?_, keys_makeAll as, get?_makeAll as, ?_, ?_⟩
  · rw [← assignments_eq_ok_iff, assigned, Except.ok.injEq, eq_comm]
  · intro entry member
    rw [← get?_makeAll, (wellFormed_makeAll as).get?_eq]
    exact (Entries.get?_of_mem (wellFormed_makeAll as).1 member).symm
  · intro limit' query' c' as' done' spelled' same name
    obtain ⟨_, assigned', -, rfl, -⟩ := read_eq_ok_iff.mp done'
    obtain rfl := Except.ok.inj ((assignments_eq_ok_iff.mpr spelled').symm.trans assigned')
    rw [get?_makeAll, get?_makeAll, same]

/-- A name with escapes in it, a scalar assigned twice, an empty piece, one without a name and one whose brackets do not
close; and the same assignments in another order. -/
theorem read_by_name_mixed : ∃ c c',
    read 3 "?%61[]=x&b=1&a%5B%5D=%C3%A9&&b=2+%zz&=u&c[=y=z&a[0][]=w" = .ok c ∧
      c.keys = ["a", "b", "c["] ∧
      c.get? "a" = some (.list [.list [.item (.text "w")], .item (.text "é")]) ∧
      c.get? "b" = some (.item (.text "2 %zz")) ∧ c.get? "c[" = some (.item (.text "y=z")) ∧
      read 3 "c%5b=y%3Dz&b=1&a[]=x&a[]=%c3%a9&a[0][]=w&b=2%20%25zz" = .ok c' ∧
      ∀ name, c.get? name = c'.get? name := by
  have assigned : assignments "?%61[]=x&b=1&a%5B%5D=%C3%A9&&b=2+%zz&=u&c[=y=z&a[0][]=w" =
      .ok [⟨"a", [""], "x"⟩, ⟨"b", [], "1"⟩, ⟨"a", [""], "é"⟩, ⟨"b", [], "2 %zz"⟩, ⟨"c[", [], "y=z"⟩,
        ⟨"a", ["0", ""], "w"⟩] := by rfl
  have assigned' : assignments "c%5b=y%3Dz&b=1&a[]=x&a[]=%c3%a9&a[0][]=w&b=2%20%25zz" =
      .ok [⟨"c[", [], "y=z"⟩, ⟨"b", [], "1"⟩, ⟨"a", [""], "x"⟩, ⟨"a", [""], "é"⟩, ⟨"a", ["0", ""], "w"⟩,
        ⟨"b", [], "2 %zz"⟩] := by rfl
  have done := read_eq_ok_iff.mpr ⟨_, assigned, by decide, rfl, (size_makeAll _).trans_le (by decide : 3 ≤ 3)⟩
  have done' := read_eq_ok_iff.mpr ⟨_, assigned', by decide, rfl, (size_makeAll _).trans_le (by decide : 3 ≤ 3)⟩
  obtain ⟨as, spelled, keys, values, -, alike⟩ := read_by_name done
  obtain rfl := (spelled _).mp (assignments_eq_ok_iff.mp assigned)
  refine ⟨_, _, done, keys, values "a", values "b", values "c[", done', ?_⟩
  refine alike 3 _ _ _ done' (assignments_eq_ok_iff.mp assigned') fun name => ?_
  simp only [List.filter_cons, List.filter_nil, decide_eq_true_eq]
  by_cases a : "a" = name
  · subst a
    rfl
  · by_cases b : "b" = name
    · subst b
      rfl
    · simp only [a, b, if_false]

end RowFilter.Query
