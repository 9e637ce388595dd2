/-!
# Texts between separators

* `forall_mem_splitOn` : a text is cut into parts without the separator;
* `not_mem_intercalate` : a character of no part is in their join at a separator only.
-/

namespace RowFilter

theorem splitOn_eq_singleton {separator : Char} {text : List Char} (absent : separator ∉ text) :
    text.splitOn separator = [text] := by
  refine List.splitOnP_eq_singleton fun c inside => beq_eq_false_iff_ne.mpr ?_
  rintro rfl
  exact absent inside

/-- What stands between separators has none in it, and no other characters than the text. -/
theorem forall_mem_splitOn (separator : Char) (text : List Char) :
    ∀ part ∈ text.splitOn separator, separator ∉ part ∧ ∀ c ∈ part, c ∈ text := by
  induction length : text.length using Nat.strongRecOn generalizing text with
  | ind n ih =>
    by_cases present : separator ∈ text
    · obtain ⟨before, after, rfl⟩ := List.append_of_mem present
      rw [List.length_append, List.length_cons] at length
      have left := ih before.length (by omega) before rfl
      have right := ih after.length (by omega) after rfl
      rw [List.splitOn_append_cons_self, List.forall_mem_append]
      constructor
      · intro part inside
        exact ⟨(left part inside).1, fun c there => List.mem_append_left _ ((left part inside).2 c there)⟩
      · intro part inside
        refine ⟨(right part inside).1, fun c there => List.mem_append_right _ ?_⟩
        exact List.mem_cons_of_mem _ ((right part inside).2 c there)
    · rw [splitOn_eq_singleton present, List.forall_mem_singleton]
      exact ⟨present, fun _ => id⟩

theorem not_mem_intercalate {sep : List Char} {c : Char} (other : c ∉ sep) {ps : List (List Char)}
    (plain : ∀ piece ∈ ps, c ∉ piece) : c ∉ sep.intercalate ps := by
  induction ps with
  | nil => exact List.not_mem_nil
  | cons p ps ih =>
    rw [List.forall_mem_cons] at plain
    cases ps with
    | nil =>
      rw [List.intercalate_singleton]
      exact plain.1
    | cons q ps =>
      rw [List.intercalate_cons_cons, List.mem_append, List.mem_append, not_or, not_or]
      exact ⟨⟨plain.1, other⟩, ih plain.2⟩

end RowFilter
