import Mathlib.Data.List.TakeWhile
import RowFilter.Query.Path

/-!
# Keys with brackets are taken apart as they were put together

* `BracketKey.text` : a name and the segments of a path in brackets;
* `BracketKey.ofText_text` : reading it back;
* `taken` : the text that has been read at a state of `segments?`, of which no step loses anything, and
  `segments?_eq_some_iff` : so the texts that consist of segments are those written from segments;
* `BracketKey.WrittenAs` : the keys that end in brackets, and `BracketKey.split_iff_writtenAs` : they and no others are
  taken apart.
-/

namespace RowFilter.Query

def bracketed (segment : String) : List Char := '[' :: (segment.toList ++ [']'])

def BracketKey.text (key : BracketKey) : String :=
  String.ofList (key.name.toList ++ key.path.flatMap bracketed)

theorem segments?_open {segment : List Char} (closed : ']' ∉ segment) (done : List String)
    (sofar rest : List Char) :
    segments? done (some sofar) (segment ++ ']' :: rest) =
      segments? (String.ofList (sofar.reverse ++ segment) :: done) none rest := by
  induction segment generalizing sofar with
  | nil => rw [List.nil_append, segments?, if_pos rfl, List.append_nil]
  | cons c segment ih =>
    rw [List.mem_cons, not_or] at closed
    rw [List.cons_append, segments?, if_neg (Ne.symm closed.1), ih closed.2, List.reverse_cons,
      List.append_assoc, List.singleton_append]

theorem segments?_bracketed {path : List String} (closed : ∀ segment ∈ path, ']' ∉ segment.toList)
    (done : List String) :
    segments? done none (path.flatMap bracketed) = some (done.reverse ++ path) := by
  induction path generalizing done with
  | nil => rw [List.flatMap_nil, segments?, List.append_nil]
  | cons segment path ih =>
    rw [List.forall_mem_cons] at closed
    rw [List.flatMap_cons, bracketed, List.cons_append, List.append_assoc, List.singleton_append,
      segments?, if_pos rfl, segments?_open closed.1, List.reverse_nil, List.nil_append,
      String.ofList_toList, ih closed.2, List.reverse_cons, List.append_assoc, List.singleton_append]

theorem BracketKey.ofText_text {key : BracketKey} (plain : '[' ∉ key.name.toList)
    (closed : ∀ segment ∈ key.path, ']' ∉ segment.toList) : ofText key.text = key := by
  have inName : ∀ c ∈ key.name.toList, (c != '[') = true := fun _ inside =>
    bne_iff_ne.mpr (ne_of_mem_of_not_mem inside plain)
  have before : (key.name.toList ++ key.path.flatMap bracketed).takeWhile (· != '[') = key.name.toList := by
    rw [List.takeWhile_append_of_pos inName]
    cases key.path <;> simp [bracketed]
  have after : (key.name.toList ++ key.path.flatMap bracketed).dropWhile (· != '[') =
      key.path.flatMap bracketed := by
    rw [List.dropWhile_append_of_pos inName]
    cases key.path <;> simp [bracketed]
  simp only [ofText, text, String.toList_ofList, before, after, segments?_bracketed closed,
    List.reverse_nil, List.nil_append, String.ofList_toList]

/-! ## Texts of segments only -/

/-- The text that is behind a state: the segments that are closed, last first, and the one that is open. -/
def taken (done : List String) (opened : Option (List Char)) : List Char :=
  done.reverse.flatMap bracketed ++ opened.elim [] fun segment => '[' :: segment.reverse

/-- No step loses anything of the text, so the segments that are found spell all of it. -/
theorem flatMap_bracketed_of_segments? {done path : List String} {opened : Option (List Char)} {text : List Char}
    (found : segments? done opened text = some path) : path.flatMap bracketed = taken done opened ++ text := by
  fun_induction segments? done opened text with
  | case1 done =>
    cases found
    simp [taken]
  | case2 done rest ih =>
    rw [ih found]
    simp [taken]
  | case5 done segment rest ih =>
    rw [ih found]
    simp [taken, bracketed]
  | case6 done segment c rest _ ih =>
    rw [ih found]
    simp [taken]
  | case3 | case4 => cases found

theorem not_mem_of_segments? {done path : List String} {opened : Option (List Char)} {text : List Char}
    (found : segments? done opened text = some path) (before : ∀ segment ∈ done, ']' ∉ segment.toList)
    (inside : ∀ segment ∈ opened, ']' ∉ segment) : ∀ segment ∈ path, ']' ∉ segment.toList := by
  fun_induction segments? done opened text with
  | case1 done =>
    cases found
    simpa using before
  | case2 done rest ih =>
    apply ih found before
    simp
  | case5 done segment rest ih =>
    apply ih found _ nofun
    rw [List.forall_mem_cons]
    exact ⟨by simpa using inside, before⟩
  | case6 done segment c rest other ih =>
    apply ih found before
    simpa [Ne.symm other] using inside
  | case3 | case4 => cases found

/-- The texts that consist of segments are those that are written from segments. -/
theorem segments?_eq_some_iff {text : List Char} {path : List String} :
    segments? [] none text = some path ↔
      path.flatMap bracketed = text ∧ ∀ segment ∈ path, ']' ∉ segment.toList := by
  constructor
  · intro found
    exact ⟨flatMap_bracketed_of_segments? found, not_mem_of_segments? found nofun nofun⟩
  · rintro ⟨rfl, closed⟩
    exact segments?_bracketed closed []

/-! ## The keys that end in brackets -/

namespace BracketKey

/-- A text that is a name without an opening bracket and, behind it, one segment or more in brackets. There is no
closing bracket in a segment, and nothing behind the last one. -/
structure WrittenAs (key : BracketKey) (text : String) : Prop where
  plain : '[' ∉ key.name.toList
  nonempty : key.path ≠ []
  closed : ∀ segment ∈ key.path, ']' ∉ segment.toList
  spelled : key.text = text

theorem WrittenAs.ofText_eq {key : BracketKey} {text : String} (written : key.WrittenAs text) : ofText text = key := by
  rw [← written.spelled]
  exact ofText_text written.plain written.closed

theorem text_whole (text : String) : (⟨text, []⟩ : BracketKey).text = text := by
  simp [BracketKey.text]

/-- A key is taken apart at its brackets, or else left whole. -/
theorem writtenAs_or_whole (text : String) : (ofText text).WrittenAs text ∨ ofText text = ⟨text, []⟩ := by
  unfold ofText
  split
  · rename_i path found
    obtain ⟨after, closed⟩ := segments?_eq_some_iff.mp found
    have joined : (⟨String.ofList (text.toList.takeWhile (· != '[')), path⟩ : BracketKey).text = text := by
      rw [BracketKey.text, String.toList_ofList, after, List.takeWhile_append_dropWhile, String.ofList_toList]
    by_cases none : path = []
    · subst none
      right
      exact congrArg (mk · []) ((text_whole _).symm.trans joined)
    · left
      refine ⟨fun inside => ?_, none, closed, joined⟩
      rw [String.toList_ofList] at inside
      simpa using List.mem_takeWhile_imp inside
  · exact .inr rfl

theorem text_ofText (text : String) : (ofText text).text = text := by
  rcases writtenAs_or_whole text with written | whole
  · exact written.spelled
  · rw [whole, text_whole]

/-- A key is given a path exactly if it is a name without an opening bracket and then segments in brackets. There is one
way to see it so, and this is how it is taken apart; every other key is left whole. -/
theorem split_iff_writtenAs (text : String) :
    ((ofText text).path ≠ [] ↔ ∃ key : BracketKey, key.WrittenAs text) ∧
    (∀ key : BracketKey, key.WrittenAs text ↔ key = ofText text ∧ key.path ≠ []) ∧
    (ofText text = ⟨text, []⟩ ↔ ¬ ∃ key : BracketKey, key.WrittenAs text) ∧
    (ofText text).text = text := by
  have only (key : BracketKey) : key.WrittenAs text ↔ key = ofText text ∧ key.path ≠ [] := by
    constructor
    · intro written
      exact ⟨written.ofText_eq.symm, written.nonempty⟩
    · rintro ⟨rfl, some⟩
      refine (writtenAs_or_whole text).resolve_right fun whole => some ?_
      rw [whole]
  have split : (ofText text).path ≠ [] ↔ ∃ key : BracketKey, key.WrittenAs text := by
    simp [only]
  refine ⟨split, only, ?_, text_ofText text⟩
  rw [← split, not_not]
  constructor
  · intro whole
    rw [whole]
  · intro none
    exact (writtenAs_or_whole text).resolve_left fun written => written.nonempty none

example : ofText "a]b[[c][]" = ⟨"a]b", ["[c", ""]⟩ := by decide
example : ofText "a[0]b[1]" = ⟨"a[0]b[1]", []⟩ := by decide

end BracketKey

end RowFilter.Query
