import RowFilter.Proofs.Sql.Token

/-!
# Quoted tokens read back

What stands behind a quoted token must not start with its mark, or the token would go on.

* `readQuoted_doubling`, `readQuoted_escaping` : the inside of a token is what was put there;
* `Flavour.pieces?_name`, `Flavour.pieces?_text` : so a name and a text are each one piece;
* `Flavour.pieces?_plain` : what has no mark in it stays outside.
-/

namespace RowFilter.Sql

open Dialect (doubling escaping enclosed)

/-! ## One character of a token -/

section Steps

variable {mark : Char} {backslash : Bool} {c : Char} {rest : List Char}

theorem readQuoted_close (fresh : rest.head? ≠ some mark) :
    readQuoted mark backslash (mark :: rest) = some ([], rest) := by
  cases rest with
  | nil => rw [readQuoted, if_pos rfl]
  | cons d rest =>
    have other : d ≠ mark := by simpa using fresh
    rw [readQuoted, if_pos rfl]
    exact if_neg other

theorem readQuoted_twice :
    readQuoted mark backslash (mark :: mark :: rest) =
      withChar mark (readQuoted mark backslash rest) := by
  rw [readQuoted, if_pos rfl]
  exact if_pos rfl

theorem readQuoted_escape {e : Char} (other : mark ≠ '\\') (escapes : unescape? e = some c) :
    readQuoted mark true ('\\' :: e :: rest) = withChar c (readQuoted mark true rest) := by
  rw [readQuoted, if_neg other.symm, if_pos (by decide)]
  simp only [escapes, Option.bind_some]

theorem readQuoted_other (other : c ≠ mark) (plain : backslash = true → c ≠ '\\') :
    readQuoted mark backslash (c :: rest) = withChar c (readQuoted mark backslash rest) := by
  rw [readQuoted.eq_def]
  dsimp only
  rw [if_neg other, if_neg (by simpa using plain)]

end Steps

/-! ## Whole tokens -/

theorem readQuoted_doubling {mark : Char} {rest : List Char} (fresh : rest.head? ≠ some mark)
    (text : List Char) :
    readQuoted mark false (text.flatMap (doubling mark) ++ mark :: rest) = some (text, rest) := by
  induction text with
  | nil => exact readQuoted_close fresh
  | cons c text ih =>
    rw [List.flatMap_cons, List.append_assoc]
    by_cases same : c = mark
    · subst same
      rw [doubling, if_pos rfl, List.cons_append, List.cons_append, List.nil_append,
        readQuoted_twice, ih]
      rfl
    · rw [doubling, if_neg same, List.cons_append, List.nil_append,
        readQuoted_other same (by simp), ih]
      rfl

theorem readQuoted_escaping_append (c : Char) (rest : List Char) :
    readQuoted '\'' true (escaping c ++ rest) = withChar c (readQuoted '\'' true rest) := by
  have other : '\'' ≠ '\\' := by decide
  unfold escaping
  split
  · exact readQuoted_escape other rfl
  · exact readQuoted_twice
  · exact readQuoted_escape other rfl
  · exact readQuoted_escape other rfl
  · exact readQuoted_escape other rfl
  · exact readQuoted_escape other rfl
  · rename_i notBackslash notQuote _ _ _ _
    exact readQuoted_other notQuote fun _ => notBackslash

theorem readQuoted_escaping {rest : List Char} (fresh : rest.head? ≠ some '\'') (text : List Char) :
    readQuoted '\'' true (text.flatMap escaping ++ '\'' :: rest) = some (text, rest) := by
  induction text with
  | nil => exact readQuoted_close fresh
  | cons c text ih =>
    rw [List.flatMap_cons, List.append_assoc, readQuoted_escaping_append, ih]
    rfl

theorem toList_enclosed_append (mark : Char) (inside : Char → List Char) (text : String)
    (rest : List Char) :
    (enclosed mark inside text).toList ++ rest =
      mark :: (text.toList.flatMap inside ++ mark :: rest) := by
  simp [enclosed]

/-! ## The pieces of a text -/

namespace Flavour

variable {k : Flavour} {rest : List Char}

theorem nameMark_ne_quote (k : Flavour) : k.nameMark ≠ '\'' := by
  cases k <;> decide

theorem exists_inside_name (fresh : rest.head? ≠ some k.nameMark) (s : String) :
    ∃ inside, (k.dialect.name s).toList ++ rest = k.nameMark :: inside ∧
      readQuoted k.nameMark false inside = some (s.toList, rest) := by
  have written : k.dialect.name s = enclosed k.nameMark (doubling k.nameMark) s := by
    cases k <;> rfl
  rw [written, toList_enclosed_append]
  exact ⟨_, rfl, readQuoted_doubling fresh s.toList⟩

theorem exists_inside_text (fresh : rest.head? ≠ some '\'') (s : String) :
    ∃ inside, (k.dialect.literal (.text s)).toList ++ rest = '\'' :: inside ∧
      readQuoted '\'' k.backslash inside = some (s.toList, rest) := by
  cases k with
  | ansi => exact ⟨_, toList_enclosed_append _ _ _ _, readQuoted_doubling fresh _⟩
  | mysql => exact ⟨_, toList_enclosed_append _ _ _ _, readQuoted_escaping fresh _⟩

theorem pieces?_name (fresh : rest.head? ≠ some k.nameMark) (s : String) :
    k.pieces? ((k.dialect.name s).toList ++ rest) = (k.pieces? rest).map (.name s :: ·) := by
  obtain ⟨inside, written, read⟩ := k.exists_inside_name fresh s
  rw [written, pieces?, if_pos rfl]
  split
  · rename_i inside after found
    rw [read] at found
    cases found
    rw [String.ofList_toList]
  · rename_i found
    rw [read] at found
    cases found

theorem pieces?_text (fresh : rest.head? ≠ some '\'') (s : String) :
    k.pieces? ((k.dialect.literal (.text s)).toList ++ rest) =
      (k.pieces? rest).map (.text s :: ·) := by
  obtain ⟨inside, written, read⟩ := k.exists_inside_text fresh s
  rw [written, pieces?, if_neg k.nameMark_ne_quote.symm, if_pos rfl]
  split
  · rename_i inside after found
    rw [read] at found
    cases found
    rw [String.ofList_toList]
  · rename_i found
    rw [read] at found
    cases found

def isMark (c : Char) : Bool := c = '\'' || c = '"' || c = '\x60'

theorem isMark_nameMark (k : Flavour) : isMark k.nameMark := by
  cases k <;> decide

theorem pieces?_plain {letters : List Char} (unmarked : ∀ c ∈ letters, ¬ isMark c) :
    k.pieces? (letters ++ rest) = (k.pieces? rest).map (letters.map .plain ++ ·) := by
  induction letters with
  | nil => cases h : k.pieces? rest <;> simp [h]
  | cons c letters ih =>
    have unmarkedHead : ¬ isMark c := unmarked c List.mem_cons_self
    have notName : c ≠ k.nameMark := by
      rintro rfl
      exact unmarkedHead k.isMark_nameMark
    have notQuote : c ≠ '\'' := by
      rintro rfl
      exact unmarkedHead rfl
    rw [List.cons_append, pieces?, if_neg notName, if_neg notQuote,
      ih fun d h => unmarked d (List.mem_cons_of_mem c h), Option.map_map]
    rfl

end Flavour

end RowFilter.Sql
