import Mathlib.Data.List.Infix
import RowFilter.Proofs.Sql.Statement

/-!
# Patterns

* `Part`, `parts` : the wildcards and the characters of a pattern, in which a backslash takes the next character as it
  is;
* `fits` : the texts of a pattern;
* `IsTrueOf` : a text match that a database reads, true of what stands in its column;
* `endsOrEscapes` : the wildcard behind an argument is one, or a backslash at the end of the argument escapes it;
* `fits_contains`, `fits_startsWith` : an argument beside wildcards fits every text that it is a part of, if it fits
  itself;
* `text_match_finds` : so that is all there is to ask of a compiled match.
-/

namespace RowFilter.Sql

/-! ## Patterns and their texts -/

inductive Part where
  /-- Any characters, or none. -/
  | any
  /-- A single character, whichever it is. -/
  | one
  | char (c : Char)
deriving DecidableEq, Repr

/-- The parts of a pattern. A backslash takes the next character as it is, and stands for itself where there is
none. -/
def parts : List Char → List Part
  | [] => []
  | '\\' :: c :: pattern => .char c :: parts pattern
  | '%' :: pattern => .any :: parts pattern
  | '_' :: pattern => .one :: parts pattern
  | c :: pattern => .char c :: parts pattern

theorem parts_escape (c : Char) (rest : List Char) : parts (['\\', c] ++ rest) = .char c :: parts rest := rfl

theorem parts_any (rest : List Char) : parts (['%'] ++ rest) = .any :: parts rest := rfl

theorem parts_one (rest : List Char) : parts (['_'] ++ rest) = .one :: parts rest := rfl

theorem parts_char {c : Char} (noEscape : c ≠ '\\') (noAny : c ≠ '%') (noOne : c ≠ '_') (rest : List Char) :
    parts ([c] ++ rest) = .char c :: parts rest := by
  rw [List.singleton_append, parts]
  · exact fun _ _ same => absurd same noEscape
  · exact noAny
  · exact noOne

def fits : List Part → List Char → Bool
  | [], text => text.isEmpty
  | .any :: ps, text => text.tails.any (fits ps)
  | .one :: ps, text => match text with
    | [] => false
    | _ :: rest => fits ps rest
  | .char c :: ps, text => match text with
    | [] => false
    | d :: rest => c = d && fits ps rest

theorem fits_any_iff {ps : List Part} {text : List Char} :
    fits (.any :: ps) text ↔ ∃ rest, rest <:+ text ∧ fits ps rest := by
  rw [fits, List.any_eq_true]
  simp only [List.mem_tails]

theorem fits_one_iff {ps : List Part} {text : List Char} :
    fits (.one :: ps) text ↔ ∃ c rest, text = c :: rest ∧ fits ps rest := by
  cases text with
  | nil => exact iff_of_false Bool.false_ne_true nofun
  | cons c rest =>
    constructor
    · intro found
      exact ⟨c, rest, rfl, found⟩
    · rintro ⟨_, _, same, found⟩
      cases same
      exact found

theorem fits_char_iff {c : Char} {ps : List Part} {text : List Char} :
    fits (.char c :: ps) text ↔ ∃ rest, text = c :: rest ∧ fits ps rest := by
  cases text with
  | nil => exact iff_of_false Bool.false_ne_true nofun
  | cons d rest =>
    rw [fits, Bool.and_eq_true, decide_eq_true_iff]
    constructor
    · rintro ⟨rfl, found⟩
      exact ⟨rest, rfl, found⟩
    · rintro ⟨_, same, found⟩
      cases same
      exact ⟨rfl, found⟩

/-- A wildcard in front takes any more characters. -/
theorem fits_any_append {ps : List Part} {text : List Char} (found : fits (.any :: ps) text) (before : List Char) :
    fits (.any :: ps) (before ++ text) := by
  obtain ⟨rest, suffix, inner⟩ := fits_any_iff.mp found
  exact fits_any_iff.mpr ⟨rest, suffix.trans (List.suffix_append before text), inner⟩

theorem fits_append_any {ps : List Part} {text : List Char} (found : fits (ps ++ [.any]) text) (after : List Char) :
    fits (ps ++ [.any]) (text ++ after) := by
  induction ps generalizing text with
  | nil => exact fits_any_iff.mpr ⟨[], List.nil_suffix, rfl⟩
  | cons p ps ih =>
    cases p with
    | any =>
      obtain ⟨rest, ⟨before, rfl⟩, inner⟩ := fits_any_iff.mp found
      refine fits_any_iff.mpr ⟨rest ++ after, ⟨before, ?_⟩, ih inner⟩
      rw [List.append_assoc]
    | one =>
      obtain ⟨c, rest, rfl, inner⟩ := fits_one_iff.mp found
      exact fits_one_iff.mpr ⟨c, rest ++ after, rfl, ih inner⟩
    | char c =>
      obtain ⟨rest, rfl, inner⟩ := fits_char_iff.mp found
      exact fits_char_iff.mpr ⟨rest ++ after, rfl, ih inner⟩

theorem getLast?_of_fits {ps : List Part} {c : Char} {text : List Char} (found : fits (ps ++ [.char c]) text) :
    text.getLast? = some c := by
  induction ps generalizing text with
  | nil =>
    obtain ⟨rest, rfl, inner⟩ := fits_char_iff.mp found
    obtain rfl := List.isEmpty_iff.mp inner
    rfl
  | cons p ps ih =>
    cases p with
    | any =>
      obtain ⟨rest, ⟨before, rfl⟩, inner⟩ := fits_any_iff.mp found
      rw [List.getLast?_append, ih inner]
      rfl
    | one =>
      obtain ⟨d, rest, rfl, inner⟩ := fits_one_iff.mp found
      rw [List.getLast?_cons, ih inner]
      rfl
    | char d =>
      obtain ⟨rest, rfl, inner⟩ := fits_char_iff.mp found
      rw [List.getLast?_cons, ih inner]
      rfl

/-! ## An argument in front of a wildcard -/

/-- The wildcard behind an argument is one, unless a backslash at the end of the argument takes it as it is. -/
def EndsOrEscapes (argument : List Char) : Prop :=
  parts (argument ++ ['%']) = parts argument ++ [.any] ∨
    argument.getLast? = some '\\' ∧ ∃ ps, parts (argument ++ ['%']) = ps ++ [.char '%']

theorem EndsOrEscapes.append {front argument : List Char} {p : Part}
    (read : ∀ rest, parts (front ++ rest) = p :: parts rest) (behind : EndsOrEscapes argument) :
    EndsOrEscapes (front ++ argument) := by
  rcases behind with whole | ⟨last, ps, cut⟩
  · refine .inl ?_
    rw [List.append_assoc, read, read, whole, List.cons_append]
  · refine .inr ⟨?_, p :: ps, ?_⟩
    · rw [List.getLast?_append, last]
      rfl
    · rw [List.append_assoc, read, cut, List.cons_append]

theorem endsOrEscapes (argument : List Char) : EndsOrEscapes argument := by
  induction argument using parts.induct with
  | case1 => exact .inl rfl
  | case2 c pattern ih => exact ih.append (parts_escape c)
  | case3 pattern ih => exact ih.append parts_any
  | case4 pattern ih => exact ih.append parts_one
  | case5 c pattern noEscape noAny noOne ih =>
    by_cases escape : c = '\\'
    · -- a backslash with nothing behind it is the last character, and meets the wildcard
      cases pattern with
      | nil => exact .inr ⟨congrArg some escape, [], by rw [escape]; rfl⟩
      | cons d pattern => exact absurd rfl (noEscape d pattern escape)
    · exact ih.append (parts_char escape noAny noOne)

/-- No text that ends as the argument does fits, if the wildcard behind it is none. -/
theorem parts_of_fits {argument : List Char} (before : List Part) (text : List Char)
    (found : fits (before ++ parts (argument ++ ['%'])) (text ++ argument)) :
    parts (argument ++ ['%']) = parts argument ++ [.any] := by
  rcases endsOrEscapes argument with whole | ⟨last, ps, cut⟩
  · exact whole
  · rw [cut, ← List.append_assoc] at found
    have wildcard := getLast?_of_fits found
    rw [List.getLast?_append, last] at wildcard
    cases wildcard

/-- An argument between wildcards fits every text that it is a part of, if it fits itself. -/
theorem fits_contains {argument text : List Char} (inside : argument <:+: text)
    (found : fits (parts ('%' :: (argument ++ ['%']))) argument) :
    fits (parts ('%' :: (argument ++ ['%']))) text := by
  obtain ⟨before, after, rfl⟩ := inside
  have whole : parts (argument ++ ['%']) = parts argument ++ [.any] := parts_of_fits [.any] [] found
  have pattern : parts ('%' :: (argument ++ ['%'])) = (.any :: parts argument) ++ [.any] := by
    rw [List.cons_append, ← whole]
    rfl
  rw [pattern] at found ⊢
  exact fits_append_any (fits_any_append found before) after

/-- An argument in front of a wildcard fits every text that starts with it, if it fits itself. -/
theorem fits_startsWith {argument text : List Char} (front : argument <+: text)
    (found : fits (parts (argument ++ ['%'])) argument) : fits (parts (argument ++ ['%'])) text := by
  obtain ⟨after, rfl⟩ := front
  have whole : parts (argument ++ ['%']) = parts argument ++ [.any] := parts_of_fits [] [] found
  rw [whole] at found ⊢
  exact fits_append_any found after

/-- An argument without backslashes fits itself, whatever wildcards it has in it. -/
theorem fits_self {argument rest text : List Char} (noBackslash : '\\' ∉ argument) (found : fits (parts rest) text) :
    fits (parts (argument ++ rest)) (argument ++ text) := by
  induction argument with
  | nil => exact found
  | cons c argument ih =>
    rw [List.mem_cons, not_or] at noBackslash
    obtain ⟨other, others⟩ := noBackslash
    have inner := ih others
    by_cases any : c = '%'
    · subst any
      exact fits_any_iff.mpr ⟨argument ++ text, List.suffix_cons _ _, inner⟩
    by_cases one : c = '_'
    · subst one
      exact fits_one_iff.mpr ⟨_, _, rfl, inner⟩
    · have plain : parts (c :: (argument ++ rest)) = .char c :: parts (argument ++ rest) :=
        parts_char (Ne.symm other) any one _
      rw [List.cons_append, plain]
      exact fits_char_iff.mpr ⟨_, rfl, inner⟩

/-! ## Text matches that a database reads -/

def Literal.characters? : Literal → Option (List Char)
  | text s => some s.toList
  | _ => none

/-- The truth of an atom where its column holds a text. Texts in a row are one pattern; of numbers in a row, and of
other atoms, nothing is said. -/
def Atom.truthOf (text : List Char) : Atom → Truth
  | like _ first others =>
    match (first :: others).mapM Literal.characters? with
    | some row => if fits (parts row.flatten) text then .true else .false
    | none => .unknown
  | _ => .unknown

/-- What a database reads is true where the column holds a text. -/
def IsTrueOf (sql text : String) : Prop :=
  ∃ tokens tree, Flavour.mysql.tokens? sql = some tokens ∧ Derives (.joined .or) tokens tree ∧
    tree.eval (Atom.truthOf text.toList) = .true

theorem isTrueOf_iff {sql : String} {f : Formula} (reads : Expresses .mysql .operand sql f) (text : String) :
    IsTrueOf sql text ↔ f.eval (Atom.truthOf text.toList) = .true := by
  obtain ⟨layout, tree, spelled, apart, derived, same⟩ := (reads.operand .or).one
  have found : Flavour.mysql.tokens? sql = some layout.reduceOption := by
    rw [Flavour.tokens?, spelled, Flavour.mysql.layout?_spelling apart]
    rfl
  constructor
  · rintro ⟨tokens, tree', found', derived', holds⟩
    obtain rfl := Option.some.inj (found.symm.trans found')
    rwa [← same.1, derived.unique derived']
  · intro holds
    exact ⟨_, tree, found, derived, (same.1 _).trans holds⟩

def containsText (column : Column) (argument : String) : String :=
  (Condition.contains (Dialect.mysql.literal (.text argument))).render (Dialect.mysql.column column.table column.name)

def startsWithText (column : Column) (argument : String) : String :=
  (Condition.startsWith (Dialect.mysql.literal (.text argument))).render (Dialect.mysql.column column.table column.name)

section Matches

variable (column : Column) (argument text : String)

theorem containsText_isTrueOf_iff :
    IsTrueOf (containsText column argument) text ↔ fits (parts ('%' :: (argument.toList ++ ['%']))) text.toList := by
  rw [containsText, Condition.render]
  refine (isTrueOf_iff (expresses_contains .mysql column (.text argument)) text).trans ?_
  rw [Formula.eval, Atom.truthOf]
  simp [Literal.characters?, Literal.ofScalar]

theorem startsWithText_isTrueOf_iff :
    IsTrueOf (startsWithText column argument) text ↔ fits (parts (argument.toList ++ ['%'])) text.toList := by
  rw [startsWithText, Condition.render]
  refine (isTrueOf_iff (expresses_startsWith .mysql column (.text argument)) text).trans ?_
  rw [Formula.eval, Atom.truthOf]
  simp [Literal.characters?, Literal.ofScalar]

end Matches

/-- A text match finds all that it is to find exactly if it finds its own argument, and without a backslash in the
argument it does. -/
theorem text_match_finds (column : Column) (argument : String) :
    ((∀ text : String, argument.toList <:+: text.toList → IsTrueOf (containsText column argument) text) ↔
      IsTrueOf (containsText column argument) argument) ∧
    ((∀ text : String, argument.toList <+: text.toList → IsTrueOf (startsWithText column argument) text) ↔
      IsTrueOf (startsWithText column argument) argument) ∧
    ('\\' ∉ argument.toList → IsTrueOf (containsText column argument) argument ∧
      IsTrueOf (startsWithText column argument) argument) := by
  simp only [containsText_isTrueOf_iff, startsWithText_isTrueOf_iff]
  refine ⟨⟨fun all => all argument List.infix_rfl, fun self _ inside => fits_contains inside self⟩,
    ⟨fun all => all argument List.prefix_rfl, fun self _ front => fits_startsWith front self⟩, fun noBackslash => ?_⟩
  have self : fits (parts (argument.toList ++ ['%'])) argument.toList := by
    have wildcard : fits (parts ['%']) [] := by decide
    simpa using fits_self noBackslash wildcard
  exact ⟨fits_any_iff.mpr ⟨_, List.suffix_rfl, self⟩, self⟩

/-- A backslash at the end takes the wildcard behind it as it is. -/
theorem text_match_misses : "x\\".toList <:+: "x\\".toList ∧ "x\\".toList <+: "x\\".toList ∧
    ¬ IsTrueOf (containsText ⟨"t", "a"⟩ "x\\") "x\\" ∧ ¬ IsTrueOf (startsWithText ⟨"t", "a"⟩ "x\\") "x\\" := by
  rw [containsText_isTrueOf_iff, startsWithText_isTrueOf_iff]
  exact ⟨List.infix_rfl, List.prefix_rfl, by decide, by decide⟩

end RowFilter.Sql
