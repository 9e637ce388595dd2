import RowFilter.Proofs.Sql.Quoting

/-!
# Quoted names and texts show where they end

A database that takes a backslash for the start of an escape knows more escapes than are ever written for it. With all
of these, a name or a text is read back as it was, and what stands behind it is left.

* `unescaped`, `readToken` : every escape, and the inside of a token read with them;
* `readToken_of_readQuoted` : where the escapes that are written suffice, the same is read;
* `Flavour.readName?`, `Flavour.readText?` : the readers of a name and of a text, with the marks;
* `Flavour.quoted_read_back` : they give back what was quoted, exactly if no further mark follows.
-/

namespace RowFilter.Sql

/-! ## The inside of a token -/

/-- The characters that a backslash and another character stand for. Two of these escapes are kept as they are, for
patterns, and a character that has no meaning of its own stands for itself. -/
def unescaped : Char → List Char
  | '0' => ['\x00']
  | 'b' => ['\x08']
  | 't' => ['\t']
  | 'n' => ['\n']
  | 'r' => ['\r']
  | 'Z' => ['\x1a']
  | '%' => ['\\', '%']
  | '_' => ['\\', '_']
  | c => [c]

def withChars (chars : List Char) (read : Option (List Char × List Char)) : Option (List Char × List Char) :=
  read.map (Prod.map (chars ++ ·) id)

/-- The characters of a quoted token behind its opening mark, and what follows the closing one. -/
def readToken (mark : Char) (backslash : Bool) : List Char → Option (List Char × List Char)
  | [] => none
  | c :: rest =>
    if c = mark then
      match rest with
      | [] => some ([], [])
      | d :: after =>
        if d = mark then withChars [mark] (readToken mark backslash after) else some ([], d :: after)
    else if backslash && c = '\\' then
      match rest with
      | [] => none
      | e :: after => withChars (unescaped e) (readToken mark backslash after)
    else withChars [c] (readToken mark backslash rest)

section Tokens

variable {mark : Char} {backslash : Bool} {text : List Char} {read : List Char × List Char}

theorem unescaped_of_unescape? {e c : Char} (known : unescape? e = some c) : unescaped e = [c] := by
  unfold unescape? at known
  split at known <;> cases known <;> rfl

theorem withChars_of_withChar {c : Char} {inner inner' : Option (List Char × List Char)}
    (within : ∀ r, inner = some r → inner' = some r) (h : withChar c inner = some read) :
    withChars [c] inner' = some read := by
  obtain ⟨r, found, rfl⟩ := Option.map_eq_some_iff.mp h
  exact Option.map_eq_some_iff.mpr ⟨r, within r found, rfl⟩

/-- The escapes that are ever written mean to the database what was meant. -/
theorem readToken_of_readQuoted (h : readQuoted mark backslash text = some read) :
    readToken mark backslash text = some read := by
  fun_induction readQuoted mark backslash text generalizing read with
  | case1 | case5 => cases h
  | case2 =>
    rw [readToken, if_pos rfl]
    exact h
  | case3 after ih =>
    rw [readToken, if_pos rfl]
    exact (if_pos rfl).trans (withChars_of_withChar (fun _ => ih) h)
  | case4 d after other =>
    rw [readToken, if_pos rfl]
    exact (if_neg other).trans h
  | case6 c other escape e after ih =>
    obtain ⟨escaped, known, h⟩ := Option.bind_eq_some_iff.mp h
    rw [readToken, if_neg other, if_pos escape]
    show withChars (unescaped e) _ = _
    rw [unescaped_of_unescape? known]
    exact withChars_of_withChar (fun _ => ih) h
  | case7 c rest other plain ih =>
    rw [readToken.eq_def]
    dsimp only
    rw [if_neg other, if_neg plain]
    exact withChars_of_withChar (fun _ => ih) h

theorem head?_of_withChars {chars : List Char} {inner : Option (List Char × List Char)}
    (within : ∀ r, inner = some r → r.2.head? ≠ some mark) (h : withChars chars inner = some read) :
    read.2.head? ≠ some mark := by
  obtain ⟨r, found, rfl⟩ := Option.map_eq_some_iff.mp h
  exact within r found

/-- A token ends at a mark only if no other mark follows it. -/
theorem head?_of_readToken (h : readToken mark backslash text = some read) : read.2.head? ≠ some mark := by
  fun_induction readToken mark backslash text generalizing read with
  | case1 | case5 => cases h
  | case2 =>
    cases h
    exact nofun
  | case4 d after other =>
    cases h
    simpa using other
  | case3 | case6 | case7 =>
    rename_i ih
    exact head?_of_withChars (fun _ => ih) h

end Tokens

/-! ## Whole tokens -/

def readMarked (mark : Char) (backslash : Bool) : List Char → Option (String × List Char)
  | [] => none
  | c :: rest => if c = mark then (readToken mark backslash rest).map (Prod.map String.ofList id) else none

theorem readMarked_eq_some_iff {mark : Char} {backslash : Bool} {text rest : List Char} {s : String}
    (ends : rest.head? ≠ some mark → ∃ inside, text = mark :: inside ∧
      readQuoted mark backslash inside = some (s.toList, rest)) :
    readMarked mark backslash text = some (s, rest) ↔ rest.head? ≠ some mark := by
  constructor
  · intro done
    cases text with
    | nil => cases done
    | cons c inside =>
      rw [readMarked] at done
      split at done
      · obtain ⟨read, found, same⟩ := Option.map_eq_some_iff.mp done
        obtain ⟨-, rfl⟩ := Prod.mk.inj same
        exact head?_of_readToken found
      · cases done
  · intro fresh
    obtain ⟨inside, rfl, read⟩ := ends fresh
    rw [readMarked, if_pos rfl, readToken_of_readQuoted read, Option.map_some, Prod.map_apply, String.ofList_toList]
    rfl

namespace Flavour

/-- A quoted name, and what follows it. No name has escapes. -/
def readName? (k : Flavour) : List Char → Option (String × List Char) := readMarked k.nameMark false

def readText? (k : Flavour) : List Char → Option (String × List Char) := readMarked '\'' k.backslash

theorem readName?_name_append (k : Flavour) (s : String) (rest : List Char) :
    k.readName? ((k.dialect.name s).toList ++ rest) = some (s, rest) ↔ rest.head? ≠ some k.nameMark :=
  readMarked_eq_some_iff fun fresh => exists_inside_name fresh s

theorem readText?_literal_append (k : Flavour) (s : String) (rest : List Char) :
    k.readText? ((k.dialect.literal (.text s)).toList ++ rest) = some (s, rest) ↔ rest.head? ≠ some '\'' :=
  readMarked_eq_some_iff fun fresh => exists_inside_text fresh s

/-- What is read back from its form alone shares that form with nothing else. -/
theorem injective_of_reads {mark : Char} {write : String → String} {read? : List Char → Option (String × List Char)}
    (reads : ∀ s rest, read? ((write s).toList ++ rest) = some (s, rest) ↔ rest.head? ≠ some mark) :
    Function.Injective write := by
  intro s t same
  have first := (reads s []).mpr nofun
  have second := (reads t []).mpr nofun
  rw [same, second, Option.some.injEq, Prod.mk.injEq] at first
  exact first.1.symm

/-- From a quoted name and from a quoted text, whatever is in it, with anything behind it but a further mark, the reader
of a database gets what was quoted and leaves what is behind it. So no two names and no two texts have one form. -/
theorem quoted_read_back (k : Flavour) :
    (∀ s rest, k.readName? ((k.dialect.name s).toList ++ rest) = some (s, rest) ↔ rest.head? ≠ some k.nameMark) ∧
    (∀ s rest, k.readText? ((k.dialect.literal (.text s)).toList ++ rest) = some (s, rest) ↔
      rest.head? ≠ some '\'') ∧
    Function.Injective k.dialect.name ∧ Function.Injective fun s => k.dialect.literal (.text s) :=
  ⟨k.readName?_name_append, k.readText?_literal_append, injective_of_reads k.readName?_name_append,
    injective_of_reads k.readText?_literal_append⟩

/-- A quote behind a backslash, and a backslash at the end. -/
theorem quoted_read_back_backslash :
    mysql.readText? "'\\\\''; --\\\\' OR".toList = some ("\\'; --\\", " OR".toList) := by
  obtain ⟨-, text, -⟩ := mysql.quoted_read_back
  have written : "'\\\\''; --\\\\' OR".toList =
      (mysql.dialect.literal (.text "\\'; --\\")).toList ++ " OR".toList := by decide
  rw [written]
  exact (text _ _).mpr (by decide)

end Flavour

end RowFilter.Sql
