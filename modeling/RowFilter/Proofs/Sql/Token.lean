import Mathlib.Data.List.ReduceOption
import RowFilter.Condition
import RowFilter.Dialect
import RowFilter.Proofs.Sql.Numeral

/-!
# SQL read as a database reads it

* `readQuoted` : a quoted token behind its opening mark, and what follows it;
* `Flavour.pieces?` : quoted tokens and the characters between them, if the text does not end inside a
  token;
* `lexemes` : those characters joined to words, where a blank, a parenthesis or a comma ends a word;
* `Flavour.layout?` : what every word is, and where blanks are; none if a word is nothing known;
* `Flavour.tokens?` : the same without the blanks.
-/

namespace RowFilter.Sql

/-- The dialects whose texts a database is known to read. -/
inductive Flavour where
  | ansi
  | mysql
deriving DecidableEq, Repr

namespace Flavour

def dialect : Flavour → Dialect
  | ansi => .ansi
  | mysql => .mysql

def nameMark : Flavour → Char
  | ansi => '"'
  | mysql => '\x60'

/-- Whether a backslash in a text takes the next character as an escape. -/
def backslash : Flavour → Bool
  | ansi => false
  | mysql => true

end Flavour

/-! ## Quoted tokens -/

def unescape? : Char → Option Char
  | '\\' => some '\\'
  | '0' => some '\x00'
  | 'n' => some '\n'
  | 'r' => some '\r'
  | 'Z' => some '\x1a'
  | _ => none

def withChar (c : Char) (read : Option (List Char × List Char)) : Option (List Char × List Char) :=
  read.map (Prod.map (c :: ·) id)

/-- The characters of a quoted token behind its opening mark, and what follows the closing one. A mark
written twice is one character of the token. -/
def readQuoted (mark : Char) (backslash : Bool) : List Char → Option (List Char × List Char)
  | [] => none
  | c :: rest =>
    if c = mark then
      match rest with
      | [] => some ([], [])
      | d :: after =>
        if d = mark then withChar mark (readQuoted mark backslash after) else some ([], d :: after)
    else if backslash && c = '\\' then
      match rest with
      | [] => none
      | e :: after =>
        (unescape? e).bind fun escaped => withChar escaped (readQuoted mark backslash after)
    else withChar c (readQuoted mark backslash rest)

theorem withChar_eq_some {c : Char} {read : Option (List Char × List Char)} {inside after : List Char}
    (h : withChar c read = some (inside, after)) : ∃ inside', read = some (inside', after) := by
  obtain ⟨⟨inside', after'⟩, found, same⟩ := Option.map_eq_some_iff.mp h
  obtain ⟨-, rfl⟩ := Prod.mk.inj same
  exact ⟨inside', found⟩

theorem length_lt_of_readQuoted {mark : Char} {backslash : Bool} {text inside after : List Char}
    (h : readQuoted mark backslash text = some (inside, after)) : after.length < text.length := by
  fun_induction readQuoted mark backslash text generalizing inside with
  | case1 | case5 => cases h
  | case2 | case4 =>
    cases h
    simp
  | case3 rest ih | case7 c rest _ _ ih =>
    obtain ⟨_, found⟩ := withChar_eq_some h
    have shorter := ih found
    simp only [List.length_cons]
    omega
  | case6 c _ _ e rest ih =>
    obtain ⟨escaped, -, read⟩ := Option.bind_eq_some_iff.mp h
    obtain ⟨_, found⟩ := withChar_eq_some read
    have shorter := ih found
    simp only [List.length_cons]
    omega

/-- A quoted token, or a character outside of all. -/
inductive Piece where
  | name (name : String)
  | text (text : String)
  | plain (c : Char)
deriving DecidableEq, Repr

/-- A text as quoted tokens and the characters outside; none if it ends inside a token. -/
def Flavour.pieces? (k : Flavour) : List Char → Option (List Piece)
  | [] => some []
  | c :: rest =>
    if c = k.nameMark then
      match _h : readQuoted k.nameMark false rest with
      | some (inside, after) => (k.pieces? after).map (.name (String.ofList inside) :: ·)
      | none => none
    else if c = '\'' then
      match _h : readQuoted '\'' k.backslash rest with
      | some (inside, after) => (k.pieces? after).map (.text (String.ofList inside) :: ·)
      | none => none
    else (k.pieces? rest).map (.plain c :: ·)
termination_by text => text.length
decreasing_by
  all_goals simp only [List.length_cons]
  · have := length_lt_of_readQuoted _h
    omega
  · have := length_lt_of_readQuoted _h
    omega
  · omega

/-! ## Words -/

inductive Symbol where
  | and
  | or
  | null
  | is
  | like
  | among
  | compare (comparison : Comparison)
  | dot
  | opening
  | closing
  | comma
deriving DecidableEq, Repr

namespace Symbol

def all : List Symbol :=
  [and, or, null, is, like, among, compare .equal, compare .notEqual, compare .greater,
    compare .greaterOrEqual, compare .less, dot, opening, closing, comma]

def text : Symbol → List Char
  | and => "AND".toList
  | or => "OR".toList
  | null => "NULL".toList
  | is => "IS".toList
  | like => "LIKE".toList
  | among => "IN".toList
  | compare .equal => "=".toList
  | compare .notEqual => "!=".toList
  | compare .greater => ">".toList
  | compare .greaterOrEqual => ">=".toList
  | compare .less => "<".toList
  | dot => ".".toList
  | opening => "(".toList
  | closing => ")".toList
  | comma => ",".toList

def ofText? (text : List Char) : Option Symbol := all.find? fun symbol => symbol.text = text

end Symbol

structure BareNumber where
  text : List Char
  written : isNumeral text
deriving DecidableEq

inductive Token where
  | name (name : String)
  | text (text : String)
  | number (number : BareNumber)
  | symbol (symbol : Symbol)
deriving DecidableEq

/-- What ends a word and belongs to none. -/
def isDelimiter (c : Char) : Bool := c = ' ' || c = '(' || c = ')' || c = ','

/-- A quoted token, a word, or a delimiter between words. -/
inductive Lexeme where
  | name (name : String)
  | text (text : String)
  | word (letters : List Char)
  | delimiter (c : Char)
deriving DecidableEq

/-- A character in front of what is read already, at the head of a word if it is part of one. -/
def Lexeme.prepend (c : Char) (lexemes : List Lexeme) : List Lexeme :=
  if isDelimiter c then .delimiter c :: lexemes
  else match lexemes with
    | .word letters :: others => .word (c :: letters) :: others
    | others => .word [c] :: others

def lexemes : List Piece → List Lexeme
  | [] => []
  | .name s :: pieces => .name s :: lexemes pieces
  | .text s :: pieces => .text s :: lexemes pieces
  | .plain c :: pieces => Lexeme.prepend c (lexemes pieces)

/-- The token of a word: a number, or else one of the symbols. -/
def wordToken? (letters : List Char) : Option Token :=
  if written : isNumeral letters then some (.number ⟨letters, written⟩)
  else (Symbol.ofText? letters).map .symbol

/-- What a lexeme stands for, which is no token for a blank. -/
def Lexeme.token? : Lexeme → Option (Option Token)
  | .name s => some (some (.name s))
  | .text s => some (some (.text s))
  | .word letters => (wordToken? letters).map some
  | .delimiter c => if c = ' ' then some none else (wordToken? [c]).map some

/-- The tokens of a text and the blanks between them, if every word is known. -/
def Flavour.layout? (k : Flavour) (text : List Char) : Option (List (Option Token)) :=
  (k.pieces? text).bind fun pieces => (lexemes pieces).mapM Lexeme.token?

def Flavour.tokens? (k : Flavour) (text : String) : Option (List Token) :=
  (k.layout? text.toList).map List.reduceOption

end RowFilter.Sql
