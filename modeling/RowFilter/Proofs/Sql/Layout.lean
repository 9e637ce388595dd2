import Mathlib.Data.List.Chain
import RowFilter.Proofs.Sql.Quoting

/-!
# Tokens laid out in a text

A layout is a row of tokens and blanks. Two quoted tokens side by side could be read as one, and so could
two words; everything else may touch.

* `Layout.spelling` : a layout as text;
* `Layout.Apart` : no two tokens touch that could be read as one;
* `Flavour.layout?_spelling` : a text is read as the layout that it spells.
-/

namespace RowFilter.Sql

open Flavour (isMark)

/-- Tokens, and blanks where there is none. -/
abbrev Layout : Type := List (Option Token)

namespace Token

/-- What a token may touch: a quoted token no other one, a word no other one, a delimiter anything. -/
inductive Kind where
  | quoted
  | word
  | loose
deriving DecidableEq

def kind : Token → Kind
  | .name _ | .text _ => .quoted
  | .number _ => .word
  | .symbol .opening | .symbol .closing | .symbol .comma => .loose
  | .symbol _ => .word

def letters : Token → List Char
  | .name _ | .text _ => []
  | .number n => n.text
  | .symbol s => s.text

def spelling (k : Flavour) : Token → List Char
  | .name s => (k.dialect.name s).toList
  | .text s => (k.dialect.literal (.text s)).toList
  | token => token.letters

@[simp] theorem spelling_name (k : Flavour) (s : String) :
    (name s).spelling k = (k.dialect.name s).toList := rfl

@[simp] theorem spelling_symbol (k : Flavour) (s : Symbol) : (symbol s).spelling k = s.text := rfl

def pieces : Token → List Piece
  | .name s => [.name s]
  | .text s => [.text s]
  | token => token.letters.map .plain

def lexeme : Token → Lexeme
  | .name s => .name s
  | .text s => .text s
  | .symbol .opening => .delimiter '('
  | .symbol .closing => .delimiter ')'
  | .symbol .comma => .delimiter ','
  | token => .word token.letters

end Token

namespace Layout

def spelling (k : Flavour) (layout : Layout) : List Char :=
  layout.flatMap fun entry => entry.elim [' '] (Token.spelling k)

@[simp] theorem spelling_nil (k : Flavour) : spelling k [] = [] := rfl

@[simp] theorem spelling_blank (k : Flavour) (rest : Layout) :
    spelling k (none :: rest) = ' ' :: spelling k rest := rfl

@[simp] theorem spelling_token (k : Flavour) (token : Token) (rest : Layout) :
    spelling k (some token :: rest) = token.spelling k ++ spelling k rest := rfl

@[simp] theorem spelling_append (k : Flavour) (before behind : Layout) :
    spelling k (before ++ behind) = spelling k before ++ spelling k behind :=
  List.flatMap_append

def pieces (layout : Layout) : List Piece :=
  layout.flatMap fun entry => entry.elim [.plain ' '] Token.pieces

def kind (entry : Option Token) : Token.Kind := entry.elim .loose Token.kind

/-- No two tokens touch that could be read as one. -/
def Apart (layout : Layout) : Prop :=
  layout.IsChain fun entry next => kind entry = kind next → kind entry = .loose

end Layout

/-! ## Letters -/

namespace Symbol

theorem unmarked_text (s : Symbol) : ∀ c ∈ s.text, ¬ isMark c := by
  have all : s.text.all fun c => !isMark c := by
    cases s with
    | compare comparison => cases comparison <;> decide
    | _ => decide
  simpa using all

theorem undelimited_text {s : Symbol} (word : (Token.symbol s).kind = .word) :
    s.text ≠ [] ∧ ∀ c ∈ s.text, ¬ isDelimiter c := by
  have all : s.text ≠ [] ∧ s.text.all fun c => !isDelimiter c := by
    cases s with
    | compare comparison => cases comparison <;> decide
    | opening | closing | comma => cases word
    | _ => decide
  simpa using all

end Symbol

theorem BareNumber.plain_text (n : BareNumber) : ∀ c ∈ n.text, ¬ isMark c ∧ ¬ isDelimiter c := by
  intro c inText
  rcases (isNumeral_letters n.written).2 c inText with digit | rfl | rfl
  · have other {d : Char} (noDigit : d.isDigit = false) : c ≠ d := by
      rintro rfl
      rw [noDigit] at digit
      cases digit
    simp [isMark, isDelimiter, other]
  · decide
  · decide

namespace Token

theorem unmarked_letters (token : Token) : ∀ c ∈ token.letters, ¬ isMark c := by
  cases token with
  | name | text => simp [letters]
  | number n => exact fun c inText => (n.plain_text c inText).1
  | symbol s => exact s.unmarked_text

theorem letters_of_word {token : Token} (word : token.kind = .word) :
    token.letters ≠ [] ∧ ∀ c ∈ token.letters, ¬ isDelimiter c := by
  cases token with
  | name | text => cases word
  | number n => exact ⟨(isNumeral_letters n.written).1, fun c inText => (n.plain_text c inText).2⟩
  | symbol s => exact Symbol.undelimited_text word

theorem wordToken?_letters {token : Token} (bare : token.kind ≠ .quoted) :
    wordToken? token.letters = some token := by
  cases token with
  | name | text => exact absurd rfl bare
  | number number => rw [letters, wordToken?, dif_pos number.written]
  | symbol symbol =>
    cases symbol with
    | compare comparison => cases comparison <;> rfl
    | _ => rfl

/-- A token without quotes has a letter, so that a quoted token before it ends there. -/
theorem letters_ne_nil {token : Token} (bare : token.kind ≠ .quoted) : token.letters ≠ [] := by
  intro none
  have empty := wordToken?_letters bare
  rw [none] at empty
  cases empty

theorem spelling_of_bare {token : Token} (bare : token.kind ≠ .quoted) (k : Flavour) :
    token.spelling k = token.letters := by
  cases token with
  | name | text => exact absurd rfl bare
  | number | symbol => rfl

theorem pieces_of_bare {token : Token} (bare : token.kind ≠ .quoted) :
    token.pieces = token.letters.map .plain := by
  cases token with
  | name | text => exact absurd rfl bare
  | number | symbol => rfl

end Token

/-! ## Pieces -/

namespace Layout

variable {k : Flavour} {entry : Option Token} {rest : Layout}

theorem Apart.tail (apart : Apart (entry :: rest)) : Apart rest := List.IsChain.tail apart

/-- What touches a token that is not loose is of another kind. -/
theorem Apart.kind_ne {following : Option Token} (apart : Apart (entry :: following :: rest))
    (firm : kind entry ≠ .loose) : kind following ≠ kind entry := by
  intro same
  exact firm ((List.isChain_cons_cons.mp apart).1 same.symm)

/-- Behind a quoted token there is no mark. -/
theorem Apart.unmarked (apart : Apart (entry :: rest)) (quoted : kind entry = .quoted) {c : Char}
    (next : (rest.spelling k).head? = some c) : ¬ isMark c := by
  cases rest with
  | nil => cases next
  | cons following rest =>
    have bare : kind following ≠ .quoted := by
      have other := apart.kind_ne (by rw [quoted]; decide)
      rwa [quoted] at other
    cases following with
    | none =>
      cases next
      decide
    | some token =>
      have letters : (token.letters ++ spelling k rest).head? = some c := by
        rw [← token.spelling_of_bare bare k]
        exact next
      rw [List.head?_append_of_ne_nil _ (token.letters_ne_nil bare)] at letters
      exact token.unmarked_letters c (List.mem_of_head? letters)

theorem pieces?_spelling (k : Flavour) {layout : Layout} (apart : layout.Apart) :
    k.pieces? (layout.spelling k) = some layout.pieces := by
  induction layout with
  | nil =>
    rw [spelling_nil, Flavour.pieces?]
    rfl
  | cons entry rest ih =>
    have read := ih apart.tail
    rw [pieces, List.flatMap_cons, ← pieces]
    cases entry with
    | none =>
      have blank : ∀ c ∈ [' '], ¬ isMark c := List.forall_mem_singleton.mpr (by decide)
      rw [spelling_blank, ← List.singleton_append, Flavour.pieces?_plain blank, read]
      rfl
    | some token =>
      rw [spelling_token, Option.elim_some]
      by_cases quoted : token.kind = .quoted
      · have fresh : ∀ mark, isMark mark → (spelling k rest).head? ≠ some mark :=
          fun mark marks next => apart.unmarked quoted next marks
        cases token with
        | name s =>
          rw [Token.spelling, Flavour.pieces?_name (fresh _ k.isMark_nameMark), read]
          rfl
        | text s =>
          rw [Token.spelling, Flavour.pieces?_text (fresh _ rfl), read]
          rfl
        | number => cases quoted
        | symbol symbol => cases symbol <;> cases quoted
      · rw [token.spelling_of_bare quoted, token.pieces_of_bare quoted,
          Flavour.pieces?_plain token.unmarked_letters, read]
        rfl

end Layout

/-! ## Words -/

theorem prepend_delimiter {c : Char} (delimiter : isDelimiter c) (behind : List Lexeme) :
    Lexeme.prepend c behind = .delimiter c :: behind := by
  unfold Lexeme.prepend
  exact if_pos delimiter

theorem prepend_word {c : Char} (inside : ¬ isDelimiter c) (letters : List Char)
    (behind : List Lexeme) :
    Lexeme.prepend c (.word letters :: behind) = .word (c :: letters) :: behind := by
  unfold Lexeme.prepend
  exact if_neg inside

theorem prepend_last {c : Char} (inside : ¬ isDelimiter c) {behind : List Lexeme}
    (apart : ∀ next, behind.head? ≠ some (.word next)) :
    Lexeme.prepend c behind = .word [c] :: behind := by
  unfold Lexeme.prepend
  rw [if_neg inside]
  split
  · rename_i next others
    exact absurd rfl (apart next)
  · rfl

/-- Letters in front of what starts with no word are a word. -/
theorem lexemes_word {letters : List Char} (written : letters ≠ [])
    (inside : ∀ c ∈ letters, ¬ isDelimiter c) {pieces : List Piece}
    (apart : ∀ next, (lexemes pieces).head? ≠ some (.word next)) :
    lexemes (letters.map .plain ++ pieces) = .word letters :: lexemes pieces := by
  induction letters with
  | nil => exact absurd rfl written
  | cons c letters ih =>
    have head : ¬ isDelimiter c := inside c List.mem_cons_self
    rw [List.map_cons, List.cons_append, lexemes]
    cases letters with
    | nil => exact prepend_last head apart
    | cons d letters =>
      rw [ih (List.cons_ne_nil d letters) fun e h => inside e (List.mem_cons_of_mem c h)]
      exact prepend_word head _ _

namespace Layout

variable {entry : Option Token} {rest : Layout}

/-- What an entry of a layout is before its meaning is known. -/
def lexeme (entry : Option Token) : Lexeme := entry.elim (.delimiter ' ') Token.lexeme

theorem Apart.head?_lexemes (apart : Apart (entry :: rest)) (word : kind entry = .word)
    (next : List Char) : (rest.map lexeme).head? ≠ some (.word next) := by
  cases rest with
  | nil => simp
  | cons following rest =>
    have other : kind following ≠ .word := by
      have other := apart.kind_ne (by rw [word]; decide)
      rwa [word] at other
    rw [List.map_cons, List.head?_cons, ne_eq, Option.some.injEq]
    cases following with
    | none => exact Lexeme.noConfusion
    | some token =>
      cases token with
      | name | text => exact Lexeme.noConfusion
      | number n => exact absurd rfl other
      | symbol symbol =>
        cases symbol with
        | opening | closing | comma => exact Lexeme.noConfusion
        | _ => exact absurd rfl other

theorem lexemes_pieces {layout : Layout} (apart : layout.Apart) :
    lexemes layout.pieces = layout.map lexeme := by
  induction layout with
  | nil => rfl
  | cons entry rest ih =>
    have read := ih apart.tail
    rw [pieces, List.flatMap_cons, ← pieces, List.map_cons, ← read]
    have word {token : Token} (here : entry = some token) (word : token.kind = .word) :
        lexemes (token.letters.map .plain ++ pieces rest) =
          .word token.letters :: lexemes (pieces rest) := by
      subst here
      obtain ⟨written, inside⟩ := token.letters_of_word word
      refine lexemes_word written inside fun next => ?_
      rw [read]
      exact apart.head?_lexemes word next
    cases entry with
    | none => exact prepend_delimiter (by decide) _
    | some token =>
      cases token with
      | name | text => rfl
      | number n => exact word rfl rfl
      | symbol symbol =>
        cases symbol with
        | opening | closing | comma => exact prepend_delimiter (by decide) _
        | _ => exact word rfl rfl

theorem token?_lexeme (entry : Option Token) : (lexeme entry).token? = some entry := by
  cases entry with
  | none => rfl
  | some token =>
    cases token with
    | name | text => rfl
    | number n =>
      have known : wordToken? n.text = some (.number n) := 
        (Token.number n).wordToken?_letters Token.Kind.noConfusion
      show (wordToken? n.text).map some = some (some (.number n))
      rw [known]
      rfl
    | symbol symbol =>
      cases symbol with
      | compare comparison => cases comparison <;> rfl
      | _ => rfl

/-! ## Layouts put together -/

theorem apart_singleton (entry : Option Token) : Apart [entry] := List.isChain_singleton entry

theorem Apart.cons (apart : Apart rest) (loose : kind entry = .loose) : Apart (entry :: rest) :=
  List.isChain_cons.mpr ⟨fun _ _ _ => loose, apart⟩

theorem Apart.cons_blank (apart : Apart rest) : Apart (entry :: none :: rest) :=
  List.isChain_cons_cons.mpr ⟨id, apart.cons rfl⟩

theorem Apart.append {before : Layout} (apart : Apart before) (behind : Apart (entry :: rest))
    (loose : kind entry = .loose) : Apart (before ++ entry :: rest) := by
  refine List.isChain_append.mpr ⟨apart, behind, ?_⟩
  intro last _ next isNext same
  obtain rfl := Option.some.inj isNext
  rw [same, loose]

end Layout

theorem Flavour.layout?_spelling (k : Flavour) {layout : Layout} (apart : layout.Apart) :
    k.layout? (layout.spelling k) = some layout := by
  rw [layout?, Layout.pieces?_spelling k apart, Option.bind_some, Layout.lexemes_pieces apart]
  clear apart
  induction layout with
  | nil => rfl
  | cons entry rest ih => rw [List.map_cons, List.mapM_cons, Layout.token?_lexeme, ih]; rfl

end RowFilter.Sql
