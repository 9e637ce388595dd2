import RowFilter.Proofs.Meaning

/-!
# What of a request reaches the text

* `Atom.data` : the names and values that a comparison takes from a request;
* `Derives.filter_tokens` : the tokens of an expression hold the data of its comparisons and nothing else
  from outside;
* `compile_quoted` : so a database finds in a compiled filter just the names and values asked for, each
  inside a quoted token or as a number, whatever characters they have.
-/

namespace RowFilter

namespace Sql

def Token.isQuoted : Token → Bool
  | .name _ | .text _ => true
  | .number _ | .symbol _ => false

/-- A token that holds something of a request: a quoted one, or a number. -/
def Token.isData : Token → Bool
  | .name _ | .text _ | .number _ => true
  | .symbol _ => false

/-- The name of a table, of a column, and the texts and numbers of a comparison. -/
def Atom.data (a : Atom) : List Token :=
  .name a.column.table :: .name a.column.name ::
    (a.literals.map Literal.token).filter Token.isData

def Piece.quoted? : Piece → Option Token
  | .name s => some (.name s)
  | .text s => some (.text s)
  | .plain _ => none

/-! ## Tokens of an expression -/

theorem filter_rowTokens (first : Literal) (others : List Literal) :
    (rowTokens first others).filter Token.isData =
      ((first :: others).map Literal.token).filter Token.isData := by
  induction others generalizing first with
  | nil => rfl
  | cons second others ih =>
    have comma : (Token.symbol .comma).isData = false := rfl
    rw [List.map_cons, List.filter_cons, ← ih second, rowTokens, List.filter_cons, List.filter_cons,
      comma]
    rfl

theorem Atom.filter_tokens (a : Atom) : a.tokens.filter Token.isData = a.data := by
  have predicate : a.predicate.filter Token.isData =
      (a.literals.map Literal.token).filter Token.isData := by
    cases a with
    | compare column comparison operand => rfl
    | isNull column => rfl
    | like column first others => rfl
    | oneOf column first others =>
      rw [Atom.predicate, Atom.literals, ← filter_rowTokens]
      simp [Token.isData]
  rw [tokens, List.filter_append, predicate]
  rfl

theorem Derives.filter_tokens {c : Category} {ts : List Token} {f : Formula}
    (derived : Derives c ts f) : ts.filter Token.isData = f.atoms.flatMap Atom.data := by
  induction derived with
  | atom a =>
    rw [a.filter_tokens, Formula.atoms, List.flatMap_singleton]
  | group inside ih =>
    rw [← ih]
    simp [Token.isData]
  | one k only ih => exact ih
  | more k first others ihFirst ihOthers =>
    have symbol : (Token.symbol k.symbol).isData = false := rfl
    rw [List.filter_append, List.filter_cons, symbol, ihFirst]
    simp [Formula.atoms, ihOthers]

theorem Layout.filterMap_pieces (layout : Layout) :
    layout.pieces.filterMap Piece.quoted? = layout.reduceOption.filter Token.isQuoted := by
  induction layout with
  | nil => rfl
  | cons entry rest ih =>
    rw [pieces, List.flatMap_cons, ← pieces, List.filterMap_append, ih]
    have letters (letters : List Char) : (letters.map Piece.plain).filterMap Piece.quoted? = [] := by
      induction letters with
      | nil => rfl
      | cons c letters ih => exact ih
    cases entry with
    | none => rfl
    | some token =>
      rw [List.reduceOption_cons_of_some, List.filter_cons]
      cases token with
      | name | text => rfl
      | number n => exact congrArg (· ++ _) (letters n.text)
      | symbol s => exact congrArg (· ++ _) (letters s.text)

theorem filter_isQuoted_isData (ts : List Token) :
    (ts.filter Token.isData).filter Token.isQuoted = ts.filter Token.isQuoted := by
  rw [List.filter_filter]
  congr 1
  funext t
  cases t <;> rfl

end Sql

open Sql (Flavour Token Piece Atom)

/-- What the keys prescribe, in order: the names and values of every comparison that they ask for. -/
def Criterion.data (table : String) (asked : List Criterion) : List Token :=
  (Criterion.formulaOfAll table asked).atoms.flatMap Atom.data

/-- A database reads a compiled filter to its end without being left inside a quoted token, and the quoted
tokens that it finds are the names and texts that the keys prescribe, character for character. What is
outside of them are words that it knows, and the numbers among these are prescribed as well. -/
theorem compile_quoted {c : Compiler} {k : Flavour} (shipped : c.dialect = k.dialect)
    {criteria : Criteria} {clause : Clause} (compiled : c.compile criteria = .ok clause) :
    ∃ asked, (criteria.toList.mapM fun entry => Criterion.read entry.1 entry.2) = .ok asked ∧
      ∀ sql, clause.expression? = some sql →
        ∃ pieces tokens, k.pieces? sql.toList = some pieces ∧
          pieces.filterMap Piece.quoted? =
            (Criterion.data c.table.text asked).filter Token.isQuoted ∧
          k.tokens? sql = some tokens ∧
          tokens.filter Token.isData = Criterion.data c.table.text asked := by
  obtain ⟨-, asked, read, text⟩ := c.expresses_compile shipped compiled
  refine ⟨asked, read, fun sql written => ?_⟩
  obtain ⟨layout, tree, spelled, apart, derived, -, atoms⟩ := text sql written
  have data : layout.reduceOption.filter Token.isData = Criterion.data c.table.text asked := by
    rw [derived.filter_tokens, atoms, Criterion.data]
  refine ⟨layout.pieces, layout.reduceOption, ?_, ?_, ?_, data⟩
  · rw [spelled, Sql.Layout.pieces?_spelling k apart]
  · rw [layout.filterMap_pieces, ← data, Sql.filter_isQuoted_isData]
  · rw [Flavour.tokens?, spelled, k.layout?_spelling apart]
    rfl

/-- The quote of an argument stays inside its token. -/
theorem compile_quoted_like :
    (⟨.mysql, ⟨"t", by decide⟩, .everything, 64⟩ : Compiler).compile
        (.ofList [("a:like", .item (.text "x'"))]) = .ok ⟨some "(`t`.`a` LIKE '%' 'x''' '%')"⟩ ∧
    ∃ pieces, Flavour.mysql.pieces? "(`t`.`a` LIKE '%' 'x''' '%')".toList = some pieces ∧
      pieces.filterMap Piece.quoted? =
        [.name "t", .name "a", .text "%", .text "x'", .text "%"] := by
  have compiled : (⟨.mysql, ⟨"t", by decide⟩, .everything, 64⟩ : Compiler).compile
        (.ofList [("a:like", .item (.text "x'"))]) =
      .ok ⟨some "(`t`.`a` LIKE '%' 'x''' '%')"⟩ := Compiler.compile_of_keyText (by decide) rfl
  obtain ⟨asked, read, means⟩ := compile_quoted (k := .mysql) rfl compiled
  obtain ⟨pieces, _, cut, quoted, -, -⟩ := means _ rfl
  rw [Criteria.toList_ofList_singleton] at read
  obtain rfl : [⟨.column "a", [.contains], .item (.text "x'")⟩] = asked := Except.ok.inj read
  refine ⟨compiled, pieces, cut, quoted.trans ?_⟩
  simp only [Criterion.data, Criterion.formulaOfAll, Criterion.formula, Criterion.fieldFormula,
    Target.names, Command.formula, Sql.Formula.atoms, List.map_cons, List.map_nil,
    List.flatMap_cons, List.flatMap_nil]
  rfl

end RowFilter
