import RowFilter.Condition
import RowFilter.Proofs.Sql.Grammar
import RowFilter.Proofs.Sql.Layout

/-!
# Texts that express a formula

`Expresses k c sql f` : the text is a layout of tokens that a database of this flavour reads back, its tokens
belong to the category, and their reading has the atoms and the truth of the formula. Texts are put
together without going back to their characters:

* `expresses_atom` : an atom, from its layout;
* `Expresses.parenthesised` : parentheses around anything;
* `expresses_joined` : a connective between any number of operands.
-/

namespace RowFilter.Sql

open Condition (parenthesised)

/-- A text that expresses a formula. -/
def Expresses (k : Flavour) (c : Category) (sql : String) (f : Formula) : Prop :=
  ∃ (layout : Layout) (tree : Formula), sql.toList = layout.spelling k ∧ layout.Apart ∧
    Derives c layout.reduceOption tree ∧ tree.Same f

/-! ## Atoms -/

theorem toList_literal (k : Flavour) (s : Scalar) :
    (k.dialect.literal s).toList = (Literal.ofScalar s).token.spelling k := by
  cases s with
  | text s => rfl
  | number n =>
    have bare : k.dialect.literal (.number n) = Dialect.numberLiteral n := by cases k <;> rfl
    rw [bare]
    cases n with
    | int i => rfl
    | float x =>
      unfold Dialect.numberLiteral Literal.ofScalar
      dsimp only
      split_ifs <;> rfl

theorem spelling_wildcard (k : Flavour) : (Token.text "%").spelling k = "'%'".toList := by
  cases k <;> rfl

theorem toList_symbol (comparison : Comparison) :
    comparison.symbol.toList = (Symbol.compare comparison).text := by
  cases comparison <;> rfl

theorem expresses_atom {k : Flavour} {predicate : String} (a : Atom) (layout : Layout)
    (spelled : predicate.toList = Layout.spelling k (none :: layout)) (apart : layout.Apart)
    (tokens : layout.reduceOption = a.predicate) :
    Expresses k .operand (k.dialect.column a.column.table a.column.name ++ predicate) (.atom a) := by
  refine ⟨some (.name a.column.table) :: some (.symbol .dot) :: some (.name a.column.name) :: none ::
    layout, .atom a, ?_, ?_, ?_, .refl _⟩
  · simp [Dialect.column, spelled, Symbol.text]
  · have column : Token.Kind.quoted ≠ .word := by decide
    exact List.isChain_cons_cons.mpr ⟨fun same => absurd same column,
      List.isChain_cons_cons.mpr ⟨fun same => absurd same column.symm, apart.cons_blank⟩⟩
  · simp only [List.reduceOption_cons_of_some, List.reduceOption_cons_of_none, tokens]
    exact .atom a

section Atoms

variable (k : Flavour) (column : Column)

theorem expresses_compared (comparison : Comparison) (s : Scalar) :
    Expresses k .operand
      (Condition.compared (k.dialect.column column.table column.name) comparison
        (k.dialect.literal s))
      (.atom (.compare column comparison (.ofScalar s))) := by
  unfold Condition.compared
  rw [String.append_assoc, String.append_assoc, String.append_assoc]
  refine expresses_atom (.compare column comparison (.ofScalar s))
    [some (.symbol (.compare comparison)), none, some (Literal.ofScalar s).token] ?_ ?_ rfl
  · simp [toList_literal, toList_symbol]
  · exact Layout.Apart.cons_blank (Layout.apart_singleton _)

theorem expresses_isNull :
    Expresses k .operand (k.dialect.column column.table column.name ++ " IS NULL")
      (.atom (.isNull column)) := by
  refine expresses_atom (.isNull column) [some (.symbol .is), none, some (.symbol .null)] ?_ ?_ rfl
  · simp [Symbol.text]
  · exact Layout.Apart.cons_blank (Layout.apart_singleton _)

theorem expresses_contains (s : Scalar) :
    Expresses k .operand
      (k.dialect.column column.table column.name ++ " LIKE '%' " ++ k.dialect.literal s ++ " '%'")
      (.atom (.like column (.text "%") [.ofScalar s, .text "%"])) := by
  rw [String.append_assoc, String.append_assoc]
  refine expresses_atom (.like column (.text "%") [.ofScalar s, .text "%"])
    [some (.symbol .like), none, some (.text "%"), none, some (Literal.ofScalar s).token, none,
      some (.text "%")] ?_ ?_ rfl
  · simp [toList_literal, spelling_wildcard, Symbol.text]
  · exact (Layout.Apart.cons_blank (Layout.Apart.cons_blank (Layout.apart_singleton _))).cons_blank

theorem expresses_startsWith (s : Scalar) :
    Expresses k .operand
      (k.dialect.column column.table column.name ++ " LIKE " ++ k.dialect.literal s ++ " '%'")
      (.atom (.like column (.ofScalar s) [.text "%"])) := by
  rw [String.append_assoc, String.append_assoc]
  refine expresses_atom (.like column (.ofScalar s) [.text "%"])
    [some (.symbol .like), none, some (Literal.ofScalar s).token, none, some (.text "%")] ?_ ?_ rfl
  · simp [toList_literal, spelling_wildcard, Symbol.text]
  · exact Layout.Apart.cons_blank (Layout.Apart.cons_blank (Layout.apart_singleton _))

theorem exists_row (s : Scalar) (others : List Scalar) :
    ∃ layout : Layout,
      (", ".intercalate ((s :: others).map k.dialect.literal)).toList = layout.spelling k ∧
      layout.Apart ∧ layout.reduceOption = rowTokens (.ofScalar s) (others.map .ofScalar) := by
  induction others generalizing s with
  | nil =>
    refine ⟨[some (Literal.ofScalar s).token], ?_, Layout.apart_singleton _, rfl⟩
    simp [toList_literal]
  | cons second others ih =>
    obtain ⟨layout, spelled, apart, tokens⟩ := ih second
    refine ⟨some (Literal.ofScalar s).token :: some (.symbol .comma) :: none :: layout, ?_, ?_, ?_⟩
    · rw [List.map_cons, List.map_cons, String.intercalate_cons_cons, ← List.map_cons,
        String.toList_append, String.toList_append, toList_literal, spelled]
      simp [Symbol.text]
    · exact (Layout.apart_singleton _).append apart.cons_blank rfl
    · simp only [List.reduceOption_cons_of_some, List.reduceOption_cons_of_none, tokens]
      rfl

theorem expresses_oneOf (s : Scalar) (others : List Scalar) :
    Expresses k .operand
      (k.dialect.column column.table column.name ++ " IN " ++
        parenthesised (", ".intercalate ((s :: others).map k.dialect.literal)))
      (.atom (.oneOf column (.ofScalar s) (others.map .ofScalar))) := by
  obtain ⟨layout, spelled, apart, tokens⟩ := exists_row k s others
  rw [String.append_assoc]
  refine expresses_atom (.oneOf column (.ofScalar s) (others.map .ofScalar))
    (some (.symbol .among) :: none :: some (.symbol .opening) ::
      (layout ++ [some (.symbol .closing)])) ?_ ?_ ?_
  · simp only [parenthesised, String.toList_append, spelled]
    simp [Symbol.text]
  · exact ((apart.append (Layout.apart_singleton _) rfl).cons rfl).cons_blank
  · simp only [List.reduceOption_cons_of_some, List.reduceOption_cons_of_none,
      List.reduceOption_append, tokens]
    rfl

end Atoms

/-! ## Connectives -/

def Connective.separator : Connective → String
  | and => " AND "
  | or => " OR "

namespace Expresses

variable {k : Flavour} {c : Category} {j : Connective} {sql : String} {f g : Formula}

theorem same (text : Expresses k c sql f) (same : f.Same g) : Expresses k c sql g := by
  obtain ⟨layout, tree, spelled, apart, derived, reading⟩ := text
  exact ⟨layout, tree, spelled, apart, derived, reading.trans same⟩

theorem one (text : Expresses k j.operands sql f) : Expresses k (.joined j) sql f := by
  obtain ⟨layout, tree, spelled, apart, derived, reading⟩ := text
  exact ⟨layout, tree, spelled, apart, .one j derived, reading⟩

theorem operand (text : Expresses k .operand sql f) (j : Connective) : Expresses k j.operands sql f := by
  cases j with
  | and => exact text
  | or => exact one (j := .and) text

theorem parenthesised (text : Expresses k (.joined .or) sql f) :
    Expresses k .operand (parenthesised sql) f := by
  obtain ⟨layout, tree, spelled, apart, derived, reading⟩ := text
  refine ⟨some (.symbol .opening) :: (layout ++ [some (.symbol .closing)]), tree, ?_, ?_, ?_, reading⟩
  · simp [Condition.parenthesised, spelled, Symbol.text]
  · exact (apart.append (Layout.apart_singleton _) rfl).cons rfl
  · rw [List.reduceOption_cons_of_some, List.reduceOption_append]
    exact .group derived

/-- An operand and a connective in front of what is joined already. -/
theorem more {rest : String} {members : List Formula} (first : Expresses k j.operands sql f)
    (others : Expresses k (.joined j) rest (.join j members)) :
    Expresses k (.joined j) (sql ++ j.separator ++ rest) (.join j (f :: members)) := by
  obtain ⟨layout, tree, spelled, apart, derived, reading⟩ := first
  obtain ⟨layout', tree', spelled', apart', derived', reading'⟩ := others
  refine ⟨layout ++ none :: some (.symbol j.symbol) :: none :: layout', .join j [tree, tree'], ?_, ?_, ?_,
    Formula.same_cons reading reading'⟩
  · have separator : j.separator.toList = ' ' :: (j.symbol.text ++ [' ']) := by cases j <;> rfl
    simp [spelled, spelled', separator]
  · exact apart.append (apart'.cons_blank.cons rfl) rfl
  · rw [List.reduceOption_append, List.reduceOption_cons_of_none, List.reduceOption_cons_of_some,
      List.reduceOption_cons_of_none]
    exact .more j derived derived'

end Expresses

theorem expresses_joined {k : Flavour} (j : Connective) {sqls : List String} {members : List Formula}
    (text : List.Forall₂ (Expresses k j.operands) sqls members) (written : sqls ≠ []) :
    Expresses k (.joined j) (j.separator.intercalate sqls) (.join j members) := by
  induction text with
  | nil => exact absurd rfl written
  | @cons sql f sqls members first others ih =>
    cases others with
    | nil => exact first.one.same (Formula.same_singleton j f)
    | cons second others =>
      rw [String.intercalate_cons_cons]
      exact first.more (ih (List.cons_ne_nil _ _))

end RowFilter.Sql
