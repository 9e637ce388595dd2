import RowFilter.Proofs.Sql.Statement
import RowFilter.Proofs.Verdict

/-!
# What a compiled filter means

What keys ask of a row is a formula, said from their commands and arguments alone. Compiling writes a
text that a database reads back as that formula.

* `Command.formula`, `Criterion.formula`, `Criterion.formulaOfAll` : what is asked;
* `expresses_restriction` : what one key is compiled to expresses what it asks;
* `Compiler.expresses_compile` : so does a whole clause, and `Compiler.exists_reading` : it is read back;
* `compile_means` : the only reading of its tokens is true exactly where what is asked is.
-/

namespace RowFilter

open Condition (parenthesised)
open Sql (Flavour Category Connective Column Literal Formula Expresses Derives expresses_joined
  expresses_compared expresses_isNull expresses_contains expresses_startsWith expresses_oneOf)

/-! ## What is asked -/

def Command.bothCompared (column : Column) (first second : Comparison) : List Scalar → Formula
  | [low, high] => .all [.atom (.compare column first (.ofScalar low)),
      .atom (.compare column second (.ofScalar high))]
  | _ => .all []

def Command.lookedUp (column : Column) : List Scalar → Formula
  | [] => .any []
  | first :: others => .atom (.oneOf column (.ofScalar first) (others.map .ofScalar))

/-- What a command asks of a column. An argument that does not have its shape is of no account, since no
such argument compiles. -/
def Command.formula (column : Column) : Command → Value → Formula
  | .equals, .item s => .atom (.compare column .equal (.ofScalar s))
  | .differs, .item s => .atom (.compare column .notEqual (.ofScalar s))
  | .above, .item s => .atom (.compare column .greater (.ofScalar s))
  | .atLeast, .item s => .atom (.compare column .greaterOrEqual (.ofScalar s))
  | .isNull, _ => .atom (.isNull column)
  | .contains, .item s => .atom (.like column (.text "%") [.ofScalar s, .text "%"])
  | .startsWith, .item s => .atom (.like column (.ofScalar s) [.text "%"])
  | .oneOf, .list members => lookedUp column (members.flatMap Nested.items)
  | .within, .list ranges =>
    .any (ranges.map fun range => bothCompared column .greaterOrEqual .less range.items)
  | .outside, .list ranges =>
    .all (ranges.map fun range => bothCompared column .less .greaterOrEqual range.items)
  | _, _ => .any []

/-- What the commands of a key ask of one of its columns. -/
def Criterion.fieldFormula (table : String) (criterion : Criterion) (field : String) : Formula :=
  .any (criterion.commands.map fun command => command.formula ⟨table, field⟩ criterion.argument)

/-- What a key asks: any of its columns, and of that any of its commands. -/
def Criterion.formula (table : String) (criterion : Criterion) : Formula :=
  .any (criterion.target.names.map (criterion.fieldFormula table))

def Criterion.formulaOfAll (table : String) (criteria : List Criterion) : Formula :=
  .all (criteria.map (Criterion.formula table))

/-- Every atom is asked for by a command of a key, of one of its columns. -/
theorem Criterion.exists_of_mem_formulaOfAll {table : String} {asked : List Criterion} {a : Sql.Atom}
    (member : a ∈ (formulaOfAll table asked).atoms) :
    ∃ criterion ∈ asked, ∃ field ∈ criterion.target.names, ∃ command ∈ criterion.commands,
      a ∈ (command.formula ⟨table, field⟩ criterion.argument).atoms := by
  simp only [formulaOfAll, Formula.atoms, List.mem_flatMap, List.mem_map] at member
  obtain ⟨_, ⟨criterion, isAsked, rfl⟩, member⟩ := member
  simp only [formula, Formula.atoms, List.mem_flatMap, List.mem_map] at member
  obtain ⟨_, ⟨field, named, rfl⟩, member⟩ := member
  simp only [fieldFormula, Formula.atoms, List.mem_flatMap, List.mem_map] at member
  obtain ⟨_, ⟨command, commanded, rfl⟩, member⟩ := member
  exact ⟨criterion, isAsked, field, named, command, commanded, member⟩

/-- And whatever a command of a key asks of one of its columns is among the atoms. -/
theorem Criterion.mem_formulaOfAll {table : String} {asked : List Criterion} {criterion : Criterion}
    (isAsked : criterion ∈ asked) {field : String} (named : field ∈ criterion.target.names) {command : Command}
    (commanded : command ∈ criterion.commands) {a : Sql.Atom}
    (member : a ∈ (command.formula ⟨table, field⟩ criterion.argument).atoms) :
    a ∈ (formulaOfAll table asked).atoms := by
  have ofField : a ∈ (criterion.fieldFormula table field).atoms := by
    rw [fieldFormula, Formula.atoms, List.mem_flatMap]
    exact ⟨_, List.mem_map_of_mem commanded, member⟩
  have ofCriterion : a ∈ (criterion.formula table).atoms := by
    rw [formula, Formula.atoms, List.mem_flatMap]
    exact ⟨_, List.mem_map_of_mem named, ofField⟩
  rw [formulaOfAll, Formula.atoms, List.mem_flatMap]
  exact ⟨_, List.mem_map_of_mem isAsked, ofCriterion⟩

/-! ## Conditions -/

section Conditions

variable (k : Flavour) (table field : String)

theorem expresses_bothCompared (first second : Comparison) (low high : Scalar) :
    Expresses k .operand
      (Condition.bothCompared (k.dialect.column table field) first second
        (Prod.map k.dialect.literal k.dialect.literal (low, high)))
      (Command.bothCompared ⟨table, field⟩ first second [low, high]) := by
  have both : Expresses k (.joined .and) _ (Command.bothCompared ⟨table, field⟩ first second [low, high]) :=
    (expresses_compared k ⟨table, field⟩ first low).more (j := .and)
      ((expresses_compared k ⟨table, field⟩ second high).one (j := .and) |>.same
        (Formula.same_singleton _ _))
  exact (both.one (j := .or)).parenthesised

theorem items_pair {α : Type} (a b : α) : (Nested.list [.item a, .item b]).items = [a, b] := by
  simp [Nested.items, Nested.fold]

theorem flatMap_items_item {α : Type} (members : List α) :
    (members.map Nested.item).flatMap Nested.items = members := by
  induction members with
  | nil => rfl
  | cons a members ih => simp [Nested.items, Nested.fold, ih]

/-- Ranges, each with its two comparisons, as what any or all of them ask. -/
theorem expresses_ranges (j : Connective) (first second : Comparison)
    {ranges : List (Scalar × Scalar)} (written : ranges ≠ []) :
    Expresses k (.joined j)
      (j.separator.intercalate ((ranges.map (Prod.map k.dialect.literal k.dialect.literal)).map
        (Condition.bothCompared (k.dialect.column table field) first second)))
      (.join j ((ranges.map fun range => Nested.list [.item range.1, .item range.2]).map
        fun range => Command.bothCompared ⟨table, field⟩ first second range.items)) := by
  refine expresses_joined j ?_ (by simpa using written)
  rw [List.map_map, List.map_map, List.forall₂_map_left_iff, List.forall₂_map_right_iff,
    List.forall₂_same]
  intro range _
  rw [Function.comp_apply, Function.comp_apply, items_pair]
  exact (expresses_bothCompared k table field first second range.1 range.2).operand j

theorem expresses_condition {argument : Value} {command : Command} {condition : Condition Scalar}
    (taken : Condition.ofArgument? argument command = some condition) :
    Expresses k (.joined .or)
      ((condition.map k.dialect.literal).render (k.dialect.column table field))
      (command.formula ⟨table, field⟩ argument) := by
  have joined {sql : String} {f : Formula} (operand : Expresses k .operand sql f) :
      Expresses k (.joined .or) sql f := (operand.operand .or).one
  cases command with
  | isNull =>
    obtain rfl := Option.some.inj taken
    exact joined (expresses_isNull k ⟨table, field⟩)
  | equals | differs | above | atLeast =>
    obtain ⟨s, read, rfl⟩ := Option.map_eq_some_iff.mp taken
    obtain rfl := Nested.scalar?_eq_some_iff.mp read
    exact joined (expresses_compared k ⟨table, field⟩ _ s)
  | contains =>
    obtain ⟨s, read, rfl⟩ := Option.map_eq_some_iff.mp taken
    obtain rfl := Nested.scalar?_eq_some_iff.mp read
    exact joined (expresses_contains k ⟨table, field⟩ s)
  | startsWith =>
    obtain ⟨s, read, rfl⟩ := Option.map_eq_some_iff.mp taken
    obtain rfl := Nested.scalar?_eq_some_iff.mp read
    exact joined (expresses_startsWith k ⟨table, field⟩ s)
  | oneOf =>
    obtain ⟨operands, read, rfl⟩ := Option.map_eq_some_iff.mp taken
    obtain ⟨written, rfl⟩ := Nested.scalars?_eq_some_iff.mp read
    cases operands with
    | nil => exact absurd rfl written
    | cons s others =>
      show Expresses k (.joined .or) _
        (Command.lookedUp ⟨table, field⟩ (((s :: others).map .item).flatMap Nested.items))
      rw [flatMap_items_item]
      exact joined (expresses_oneOf k ⟨table, field⟩ s others)
  | within =>
    obtain ⟨ranges, read, rfl⟩ := Option.map_eq_some_iff.mp taken
    obtain ⟨written, rfl⟩ := Nested.pairs?_eq_some_iff.mp read
    exact expresses_ranges k table field .or .greaterOrEqual .less written
  | outside =>
    obtain ⟨ranges, read, rfl⟩ := Option.map_eq_some_iff.mp taken
    obtain ⟨written, rfl⟩ := Nested.pairs?_eq_some_iff.mp read
    exact (expresses_ranges k table field .and .less .greaterOrEqual written).one (j := .or)

end Conditions

/-! ## Keys -/

theorem condition_eq_ok_iff {argument : Value} {field : String} {command : Command}
    {c : Condition Scalar} : condition argument field command = .ok c ↔
      Condition.ofArgument? argument command = some c := by
  unfold condition
  cases Condition.ofArgument? argument command <;> simp

theorem expresses_alternatives {k : Flavour} {sqls : List String} {members : List Formula}
    (each : List.Forall₂ (Expresses k .operand) sqls members) (written : sqls ≠ []) :
    Expresses k .operand (alternatives sqls) (.any members) :=
  (expresses_joined .or (each.imp fun _ _ text => text.operand .or) written).parenthesised

theorem expresses_columnTest (k : Flavour) (table : String) {access : Access} {criterion : Criterion}
    {field : String} {test : ColumnTest} (tested : columnTest access criterion field = .ok test)
    (commanded : criterion.commands ≠ []) :
    Expresses k .operand (test.render k.dialect table) (criterion.fieldFormula table field) := by
  obtain ⟨_, -, tested⟩ := bind_eq_ok_iff.mp tested
  obtain ⟨conditions, taken, made⟩ := bind_eq_ok_iff.mp tested
  obtain rfl := Except.ok.inj made
  have each : List.Forall₂ (Expresses k .operand)
      (conditions.map fun c =>
        parenthesised ((c.map k.dialect.literal).render (k.dialect.column table field)))
      (criterion.commands.map fun command => command.formula ⟨table, field⟩ criterion.argument) := by
    rw [List.forall₂_map_left_iff, List.forall₂_map_right_iff]
    refine (mapM_eq_ok_iff.mp taken).flip.imp fun c command here => ?_
    exact (expresses_condition k table field (condition_eq_ok_iff.mp here)).parenthesised
  unfold ColumnTest.render Criterion.fieldFormula
  dsimp only
  split
  · rename_i sql single
    rw [single] at each
    obtain ⟨f, members, only, none, listed⟩ := List.forall₂_cons_left_iff.mp each
    rw [List.forall₂_nil_left_iff] at none
    rw [listed, none]
    exact only.same (Formula.same_singleton .or f)
  · refine expresses_alternatives each ?_
    intro empty
    rw [empty, List.forall₂_nil_left_iff, List.map_eq_nil_iff] at each
    exact commanded each

theorem expresses_restriction (k : Flavour) (table : String) {access : Access} {key : String}
    {argument : Value} {r : Restriction} (restricted : restriction access (key, argument) = .ok r) :
    ∃ criterion, Criterion.read key argument = .ok criterion ∧
      Expresses k .operand (r.render k.dialect table) (criterion.formula table) := by
  obtain ⟨criterion, read, restricted⟩ := bind_eq_ok_iff.mp restricted
  obtain ⟨named, commanded⟩ := Criterion.ne_nil_of_read read
  refine ⟨criterion, read, ?_⟩
  obtain ⟨target, commands, argument⟩ := criterion
  cases target with
  | column field =>
    obtain ⟨test, tested, made⟩ := bind_eq_ok_iff.mp restricted
    obtain rfl := Except.ok.inj made
    exact (expresses_columnTest k table tested commanded).same (Formula.same_singleton .or _)
  | anyOf fields =>
    obtain ⟨tests, tested, made⟩ := bind_eq_ok_iff.mp restricted
    obtain rfl := Except.ok.inj made
    have each := (mapM_eq_ok_iff.mp tested).flip
    refine expresses_alternatives ?_ ?_
    · rw [Target.names, List.forall₂_map_left_iff, List.forall₂_map_right_iff]
      exact each.imp fun test field here => expresses_columnTest k table here commanded
    · intro empty
      rw [List.map_eq_nil_iff] at empty
      rw [empty, List.forall₂_nil_left_iff] at each
      exact named each

/-! ## The whole clause -/

/-- Keys that compile are read, and their texts express what they ask, one by one. -/
theorem Compiler.expresses_keys {c : Compiler} {k : Flavour} (shipped : c.dialect = k.dialect)
    {entries : List (String × Value)} {terms : List String}
    (compiled : entries.mapM c.keyText = .ok terms) :
    ∃ asked, (entries.mapM fun entry => Criterion.read entry.1 entry.2) = .ok asked ∧
      List.Forall₂ (Expresses k .operand) terms (asked.map (Criterion.formula c.table.text)) := by
  simp only [mapM_eq_ok_iff] at compiled ⊢
  induction compiled with
  | nil => exact ⟨[], .nil, .nil⟩
  | cons head _ ih =>
    obtain ⟨r, restricted, rfl⟩ := map_eq_ok_iff.mp head
    obtain ⟨criterion, read, text⟩ := expresses_restriction k c.table.text restricted
    obtain ⟨asked, reads, texts⟩ := ih
    rw [← shipped] at text
    exact ⟨criterion :: asked, .cons read reads, .cons text texts⟩

/-- A clause that compiles is empty without a key, and else expresses what all keys ask. -/
theorem Compiler.expresses_compile {c : Compiler} {k : Flavour} (shipped : c.dialect = k.dialect)
    {criteria : Criteria} {clause : Clause} (compiled : c.compile criteria = .ok clause) :
    (clause.expression? = none ↔ criteria.toList = []) ∧
    ∃ asked, (criteria.toList.mapM fun entry => Criterion.read entry.1 entry.2) = .ok asked ∧
      ∀ sql, clause.expression? = some sql →
        Expresses k (.joined .or) sql (Criterion.formulaOfAll c.table.text asked) := by
  rw [compile_eq] at compiled
  split at compiled
  · cases compiled
  · obtain ⟨terms, texts, rfl⟩ := map_eq_ok_iff.mp compiled
    obtain ⟨asked, read, each⟩ := c.expresses_keys shipped texts
    have empty : terms = [] ↔ criteria.toList = [] := by
      rw [← List.length_eq_zero_iff, ← List.length_eq_zero_iff,
        (mapM_eq_ok_iff.mp texts).length_eq]
    refine ⟨?_, asked, read, ?_⟩
    · rw [← empty, Clause.ofTerms]
      dsimp only
      split_ifs with none <;> simp [none]
    · intro sql written
      unfold Clause.ofTerms at written
      dsimp only at written
      split_ifs at written with none
      obtain rfl := Option.some.inj written
      exact (expresses_joined .and each none).one (j := .or)

/-- The tokens of an expression are read, and the atoms found are those that the keys ask for. -/
theorem Compiler.exists_reading {c : Compiler} {k : Flavour} (shipped : c.dialect = k.dialect)
    {criteria : Criteria} {clause : Clause} (compiled : c.compile criteria = .ok clause) {sql : String}
    (written : clause.expression? = some sql) :
    ∃ asked tokens tree, (criteria.toList.mapM fun entry => Criterion.read entry.1 entry.2) = .ok asked ∧
      k.tokens? sql = some tokens ∧ Derives (.joined .or) tokens tree ∧
        tree.atoms = (Criterion.formulaOfAll c.table.text asked).atoms := by
  obtain ⟨-, asked, read, text⟩ := c.expresses_compile shipped compiled
  obtain ⟨layout, tree, spelled, apart, derived, same⟩ := text sql written
  refine ⟨asked, layout.reduceOption, tree, read, ?_, derived, same.2⟩
  rw [Flavour.tokens?, spelled, k.layout?_spelling apart]
  rfl

/-- What a filter that compiles means. There is no expression just when there is no key. The tokens of an
expression have one reading in the grammar, and whatever the truth of its comparisons is, that reading is
as true as what the keys ask: for every key, for any of its columns, any of its commands. -/
theorem compile_means {c : Compiler} {k : Flavour} (shipped : c.dialect = k.dialect)
    {criteria : Criteria} {clause : Clause} (compiled : c.compile criteria = .ok clause) :
    (clause.expression? = none ↔ criteria.toList = []) ∧
    ∃ asked, (criteria.toList.mapM fun entry => Criterion.read entry.1 entry.2) = .ok asked ∧
      ∀ sql, clause.expression? = some sql →
        ∃ tokens tree, k.tokens? sql = some tokens ∧
          (∀ reading, Derives (.joined .or) tokens reading ↔ reading = tree) ∧
          ∀ assignment,
            tree.eval assignment = (Criterion.formulaOfAll c.table.text asked).eval assignment := by
  obtain ⟨empty, asked, read, text⟩ := c.expresses_compile shipped compiled
  refine ⟨empty, asked, read, fun sql written => ?_⟩
  obtain ⟨layout, tree, spelled, apart, derived, same⟩ := text sql written
  refine ⟨layout.reduceOption, tree, ?_, fun reading => ⟨?_, ?_⟩, same.1⟩
  · rw [Flavour.tokens?, spelled, k.layout?_spelling apart]
    rfl
  · intro alsoDerived
    exact alsoDerived.unique derived
  · rintro rfl
    exact derived

/-- A group of two columns is one disjunction. -/
theorem compile_means_group :
    (⟨.mysql, ⟨"t", by decide⟩, .everything, 64⟩ : Compiler).compile
        (.ofList [("(a,b):null", .item (.text ""))]) =
      .ok ⟨some "((`t`.`a` IS NULL) OR (`t`.`b` IS NULL))"⟩ ∧
    ∃ tokens tree,
      Flavour.mysql.tokens? "((`t`.`a` IS NULL) OR (`t`.`b` IS NULL))" = some tokens ∧
      (∀ reading, Derives (.joined .or) tokens reading ↔ reading = tree) := by
  have compiled : (⟨.mysql, ⟨"t", by decide⟩, .everything, 64⟩ : Compiler).compile
        (.ofList [("(a,b):null", .item (.text ""))]) =
      .ok ⟨some "((`t`.`a` IS NULL) OR (`t`.`b` IS NULL))"⟩ := Compiler.compile_of_keyText (by decide) rfl
  obtain ⟨-, asked, -, means⟩ := compile_means (k := .mysql) rfl compiled
  obtain ⟨tokens, tree, read, reading, -⟩ := means _ rfl
  exact ⟨compiled, tokens, tree, read, reading⟩

end RowFilter
