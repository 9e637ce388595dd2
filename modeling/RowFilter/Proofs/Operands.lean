import RowFilter.Proofs.Meaning
import RowFilter.Proofs.Query.Placement

/-!
# Literals side by side

A row of literals is one operand only if all of them are quoted texts.

* `Sql.TextsMeet` : literals stand side by side only if they are texts; `Sql.Derives.textsMeet_iff` : so they do in an
  expression exactly if they do in each of its atoms;
* `Command.textsMeet_formula_iff` : what a command asks has such atoms unless it is a text match with a number;
* `compile_textsMeet` : so a compiled filter has them exactly if no text match has a number as its argument, and always
  where its criteria come from a query string.
-/

namespace RowFilter

open Sql (Flavour Token Column Literal Atom Formula Derives)

/-! ## Tokens -/

namespace Sql

def Token.isText : Token → Bool
  | .text _ => true
  | _ => false

/-- Two literals stand side by side only if both are texts. -/
def TextsMeet (ts : List Token) : Prop :=
  ts.IsChain fun t u => t.isLiteral → u.isLiteral → t.isText ∧ u.isText

theorem textsMeet_cons_iff {t : Token} (other : t.isLiteral = false) {ts : List Token} :
    TextsMeet (t :: ts) ↔ TextsMeet ts := by
  rw [TextsMeet, List.isChain_cons]
  simp [other, TextsMeet]

/-- What is no literal keeps apart what stands before and behind it. -/
theorem textsMeet_append_cons_iff {t : Token} (other : t.isLiteral = false) {ts us : List Token} :
    TextsMeet (ts ++ t :: us) ↔ TextsMeet ts ∧ TextsMeet us := by
  refine List.isChain_append.trans (and_congr_right fun _ => ?_)
  refine Iff.trans (and_iff_left ?_) (textsMeet_cons_iff other)
  rintro u _ _ ⟨⟩ _ literal
  rw [other] at literal
  cases literal

theorem textsMeet_rowTokens (first : Literal) (others : List Literal) : TextsMeet (rowTokens first others) := by
  induction others generalizing first with
  | nil => exact List.isChain_singleton _
  | cons second others ih =>
    have comma : (Token.symbol .comma).isLiteral = false := rfl
    have apart : TextsMeet ([first.token] ++ .symbol .comma :: rowTokens second others) :=
      (textsMeet_append_cons_iff comma).mpr ⟨List.isChain_singleton _, ih second⟩
    exact apart

namespace Atom

theorem textsMeet_tokens_iff (a : Atom) : TextsMeet a.tokens ↔ TextsMeet a.predicate :=
  (textsMeet_cons_iff rfl).trans ((textsMeet_cons_iff rfl).trans (textsMeet_cons_iff rfl))

theorem textsMeet_like_iff (column : Column) (first : Literal) (others : List Literal) :
    TextsMeet (like column first others).tokens ↔ TextsMeet ((first :: others).map Literal.token) :=
  (textsMeet_tokens_iff _).trans (textsMeet_cons_iff rfl)

/-- Only a pattern has literals side by side. -/
theorem textsMeet_of_ne_like {a : Atom} (other : ∀ column first others, a ≠ .like column first others) :
    TextsMeet a.tokens := by
  rw [textsMeet_tokens_iff]
  cases a with
  | compare _ comparison operand => exact (textsMeet_cons_iff rfl).mpr (List.isChain_singleton _)
  | isNull _ => exact (textsMeet_cons_iff rfl).mpr (List.isChain_singleton _)
  | like column first others => exact absurd rfl (other column first others)
  | oneOf _ first others =>
    refine (textsMeet_cons_iff rfl).mpr ((textsMeet_cons_iff rfl).mpr ?_)
    exact (textsMeet_append_cons_iff rfl).mpr ⟨textsMeet_rowTokens first others, List.isChain_nil⟩

end Atom

/-- Connectives and parentheses keep the literals of different atoms apart. -/
theorem Derives.textsMeet_iff {c : Category} {ts : List Token} {f : Formula} (derived : Derives c ts f) :
    TextsMeet ts ↔ ∀ a ∈ f.atoms, TextsMeet a.tokens := by
  induction derived with
  | atom a => rw [Formula.atoms, List.forall_mem_singleton]
  | group _ ih =>
    rw [textsMeet_cons_iff rfl, textsMeet_append_cons_iff rfl, ih]
    exact and_iff_left List.isChain_nil
  | one _ _ ih => exact ih
  | more k _ _ ihFirst ihOthers =>
    have symbol : (Token.symbol k.symbol).isLiteral = false := by cases k <;> rfl
    rw [textsMeet_append_cons_iff symbol, ihFirst, ihOthers, Formula.atoms, List.flatMap_cons, List.flatMap_singleton,
      List.forall_mem_append]

theorem Literal.isText_ofScalar_iff {s : Scalar} : (ofScalar s).token.isText ↔ ∀ n, s ≠ .number n := by
  cases s with
  | text s => exact iff_of_true rfl nofun
  | number n =>
    refine iff_of_false ?_ fun other => other n rfl
    cases n with
    | int i => exact Bool.false_ne_true
    | float x =>
      unfold ofScalar
      dsimp only
      split <;> exact Bool.false_ne_true

theorem textsMeet_pair_iff (l : Literal) : TextsMeet [l.token, .text "%"] ↔ l.token.isText := by
  rw [TextsMeet, List.isChain_pair]
  exact ⟨fun meet => (meet l.isLiteral_token rfl).1, fun text _ _ => ⟨text, rfl⟩⟩

theorem textsMeet_triple_iff (l : Literal) : TextsMeet [.text "%", l.token, .text "%"] ↔ l.token.isText := by
  rw [TextsMeet, List.isChain_cons_cons, ← TextsMeet, textsMeet_pair_iff]
  exact and_iff_right_of_imp fun text _ _ => ⟨rfl, text⟩

end Sql

/-! ## Commands -/

def Command.isMatch : Command → Bool
  | contains | startsWith => true
  | _ => false

section Commands

variable {column : Column} {command : Command} {argument : Value}

theorem Command.ne_like_of_mem_bothCompared {first second : Comparison} {scalars : List Scalar} {a : Atom}
    (member : a ∈ (bothCompared column first second scalars).atoms) (c : Column) (l : Literal) (ls : List Literal) :
    a ≠ .like c l ls := by
  rintro rfl
  unfold bothCompared at member
  split at member <;> simp [Formula.atoms] at member

theorem Command.ne_like_of_mem_formula {a : Atom} (member : a ∈ (command.formula column argument).atoms)
    (other : command.isMatch = false) (c : Column) (l : Literal) (ls : List Literal) : a ≠ .like c l ls := by
  unfold Command.formula at member
  split at member
  case h_6 | h_7 => cases other
  case h_8 members =>
    rintro rfl
    unfold lookedUp at member
    split at member <;> simp [Formula.atoms] at member
  case h_9 ranges | h_10 ranges =>
    simp only [Formula.atoms, List.mem_flatMap, List.mem_map] at member
    obtain ⟨_, ⟨range, -, rfl⟩, member⟩ := member
    exact ne_like_of_mem_bothCompared member c l ls
  all_goals
    rintro rfl
    simp [Formula.atoms] at member

/-- What a command asks keeps literals apart, but for a text match with a number. -/
theorem Command.textsMeet_formula_iff : (∀ a ∈ (command.formula column argument).atoms, Sql.TextsMeet a.tokens) ↔
    (command.isMatch → ∀ n, argument ≠ .item (.number n)) := by
  cases isMatch : command.isMatch with
  | false =>
    refine iff_of_true (fun a member => ?_) (fun matched => absurd matched Bool.false_ne_true)
    exact Sql.Atom.textsMeet_of_ne_like (ne_like_of_mem_formula member isMatch)
  | true =>
    rw [forall_prop_of_true rfl]
    cases argument with
    | list members =>
      have none : (command.formula column (.list members)).atoms = [] := by
        cases command with
        | contains => simp [Command.formula, Formula.atoms]
        | startsWith => simp [Command.formula, Formula.atoms]
        | _ => cases isMatch
      rw [none]
      exact iff_of_true (List.forall_mem_nil _) (by simp)
    | item s =>
      have text : (∀ n, (Nested.item s : Value) ≠ .item (.number n)) ↔ (Literal.ofScalar s).token.isText := by
        simp [Sql.Literal.isText_ofScalar_iff]
      rw [text]
      cases command with
      | contains =>
        rw [Command.formula, Formula.atoms, List.forall_mem_singleton, Sql.Atom.textsMeet_like_iff]
        exact Sql.textsMeet_triple_iff _
      | startsWith =>
        rw [Command.formula, Formula.atoms, List.forall_mem_singleton, Sql.Atom.textsMeet_like_iff]
        exact Sql.textsMeet_pair_iff _
      | _ => cases isMatch

end Commands

/-! ## Compiled filters -/

def Criterion.matchesNumber (criterion : Criterion) : Prop :=
  ∃ command ∈ criterion.commands, command.isMatch ∧ ∃ n, criterion.argument = .item (.number n)

theorem Compiler.textsMeet_iff {c : Compiler} {k : Flavour} (shipped : c.dialect = k.dialect) {criteria : Criteria}
    {clause : Clause} (compiled : c.compile criteria = .ok clause) {sql : String}
    (written : clause.expression? = some sql) :
    ∃ tokens, k.tokens? sql = some tokens ∧ (Sql.TextsMeet tokens ↔
      ∀ entry ∈ criteria.toList, ∀ criterion, Criterion.read entry.1 entry.2 = .ok criterion →
        ¬ criterion.matchesNumber) := by
  obtain ⟨asked, tokens, tree, taken, found, derived, same⟩ := c.exists_reading shipped compiled written
  refine ⟨tokens, found, ?_⟩
  rw [derived.textsMeet_iff, same]
  have related := mapM_eq_ok_iff.mp taken
  constructor
  · rintro meet entry there criterion read ⟨command, commanded, isMatch, n, number⟩
    obtain ⟨criterion', isAsked, read'⟩ := exists_of_forall₂_right related.flip there
    obtain rfl := Except.ok.inj (read.symm.trans read')
    obtain ⟨field, named⟩ := List.exists_mem_of_ne_nil _ (Criterion.ne_nil_of_read read).1
    have apart := Command.textsMeet_formula_iff.mp fun a member =>
      meet a (Criterion.mem_formulaOfAll isAsked named commanded member)
    exact apart isMatch n number
  · intro none a member
    obtain ⟨criterion, isAsked, field, -, command, commanded, member⟩ := Criterion.exists_of_mem_formulaOfAll member
    obtain ⟨entry, there, read⟩ := exists_of_forall₂_right related isAsked
    refine Command.textsMeet_formula_iff.mpr (fun isMatch n number => ?_) a member
    exact none entry there criterion read ⟨command, commanded, isMatch, n, number⟩

theorem Criterion.argument_of_isMatch {key : String} {argument : Value} {criterion : Criterion}
    (taken : read key argument = .ok criterion) {command : Command} (commanded : command ∈ criterion.commands)
    (isMatch : command.isMatch) : criterion.argument = argument := by
  unfold read at taken
  split at taken
  · obtain rfl := Except.ok.inj taken
    rw [List.mem_singleton] at commanded
    rw [commanded] at isMatch
    split at isMatch <;> cases isMatch
  · obtain ⟨commands, -, made⟩ := bind_eq_ok_iff.mp taken
    obtain rfl := Except.ok.inj made
    rfl

theorem Query.Given.not_matchesNumber {limit : Nat} {criteria : Criteria} (given : Given limit criteria)
    {entry : String × Value} (there : entry ∈ criteria.toList) {criterion : Criterion}
    (taken : Criterion.read entry.1 entry.2 = .ok criterion) : ¬ criterion.matchesNumber := by
  rintro ⟨command, commanded, isMatch, n, number⟩
  rw [Criterion.argument_of_isMatch taken commanded isMatch] at number
  have grown := given.grown entry there
  rw [number] at grown
  obtain ⟨text, same⟩ := grown.forall_items (.number n) (by rw [Nested.items_item]; exact List.mem_singleton_self _)
  cases same

/-- Where literals stand side by side in a compiled filter, all of them are quoted texts, exactly if no key matches
texts against a number. Criteria that a query string gives have no such key. -/
theorem compile_textsMeet {c : Compiler} {k : Flavour} (shipped : c.dialect = k.dialect) {criteria : Criteria}
    {clause : Clause} (compiled : c.compile criteria = .ok clause) {sql : String}
    (written : clause.expression? = some sql) :
    ∃ tokens, k.tokens? sql = some tokens ∧
      (Sql.TextsMeet tokens ↔ ∀ entry ∈ criteria.toList, ∀ criterion,
        Criterion.read entry.1 entry.2 = .ok criterion → ¬ criterion.matchesNumber) ∧
      ((∃ limit query, Query.read limit query = .ok criteria) → Sql.TextsMeet tokens) := by
  obtain ⟨tokens, found, meet⟩ := c.textsMeet_iff shipped compiled written
  refine ⟨tokens, found, meet, ?_⟩
  rintro ⟨limit, query, done⟩
  exact meet.mpr fun _ there _ taken => (Query.given_of_read done).not_matchesNumber there taken

/-- A text in quotes between the wildcards. -/
theorem compile_textsMeet_like :
    ∃ tokens, Flavour.mysql.tokens? "(`t`.`a` LIKE '%' '5' '%')" = some tokens ∧ Sql.TextsMeet tokens := by
  have compiled : (⟨.mysql, ⟨"t", by decide⟩, .everything, 64⟩ : Compiler).compile
        (.ofList [("a:like", .item (.text "5"))]) = .ok ⟨some "(`t`.`a` LIKE '%' '5' '%')"⟩ :=
    Compiler.compile_of_keyText (by decide) rfl
  obtain ⟨tokens, found, meet, -⟩ := compile_textsMeet (k := .mysql) rfl compiled rfl
  refine ⟨tokens, found, meet.mpr ?_⟩
  rintro entry there criterion taken ⟨command, commanded, isMatch, n, number⟩
  rw [Criteria.toList_ofList_singleton, List.mem_singleton] at there
  subst there
  rw [Criterion.argument_of_isMatch taken commanded isMatch] at number
  cases number

/-- A number stands bare between them. -/
theorem compile_bare_operand :
    (⟨.mysql, ⟨"t", by decide⟩, .everything, 64⟩ : Compiler).compile
        (.ofList [("a:like", .item (.number (.int 5)))]) = .ok ⟨some "(`t`.`a` LIKE '%' 5 '%')"⟩ ∧
    ∃ tokens, Flavour.mysql.tokens? "(`t`.`a` LIKE '%' 5 '%')" = some tokens ∧ ¬ Sql.TextsMeet tokens := by
  have compiled : (⟨.mysql, ⟨"t", by decide⟩, .everything, 64⟩ : Compiler).compile
        (.ofList [("a:like", .item (.number (.int 5)))]) = .ok ⟨some "(`t`.`a` LIKE '%' 5 '%')"⟩ :=
    Compiler.compile_of_keyText (by decide) rfl
  obtain ⟨tokens, found, meet⟩ := Compiler.textsMeet_iff (k := .mysql) rfl compiled rfl
  refine ⟨compiled, tokens, found, fun apart => ?_⟩
  have there : ("a:like", Nested.item (Scalar.number (.int 5))) ∈
      (Criteria.ofList [("a:like", .item (.number (.int 5)))]).toList := by
    rw [Criteria.toList_ofList_singleton]
    exact List.mem_singleton_self _
  refine meet.mp apart _ there ⟨.column "a", [.contains], .item (.number (.int 5))⟩ rfl ?_
  exact ⟨.contains, List.mem_singleton_self _, rfl, .int 5, rfl⟩

end RowFilter
