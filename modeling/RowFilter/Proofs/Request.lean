import RowFilter.Proofs.Json.Finite
import RowFilter.Proofs.Meaning
import RowFilter.Proofs.Query.Independence
import RowFilter.Proofs.Query.Placement

/-!
# What a request can put into a filter

* `Command.literal_of_mem_formula` : what a command asks has no literals but wildcards and the scalars of its
  argument, so with finite numbers none of them is null (`Criterion.ne_null_of_mem_formulaOfAll`);
* `Sql.NullsTested` : every `NULL` stands behind an `IS`; `Sql.Derives.nullsTested` : so it does in an expression
  whose atoms have no null among their literals;
* `Requested` : criteria that a reader gives;
* `requested_given` : what these can be, and that no filter compiled from them compares anything with null.
-/

namespace RowFilter

open Sql (Flavour Token Symbol Column Literal Atom Formula Derives Category rowTokens)

/-! ## Literals -/

theorem Sql.Literal.ofScalar_ne_null {s : Scalar} (finite : s.isFinite) : ofScalar s ≠ .null := by
  unfold ofScalar
  split
  · exact nofun
  · exact nofun
  · rename_i x
    have finite : x.isFinite := finite
    rw [dif_pos finite]
    exact nofun

section Literals

variable {column : Column} {a : Atom} {l : Literal}

theorem Command.literal_of_mem_bothCompared {first second : Comparison} {scalars : List Scalar}
    (member : a ∈ (bothCompared column first second scalars).atoms) (inside : l ∈ a.literals) :
    ∃ s ∈ scalars, l = .ofScalar s := by
  unfold bothCompared at member
  split at member
  · simp only [Formula.atoms, List.flatMap_cons, List.flatMap_nil, List.append_nil,
      List.singleton_append, List.mem_cons, List.not_mem_nil, or_false] at member
    rcases member with rfl | rfl
    all_goals
      rw [Atom.literals, List.mem_singleton] at inside
      simp [inside]
  · simp [Formula.atoms] at member

theorem Command.literal_of_mem_lookedUp {scalars : List Scalar}
    (member : a ∈ (lookedUp column scalars).atoms) (inside : l ∈ a.literals) :
    ∃ s ∈ scalars, l = .ofScalar s := by
  unfold lookedUp at member
  split at member
  · simp [Formula.atoms] at member
  · rename_i first others
    rw [Formula.atoms, List.mem_singleton] at member
    rw [member, Atom.literals, ← List.map_cons (f := Literal.ofScalar), List.mem_map] at inside
    obtain ⟨s, there, rfl⟩ := inside
    exact ⟨s, there, rfl⟩

/-- The literals of a command are wildcards and the scalars of its argument. -/
theorem Command.literal_of_mem_formula {command : Command} {argument : Value}
    (member : a ∈ (command.formula column argument).atoms) (inside : l ∈ a.literals) :
    l = .text "%" ∨ ∃ s ∈ argument.items, l = .ofScalar s := by
  have own (s : Scalar) : s ∈ (Nested.item s).items := by
    rw [Nested.items_item]
    exact List.mem_singleton_self s
  unfold Command.formula at member
  split at member
  case h_1 s | h_2 s | h_3 s | h_4 s =>
    rw [Formula.atoms, List.mem_singleton] at member
    rw [member, Atom.literals, List.mem_singleton] at inside
    exact .inr ⟨s, own s, inside⟩
  case h_5 =>
    rw [Formula.atoms, List.mem_singleton] at member
    rw [member] at inside
    exact absurd inside List.not_mem_nil
  case h_6 s | h_7 s =>
    rw [Formula.atoms, List.mem_singleton] at member
    simp only [member, Atom.literals, List.mem_cons, List.not_mem_nil, or_false] at inside
    have either : l = .text "%" ∨ l = .ofScalar s := by tauto
    exact either.imp_right fun same => ⟨s, own s, same⟩
  case h_8 members =>
    rw [Nested.items_list]
    exact .inr (literal_of_mem_lookedUp member inside)
  case h_9 ranges | h_10 ranges =>
    simp only [Formula.atoms, List.mem_flatMap, List.mem_map] at member
    obtain ⟨_, ⟨range, there, rfl⟩, member⟩ := member
    obtain ⟨s, item, same⟩ := literal_of_mem_bothCompared member inside
    rw [Nested.items_list]
    exact .inr ⟨s, List.mem_flatMap.mpr ⟨range, there, item⟩, same⟩
  case h_11 => simp [Formula.atoms] at member

/-- Where no argument has a number that SQL cannot write, no literal is null. -/
theorem Criterion.ne_null_of_mem_formulaOfAll {table : String} {asked : List Criterion}
    (finite : ∀ criterion ∈ asked, ∀ s ∈ criterion.argument.items, s.isFinite)
    (member : a ∈ (formulaOfAll table asked).atoms) (inside : l ∈ a.literals) : l ≠ .null := by
  obtain ⟨criterion, isAsked, field, -, command, -, member⟩ := exists_of_mem_formulaOfAll member
  rcases Command.literal_of_mem_formula member inside with rfl | ⟨s, item, rfl⟩
  · exact nofun
  · exact Sql.Literal.ofScalar_ne_null (finite criterion isAsked s item)

end Literals

/-! ## Tokens -/

namespace Sql

/-- Nothing is null but what is tested for it: every `NULL` stands right behind an `IS`. -/
def NullsTested (ts : List Token) : Prop :=
  ∀ before after, ts = before ++ .symbol .null :: after → before.getLast? = some (.symbol .is)

theorem nullsTested_of_not_mem {ts : List Token} (none : .symbol .null ∉ ts) : NullsTested ts := by
  rintro before after rfl
  exact absurd List.mem_append_cons_self none

theorem NullsTested.append {ts us : List Token} (first : NullsTested ts) (second : NullsTested us) :
    NullsTested (ts ++ us) := by
  intro before after same
  rcases List.append_eq_append_iff.mp same with ⟨between, rfl, later⟩ | ⟨between, rfl, later⟩
  · rw [List.getLast?_append, second between after later]
    rfl
  · cases between with
    | nil => cases second [] after later.symm
    | cons t between =>
      obtain ⟨rfl, -⟩ := List.cons.inj later
      exact first before between rfl

theorem Literal.null_ne_token {l : Literal} (written : l ≠ .null) : .symbol .null ≠ l.token :=
  fun same => written (token_injective same.symm)

theorem not_mem_rowTokens {first : Literal} {others : List Literal}
    (written : ∀ l ∈ first :: others, l ≠ .null) : .symbol .null ∉ rowTokens first others := by
  induction others generalizing first with
  | nil =>
    rw [rowTokens, List.mem_singleton]
    exact Literal.null_ne_token (written first List.mem_cons_self)
  | cons second others ih =>
    obtain ⟨head, tail⟩ := List.forall_mem_cons.mp written
    rw [rowTokens, List.mem_cons, List.mem_cons, not_or, not_or]
    exact ⟨Literal.null_ne_token head, nofun, ih tail⟩

theorem Atom.nullsTested {a : Atom} (written : ∀ l ∈ a.literals, l ≠ .null) : NullsTested a.tokens := by
  have column : NullsTested a.column.tokens := nullsTested_of_not_mem (by simp [Column.tokens])
  refine column.append ?_
  cases a with
  | isNull column =>
    intro before after same
    rcases before with _ | ⟨first, _ | ⟨second, before⟩⟩
    · cases same
    · exact congrArg some (List.cons.inj same).1.symm
    · simp [predicate] at same
  | compare column comparison operand =>
    have null := Literal.null_ne_token (written operand (List.mem_singleton_self operand))
    exact nullsTested_of_not_mem (by simpa [predicate] using null)
  | like column first others =>
    refine nullsTested_of_not_mem ?_
    rw [predicate, List.mem_cons, not_or, List.mem_map]
    refine ⟨by simp, ?_⟩
    rintro ⟨l, there, same⟩
    exact Literal.null_ne_token (written l there) same.symm
  | oneOf column first others =>
    have null := not_mem_rowTokens written
    exact nullsTested_of_not_mem (by simpa [predicate] using null)

theorem nullsTested_symbol {s : Symbol} (other : .null ≠ s) : NullsTested [.symbol s] :=
  nullsTested_of_not_mem (by simpa using other)

/-- An expression tests for null, and has it nowhere else, if no atom has it among its literals. -/
theorem Derives.nullsTested {c : Category} {ts : List Token} {f : Formula} (derived : Derives c ts f)
    (written : ∀ a ∈ f.atoms, ∀ l ∈ a.literals, l ≠ .null) : NullsTested ts := by
  induction derived with
  | atom a =>
    rw [Formula.atoms, List.forall_mem_singleton] at written
    exact a.nullsTested written
  | group _ ih =>
    have opening : NullsTested [.symbol .opening] := nullsTested_symbol (by simp)
    have closing : NullsTested [.symbol .closing] := nullsTested_symbol (by simp)
    exact opening.append ((ih written).append closing)
  | one _ _ ih => exact ih written
  | more k _ _ ihFirst ihOthers =>
    have joined : NullsTested [.symbol k.symbol] := nullsTested_symbol (by cases k <;> simp [Connective.symbol])
    rw [Formula.atoms, List.flatMap_cons, List.flatMap_singleton, List.forall_mem_append] at written
    exact (ihFirst written.1).append (joined.append (ihOthers written.2))

end Sql

/-! ## Requests -/

/-- Criteria without numbers that SQL cannot write compile to expressions that compare nothing with null. -/
theorem Compiler.nullsTested {c : Compiler} {k : Flavour} (shipped : c.dialect = k.dialect) {criteria : Criteria}
    (finite : ∀ entry ∈ criteria.toList, ∀ s ∈ entry.2.items, s.isFinite) {clause : Clause}
    (compiled : c.compile criteria = .ok clause) {sql : String} (written : clause.expression? = some sql) :
    ∃ tokens, k.tokens? sql = some tokens ∧ Sql.NullsTested tokens ∧
      ∀ reading, Derives (.joined .or) tokens reading → ∀ a ∈ reading.atoms, .null ∉ a.literals := by
  obtain ⟨asked, tokens, tree, taken, found, derived, same⟩ := c.exists_reading shipped compiled written
  have finite' : ∀ criterion ∈ asked, ∀ s ∈ criterion.argument.items, s.isFinite := by
    intro criterion isAsked
    obtain ⟨entry, there, taken⟩ := exists_of_forall₂_right (mapM_eq_ok_iff.mp taken) isAsked
    exact Criterion.isFinite_of_read taken (finite entry there)
  have notNull : ∀ a ∈ tree.atoms, ∀ l ∈ a.literals, l ≠ .null := by
    rw [same]
    exact fun a member l inside => Criterion.ne_null_of_mem_formulaOfAll finite' member inside
  refine ⟨tokens, found, derived.nullsTested notNull, fun reading alsoDerived a member null => ?_⟩
  rw [alsoDerived.unique derived] at member
  exact notNull a member .null null rfl

/-- Criteria that a request gives: a query string, or a JSON body as a text or as bytes. -/
inductive Requested (limit : Nat) (criteria : Criteria) : Prop where
  | query {text : String} (done : Query.read limit text = .ok criteria)
  | json {text : String} (done : Json.read limit text = .ok criteria)
  | jsonBytes {bytes : ByteArray} (done : Json.readBytes limit bytes = .ok criteria)

theorem Query.Given.isFinite {limit : Nat} {criteria : Criteria} (given : Given limit criteria) :
    ∀ entry ∈ criteria.toList, ∀ s ∈ entry.2.items, s.isFinite := by
  intro entry there s item
  obtain ⟨text, rfl⟩ := (given.grown entry there).forall_items s item
  rfl

theorem Json.Given.isFinite {limit : Nat} {criteria : Criteria} (given : Given limit criteria) :
    ∀ entry ∈ criteria.toList, ∀ s ∈ entry.2.items, s.isFinite :=
  fun entry there => (given.bounded entry there).forall_items

theorem Json.given_of_readBytes {limit : Nat} {bytes : ByteArray} {criteria : Criteria}
    (done : readBytes limit bytes = .ok criteria) : Given limit criteria := by
  rcases readBytes_eq limit bytes with ⟨text, -, same⟩ | ⟨-, refused⟩
  · exact given_of_read (same.symm.trans done)
  · cases refused.symm.trans done

/-- What a request can put into criteria, and from there into SQL. A query string gives as many keys as the limit
allows at most, distinct and none empty, and values put together from texts in lists that are not empty; a JSON body
gives keys that ascend, and texts and finite numbers; both keep lists as shallow as the reader allows. A text that
spells a number spells a finite one. So a filter that compiles from either has the word `NULL` right behind `IS`
only, and compares no column with it. -/
theorem requested_given :
    (∀ limit text criteria, Query.read limit text = .ok criteria → Query.Given limit criteria) ∧
    (∀ limit text criteria, Json.read limit text = .ok criteria → Json.Given limit criteria) ∧
    (∀ limit bytes criteria, Json.readBytes limit bytes = .ok criteria → Json.Given limit criteria) ∧
    (∀ text n, Scalar.numberSpelled? text = some n → n.isFinite) ∧
    ∀ limit criteria, Requested limit criteria → ∀ (c : Compiler) (k : Flavour) clause sql,
      c.dialect = k.dialect → c.compile criteria = .ok clause → clause.expression? = some sql →
        ∃ tokens, k.tokens? sql = some tokens ∧ Sql.NullsTested tokens ∧
          ∀ reading, Derives (.joined .or) tokens reading → ∀ a ∈ reading.atoms, .null ∉ a.literals := by
  refine ⟨fun _ _ _ => Query.given_of_read, fun _ _ _ => Json.given_of_read, fun _ _ _ => Json.given_of_readBytes,
    fun _ _ => Scalar.isFinite_of_numberSpelled?, ?_⟩
  intro limit criteria requested c k clause sql shipped compiled written
  cases requested with
  | query done => exact c.nullsTested shipped (Query.given_of_read done).isFinite compiled written
  | json done => exact c.nullsTested shipped (Json.given_of_read done).isFinite compiled written
  | jsonBytes done => exact c.nullsTested shipped (Json.given_of_readBytes done).isFinite compiled written

/-- What spells no finite number is compared as a text. -/
theorem requested_given_text :
    ∃ criteria, Query.read 2 "a=NaN&b:null=" = .ok criteria ∧
      (⟨.mysql, ⟨"t", by decide⟩, .everything, 64⟩ : Compiler).compile criteria =
        .ok ⟨some "(`t`.`a` = 'NaN') AND (`t`.`b` IS NULL)"⟩ ∧
      ∃ tokens, Flavour.mysql.tokens? "(`t`.`a` = 'NaN') AND (`t`.`b` IS NULL)" = some tokens ∧
        Sql.NullsTested tokens := by
  have assigned : Query.assignments "a=NaN&b:null=" = .ok [⟨"a", [], "NaN"⟩, ⟨"b:null", [], ""⟩] := by rfl
  generalize pairs : ([⟨"a", [], "NaN"⟩, ⟨"b:null", [], ""⟩] : List Query.Assignment) = as at assigned
  have size : (Query.Assignment.makeAll .empty as).size = 2 := by
    rw [Query.size_makeAll, ← pairs]
    rfl
  have list : (Query.Assignment.makeAll .empty as).toList =
      [("a", .item (.text "NaN")), ("b:null", .item (.text ""))] := by
    rw [Query.toList_makeAll_empty, ← pairs]
    rfl
  have short : ∀ a ∈ as, a.path.length ≤ maxNesting := by
    rw [← pairs]
    decide
  have done := Query.read_eq_ok_iff.mpr ⟨as, assigned, short, rfl, Nat.le_of_eq size⟩
  have compiled : (⟨.mysql, ⟨"t", by decide⟩, .everything, 64⟩ : Compiler).compile
        (Query.Assignment.makeAll .empty as) =
      .ok ⟨some "(`t`.`a` = 'NaN') AND (`t`.`b` IS NULL)"⟩ := by
    rw [Compiler.compile_of_size_le (size ▸ (by decide : 2 ≤ 64)), list]
    rfl
  obtain ⟨-, -, -, -, tested⟩ := requested_given
  obtain ⟨tokens, found, nulls, -⟩ := tested 2 _ (.query done) _ .mysql _ _ rfl compiled rfl
  exact ⟨_, done, compiled, tokens, found, nulls⟩

end RowFilter
