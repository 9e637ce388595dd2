import RowFilter.Proofs.Admission
import RowFilter.Proofs.Text.Separator

/-!
# Names up to case

A deny list tells names by every character, and a database tells columns without regard to the case of their letters.

* `SameColumn` : names that differ in the case of ASCII letters at most;
* `parts_of_mem_keyColumns` : a name that any key names is itself a key, for that column alone;
* `exists_finds` : so it is found in a compiled filter, if it is admitted;
* `compile_denied` : so no filter reaches a denied column exactly if no name that a key can name is admitted and
  differs from a denied one in case only.
-/

namespace RowFilter

open Sql (Flavour Derives)

/-- Names of one column for a database, which does not tell upper from lower case in ASCII letters. -/
def SameColumn (a b : String) : Prop := a.toList.map Char.toLower = b.toList.map Char.toLower

instance (a b : String) : Decidable (SameColumn a b) := inferInstanceAs (Decidable (_ = _))

/-! ## Names in keys -/

/-- A group is what stands between a first and a last parenthesis, if it is not empty and has no other in it. -/
theorem Target.groupBody?_eq_some_iff {text body : List Char} : groupBody? text = some body ↔
    text = '(' :: (body ++ [')']) ∧ body ≠ [] ∧ '(' ∉ body ∧ ')' ∉ body := by
  constructor
  · intro found
    unfold groupBody? at found
    split at found
    · rename_i rest
      dsimp only at found
      split at found
      · rename_i group
        obtain rfl := Option.some.inj found
        rw [List.dropLast_append_getLast? ')' group.1]
        exact ⟨rfl, group.2⟩
      · cases found
    · cases found
  · rintro ⟨rfl, plain⟩
    simp [groupBody?, plain]

theorem Target.mem_names_ofText {text name : String} (named : name ∈ (ofText text).names) :
    groupBody? name.toList = none ∧ ∀ c ∈ name.toList, c ∈ text.toList := by
  unfold ofText at named
  cases body : groupBody? text.toList with
  | none =>
    rw [body] at named
    obtain rfl := List.mem_singleton.mp named
    exact ⟨body, fun _ => id⟩
  | some inside =>
    rw [body] at named
    obtain ⟨part, there, rfl⟩ := List.mem_map.mp named
    obtain ⟨same, -, noOpen, -⟩ := groupBody?_eq_some_iff.mp body
    obtain ⟨-, letters⟩ := forall_mem_splitOn ',' _ part there
    rw [String.toList_ofList]
    constructor
    · rw [Option.eq_none_iff_forall_ne_some]
      intro more found
      obtain ⟨rfl, -⟩ := groupBody?_eq_some_iff.mp found
      exact noOpen (letters '(' List.mem_cons_self)
    · intro c inPart
      rw [same]
      exact List.mem_cons_of_mem _ (List.mem_append_left _ (letters c inPart))

theorem Criterion.not_mem_parts (key : String) : ':' ∉ (parts key).1.toList := by
  unfold parts
  split
  · rename_i none
    exact absurd none (List.splitOn_ne_nil ':' key.toList)
  · rename_i target names split
    rw [String.toList_ofList]
    exact (forall_mem_splitOn ':' key.toList target (split ▸ List.mem_cons_self)).1

/-- Whatever key names a column, its name alone is a key too, which has no commands and names nothing else. -/
theorem parts_of_mem_keyColumns {key name : String} (named : name ∈ keyColumns key) :
    Criterion.parts name = (name, []) ∧ Target.ofText name = .column name := by
  obtain ⟨noGroup, letters⟩ := Target.mem_names_ofText named
  have noColon : ':' ∉ name.toList := fun inside => Criterion.not_mem_parts key (letters ':' inside)
  constructor
  · rw [Criterion.parts, splitOn_eq_singleton noColon]
    simp
  · rw [Target.ofText, noGroup]

/-! ## Columns in filters -/

/-- The columns that a database finds in a clause. -/
def Clause.Finds (clause : Clause) (name : String) : Prop :=
  ∃ sql tokens reading, clause.expression? = some sql ∧ Flavour.mysql.tokens? sql = some tokens ∧
    Derives (.joined .or) tokens reading ∧ ∃ a ∈ reading.atoms, a.column.name = name

theorem Criterion.read_name {name : String} (parts : Criterion.parts name = (name, []))
    (target : Target.ofText name = .column name) (argument : Scalar) :
    Criterion.read name (.item argument) = .ok ⟨.column name, [.equals], .item argument.numeric⟩ := by
  rw [Criterion.read, parts]
  dsimp only
  rw [target]
  rfl

section Columns

variable (table : TableName) (access : Access)

theorem restriction_name {name : String} (parts : Criterion.parts name = (name, []))
    (target : Target.ofText name = .column name) (admitted : access.Admits name) (argument : Scalar) :
    restriction access (name, .item argument) = .ok (.column ⟨name, [.compare .equal argument.numeric]⟩) := by
  have checked : access.check name = .ok () := if_pos (Access.admits_iff.mpr admitted)
  unfold restriction
  rw [Criterion.read_name parts target]
  change (columnTest access _ name >>= fun test => pure (Restriction.column test)) = _
  unfold columnTest
  rw [checked]
  rfl

/-- A name that any key names is found in a filter, if it is admitted. -/
theorem exists_finds {key name : String} (named : name ∈ keyColumns key) (admitted : access.Admits name) :
    ∃ clause, (⟨.mysql, table, access, 1⟩ : Compiler).compile (.ofList [(name, .item (.text ""))]) = .ok clause ∧
      clause.Finds name := by
  obtain ⟨parts, target⟩ := parts_of_mem_keyColumns named
  obtain ⟨text, written⟩ : ∃ text,
      (⟨.mysql, table, access, 1⟩ : Compiler).keyText (name, .item (.text "")) = .ok text := by
    rw [Compiler.keyText, restriction_name access parts target admitted]
    exact ⟨_, rfl⟩
  have compiled := Compiler.alone_eq_ok_iff.mpr written
  refine ⟨_, compiled, ?_⟩
  obtain ⟨asked, tokens, tree, taken, found, derived, same⟩ := Compiler.exists_reading (k := .mysql) rfl compiled rfl
  refine ⟨text, tokens, tree, rfl, found, derived,
    .compare ⟨table.text, name⟩ .equal (.ofScalar (Scalar.text "").numeric), ?_, rfl⟩
  have there : (name, Nested.item (Scalar.text "")) ∈
      (Criteria.ofList [(name, Nested.item (Scalar.text ""))]).toList := by
    rw [Criteria.toList_ofList_singleton]
    exact List.mem_singleton_self _
  obtain ⟨criterion, isAsked, read⟩ := exists_of_forall₂_right (mapM_eq_ok_iff.mp taken).flip there
  obtain rfl := Except.ok.inj ((Criterion.read_name parts target _).symm.trans read)
  rw [same]
  refine Criterion.mem_formulaOfAll isAsked (List.mem_singleton_self name) (List.mem_singleton_self Command.equals) ?_
  rw [Command.formula, Sql.Formula.atoms]
  exact List.mem_singleton_self _

/-- What a database finds in a compiled filter are admitted columns that the keys name, so none that is denied under
the name that it has there. In no filter it finds one that differs from a denied name in case only exactly if no such
name is both admitted and one that a key can name. -/
theorem compile_denied :
    (∀ limit criteria clause, (⟨.mysql, table, access, limit⟩ : Compiler).compile criteria = .ok clause →
      ∀ name, clause.Finds name → name ∈ criteria.columns ∧ access.Admits name ∧ name ∉ access.denied) ∧
    ((∀ limit criteria clause, (⟨.mysql, table, access, limit⟩ : Compiler).compile criteria = .ok clause →
        ∀ name, clause.Finds name → ∀ denied ∈ access.denied, ¬ SameColumn name denied) ↔
      ∀ key, ∀ name ∈ keyColumns key, access.Admits name → ∀ denied ∈ access.denied, ¬ SameColumn name denied) := by
  have found (limit : Nat) (criteria : Criteria) (clause : Clause)
      (compiled : (⟨.mysql, table, access, limit⟩ : Compiler).compile criteria = .ok clause) (name : String)
      (finds : clause.Finds name) : name ∈ criteria.columns ∧ access.Admits name := by
    obtain ⟨sql, tokens, reading, written, lexed, derived, a, member, rfl⟩ := finds
    have column := Compiler.column_of_reading (k := .mysql) rfl compiled written lexed derived member
    have gate := gated_compile ⟨.mysql, table, access, limit⟩ access criteria
    exact ⟨column.2, ((gate.eq_ok_iff clause).mp compiled).2 _ column.2⟩
  refine ⟨?_, ?_, ?_⟩
  · intro limit criteria clause compiled name finds
    obtain ⟨named, admitted⟩ := found limit criteria clause compiled name finds
    exact ⟨named, admitted, admitted.2⟩
  · intro unreachable key name named admitted
    obtain ⟨clause, compiled, finds⟩ := exists_finds table access named admitted
    exact unreachable 1 _ clause compiled name finds
  · intro apart limit criteria clause compiled name finds
    obtain ⟨named, admitted⟩ := found limit criteria clause compiled name finds
    obtain ⟨entry, -, named⟩ := List.mem_flatMap.mp named
    exact apart entry.1 name named admitted

end Columns

/-- A denied name in another spelling. -/
theorem compile_denied_respelled : SameColumn "Secret" "secret" ∧
    ∃ clause, (⟨.mysql, ⟨"t", by decide⟩, ⟨[], ["secret"]⟩, 1⟩ : Compiler).compile
        (.ofList [("Secret", .item (.text ""))]) = .ok clause ∧ clause.Finds "Secret" := by
  have named : "Secret" ∈ keyColumns "Secret" := by decide
  have admitted : (⟨[], ["secret"]⟩ : Access).Admits "Secret" := Access.admits_iff.mp (by decide)
  exact ⟨by decide, exists_finds _ _ named admitted⟩

end RowFilter
