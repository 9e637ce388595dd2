import RowFilter.Proofs.KeyGrammar

/-!
# Why criteria are refused

* `FieldRefused`, `KeyRefused` : what is wrong with a column and with a key, said by how the key is written and not by how
  it is read;
* `keyRefused_iff` : this is why a key is refused;
* `compile_verdict` : the answer for many keys from those for each key alone.
-/

namespace RowFilter

/-! ## What is wrong with a key -/

/-- What is wrong with a column under commands that share an argument: it is not admitted, or else one of the commands,
the first such, does not take the argument. -/
inductive FieldRefused (access : Access) (commands : List Command) (argument : Value) (field : String) :
    ClauseError → Prop where
  | notAllowed (refused : ¬ access.Admits field) : FieldRefused access commands argument field (.fieldNotAllowed field)
  | wrongShape {before after : List Command} {command : Command} (admitted : access.Admits field)
      (split : commands = before ++ command :: after) (taken : ∀ earlier ∈ before, earlier.shape.Fits argument)
      (unfit : ¬ command.shape.Fits argument) :
      FieldRefused access commands argument field (.wrongShape command field)

/-- What is wrong with a key and its argument: a name in its chain is that of no command, the first such, or else
something is wrong with one of its columns, the first such in the order written. -/
inductive KeyRefused (access : Access) (key : String) (argument : Value) : ClauseError → Prop where
  | unknownCommand {target name : String} {before after : List String}
      (written : key = keyText target (before ++ name :: after)) (noColon : ':' ∉ target.toList)
      (bare : ∀ segment ∈ before ++ name :: after, ':' ∉ segment.toList)
      (known : ∀ earlier ∈ before, ∃ command : Command, command.HasName earlier)
      (unknown : ∀ command : Command, ¬ command.HasName name) : KeyRefused access key argument (.unknownCommand name)
  | field {target : Target} {names before after : List String} {commands : List Command} {operand : Value}
      {field : String} {e : ClauseError} (nameable : target.Nameable) (written : key = keyText target.written names)
      (asked : Criterion.Asked names argument commands operand) (split : target.names = before ++ field :: after)
      (passed : ∀ earlier ∈ before, ∀ e, ¬ FieldRefused access commands operand earlier e)
      (refused : FieldRefused access commands operand field e) : KeyRefused access key argument e

theorem fieldRefusal?_eq_some_iff {access : Access} {commands : List Command} {argument : Value} {field : String}
    {e : ClauseError} :
    fieldRefusal? access commands argument field = some e ↔ FieldRefused access commands argument field e := by
  unfold fieldRefusal?
  by_cases admitted : access.admits field
  · rw [if_pos admitted, Option.map_eq_some_iff]
    simp only [List.find?_eq_some_iff_append]
    constructor
    · rintro ⟨command, ⟨unfit, before, after, split, taken⟩, rfl⟩
      exact .wrongShape (Access.admits_iff.mp admitted) split (by simpa using taken) (by simpa using unfit)
    · rintro (refused | @⟨before, after, command, -, split, taken, unfit⟩)
      · exact absurd (Access.admits_iff.mp admitted) refused
      · exact ⟨command, ⟨by simpa using unfit, before, after, split, by simpa using taken⟩, rfl⟩
  · rw [if_neg admitted, Option.some.injEq]
    have refused : ¬ access.Admits field := fun also => admitted (Access.admits_iff.mpr also)
    constructor
    · rintro rfl
      exact .notAllowed refused
    · rintro (_ | also)
      · rfl
      · exact absurd also refused

theorem fieldRefusal?_eq_none_iff {access : Access} {commands : List Command} {argument : Value} {field : String} :
    fieldRefusal? access commands argument field = none ↔ ∀ e, ¬ FieldRefused access commands argument field e := by
  simp only [Option.eq_none_iff_forall_ne_some, ne_eq, fieldRefusal?_eq_some_iff]

theorem keyRefused_iff {access : Access} {key : String} {argument : Value} {e : ClauseError} :
    restriction access (key, argument) = .error e ↔ KeyRefused access key argument e := by
  rw [restriction_eq_error_iff]
  simp only [List.findSome?_eq_some_iff, fieldRefusal?_eq_some_iff, fieldRefusal?_eq_none_iff]
  constructor
  · obtain ⟨target, names, rfl, noColon, bare⟩ := Criterion.exists_keyText key
    rintro (refused | ⟨criterion, taken, before, field, after, split, refused, passed⟩)
    · obtain ⟨before, name, after, rfl, known, unknown, rfl⟩ :=
        (Criterion.read_keyText_eq_error_iff noColon bare).mp refused
      exact .unknownCommand rfl noColon bare known unknown
    · obtain ⟨same, asked⟩ := (Criterion.read_keyText_eq_ok_iff noColon bare).mp taken
      obtain ⟨nameable, text⟩ := Target.nameable_ofText noColon
      rw [same] at split
      exact .field nameable (by rw [text]) asked split passed refused
  · rintro (⟨rfl, noColon, bare, known, unknown⟩ | ⟨nameable, rfl, asked, split, passed, refused⟩)
    · exact .inl ((Criterion.read_keyText_eq_error_iff noColon bare).mpr ⟨_, _, _, rfl, known, unknown, rfl⟩)
    · have same := Target.ofText_written nameable
      refine .inr ⟨⟨_, _, _⟩, (Criterion.read_keyText_eq_ok_iff nameable.not_mem_written asked.not_mem).mpr
        ⟨same.symm, asked⟩, _, _, _, split, refused, passed⟩

/-! ## The answer of compiling -/

/-- The answer of compiling. More keys than the limit are refused before any is read. Otherwise every
key counts as it does alone: their texts make the expression in order, or the first refused key decides.
A key alone is refused for the first unknown name of its chain, and else for its first column, in the
order written, that is not admitted or has a command that the argument does not fit. -/
theorem compile_verdict (c : Compiler) (criteria : Criteria) :
    (∀ limit entry, 0 < limit →
      (c.withKeyLimit limit).compile (.ofList [entry]) = c.alone entry) ∧
    (∀ max, c.compile criteria = .error (.tooManyKeys max) ↔
      max = c.keyLimit ∧ c.keyLimit < criteria.size) ∧
    (criteria.size ≤ c.keyLimit →
      (∀ clause, c.compile criteria = .ok clause ↔
        ∃ terms, List.Forall₂ (fun entry term => c.alone entry = .ok ⟨some term⟩)
          criteria.toList terms ∧ clause = .ofTerms terms) ∧
      (∀ e, c.compile criteria = .error e ↔
        ∃ before entry after, criteria.toList = before ++ entry :: after ∧
          (∀ earlier ∈ before, ∃ clause, c.alone earlier = .ok clause) ∧
          c.alone entry = .error e)) ∧
    (∀ key argument e, c.alone (key, argument) = .error e ↔ KeyRefused c.access key argument e) ∧
    (∀ command field, (ClauseError.wrongShape command field).expected? =
      some command.shape.description) := by
  refine ⟨?_, ?_, ?_, ?_, fun _ _ => rfl⟩
  · intro limit entry room
    rw [c.compile_ofList_singleton room, c.alone_eq]
  · intro max
    exact c.compile_eq_tooManyKeys_iff
  · intro room
    rw [c.compile_of_size_le room]
    constructor
    · intro clause
      simp only [Compiler.alone_eq_ok_iff, ← mapM_eq_ok_iff]
      cases criteria.toList.mapM c.keyText <;> simp [Except.map, eq_comm]
    · intro e
      simp only [← refusal?_eq_none_iff, ← refusal?_eq_some_iff, refusal?_map, c.alone_eq]
      simp only [refusal?_eq_none_iff, refusal?_eq_some_iff, mapM_eq_error_iff]
  · intro key argument e
    rw [Compiler.alone_eq_error_iff, keyRefused_iff]

/-- A name that no command has comes before a column that is not admitted, and that before an argument that does not
fit. -/
theorem compile_verdict_unknown :
    (⟨.mysql, ⟨"t", by decide⟩, ⟨[], ["a"]⟩, 64⟩ : Compiler).alone ("a:range:Nope", .item (.text "x")) =
      .error (.unknownCommand "Nope") ∧
    (⟨.mysql, ⟨"t", by decide⟩, ⟨[], ["a"]⟩, 64⟩ : Compiler).alone ("(a,b):range", .item (.text "x")) =
      .error (.fieldNotAllowed "a") := by
  obtain ⟨-, -, -, refused, -⟩ := compile_verdict ⟨.mysql, ⟨"t", by decide⟩, ⟨[], ["a"]⟩, 64⟩ .empty
  constructor
  · refine (refused _ _ _).mpr (@KeyRefused.unknownCommand _ _ _ "a" "Nope" ["range"] [] (by decide) (by decide)
      (by decide) ?_ ?_)
    · rw [List.forall_mem_singleton]
      exact ⟨.within, by decide⟩
    · intro command
      cases command <;> decide
  · have notAllowed : ¬ (⟨[], ["a"]⟩ : Access).Admits "a" := fun admitted => admitted.2 (List.mem_singleton_self "a")
    refine (refused _ _ _).mpr (@KeyRefused.field _ _ _ (.anyOf ["a", "b"]) ["range"] [] ["b"] [.within] _ "a" _
      ?_ (by decide) (.chain (by decide) (.cons (by decide) .nil)) rfl (List.forall_mem_nil _) (.notAllowed notAllowed))
    exact .anyOf (by decide) (by decide) (by simp)

end RowFilter
