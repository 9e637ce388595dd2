import RowFilter.Compiler
import RowFilter.Proofs.Shape
import RowFilter.Proofs.Traversal

/-!
# What compiling answers

* `fieldRefusal?` : what is wrong with a column under commands that share an argument, if anything;
* `Criterion.read_eq`, `restriction_eq_error_iff` : a key is refused for an unknown name in its chain, or else for the
  first of its columns that something is wrong with;
* `Compiler.keyText` : one key as SQL, and `Compiler.compile_eq` : compiling is counting the keys and then
  writing each of them.
-/

namespace RowFilter

/-! ## What is wrong with a column -/

/-- What is wrong with a column under commands that share an argument. Access is looked at before any
command. -/
def fieldRefusal? (access : Access) (commands : List Command) (argument : Value) (field : String) :
    Option ClauseError :=
  if access.admits field then
    (commands.find? fun command => ¬ command.shape.Fits argument).map (.wrongShape · field)
  else some (.fieldNotAllowed field)

/-- The commands that a chain of names asks for; without a chain the argument decides. -/
def chainCommands (chain : List String) (argument : Value) : List Command :=
  if chain = [] then [if argument.isList then .oneOf else .equals]
  else chain.filterMap Command.ofName?

/-! ## The refusals of the steps -/

theorem findSome?_ite_eq_map_find? {α β : Type} (p : α → Prop) [DecidablePred p] (f : α → β)
    (as : List α) :
    (as.findSome? fun a => if p a then none else some (f a)) = (as.find? fun a => ¬ p a).map f := by
  induction as with
  | nil => rfl
  | cons a as ih => by_cases h : p a <;> simp [h, ih]

theorem refusal?_condition (argument : Value) (field : String) (command : Command) :
    refusal? (condition argument field command) =
      if command.shape.Fits argument then none else some (.wrongShape command field) := by
  have taken := Condition.ofArgument?_isSome_iff argument command
  unfold condition
  cases h : Condition.ofArgument? argument command with
  | some c => rw [if_pos (taken.mp (by rw [h]; rfl)), refusal?_ok]
  | none => rw [if_neg (fun fits => by simpa [h] using taken.mpr fits), refusal?_error]

theorem refusal?_columnTest (access : Access) (criterion : Criterion) (field : String) :
    refusal? (columnTest access criterion field) =
      fieldRefusal? access criterion.commands criterion.argument field := by
  unfold columnTest fieldRefusal? Access.check
  split
  · rw [refusal?_bind, refusal?_bind_pure, refusal?_mapM, ← findSome?_ite_eq_map_find?]
    simp only [refusal?_condition]
  · rfl

theorem refusal?_restriction_of_read (access : Access) {key : String} {argument : Value}
    {criterion : Criterion} (read : Criterion.read key argument = .ok criterion) :
    refusal? (restriction access (key, argument)) = criterion.target.names.findSome?
      (fieldRefusal? access criterion.commands criterion.argument) := by
  unfold restriction
  rw [read, refusal?_bind]
  obtain ⟨target, commands, operand⟩ := criterion
  cases target with
  | column field =>
    simp only [refusal?_bind_pure, refusal?_columnTest, Target.names, List.findSome?_singleton]
  | anyOf fields =>
    simp only [refusal?_bind_pure, refusal?_mapM, refusal?_columnTest, Target.names]

/-! ## Reading a key -/

theorem mapM_command (names : List String) :
    names.mapM Criterion.command = match names.find? fun name => Command.ofName? name = none with
      | some name => .error (.unknownCommand name)
      | none => .ok (names.filterMap Command.ofName?) := by
  induction names with
  | nil => rfl
  | cons name names ih =>
    rw [mapM_cons_eq, ih]
    cases h : Command.ofName? name with
    | none => simp [Criterion.command, h]
    | some command =>
      simp only [Criterion.command, h, List.find?_cons, List.filterMap_cons]
      cases names.find? fun name => Command.ofName? name = none <;> rfl

/-- Reading a key fails at the first unknown name of its chain and at nothing else. -/
theorem Criterion.read_eq (key : String) (argument : Value) :
    Criterion.read key argument =
      match (parts key).2.find? fun name => Command.ofName? name = none with
      | some name => .error (.unknownCommand name)
      | none => .ok ⟨.ofText (parts key).1, chainCommands (parts key).2 argument,
          if (parts key).2 = [] then Value.numeric argument else argument⟩ := by
  unfold Criterion.read chainCommands
  obtain ⟨target, chain⟩ := parts key
  cases chain with
  | nil => rfl
  | cons name names =>
    simp only [mapM_command]
    cases (name :: names).find? fun name => Command.ofName? name = none <;> rfl

theorem Target.names_ofText_ne_nil (text : String) : (ofText text).names ≠ [] := by
  unfold ofText
  split
  · simp [names, List.splitOn_ne_nil]
  · simp [names]

theorem chainCommands_ne_nil {chain : List String} {argument : Value}
    (known : (chain.find? fun name => Command.ofName? name = none) = none) :
    chainCommands chain argument ≠ [] := by
  unfold chainCommands
  cases chain with
  | nil => simp
  | cons name names =>
    have first : Command.ofName? name ≠ none := by simpa using List.find?_eq_none.mp known name List.mem_cons_self
    obtain ⟨command, found⟩ := Option.ne_none_iff_exists'.mp first
    simp [found]

/-- A key that is read names a column, and its chain a command. -/
theorem Criterion.ne_nil_of_read {key : String} {argument : Value} {criterion : Criterion}
    (read : Criterion.read key argument = .ok criterion) :
    criterion.target.names ≠ [] ∧ criterion.commands ≠ [] := by
  rw [Criterion.read_eq] at read
  split at read
  · simp at read
  · rename_i known
    obtain rfl := Except.ok.inj read
    exact ⟨Target.names_ofText_ne_nil _, chainCommands_ne_nil known⟩

theorem restriction_eq_error_iff {access : Access} {key : String} {argument : Value} {e : ClauseError} :
    restriction access (key, argument) = .error e ↔ Criterion.read key argument = .error e ∨
      ∃ criterion, Criterion.read key argument = .ok criterion ∧
        criterion.target.names.findSome? (fieldRefusal? access criterion.commands criterion.argument) = some e := by
  rw [← refusal?_eq_some_iff]
  cases read : Criterion.read key argument with
  | ok criterion => simp [refusal?_restriction_of_read access read]
  | error refused => simp [restriction, read, refusal?_bind]

theorem restriction_ne_tooManyKeys (access : Access) (entry : String × Value) (limit : Nat) :
    restriction access entry ≠ .error (.tooManyKeys limit) := by
  rw [ne_eq, show entry = (entry.1, entry.2) from rfl, restriction_eq_error_iff]
  rintro (refused | ⟨criterion, -, found⟩)
  · rw [Criterion.read_eq] at refused
    split at refused <;> simp at refused
  · obtain ⟨_, field, _, _, found, _⟩ := List.findSome?_eq_some_iff.mp found
    unfold fieldRefusal? at found
    split_ifs at found <;> simp at found

/-! ## Compiling, key by key -/

def Clause.ofTerms (terms : List String) : Clause :=
  ⟨if terms = [] then none else some (" AND ".intercalate terms)⟩

theorem Criteria.toList_ofList_singleton (entry : String × Value) :
    (Criteria.ofList [entry]).toList = [entry] := by
  simp [ofList, insertMany, insert, update, empty, toList]

theorem Criteria.size_eq_length (criteria : Criteria) : criteria.size = criteria.toList.length := rfl

namespace Compiler

def keyText (c : Compiler) (entry : String × Value) : Except ClauseError String :=
  (restriction c.access entry).map (Restriction.render c.dialect c.table.text)

/-- A key compiled as the only one, under a limit that admits it. -/
def alone (c : Compiler) (entry : String × Value) : Except ClauseError Clause :=
  (c.withKeyLimit 1).compile (.ofList [entry])

theorem compile_eq (c : Compiler) (criteria : Criteria) :
    c.compile criteria =
      if c.keyLimit < criteria.size then .error (.tooManyKeys c.keyLimit)
      else (criteria.toList.mapM c.keyText).map Clause.ofTerms := by
  unfold compile
  congr 1
  have terms : criteria.toList.mapM c.keyText =
      (plan c.access criteria).map (List.map (Restriction.render c.dialect c.table.text)) :=
    mapM_map_eq _ _ _
  rw [terms]
  cases plan c.access criteria with
  | error e => rfl
  | ok p => cases p <;> rfl

theorem compile_of_size_le {c : Compiler} {criteria : Criteria} (room : criteria.size ≤ c.keyLimit) :
    c.compile criteria = (criteria.toList.mapM c.keyText).map Clause.ofTerms := by
  rw [compile_eq, if_neg (Nat.not_lt.mpr room)]

theorem compile_ofList_singleton (c : Compiler) {limit : Nat} (room : 0 < limit)
    (entry : String × Value) :
    (c.withKeyLimit limit).compile (.ofList [entry]) =
      (c.keyText entry).map fun text => ⟨some text⟩ := by
  have admitted : (Criteria.ofList [entry]).size ≤ (c.withKeyLimit limit).keyLimit := by
    rw [Criteria.size_eq_length, Criteria.toList_ofList_singleton]
    exact room
  rw [compile_of_size_le admitted, Criteria.toList_ofList_singleton, mapM_cons_eq,
    show (c.withKeyLimit limit).keyText = c.keyText from rfl]
  cases c.keyText entry <;> rfl

theorem compile_of_keyText {c : Compiler} (room : 0 < c.keyLimit) {entry : String × Value} {text : String}
    (written : c.keyText entry = .ok text) : c.compile (.ofList [entry]) = .ok ⟨some text⟩ := by
  have compiled := c.compile_ofList_singleton room entry
  rw [written] at compiled
  exact compiled

theorem alone_eq (c : Compiler) (entry : String × Value) :
    c.alone entry = (c.keyText entry).map fun text => ⟨some text⟩ :=
  c.compile_ofList_singleton Nat.one_pos entry

theorem alone_eq_ok_iff {c : Compiler} {entry : String × Value} {text : String} :
    c.alone entry = .ok ⟨some text⟩ ↔ c.keyText entry = .ok text := by
  rw [alone_eq]
  cases c.keyText entry <;> simp [Except.map]

theorem keyText_eq_error_iff {c : Compiler} {entry : String × Value} {e : ClauseError} :
    c.keyText entry = .error e ↔ restriction c.access entry = .error e := by
  rw [keyText, ← refusal?_eq_some_iff, refusal?_map, refusal?_eq_some_iff]

theorem alone_eq_error_iff {c : Compiler} {entry : String × Value} {e : ClauseError} :
    c.alone entry = .error e ↔ restriction c.access entry = .error e := by
  rw [alone_eq, ← refusal?_eq_some_iff, refusal?_map, refusal?_eq_some_iff, keyText_eq_error_iff]

theorem compile_eq_tooManyKeys_iff {c : Compiler} {criteria : Criteria} {max : Nat} :
    c.compile criteria = .error (.tooManyKeys max) ↔ max = c.keyLimit ∧ c.keyLimit < criteria.size := by
  by_cases room : criteria.size ≤ c.keyLimit
  · rw [compile_of_size_le room, ← refusal?_eq_some_iff, refusal?_map, refusal?_eq_some_iff,
      mapM_eq_error_iff]
    constructor
    · rintro ⟨_, entry, _, _, _, refused⟩
      exact absurd (keyText_eq_error_iff.mp refused) (restriction_ne_tooManyKeys c.access entry max)
    · rintro ⟨-, more⟩
      omega
  · rw [compile_eq, if_pos (Nat.not_le.mp room)]
    simp only [Except.error.injEq, ClauseError.tooManyKeys.injEq]
    constructor
    · rintro rfl
      exact ⟨rfl, Nat.not_le.mp room⟩
    · rintro ⟨rfl, -⟩
      rfl

end Compiler

end RowFilter
