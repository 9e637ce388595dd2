import RowFilter.Proofs.Spelling

/-!
# The grammar of keys

A key is a target and then, each behind a colon, names of commands.

* `keyText`, `Target.written` : a key from its segments, and a target as a text;
* `Target.Nameable` : the targets that a key can have; `Target.nameable_ofText` : what stands before the first colon
  is the text of such a target, and `Target.ofText_written` : of no other;
* `Command.HasName` : the names of a command, in all mixtures of upper and lower case;
* `Criterion.Asked` : the commands and the argument that names and an argument ask for;
* `Criterion.read_iff_written` : so reading a key undoes writing one, and is refused for an unknown name only.
-/

namespace RowFilter

/-! ## Targets -/

namespace Target

/-- A single name as it is, and the names of a group between commas in parentheses. -/
def written : Target → String
  | column name => name
  | anyOf names => "(" ++ ",".intercalate names ++ ")"

/-- The targets that a key can have. The name of a column may look like anything but a group, and the names of a group
have none of the marks of keys in them. An empty name alone makes no group. -/
inductive Nameable : Target → Prop where
  | column {name : String} (noColon : ':' ∉ name.toList)
      (noGroup : ∀ body : String, name = "(" ++ body ++ ")" → body = "" ∨ '(' ∈ body.toList ∨ ')' ∈ body.toList) :
      Nameable (column name)
  | anyOf {names : List String} (nonempty : names ≠ []) (notBlank : names ≠ [""])
      (noMark : ∀ name ∈ names, ∀ c ∈ name.toList, c ∉ ['(', ',', ')', ':']) : Nameable (anyOf names)

theorem toList_parenthesised (body : String) : ("(" ++ body ++ ")").toList = '(' :: (body.toList ++ [')']) := by
  simp

theorem toList_group (names : List String) :
    (anyOf names).written.toList = '(' :: ([','].intercalate (names.map String.toList) ++ [')']) := by
  rw [written, toList_parenthesised, String.toList_intercalate]
  rfl

section Group

variable {names : List String} (noMark : ∀ name ∈ names, ∀ c ∈ name.toList, c ∉ ['(', ',', ')', ':'])
include noMark

theorem not_mem_names {mark : Char} (isMark : mark ∈ ['(', ',', ')', ':']) :
    ∀ part ∈ names.map String.toList, mark ∉ part := by
  intro part inside there
  obtain ⟨name, named, rfl⟩ := List.mem_map.mp inside
  exact noMark name named mark there isMark

theorem splitOn_names (nonempty : names ≠ []) :
    ([','].intercalate (names.map String.toList)).splitOn ',' = names.map String.toList :=
  List.splitOn_intercalate ',' (not_mem_names noMark (by decide)) (by simpa using nonempty)

end Group

theorem map_ofList_toList (names : List String) : (names.map String.toList).map String.ofList = names := by
  simp [Function.comp_def]

theorem Nameable.not_mem_written {target : Target} (nameable : target.Nameable) : ':' ∉ target.written.toList := by
  cases nameable with
  | column noColon _ => exact noColon
  | @anyOf names _ _ noMark =>
    have inNames : ':' ∉ [','].intercalate (names.map String.toList) :=
      not_mem_intercalate (by decide) (not_mem_names noMark (by decide))
    rw [toList_group, List.mem_cons, List.mem_append, not_or, not_or]
    exact ⟨by decide, inNames, by decide⟩

theorem ofText_written {target : Target} (nameable : target.Nameable) : ofText target.written = target := by
  unfold ofText
  cases nameable with
  | @column name _ noGroup =>
    have none : groupBody? name.toList = none := by
      rw [Option.eq_none_iff_forall_ne_some]
      intro body found
      obtain ⟨same, nonempty, noOpen, noClose⟩ := groupBody?_eq_some_iff.mp found
      have text : name = "(" ++ String.ofList body ++ ")" := by
        rw [← String.toList_inj, toList_parenthesised, String.toList_ofList, same]
      rcases noGroup _ text with blank | isOpen | isClose
      · exact nonempty (by simpa using blank)
      · exact noOpen (by simpa using isOpen)
      · exact noClose (by simpa using isClose)
    rw [written, none]
  | @anyOf names nonempty notBlank noMark =>
    have split := splitOn_names noMark nonempty
    have group : groupBody? (anyOf names).written.toList = some ([','].intercalate (names.map String.toList)) := by
      refine groupBody?_eq_some_iff.mpr ⟨toList_group names, fun none => ?_, ?_, ?_⟩
      · rw [none, List.splitOn_nil] at split
        apply notBlank
        rw [← map_ofList_toList names, ← split]
        rfl
      · exact not_mem_intercalate (by decide) (not_mem_names noMark (by decide))
      · exact not_mem_intercalate (by decide) (not_mem_names noMark (by decide))
    rw [group]
    dsimp only
    rw [split, map_ofList_toList]

/-- A text without a colon is the text of its target. -/
theorem nameable_ofText {text : String} (noColon : ':' ∉ text.toList) :
    (ofText text).Nameable ∧ (ofText text).written = text := by
  unfold ofText
  cases found : groupBody? text.toList with
  | none =>
    refine ⟨.column noColon fun body same => ?_, rfl⟩
    by_contra plain
    rw [not_or, not_or] at plain
    have group : groupBody? text.toList = some body.toList := by
      rw [same]
      exact groupBody?_eq_some_iff.mpr ⟨toList_parenthesised body, by simpa using plain.1, plain.2⟩
    rw [found] at group
    cases group
  | some body =>
    obtain ⟨same, nonempty, noOpen, noClose⟩ := groupBody?_eq_some_iff.mp found
    dsimp only
    have parts := forall_mem_splitOn ',' body
    constructor
    · refine .anyOf (by simp) (fun blank => ?_) fun name named c there isMark => ?_
      · have one : body.splitOn ',' = [[]] := by
          simpa [List.map_eq_cons_iff] using blank
        have joined : [','].intercalate (body.splitOn ',') = body := List.intercalate_splitOn ','
        rw [one, List.intercalate_singleton] at joined
        exact nonempty joined.symm
      · obtain ⟨part, inside, rfl⟩ := List.mem_map.mp named
        rw [String.toList_ofList] at there
        obtain ⟨noComma, letters⟩ := parts part inside
        have inBody := letters c there
        simp only [List.mem_cons, List.not_mem_nil, or_false] at isMark
        rcases isMark with rfl | rfl | rfl | rfl
        · exact noOpen inBody
        · exact noComma there
        · exact noClose inBody
        · apply noColon
          rw [same]
          exact List.mem_cons_of_mem _ (List.mem_append_left _ inBody)
    · rw [← String.toList_inj, toList_group, List.map_map, same]
      simp [Function.comp_def]

end Target

/-! ## Commands -/

namespace Command

/-- The names of a command. The case of ASCII letters does not matter. -/
def HasName (command : Command) (name : String) : Prop :=
  name.toList.map Char.toLower = command.name.toList.map Char.toLower

instance (command : Command) (name : String) : Decidable (command.HasName name) :=
  inferInstanceAs (Decidable (name.toList.map Char.toLower = command.name.toList.map Char.toLower))

theorem map_toLower_name (command : Command) : command.name.toList.map Char.toLower = command.name.toList := by
  cases command <;> decide

theorem mem_all (command : Command) : command ∈ all := by
  cases command <;> decide

theorem name_injective : ∀ a ∈ all, ∀ b ∈ all, a.name.toList = b.name.toList → a = b := by decide

theorem ofName?_eq_some_iff {name : String} {command : Command} :
    ofName? name = some command ↔ command.HasName name := by
  unfold ofName? HasName
  rw [map_toLower_name]
  have lower {other : Command} (found : (all.find? fun command => command.name.toList == name.toList.map Char.toLower) =
      some other) : name.toList.map Char.toLower = other.name.toList := by
    have same := List.find?_some found
    exact (beq_iff_eq.mp same).symm
  constructor
  · exact lower
  · intro same
    cases found : all.find? fun command => command.name.toList == name.toList.map Char.toLower with
    | none => exact absurd (beq_iff_eq.mpr same.symm) (List.find?_eq_none.mp found command (mem_all command))
    | some other =>
      have alike : other.name.toList = command.name.toList := (lower found).symm.trans same
      rw [name_injective other (mem_all other) command (mem_all command) alike]

theorem ofName?_eq_none_iff {name : String} : ofName? name = none ↔ ∀ command : Command, ¬ command.HasName name := by
  simp only [Option.eq_none_iff_forall_ne_some, ne_eq, ofName?_eq_some_iff]

theorem HasName.not_mem {command : Command} {name : String} (named : command.HasName name) : ':' ∉ name.toList := by
  intro inside
  have lower : ':' ∈ command.name.toList.map Char.toLower := named ▸ List.mem_map_of_mem (f := Char.toLower) inside
  revert lower
  cases command <;> decide

end Command

/-! ## Keys -/

def keyText (target : String) (names : List String) : String := ":".intercalate (target :: names)

namespace Criterion

theorem command_eq_ok_iff {name : String} {command : Command} :
    Criterion.command name = .ok command ↔ command.HasName name := by
  rw [← Command.ofName?_eq_some_iff, Criterion.command]
  cases Command.ofName? name <;> simp

theorem command_eq_error_iff {name : String} {error : ClauseError} :
    Criterion.command name = .error error ↔
      (∀ command : Command, ¬ command.HasName name) ∧ error = .unknownCommand name := by
  rw [← Command.ofName?_eq_none_iff, Criterion.command]
  cases Command.ofName? name <;> simp [eq_comm]

/-- What names of commands and an argument ask for, as commands and their argument. Without names the argument
decides, and only there does a text that spells a number count as one. -/
inductive Asked : List String → Value → List Command → Value → Prop where
  | chain {names : List String} {argument : Value} {commands : List Command} (nonempty : names ≠ [])
      (named : List.Forall₂ Command.HasName commands names) : Asked names argument commands argument
  | list {members : List Value} : Asked [] (.list members) [.oneOf] (.list members)
  | scalar {s : Scalar} : Asked [] (.item s) [.equals] (.item s.numeric)

theorem Asked.ne_nil {names : List String} {argument operand : Value} {commands : List Command}
    (asked : Asked names argument commands operand) : commands ≠ [] := by
  cases asked with
  | chain nonempty named =>
    rintro rfl
    cases named
    exact nonempty rfl
  | list | scalar => exact List.cons_ne_nil _ _

theorem Asked.not_mem {names : List String} {argument operand : Value} {commands : List Command}
    (asked : Asked names argument commands operand) : ∀ name ∈ names, ':' ∉ name.toList := by
  cases asked with
  | chain _ named =>
    intro name inside
    obtain ⟨command, -, isName⟩ := exists_of_forall₂_right named inside
    exact isName.not_mem
  | list | scalar => exact nofun

section Cut

variable {target : String} {names : List String} (noColon : ':' ∉ target.toList)
  (bare : ∀ name ∈ names, ':' ∉ name.toList)
include noColon bare

theorem parts_keyText : parts (keyText target names) = (target, names) := by
  have plain : ∀ part ∈ (target :: names).map String.toList, ':' ∉ part := by
    rw [List.map_cons, List.forall_mem_cons, List.forall_mem_map]
    exact ⟨noColon, bare⟩
  have cut : (keyText target names).toList.splitOn ':' = (target :: names).map String.toList := by
    rw [keyText, String.toList_intercalate]
    exact List.splitOn_intercalate ':' plain (by simp)
  rw [parts, cut]
  simp [Function.comp_def]

/-- What stands before the first colon is the target, and what stands behind it says what to ask of the target. -/
theorem read_keyText_eq_ok_iff {argument : Value} {criterion : Criterion} :
    read (keyText target names) argument = .ok criterion ↔ criterion.target = .ofText target ∧
      Asked names argument criterion.commands criterion.argument := by
  obtain ⟨asks, commands, operand⟩ := criterion
  rw [read, parts_keyText noColon bare]
  cases names with
  | nil =>
    dsimp only
    rw [Except.ok.injEq, Criterion.mk.injEq, eq_comm (a := asks)]
    refine and_congr_right fun _ => ?_
    constructor
    · rintro ⟨rfl, rfl⟩
      cases argument with
      | item s => exact .scalar
      | list members => exact .list
    · rintro (⟨nonempty, -⟩ | _ | _)
      · exact absurd rfl nonempty
      · exact ⟨rfl, rfl⟩
      · exact ⟨rfl, rfl⟩
  | cons name names =>
    dsimp only
    rw [bind_eq_ok_iff]
    constructor
    · rintro ⟨known, through, made⟩
      obtain ⟨rfl, rfl, rfl⟩ := Criterion.mk.inj (Except.ok.inj made)
      refine ⟨rfl, .chain (List.cons_ne_nil _ _) (List.Forall₂.flip ?_)⟩
      exact (mapM_eq_ok_iff.mp through).imp fun _ _ => command_eq_ok_iff.mp
    · rintro ⟨rfl, ⟨-, named⟩⟩
      exact ⟨commands, mapM_eq_ok_iff.mpr (named.flip.imp fun _ _ => command_eq_ok_iff.mpr), rfl⟩

/-- A key is refused for the first of its names that no command has. -/
theorem read_keyText_eq_error_iff {argument : Value} {error : ClauseError} :
    read (keyText target names) argument = .error error ↔ ∃ before name after, names = before ++ name :: after ∧
      (∀ known ∈ before, ∃ command : Command, command.HasName known) ∧
      (∀ command : Command, ¬ command.HasName name) ∧ error = .unknownCommand name := by
  have refused : read (keyText target names) argument = .error error ↔ names.mapM command = .error error := by
    rw [read, parts_keyText noColon bare]
    cases names with
    | nil => simp [pure, Except.pure]
    | cons name names =>
      dsimp only
      rw [← refusal?_eq_some_iff, refusal?_bind_pure, refusal?_eq_some_iff]
  rw [refused, mapM_eq_error_iff]
  simp only [command_eq_ok_iff, command_eq_error_iff]

end Cut

/-- Every key is cut in one way into a target and names. -/
theorem exists_keyText (key : String) :
    ∃ target names, key = keyText target names ∧ ':' ∉ target.toList ∧ ∀ name ∈ names, ':' ∉ name.toList := by
  have plain := forall_mem_splitOn ':' key.toList
  have joined : [':'].intercalate (key.toList.splitOn ':') = key.toList := List.intercalate_splitOn ':'
  cases split : key.toList.splitOn ':' with
  | nil => exact absurd split (List.splitOn_ne_nil ':' key.toList)
  | cons target names =>
    rw [split] at plain joined
    rw [List.forall_mem_cons] at plain
    refine ⟨String.ofList target, names.map String.ofList, ?_, ?_, ?_⟩
    · rw [← String.toList_inj, keyText, String.toList_intercalate, ← joined]
      simp
    · rw [String.toList_ofList]
      exact plain.1.1
    · rw [List.forall_mem_map]
      intro name inside
      rw [String.toList_ofList]
      exact (plain.2 name inside).1

/-- Reading a key undoes writing one, and nothing is lost in it: a key is read as just the criterion whose target it
starts with, whose commands its names name, and whose argument these leave as it is or, where there are none, read as a
number if it spells one. It is refused exactly if a name in it is that of no command, with the first such name. -/
theorem read_iff_written (key : String) (argument : Value) :
    (∀ criterion, read key argument = .ok criterion ↔ criterion.target.Nameable ∧ criterion.commands ≠ [] ∧
      ∃ names, key = keyText criterion.target.written names ∧
        Asked names argument criterion.commands criterion.argument) ∧
    ∀ error, read key argument = .error error ↔ ∃ target before name after,
      key = keyText target (before ++ name :: after) ∧ ':' ∉ target.toList ∧
      (∀ segment ∈ before ++ name :: after, ':' ∉ segment.toList) ∧
      (∀ known ∈ before, ∃ command : Command, command.HasName known) ∧
      (∀ command : Command, ¬ command.HasName name) ∧ error = .unknownCommand name := by
  constructor
  · intro criterion
    constructor
    · intro taken
      obtain ⟨target, names, rfl, noColon, bare⟩ := exists_keyText key
      obtain ⟨same, asked⟩ := (read_keyText_eq_ok_iff noColon bare).mp taken
      obtain ⟨nameable, text⟩ := Target.nameable_ofText noColon
      rw [same]
      exact ⟨nameable, asked.ne_nil, names, by rw [text], asked⟩
    · rintro ⟨nameable, -, names, rfl, asked⟩
      refine (read_keyText_eq_ok_iff nameable.not_mem_written asked.not_mem).mpr ⟨?_, asked⟩
      rw [Target.ofText_written nameable]
  · intro error
    constructor
    · intro refused
      obtain ⟨target, names, rfl, noColon, bare⟩ := exists_keyText key
      obtain ⟨before, name, after, rfl, known, unknown, same⟩ := (read_keyText_eq_error_iff noColon bare).mp refused
      exact ⟨target, before, name, after, rfl, noColon, bare, known, unknown, same⟩
    · rintro ⟨target, before, name, after, rfl, noColon, bare, found⟩
      exact (read_keyText_eq_error_iff noColon bare).mpr ⟨before, name, after, rfl, found⟩

end Criterion

end RowFilter
