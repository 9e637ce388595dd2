import RowFilter.Proofs.Relabelling
import RowFilter.Proofs.Verdict

/-!
# Nothing of a request reaches the SQL but through the dialect

Two runs in any two dialects, on criteria that ask in the same way of names and scalars which the dialects
write alike, cannot be told apart: they give the same expression or the same refusal at the same place.
A dialect's texts for lists take no part in this.

* `EntryAlike` : two keys with their arguments that ask alike;
* `Compiler.RefusedAt` : the place at which the shape of an argument is refused;
* `compile_alike` : the two runs.
-/

namespace RowFilter

/-! ## Keys that ask alike -/

/-- Targets of one kind, whose names correspond. -/
inductive Target.Alike (same : String → String → Prop) : Target → Target → Prop
  | column {f g : String} (name : same f g) : Alike same (.column f) (.column g)
  | anyOf {fs gs : List String} (names : List.Forall₂ same fs gs) :
      Alike same (.anyOf fs) (.anyOf gs)

/-- Criteria with the same commands, and with names and scalars that the two dialects write alike. -/
structure Criterion.Alike (d₁ d₂ : Dialect) (r₁ r₂ : Criterion) : Prop where
  target : Target.Alike (fun f g => d₁.name f = d₂.name g) r₁.target r₂.target
  commands : r₁.commands = r₂.commands
  argument : Nested.Alike (fun a b => d₁.literal a = d₂.literal b) r₁.argument r₂.argument

/-- Keys with their arguments that are read as criteria alike. -/
def EntryAlike (d₁ d₂ : Dialect) (e₁ e₂ : String × Value) : Prop :=
  ∃ r₁ r₂, Criterion.read e₁.1 e₁.2 = .ok r₁ ∧ Criterion.read e₂.1 e₂.2 = .ok r₂ ∧
    Criterion.Alike d₁ d₂ r₁ r₂

def Criterion.unfit? (r : Criterion) : Option Command :=
  r.commands.find? fun command => ¬ command.shape.Fits r.argument

/-- Compiling is refused for the shape of an argument: at key `i`, at its column `j`, at this command.
All keys before, and all columns of the key before, give no reason to refuse. -/
structure Compiler.RefusedAt (c : Compiler) (criteria : Criteria) (i j : Nat) (command : Command) :
    Prop where
  earlier : ∀ entry ∈ criteria.toList.take i, ∃ clause, c.alone entry = .ok clause
  here : ∃ entry r field, criteria.toList[i]? = some entry ∧
    Criterion.read entry.1 entry.2 = .ok r ∧ r.target.names[j]? = some field ∧
    (∀ other ∈ r.target.names.take j, fieldRefusal? c.access r.commands r.argument other = none) ∧
    r.unfit? = some command ∧ c.compile criteria = .error (.wrongShape command field)

/-! ## The text of a key -/

def testText (column : String) (conditions : List (Condition String)) : String :=
  match conditions.map fun c => Condition.parenthesised (c.render column) with
  | [condition] => condition
  | conditions => alternatives conditions

theorem ColumnTest.render_eq_testText (d : Dialect) (table : String) (t : ColumnTest) :
    t.render d table = testText (d.column table t.column) (t.conditions.map (Condition.map d.literal)) := by
  rw [ColumnTest.render, testText, List.map_map]
  rfl

/-- The SQL of a column under a criterion's commands, from the texts of the argument's scalars alone. -/
def fieldText? (column : String) (commands : List Command) (argument : Nested String) : Option String :=
  (commands.mapM (Condition.ofArgument? argument)).map (testText column)

theorem toOption_condition (argument : Value) (field : String) (command : Command) :
    (condition argument field command).toOption = Condition.ofArgument? argument command := by
  unfold condition
  cases Condition.ofArgument? argument command <;> rfl

theorem toOption_columnTest (d : Dialect) (table field : String) (r : Criterion) :
    (columnTest .everything r field).toOption.map (ColumnTest.render d table) =
      fieldText? (d.column table field) r.commands (r.argument.map d.literal) := by
  have texts : r.commands.mapM (Condition.ofArgument? (r.argument.map d.literal)) =
      (r.commands.mapM (Condition.ofArgument? r.argument)).map
        (List.map (Condition.map d.literal)) := by
    simp only [funext (Condition.ofArgument?_map d.literal r.argument)]
    exact mapM_map_eq (Condition.ofArgument? r.argument) (Condition.map d.literal) r.commands
  have admitted : columnTest .everything r field =
      r.commands.mapM (condition r.argument field) >>= fun conditions => pure ⟨field, conditions⟩ := rfl
  rw [admitted, toOption_bind_pure, toOption_mapM, fieldText?, texts]
  simp only [toOption_condition, Option.map_map]
  congr 1
  funext conditions
  exact ColumnTest.render_eq_testText d table ⟨field, conditions⟩

/-- The SQL of a key, from the texts of its names and of its argument's scalars alone. -/
theorem toOption_keyText {c : Compiler} (everything : c.access = .everything) {entry : String × Value}
    {r : Criterion} (read : Criterion.read entry.1 entry.2 = .ok r) :
    (c.keyText entry).toOption =
      let text field := fieldText? (c.dialect.column c.table.text field) r.commands
        (r.argument.map c.dialect.literal)
      match r.target with
      | .column field => text field
      | .anyOf fields => (fields.mapM text).map alternatives := by
  obtain ⟨target, commands, argument⟩ := r
  unfold Compiler.keyText restriction
  rw [read, everything, toOption_map]
  have fields := toOption_columnTest c.dialect c.table.text
  cases target with
  | column field =>
    change Option.map _ (Except.toOption (_ >>= fun test => pure _)) = _
    rw [toOption_bind_pure, Option.map_map]
    exact fields field ⟨.column field, commands, argument⟩
  | anyOf names =>
    change Option.map _ (Except.toOption (_ >>= fun tests => pure _)) = _
    rw [toOption_bind_pure, toOption_mapM, Option.map_map]
    simp only [← fields _ ⟨.anyOf names, commands, argument⟩]
    rw [show (names.mapM fun field =>
        (columnTest .everything ⟨.anyOf names, commands, argument⟩ field).toOption.map
          (ColumnTest.render c.dialect c.table.text)) = _ from mapM_map_eq _ _ _]
    rw [Option.map_eq_map, Option.map_map]
    rfl

/-! ## The two runs -/

theorem Criterion.Alike.unfit?_eq {d₁ d₂ : Dialect} {r₁ r₂ : Criterion}
    (alike : Criterion.Alike d₁ d₂ r₁ r₂) : r₁.unfit? = r₂.unfit? := by
  have argument := alike.argument.map_eq fun _ _ same => same
  have fits : ∀ shape : Shape, shape.Fits r₁.argument ↔ shape.Fits r₂.argument := by
    intro shape
    rw [← Shape.fits_map_iff d₁.literal, argument, Shape.fits_map_iff]
  simp only [unfit?, alike.commands, fits]

section Runs

variable {c₁ c₂ : Compiler} (table : c₁.dialect.name c₁.table.text = c₂.dialect.name c₂.table.text)
  (open₁ : c₁.access = .everything) (open₂ : c₂.access = .everything)

include table open₁ open₂

theorem EntryAlike.toOption_keyText_eq {e₁ e₂ : String × Value}
    (alike : EntryAlike c₁.dialect c₂.dialect e₁ e₂) :
    (c₁.keyText e₁).toOption = (c₂.keyText e₂).toOption := by
  obtain ⟨⟨target₁, _, _⟩, ⟨target₂, _, _⟩, read₁, read₂, target, commands, argument⟩ := alike
  have column : ∀ f g, c₁.dialect.name f = c₂.dialect.name g →
      c₁.dialect.column c₁.table.text f = c₂.dialect.column c₂.table.text g := by
    intro f g name
    rw [Dialect.column, Dialect.column, table, name]
  have argument := argument.map_eq fun _ _ same => same
  simp only at target commands argument
  rw [toOption_keyText open₁ read₁, toOption_keyText open₂ read₂, commands, argument]
  cases target with
  | column name => simp only [column _ _ name]
  | anyOf names =>
    simp only
    congr 1
    apply mapM_congr_forall₂
    exact names.imp fun f g name => by rw [column f g name]

theorem toOption_mapM_keyText_eq {as bs : List (String × Value)}
    (alike : List.Forall₂ (EntryAlike c₁.dialect c₂.dialect) as bs) :
    (as.mapM c₁.keyText).toOption = (bs.mapM c₂.keyText).toOption := by
  rw [toOption_mapM, toOption_mapM]
  apply mapM_congr_forall₂
  exact alike.imp fun _ _ pair => pair.toOption_keyText_eq table open₁ open₂

end Runs

/-! ## The place of a refusal -/

theorem fieldRefusal?_everything (r : Criterion) (field : String) :
    fieldRefusal? .everything r.commands r.argument field = r.unfit?.map (.wrongShape · field) := rfl

/-- Under access to everything a key is refused at its first column, for its first unfit command. -/
theorem Compiler.refusedAt_of_split {c : Compiler} {criteria : Criteria}
    (room : criteria.size ≤ c.keyLimit) (everything : c.access = .everything)
    {before after : List (String × Value)} {entry : String × Value}
    (split : criteria.toList = before ++ entry :: after)
    (earlier : ∀ other ∈ before, ∃ text, c.keyText other = .ok text) {r : Criterion}
    (read : Criterion.read entry.1 entry.2 = .ok r) {command : Command}
    (unfit : r.unfit? = some command) : c.RefusedAt criteria before.length 0 command := by
  obtain ⟨field, others, names⟩ := List.exists_cons_of_ne_nil (Criterion.ne_nil_of_read read).1
  have here : c.keyText entry = .error (.wrongShape command field) := by
    rw [← refusal?_eq_some_iff, keyText, refusal?_map, everything,
      show entry = (entry.1, entry.2) from rfl, refusal?_restriction_of_read _ read, names,
      List.findSome?_cons, fieldRefusal?_everything, unfit]
    rfl
  refine ⟨?_, entry, r, field, ?_, read, ?_, ?_, unfit, ?_⟩
  · intro other member
    rw [split, List.take_left] at member
    obtain ⟨text, written⟩ := earlier other member
    exact ⟨_, alone_eq_ok_iff.mpr written⟩
  · rw [split, List.getElem?_append_right (Nat.le_refl _), Nat.sub_self]
    rfl
  · rw [names]
    rfl
  · intro other member
    simp at member
  · rw [compile_of_size_le room, ← refusal?_eq_some_iff, refusal?_map, refusal?_eq_some_iff,
      mapM_eq_error_iff]
    exact ⟨before, entry, after, split, earlier, here⟩

theorem Compiler.unfit?_ne_none_of_refused {c : Compiler} (everything : c.access = .everything)
    {entry : String × Value} {e : ClauseError} (refused : c.keyText entry = .error e) {r : Criterion}
    (read : Criterion.read entry.1 entry.2 = .ok r) : r.unfit? ≠ none := by
  intro fits
  have refusal := refusal?_eq_some_iff.mpr refused
  rw [keyText, refusal?_map, everything, show entry = (entry.1, entry.2) from rfl,
    refusal?_restriction_of_read _ read, List.findSome?_eq_some_iff] at refusal
  obtain ⟨_, field, _, _, found, _⟩ := refusal
  rw [fieldRefusal?_everything, fits] at found
  simp at found

/-- The same clause, or too many keys, or an argument refused at the same place. -/
def SameOutcome (c₁ c₂ : Compiler) (s₁ s₂ : Criteria) : Prop :=
  (∃ clause, c₁.compile s₁ = .ok clause ∧ c₂.compile s₂ = .ok clause) ∨
  (c₁.compile s₁ = .error (.tooManyKeys c₁.keyLimit) ∧
    c₂.compile s₂ = .error (.tooManyKeys c₁.keyLimit)) ∨
  ∃ i j command, c₁.RefusedAt s₁ i j command ∧ c₂.RefusedAt s₂ i j command

section Outcome

variable {c₁ c₂ : Compiler} {s₁ s₂ : Criteria}
  (table : c₁.dialect.name c₁.table.text = c₂.dialect.name c₂.table.text)
  (open₁ : c₁.access = .everything) (open₂ : c₂.access = .everything)
  (alike : List.Forall₂ (EntryAlike c₁.dialect c₂.dialect) s₁.toList s₂.toList)
  (room₁ : s₁.size ≤ c₁.keyLimit) (room₂ : s₂.size ≤ c₂.keyLimit)

include table open₁ open₂ alike room₁ room₂

theorem compile_eq_of_written {terms : List String} (written : s₁.toList.mapM c₁.keyText = .ok terms) :
    c₁.compile s₁ = .ok (.ofTerms terms) ∧ c₂.compile s₂ = .ok (.ofTerms terms) := by
  have written' : s₂.toList.mapM c₂.keyText = .ok terms := by
    rw [← toOption_eq_some_iff, ← toOption_mapM_keyText_eq table open₁ open₂ alike, written]
    rfl
  rw [Compiler.compile_of_size_le room₁, Compiler.compile_of_size_le room₂, written, written']
  exact ⟨rfl, rfl⟩

theorem refusedAt_of_refused {e : ClauseError} (refused : s₁.toList.mapM c₁.keyText = .error e) :
    ∃ i j command, c₁.RefusedAt s₁ i j command ∧ c₂.RefusedAt s₂ i j command := by
  obtain ⟨before, entry, after, split, earlier, here⟩ := mapM_eq_error_iff.mp refused
  rw [split] at alike
  obtain ⟨before', entry', after', split', prior, r, r', read, read', pair⟩ :=
    forall₂_append_cons alike
  -- the keys before the refused one pass in the second run because they pass in the first
  have earlier' : ∀ other ∈ before', ∃ text, c₂.keyText other = .ok text := by
    obtain ⟨terms, written⟩ := mapM_ok_iff_forall.mpr earlier
    have same := toOption_mapM_keyText_eq table open₁ open₂ prior
    rw [written] at same
    exact mapM_ok_iff_forall.mp ⟨terms, toOption_eq_some_iff.mp same.symm⟩
  obtain ⟨command, unfit⟩ := Option.ne_none_iff_exists'.mp
    (Compiler.unfit?_ne_none_of_refused open₁ here read)
  refine ⟨before.length, 0, command, ?_, ?_⟩
  · exact Compiler.refusedAt_of_split room₁ open₁ split earlier read unfit
  · rw [prior.length_eq]
    exact Compiler.refusedAt_of_split room₂ open₂ split' earlier' read' (pair.unfit?_eq ▸ unfit)

end Outcome

/-- Dialects that write names and scalars alike give the same answer, whatever they write for lists. -/
theorem compile_eq_of_items {d d' : Dialect} (names : ∀ name, d.name name = d'.name name)
    (items : ∀ a, d.literals (.item a) = d'.literals (.item a)) (table : TableName) (limit : Nat) (criteria : Criteria) :
    ((Compiler.new d table).withKeyLimit limit).compile criteria =
      ((Compiler.new d' table).withKeyLimit limit).compile criteria := by
  have texts (entry : String × Value) : ((Compiler.new d table).withKeyLimit limit).keyText entry =
      ((Compiler.new d' table).withKeyLimit limit).keyText entry := by
    have render (t : ColumnTest) : t.render d table.text = t.render d' table.text := by
      rw [ColumnTest.render_eq_testText, ColumnTest.render_eq_testText, Dialect.column, Dialect.column, names, names,
        show d.literal = d'.literal from funext items]
    refine congrArg (Except.map · (restriction .everything entry)) (funext fun asked => ?_)
    cases asked with
    | column test => exact render test
    | anyOf tests => exact congrArg (alternatives <| tests.map ·) (funext render)
  rw [Compiler.compile_eq, Compiler.compile_eq, funext texts]
  rfl

/-- Two runs without field restrictions, in any two dialects, on criteria that ask alike have the same
outcome. What the dialects write for lists is nowhere asked for: whatever the criteria, a dialect may be changed for
one that writes names and scalars alike. -/
theorem compile_alike (d₁ d₂ : Dialect) (t₁ t₂ : TableName) (limit : Nat) (s₁ s₂ : Criteria)
    (table : d₁.name t₁.text = d₂.name t₂.text)
    (alike : List.Forall₂ (EntryAlike d₁ d₂) s₁.toList s₂.toList) :
    SameOutcome ((Compiler.new d₁ t₁).withKeyLimit limit) ((Compiler.new d₂ t₂).withKeyLimit limit)
      s₁ s₂ ∧
    ∀ d : Dialect, (∀ name, d.name name = d₁.name name) →
      (∀ a, d.literals (.item a) = d₁.literals (.item a)) → ∀ s,
        ((Compiler.new d t₁).withKeyLimit limit).compile s = ((Compiler.new d₁ t₁).withKeyLimit limit).compile s := by
  refine ⟨?_, fun d names items s => compile_eq_of_items names items t₁ limit s⟩
  have size : s₁.size = s₂.size := alike.length_eq
  by_cases room : s₁.size ≤ limit
  · have room' : s₂.size ≤ limit := size ▸ room
    cases written : s₁.toList.mapM ((Compiler.new d₁ t₁).withKeyLimit limit).keyText with
    | ok terms => exact .inl ⟨_, compile_eq_of_written table rfl rfl alike room room' written⟩
    | error e => exact .inr (.inr (refusedAt_of_refused table rfl rfl alike room room' written))
  · have more : limit < s₁.size := Nat.not_le.mp room
    refine .inr (.inl ⟨?_, ?_⟩)
    · exact Compiler.compile_eq_tooManyKeys_iff.mpr ⟨rfl, more⟩
    · exact Compiler.compile_eq_tooManyKeys_iff.mpr ⟨rfl, size ▸ more⟩

theorem SameOutcome.compile_eq_ok {c₁ c₂ : Compiler} {s₁ s₂ : Criteria} (same : SameOutcome c₁ c₂ s₁ s₂)
    {clause : Clause} (compiled : c₁.compile s₁ = .ok clause) : c₂.compile s₂ = .ok clause := by
  rcases same with ⟨other, first, second⟩ | ⟨first, -⟩ |
    ⟨i, j, command, ⟨-, entry, r, field, -, -, -, -, -, first⟩, -⟩
  · rw [second, ← first, compiled]
  · rw [compiled] at first
    cases first
  · rw [compiled] at first
    cases first

/-- A dialect that writes everything in one way, as far as anything is asked of it. -/
def Dialect.blind : Dialect where
  name _ := "\"a\""
  literal _ := "'x'"
  row _ := "; --"

/-- Two columns and two texts of which the one dialect sees as little as the other shows. -/
theorem compile_alike_blind :
    ((Compiler.new .ansi ⟨"a", by decide⟩).withKeyLimit 1).compile (.ofList [("a:in", .list [.item (.text "x")])]) =
      .ok ⟨some "(\"a\".\"a\" IN ('x'))"⟩ ∧
    ((Compiler.new .blind ⟨"b", by decide⟩).withKeyLimit 1).compile (.ofList [("c:in", .list [.item (.text "y")])]) =
      .ok ⟨some "(\"a\".\"a\" IN ('x'))"⟩ := by
  have alike : List.Forall₂ (EntryAlike .ansi .blind) (Criteria.ofList [("a:in", .list [.item (.text "x")])]).toList
      (Criteria.ofList [("c:in", .list [.item (.text "y")])]).toList := by
    rw [Criteria.toList_ofList_singleton, Criteria.toList_ofList_singleton]
    refine .cons ⟨⟨.column "a", [.oneOf], .list [.item (.text "x")]⟩,
      ⟨.column "c", [.oneOf], .list [.item (.text "y")]⟩, rfl, rfl, ?_⟩ .nil
    exact ⟨.column (by decide), rfl, .list (.cons (.item (by decide)) .nil)⟩
  have compiled : ((Compiler.new .ansi ⟨"a", by decide⟩).withKeyLimit 1).compile
      (.ofList [("a:in", .list [.item (.text "x")])]) = .ok ⟨some "(\"a\".\"a\" IN ('x'))"⟩ :=
    Compiler.compile_of_keyText (by decide) rfl
  have same := (compile_alike .ansi .blind ⟨"a", by decide⟩ ⟨"b", by decide⟩ 1 _ _ (by decide) alike).1
  exact ⟨compiled, same.compile_eq_ok compiled⟩

end RowFilter
