import RowFilter.Proofs.Meaning

/-!
# Access lets clauses through or refuses columns, and does nothing else

Compiling under an access is compared with compiling where every column is admitted.

* `Access.Admits`, `Access.after` : which columns an access admits, and the access that a sequence of
  settings leaves;
* `Gated` : the two answers of one computation, one under an access and one under access to everything;
  it is kept by each step of compiling (`gated_columnTest`, `Gated.map`, `gated_mapM`);
* `gated_compile` : so it holds of compiling;
* `Plan.columns_eq` : a plan tests the columns that the keys name, and no others;
* `compile_gated` : what that means for every sequence of settings.
-/

namespace RowFilter

/-! ## Settings -/

namespace Access

/-- The columns that an access admits. -/
def Admits (a : Access) (field : String) : Prop :=
  (a.allowed = [] ∨ field ∈ a.allowed) ∧ field ∉ a.denied

theorem admits_iff {a : Access} {field : String} : a.admits field = true ↔ a.Admits field := by
  simp [admits, Admits]

/-- Among these columns, the first that is not admitted. -/
def FirstRefused (a : Access) (fields : List String) (field : String) : Prop :=
  ∃ before after, fields = before ++ field :: after ∧ (∀ earlier ∈ before, a.Admits earlier) ∧
    ¬ a.Admits field

theorem FirstRefused.mem {a : Access} {fields : List String} {field : String}
    (first : a.FirstRefused fields field) : field ∈ fields ∧ ¬ a.Admits field := by
  obtain ⟨before, after, rfl, -, refused⟩ := first
  exact ⟨List.mem_append_right before List.mem_cons_self, refused⟩

theorem FirstRefused.append_right {a : Access} {fields : List String} {field : String}
    (first : a.FirstRefused fields field) (more : List String) :
    a.FirstRefused (fields ++ more) field := by
  obtain ⟨before, after, rfl, admitted, refused⟩ := first
  exact ⟨before, after ++ more, by simp, admitted, refused⟩

theorem FirstRefused.append_left {a : Access} {fields : List String} {field : String}
    (first : a.FirstRefused fields field) {admitted : List String}
    (all : ∀ other ∈ admitted, a.Admits other) : a.FirstRefused (admitted ++ fields) field := by
  obtain ⟨before, after, rfl, earlier, refused⟩ := first
  refine ⟨admitted ++ before, after, by simp, fun other member => ?_, refused⟩
  rcases List.mem_append.mp member with member | member
  · exact all other member
  · exact earlier other member

/-- A setting of the lists: one of them, or both. -/
inductive Setting where
  | allow (fields : List String)
  | deny (fields : List String)
  | replace (access : Access)

def Setting.allowed? : Setting → Option (List String)
  | allow fields => some fields
  | deny _ => none
  | replace access => some access.allowed

def Setting.denied? : Setting → Option (List String)
  | allow _ => none
  | deny fields => some fields
  | replace access => some access.denied

/-- The access that settings leave: of each list the last that was named. -/
def after (a : Access) (history : List Setting) : Access :=
  ⟨(history.filterMap Setting.allowed?).getLastD a.allowed,
    (history.filterMap Setting.denied?).getLastD a.denied⟩

theorem after_cons (a : Access) (setting : Setting) (history : List Setting) :
    a.after (setting :: history) =
      after ⟨setting.allowed?.getD a.allowed, setting.denied?.getD a.denied⟩ history := by
  have last {α : Type} (before : α) (named : Option α) (later : List α) :
      (named.toList ++ later).getLastD before = later.getLastD (named.getD before) := by
    cases named with
    | none => rfl
    | some value => exact List.getLastD_cons
  have one {α : Type} (f : Setting → Option α) :
      (setting :: history).filterMap f = (f setting).toList ++ history.filterMap f := by
    rw [List.filterMap_cons]
    cases f setting <;> rfl
  simp only [after, one, last]

end Access

def Compiler.set (c : Compiler) : Access.Setting → Compiler
  | .allow fields => c.allow fields
  | .deny fields => c.deny fields
  | .replace access => c.withAccess access

theorem Compiler.set_eq (c : Compiler) (setting : Access.Setting) :
    c.set setting = c.withAccess
      ⟨setting.allowed?.getD c.access.allowed, setting.denied?.getD c.access.denied⟩ := by
  cases setting <;> rfl

/-- Settings touch nothing of a compiler but its access. -/
theorem Compiler.foldl_set (c : Compiler) (history : List Access.Setting) :
    history.foldl Compiler.set c = c.withAccess (c.access.after history) := by
  induction history generalizing c with
  | nil => rfl
  | cons setting history ih =>
    rw [List.foldl_cons, ih, c.set_eq, Access.after_cons]
    rfl

/-! ## Two answers of one computation -/

/-- The answer of a computation where every column is admitted, and its answer under an access when it
looks at these columns. An answer that is no refusal stands if the access admits all columns, and else the
first one that it does not admit is refused. Where the open answer is a refusal, a column that is not
admitted may come first. -/
inductive Gated {α : Type} (access : Access) (fields : List String) :
    Except ClauseError α → Except ClauseError α → Prop
  | passed (a : α) (admitted : ∀ field ∈ fields, access.Admits field) :
      Gated access fields (.ok a) (.ok a)
  | stopped (a : α) (field : String) (first : access.FirstRefused fields field) :
      Gated access fields (.ok a) (.error (.fieldNotAllowed field))
  | same (e : ClauseError) : Gated access fields (.error e) (.error e)
  | sooner (e : ClauseError) (field : String) (member : field ∈ fields)
      (refused : ¬ access.Admits field) :
      Gated access fields (.error e) (.error (.fieldNotAllowed field))

namespace Gated

variable {α β : Type} {access : Access} {fields : List String} {opened gated : Except ClauseError α}

theorem map (g : Gated access fields opened gated) (f : α → β) :
    Gated access fields (opened.map f) (gated.map f) := by
  cases g with
  | passed a admitted => exact .passed (f a) admitted
  | stopped a field first => exact .stopped (f a) field first
  | same e => exact .same e
  | sooner e field member refused => exact .sooner e field member refused

/-- Whatever the open answer is, a refusal of the first column that is not admitted is right. -/
theorem of_firstRefused {field : String} (first : access.FirstRefused fields field)
    (opened : Except ClauseError α) :
    Gated access fields opened (.error (.fieldNotAllowed field)) := by
  cases opened with
  | ok a => exact .stopped a field first
  | error e => exact .sooner e field first.mem.1 first.mem.2

theorem append_left {more : List String} (admitted : ∀ field ∈ fields, access.Admits field)
    (g : Gated access more opened gated) : Gated access (fields ++ more) opened gated := by
  cases g with
  | passed a others =>
    refine .passed a fun field member => ?_
    rcases List.mem_append.mp member with member | member
    · exact admitted field member
    · exact others field member
  | stopped a field first => exact .stopped a field (first.append_left admitted)
  | same e => exact .same e
  | sooner e field member refused => exact .sooner e field (List.mem_append_right _ member) refused

theorem bind {more : List String} {openNext gatedNext : α → Except ClauseError β}
    (g : Gated access fields opened gated)
    (next : ∀ a, Gated access more (openNext a) (gatedNext a)) :
    Gated access (fields ++ more) (opened >>= openNext) (gated >>= gatedNext) := by
  cases g with
  | passed a admitted => exact (next a).append_left admitted
  | stopped a field first => exact of_firstRefused (first.append_right more) (openNext a)
  | same e => exact .same e
  | sooner e field member refused =>
    exact .sooner e field (List.mem_append_left _ member) refused

/-! The three cases of an answer, told from the open one. -/

theorem eq_ok_iff (g : Gated access fields opened gated) (a : α) :
    gated = .ok a ↔ opened = .ok a ∧ ∀ field ∈ fields, access.Admits field := by
  cases g with
  | passed b admitted => exact ⟨fun same => ⟨same, admitted⟩, fun both => both.1⟩
  | stopped b field first =>
    constructor
    · intro ok
      cases ok
    · intro both
      exact absurd (both.2 field first.mem.1) first.mem.2
  | same e => exact ⟨fun ok => (nomatch ok), fun both => both.1⟩
  | sooner e field member refused => exact ⟨fun ok => (nomatch ok), fun both => (nomatch both.1)⟩

theorem exists_first_of_ok (g : Gated access fields opened gated) {a : α} (ok : opened = .ok a)
    {other : String} (member : other ∈ fields) (refused : ¬ access.Admits other) :
    ∃ field, access.FirstRefused fields field ∧ gated = .error (.fieldNotAllowed field) := by
  cases g with
  | passed b admitted => exact absurd (admitted other member) refused
  | stopped b field first => exact ⟨field, first, rfl⟩
  | same e => cases ok
  | sooner e field member refused => cases ok

theorem eq_error_or (g : Gated access fields opened gated) {e : ClauseError} (error : opened = .error e) :
    gated = .error e ∨
      ∃ field ∈ fields, ¬ access.Admits field ∧ gated = .error (.fieldNotAllowed field) := by
  cases g with
  | passed b admitted => cases error
  | stopped b field first => cases error
  | same e' => exact .inl error
  | sooner e' field member refused => exact .inr ⟨field, member, refused, rfl⟩

end Gated

theorem gated_mapM {α β : Type} {access : Access} {fields : α → List String}
    {opened gated : α → Except ClauseError β}
    (each : ∀ a, Gated access (fields a) (opened a) (gated a)) (as : List α) :
    Gated access (as.flatMap fields) (as.mapM opened) (as.mapM gated) := by
  induction as with
  | nil => exact .passed [] fun _ member => absurd member List.not_mem_nil
  | cons a as ih =>
    rw [List.mapM_cons, List.mapM_cons, List.flatMap_cons]
    exact (each a).bind fun b => ih.map (b :: ·)

/-! ## Compiling -/

/-- The columns that a key names, in the order written. -/
def keyColumns (key : String) : List String := (Target.ofText (Criterion.parts key).1).names

def Criteria.columns (s : Criteria) : List String := s.toList.flatMap fun entry => keyColumns entry.1

theorem Criterion.names_of_read {key : String} {argument : Value} {criterion : Criterion}
    (read : Criterion.read key argument = .ok criterion) :
    criterion.target.names = keyColumns key := by
  rw [Criterion.read_eq] at read
  split at read
  · cases read
  · obtain rfl := Except.ok.inj read
    rfl

theorem gated_columnTest (access : Access) (criterion : Criterion) (field : String) :
    Gated access [field] (columnTest .everything criterion field)
      (columnTest access criterion field) := by
  have checked : columnTest access criterion field =
      access.check field >>= fun _ => columnTest .everything criterion field := rfl
  rw [checked, Access.check]
  by_cases admitted : access.Admits field
  · rw [if_pos (Access.admits_iff.mpr admitted)]
    change Gated access [field] _ (columnTest .everything criterion field)
    cases columnTest .everything criterion field with
    | ok test => exact .passed test (by simpa using admitted)
    | error e => exact .same e
  · rw [if_neg (mt Access.admits_iff.mp admitted)]
    have first : access.FirstRefused [field] field :=
      ⟨[], [], rfl, fun _ member => absurd member List.not_mem_nil, admitted⟩
    exact .of_firstRefused first _

theorem gated_restriction (access : Access) (entry : String × Value) :
    Gated access (keyColumns entry.1) (restriction .everything entry) (restriction access entry) := by
  unfold restriction
  cases read : Criterion.read entry.1 entry.2 with
  | error e => exact .same e
  | ok criterion =>
    rw [← Criterion.names_of_read read]
    dsimp only [bind, Except.bind]
    cases criterion.target with
    | column field => exact (gated_columnTest access criterion field).map Restriction.column
    | anyOf fields =>
      have tests := gated_mapM (gated_columnTest access criterion) fields
      rw [List.flatMap_singleton'] at tests
      exact tests.map Restriction.anyOf

theorem gated_plan (access : Access) (s : Criteria) :
    Gated access s.columns (plan .everything s) (plan access s) :=
  gated_mapM (gated_restriction access) s.toList

theorem gated_compile (c : Compiler) (access : Access) (s : Criteria) :
    Gated access s.columns ((c.withAccess .everything).compile s) ((c.withAccess access).compile s) := by
  unfold Compiler.compile
  change Gated access s.columns (if c.keyLimit < s.size then _ else _)
    (if c.keyLimit < s.size then _ else _)
  split_ifs with more
  · exact .same _
  · exact (gated_plan access s).map _

/-! ## The columns of a plan -/

def Restriction.columns : Restriction → List String
  | column test => [test.column]
  | anyOf tests => tests.map ColumnTest.column

def Plan.columns (p : Plan) : List String := p.flatMap Restriction.columns

theorem ColumnTest.column_eq {access : Access} {criterion : Criterion} {field : String}
    {test : ColumnTest} (tested : columnTest access criterion field = .ok test) :
    test.column = field := by
  obtain ⟨_, -, tested⟩ := bind_eq_ok_iff.mp tested
  obtain ⟨conditions, -, made⟩ := bind_eq_ok_iff.mp tested
  rw [← Except.ok.inj made]

theorem Restriction.columns_eq {access : Access} {entry : String × Value} {r : Restriction}
    (restricted : restriction access entry = .ok r) : r.columns = keyColumns entry.1 := by
  obtain ⟨criterion, read, restricted⟩ := bind_eq_ok_iff.mp restricted
  rw [← Criterion.names_of_read read]
  split at restricted
  · rename_i field target
    obtain ⟨test, tested, made⟩ := bind_eq_ok_iff.mp restricted
    rw [← Except.ok.inj made, target, columns, ColumnTest.column_eq tested, Target.names]
  · rename_i fields target
    obtain ⟨tests, tested, made⟩ := bind_eq_ok_iff.mp restricted
    rw [← Except.ok.inj made, target, columns, Target.names]
    have each := (mapM_eq_ok_iff.mp tested).imp fun _ _ tested => (ColumnTest.column_eq tested).symm
    rw [← List.forall₂_map_right_iff, List.forall₂_eq_eq_eq] at each
    exact each.symm

theorem Plan.columns_eq {access : Access} {s : Criteria} {p : Plan} (planned : plan access s = .ok p) :
    p.columns = s.columns :=
  flatMap_eq_of_mapM (fun _ _ restricted => Restriction.columns_eq restricted) planned

theorem Compiler.exists_plan {c : Compiler} {s : Criteria} {clause : Clause}
    (compiled : c.compile s = .ok clause) :
    ∃ p : Plan, clause.expression? = p.expression? c.dialect c.table.text ∧ p.columns = s.columns := by
  unfold compile at compiled
  split at compiled
  · cases compiled
  · obtain ⟨p, planned, rfl⟩ := map_eq_ok_iff.mp compiled
    exact ⟨p, rfl, Plan.columns_eq planned⟩

/-! ## The columns of an expression -/

open Sql (Flavour Derives Atom Column)

theorem Command.column_of_mem_bothCompared {column : Column} {first second : Comparison}
    {operands : List Scalar} {a : Atom}
    (member : a ∈ (Command.bothCompared column first second operands).atoms) : a.column = column := by
  unfold bothCompared at member
  split at member
  · simp only [Sql.Formula.atoms, List.flatMap_cons, List.flatMap_nil, List.append_nil,
      List.singleton_append, List.mem_cons, List.not_mem_nil, or_false] at member
    rcases member with rfl | rfl <;> rfl
  · simp [Sql.Formula.atoms] at member

theorem Command.column_of_mem_formula {column : Column} {command : Command} {argument : Value}
    {a : Atom} (member : a ∈ (command.formula column argument).atoms) : a.column = column := by
  unfold Command.formula at member
  split at member
  case h_8 members =>
    unfold Command.lookedUp at member
    split at member <;> simp [Sql.Formula.atoms] at member
    rw [member]
    rfl
  case h_9 | h_10 =>
    simp only [Sql.Formula.atoms, List.mem_flatMap, List.mem_map] at member
    obtain ⟨_, ⟨range, -, rfl⟩, member⟩ := member
    exact column_of_mem_bothCompared member
  case h_11 => simp [Sql.Formula.atoms] at member
  all_goals
    simp only [Sql.Formula.atoms, List.mem_singleton] at member
    rw [member]
    rfl

theorem Criterion.column_of_mem_formulaOfAll {table : String} {asked : List Criterion} {a : Atom}
    (member : a ∈ (Criterion.formulaOfAll table asked).atoms) :
    a.column.table = table ∧ ∃ criterion ∈ asked, a.column.name ∈ criterion.target.names := by
  obtain ⟨criterion, isAsked, field, named, _, -, member⟩ := exists_of_mem_formulaOfAll member
  rw [Command.column_of_mem_formula member]
  exact ⟨rfl, criterion, isAsked, named⟩

/-- However a database reads the expression of a compiled filter, the columns that it finds are columns of
the table that the keys name. -/
theorem Compiler.column_of_reading {c : Compiler} {k : Flavour} (shipped : c.dialect = k.dialect)
    {s : Criteria} {clause : Clause} (compiled : c.compile s = .ok clause) {sql : String}
    (written : clause.expression? = some sql) {tokens : List Sql.Token}
    (lexed : k.tokens? sql = some tokens) {reading : Sql.Formula}
    (derived : Derives (.joined .or) tokens reading) {a : Atom} (member : a ∈ reading.atoms) :
    a.column.table = c.table.text ∧ a.column.name ∈ s.columns := by
  obtain ⟨asked, _, tree, read, found, derives, same⟩ := c.exists_reading shipped compiled written
  obtain rfl := Option.some.inj (lexed.symm.trans found)
  -- the grammar is unambiguous, so the reading found is the one that was written
  rw [derived.unique derives, same] at member
  obtain ⟨table, criterion, isAsked, named⟩ := Criterion.column_of_mem_formulaOfAll member
  have names : asked.flatMap (fun criterion => criterion.target.names) = s.columns :=
    flatMap_eq_of_mapM (fun _ _ read => Criterion.names_of_read read) read
  rw [← names]
  exact ⟨table, List.mem_flatMap.mpr ⟨criterion, isAsked, named⟩⟩

/-! ## What the settings do -/

/-- Settings change the access alone, and of each list the last one named is in force. An access then gives
a clause exactly where access to everything gives that clause and every column that a key names is
admitted; it refuses the first one that is not; and a refusal of the open run is given up only for that of
a column. So a clause tests admitted columns only, also in the eyes of a database, and admitting more columns
leaves it as it is. -/
theorem compile_gated (c : Compiler) (history : List Access.Setting) (s : Criteria) :
    let access := c.access.after history
    let gated := (history.foldl Compiler.set c).compile s
    let opened := (c.withAccess .everything).compile s
    history.foldl Compiler.set c = c.withAccess access ∧
    (∀ clause, gated = .ok clause ↔
      opened = .ok clause ∧ ∀ field ∈ s.columns, access.Admits field) ∧
    (∀ clause, opened = .ok clause → (∃ field ∈ s.columns, ¬ access.Admits field) →
      ∃ field, access.FirstRefused s.columns field ∧ gated = .error (.fieldNotAllowed field)) ∧
    (∀ e, opened = .error e → gated = .error e ∨
      ∃ field ∈ s.columns, ¬ access.Admits field ∧ gated = .error (.fieldNotAllowed field)) ∧
    (∀ clause, gated = .ok clause → ∃ p : Plan,
      clause.expression? = p.expression? c.dialect c.table.text ∧
        ∀ column ∈ p.columns, access.Admits column) ∧
    (∀ (k : Flavour) clause sql tokens reading, c.dialect = k.dialect → gated = .ok clause →
      clause.expression? = some sql → k.tokens? sql = some tokens →
      Derives (.joined .or) tokens reading →
        ∀ a ∈ reading.atoms, a.column.table = c.table.text ∧ access.Admits a.column.name) ∧
    (∀ looser : Access, (∀ field, access.Admits field → looser.Admits field) →
      ∀ clause, gated = .ok clause → (c.withAccess looser).compile s = .ok clause) := by
  intro access gated opened
  have settled : history.foldl Compiler.set c = c.withAccess access := c.foldl_set history
  have compiled : gated = (c.withAccess access).compile s := congrArg (Compiler.compile · s) settled
  have gate : Gated access s.columns opened gated := compiled ▸ gated_compile c access s
  have admitted {clause : Clause} (ok : gated = .ok clause) : ∀ field ∈ s.columns, access.Admits field :=
    ((gate.eq_ok_iff clause).mp ok).2
  refine ⟨settled, gate.eq_ok_iff, ?_, fun e => gate.eq_error_or, ?_, ?_, ?_⟩
  · rintro clause ok ⟨field, member, refused⟩
    exact gate.exists_first_of_ok ok member refused
  · intro clause ok
    obtain ⟨p, written, columns⟩ := Compiler.exists_plan (compiled ▸ ok)
    exact ⟨p, written, columns ▸ admitted ok⟩
  · intro k clause sql tokens reading shipped ok written lexed derived a member
    have found := Compiler.column_of_reading (c := c.withAccess access) shipped (compiled ▸ ok)
      written lexed derived member
    exact ⟨found.1, admitted ok _ found.2⟩
  · intro looser admitsMore clause ok
    have both := (gate.eq_ok_iff clause).mp ok
    exact ((gated_compile c looser s).eq_ok_iff clause).mpr
      ⟨both.1, fun field member => admitsMore field (both.2 field member)⟩

/-- The second column of a group is refused by a deny list that a later allow list leaves in force. -/
theorem compile_gated_group :
    (⟨.mysql, ⟨"t", by decide⟩, .everything, 64⟩ : Compiler).compile
        (.ofList [("(a,b):null", .item (.text ""))]) =
      .ok ⟨some "((`t`.`a` IS NULL) OR (`t`.`b` IS NULL))"⟩ ∧
    ∃ field, Access.FirstRefused ⟨[], ["b"]⟩ ["a", "b"] field ∧
      (((⟨.mysql, ⟨"t", by decide⟩, .everything, 64⟩ : Compiler).deny ["b"]).allow []).compile
        (.ofList [("(a,b):null", .item (.text ""))]) = .error (.fieldNotAllowed field) := by
  have opened : (⟨.mysql, ⟨"t", by decide⟩, .everything, 64⟩ : Compiler).compile
        (.ofList [("(a,b):null", .item (.text ""))]) =
      .ok ⟨some "((`t`.`a` IS NULL) OR (`t`.`b` IS NULL))"⟩ := Compiler.compile_of_keyText (by decide) rfl
  have refused : ¬ (⟨[], ["b"]⟩ : Access).Admits "b" := fun admitted =>
    admitted.2 (List.mem_singleton_self "b")
  have columns : (Criteria.ofList [("(a,b):null", .item (.text ""))]).columns = ["a", "b"] := by
    rw [Criteria.columns, Criteria.toList_ofList_singleton]
    rfl
  have gated := (compile_gated ⟨.mysql, ⟨"t", by decide⟩, .everything, 64⟩ [.deny ["b"], .allow []]
    (.ofList [("(a,b):null", .item (.text ""))])).2.2.1 _ opened
  rw [columns] at gated
  exact ⟨opened, gated ⟨"b", by decide, refused⟩⟩

end RowFilter
