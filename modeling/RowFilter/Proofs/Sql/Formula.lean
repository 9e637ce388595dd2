import RowFilter.Proofs.Sql.Token
import RowFilter.Value.Basic

/-!
# What a boolean expression says

* `Truth` : three truth values, with the conjunction and the disjunction of SQL;
* `Atom` : a comparison of a column with literals, as data;
* `Formula` : atoms joined by connectives, any number at a time;
* `Formula.eval` : its truth under an assignment of truth values to atoms, and `Formula.atoms` : its
  atoms in the order written.
-/

namespace RowFilter.Sql

/-- The truth values of SQL, in which a comparison with nothing is unknown. -/
inductive Truth where
  | false
  | unknown
  | true
deriving DecidableEq, Repr

namespace Truth

/-- The lesser of two values, where unknown lies between the others. -/
def and : Truth → Truth → Truth
  | false, _ => false
  | _, false => false
  | true, v => v
  | v, true => v
  | unknown, unknown => unknown

/-- The greater of two values. -/
def or : Truth → Truth → Truth
  | true, _ => true
  | _, true => true
  | false, v => v
  | v, false => v
  | unknown, unknown => unknown

end Truth

inductive Connective where
  | and
  | or
deriving DecidableEq, Repr

namespace Connective

def apply : Connective → Truth → Truth → Truth
  | and => .and
  | or => .or

def unit : Connective → Truth
  | and => .true
  | or => .false

def symbol : Connective → Symbol
  | and => .and
  | or => .or

theorem apply_unit (k : Connective) (v : Truth) : k.apply v k.unit = v := by
  cases k <;> cases v <;> rfl

end Connective

structure Column where
  table : String
  name : String
deriving DecidableEq

inductive Literal where
  | text (text : String)
  | number (number : BareNumber)
  | null
deriving DecidableEq

namespace Literal

/-- The literal of a scalar. A number that is not finite has none of its own. -/
def ofScalar : Scalar → Literal
  | .text s => .text s
  | .number (.int i) => .number ⟨_, isNumeral_integer i⟩
  | .number (.float x) =>
    if finite : x.isFinite then .number ⟨_, isNumeral_finite finite⟩ else .null

def token : Literal → Token
  | text s => .text s
  | number n => .number n
  | null => .symbol .null

end Literal

/-- A comparison of a column. A pattern is a row of literals that count as one, and neither a pattern nor
a list of members is ever empty. -/
inductive Atom where
  | compare (column : Column) (comparison : Comparison) (operand : Literal)
  | isNull (column : Column)
  | like (column : Column) (first : Literal) (others : List Literal)
  | oneOf (column : Column) (first : Literal) (others : List Literal)
deriving DecidableEq

namespace Atom

def column : Atom → Column
  | compare column _ _ | isNull column | like column _ _ | oneOf column _ _ => column

def literals : Atom → List Literal
  | compare _ _ operand => [operand]
  | isNull _ => []
  | like _ first others | oneOf _ first others => first :: others

end Atom

inductive Formula where
  | atom (atom : Atom)
  | join (connective : Connective) (members : List Formula)

namespace Formula

abbrev all (members : List Formula) : Formula := .join .and members

abbrev any (members : List Formula) : Formula := .join .or members

def eval (assignment : Atom → Truth) : Formula → Truth
  | atom a => assignment a
  | join k members => (members.map (eval assignment)).foldr k.apply k.unit

def atoms : Formula → List Atom
  | atom a => [a]
  | join _ members => members.flatMap atoms

/-- Two formulas that have the same atoms in the same order and always the same truth. -/
def Same (f g : Formula) : Prop := (∀ assignment, f.eval assignment = g.eval assignment) ∧ f.atoms = g.atoms

theorem Same.refl (f : Formula) : f.Same f := ⟨fun _ => rfl, rfl⟩

theorem Same.trans {f g h : Formula} (first : f.Same g) (second : g.Same h) : f.Same h :=
  ⟨fun assignment => (first.1 assignment).trans (second.1 assignment), first.2.trans second.2⟩

theorem same_singleton (k : Connective) (f : Formula) : f.Same (.join k [f]) := by
  constructor
  · intro assignment
    rw [eval, List.map_singleton, List.foldr_cons, List.foldr_nil, k.apply_unit]
  · rw [atoms, List.flatMap_singleton]

/-- Members may be taken together from the right. -/
theorem same_cons {k : Connective} {f g tail : Formula} {members : List Formula} (head : f.Same g)
    (rest : tail.Same (.join k members)) :
    (Formula.join k [f, tail]).Same (.join k (g :: members)) := by
  constructor
  · intro assignment
    have truth := rest.1 assignment
    rw [eval] at truth
    simp only [eval, List.map_cons, List.map_nil, List.foldr_cons, List.foldr_nil, k.apply_unit,
      head.1 assignment, truth]
  · have inOrder := rest.2
    rw [atoms] at inOrder
    simp only [atoms, List.flatMap_cons, List.flatMap_nil, List.append_nil, head.2, inOrder]

end Formula

end RowFilter.Sql
