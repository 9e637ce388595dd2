/-!
# Nested lists

`Nested α` is an item of type `α` or a list of such, to any depth. Filter arguments are nested lists of
scalars, and the literals written for them are nested lists of texts of the same shape.

* `Nested.map` : every item changed, the shape kept;
* `Nested.depth` : how many lists enclose the innermost one, that one counted;
* `Nested.scalar?`, `Nested.scalars?`, `Nested.pairs?` : the shapes that commands ask for;
* `Nested.equal` : equality up to a given equality of items.
-/

namespace RowFilter

/-- An item, or a list of nested lists. -/
inductive Nested (α : Type) where
  | item (value : α)
  | list (members : List (Nested α))

namespace Nested

variable {α β : Type}

def map (f : α → β) : Nested α → Nested β
  | .item a => .item (f a)
  | .list members => .list (members.map (map f))

/-- Replaces items and lists bottom up: what becomes of an item, and of a list once its members are
done. -/
def fold (item : α → β) (list : List β → β) : Nested α → β
  | .item a => item a
  | .list members => list (members.map (fold item list))

/-- How deep lists stand in one another: none for an item, one for a list of items. -/
def depth (v : Nested α) : Nat :=
  v.fold (fun _ => 0) (fun depths => depths.foldl max 0 + 1)

def items (v : Nested α) : List α := v.fold (fun a => [a]) List.flatten

def isList : Nested α → Bool
  | .item _ => false
  | .list _ => true

/-- The item of a value that is no list. -/
def scalar? : Nested α → Option α
  | .item a => some a
  | .list _ => none

/-- The items of a list that is not empty and holds no list. -/
def scalars? : Nested α → Option (List α)
  | .item _ => none
  | .list [] => none
  | .list (first :: others) => (first :: others).mapM scalar?

/-- The two items of a list that holds just these. -/
def pair? (v : Nested α) : Option (α × α) :=
  match v.scalars? with
  | some [low, high] => some (low, high)
  | _ => none

/-- The pairs of a list that is not empty and holds only lists of two items. -/
def pairs? : Nested α → Option (List (α × α))
  | .item _ => none
  | .list [] => none
  | .list (first :: others) => (first :: others).mapM pair?

mutual

def equal (same : α → α → Bool) : Nested α → Nested α → Bool
  | .item a, .item b => same a b
  | .list as, .list bs => equalMembers same as bs
  | _, _ => false

def equalMembers (same : α → α → Bool) : List (Nested α) → List (Nested α) → Bool
  | [], [] => true
  | a :: as, b :: bs => equal same a b && equalMembers same as bs
  | _, _ => false

end

end Nested

end RowFilter
