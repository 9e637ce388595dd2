import RowFilter.Value.Basic
import Std.Data.HashMap.Basic
import Std.Data.HashMap.AdditionalOperations

/-!
# Filter criteria

`Criteria` holds the keys of a filter with their arguments, in the order in which the keys first
arrived. A key that arrives again keeps its place and takes the new argument.

The entries stand in an array, and beside it a map gives each key its position, so that no operation
but `remove` walks the entries. `toList` is the view that tells all: the entries in order.

* `Criteria.get?`, `Criteria.update`, `Criteria.insert`, `Criteria.remove` : one key;
* `Criteria.exchange`, `Criteria.take` : `insert` and `remove` with the argument that was there;
* `Criteria.insertMany`, `Criteria.ofList` : many keys, one after another;
* `Criteria.WellFormed` : keys are distinct, and the map knows the position of each.
-/

namespace RowFilter

/-- Filter keys with their arguments, in order of arrival. -/
structure Criteria where
  entries : Array (String × Value)
  positions : Std.HashMap String Nat

namespace Criteria

def empty : Criteria := ⟨#[], ∅⟩

instance : Inhabited Criteria := ⟨empty⟩

def size (c : Criteria) : Nat := c.entries.size

def isEmpty (c : Criteria) : Bool := c.entries.isEmpty

def toList (c : Criteria) : List (String × Value) := c.entries.toList

def keys (c : Criteria) : List String := c.toList.map Prod.fst

def get? (c : Criteria) (key : String) : Option Value :=
  (c.positions[key]?).bind fun i => (c.entries[i]?).map Prod.snd

/-- Gives a key the argument that `f` makes of its present one, or of none. A new key goes last. -/
def update (c : Criteria) (key : String) (f : Option Value → Value) : Criteria :=
  match c.positions[key]? with
  | some i => { c with entries := c.entries.modify i fun entry => (entry.1, f (some entry.2)) }
  | none => ⟨c.entries.push (key, f none), c.positions.insert key c.entries.size⟩

def insert (c : Criteria) (key : String) (value : Value) : Criteria :=
  c.update key fun _ => value

/-- Takes a key out; the later entries move up. -/
def remove (c : Criteria) (key : String) : Criteria :=
  match c.positions[key]? with
  | some i =>
    ⟨c.entries.eraseIdxIfInBounds i,
      (c.positions.erase key).map fun _ j => if i < j then j - 1 else j⟩
  | none => c

/-- Gives a key an argument, and tells which one it had. -/
def exchange (c : Criteria) (key : String) (value : Value) : Option Value × Criteria :=
  (c.get? key, c.insert key value)

/-- Takes a key out, and tells which argument it had. -/
def take (c : Criteria) (key : String) : Option Value × Criteria :=
  (c.get? key, c.remove key)

def insertMany (c : Criteria) (pairs : List (String × Value)) : Criteria :=
  pairs.foldl (fun c pair => c.insert pair.1 pair.2) c

/-- The criteria that pairs give, inserted from first to last. -/
def ofList (pairs : List (String × Value)) : Criteria := empty.insertMany pairs

/-- Same keys and equal arguments, in the same order. -/
def equal (c d : Criteria) : Bool :=
  c.size == d.size &&
    (c.toList.zip d.toList).all fun ((k, v), (l, w)) => k == l && Value.equal v w

/-- The keys are distinct, and the map gives exactly the position of each. -/
def WellFormed (c : Criteria) : Prop :=
  c.keys.Nodup ∧ ∀ (key : String) (i : Nat),
    c.positions[key]? = some i ↔ (c.entries[i]?).map Prod.fst = some key

end Criteria

end RowFilter
