import RowFilter.Value.Basic

/-!
# Paths into lists

A key of a query string may end in brackets, each around one segment of a path into a list, as in
`price[0][]`. A key whose brackets are not of this form is a name as a whole.

A path leads through nested lists, one segment for each list. A segment that spells the index of a
member leads to that member; any other segment leads to a new member at the end. On the way, whatever is
no list gives way to an empty one.

* `BracketKey.ofText` : a key split into its name and its path;
* `put` : what a value becomes when another is put at the end of a path into it.
-/

namespace RowFilter.Query

/-! ## Brackets -/

/-- A name and a path into the list under that name. -/
structure BracketKey where
  name : String
  path : List String
deriving DecidableEq, Repr

/-- The segments of a text that consists of bracketed segments only; a segment holds no closing
bracket. `done` holds the segments before, last first, and the second argument the characters so far of
the segment now open, last first. -/
def segments? (done : List String) : Option (List Char) → List Char → Option (List String)
  | none, [] => some done.reverse
  | none, c :: rest => if c = '[' then segments? done (some []) rest else none
  | some _, [] => none
  | some segment, c :: rest =>
    if c = ']' then segments? (String.ofList segment.reverse :: done) none rest
    else segments? done (some (c :: segment)) rest

/-- A key split into its name and its path. -/
def BracketKey.ofText (key : String) : BracketKey :=
  let beforeBracket := key.toList.takeWhile (· != '[')
  match segments? [] none (key.toList.dropWhile (· != '[')) with
  | some path => ⟨String.ofList beforeBracket, path⟩
  | none => ⟨key, []⟩

/-! ## Places -/

def index? (segment : String) (members : List Value) : Option Nat :=
  (wordSpelled? segment.toList).filter fun i => decide (i < members.length)

/-- The members of a list after `fill` has been applied to the one that a segment leads to. If it leads
to none, a new member is what `fill` makes of nothing. -/
def placeAt (fill : Option Value → Value) (segment : String) (members : List Value) : List Value :=
  match index? segment members with
  | some i => members.set i (fill members[i]?)
  | none => members ++ [fill none]

/-- What a value, or nothing, becomes when `leaf` is put at the end of a path into it. -/
def put (leaf : Value) : List String → Option Value → Value
  | [], _ => leaf
  | segment :: path, some (.list members) => .list (placeAt (put leaf path) segment members)
  | segment :: path, _ => .list (placeAt (put leaf path) segment [])

end RowFilter.Query
