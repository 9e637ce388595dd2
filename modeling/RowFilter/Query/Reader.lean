import RowFilter.Criteria.Basic
import RowFilter.Limits
import RowFilter.Query.Path
import RowFilter.ReadError

/-!
# Reading criteria from a query string

A query string is a sequence of pairs between ampersands, each a key, an equals sign and an argument.
Keys and arguments are percent encoded, and keys may end in brackets.

* `Query.pairs` : the raw pairs of a query string;
* `Query.decode` : one key or argument decoded;
* `Query.readPair`, `Query.read` : the pairs put into criteria one after another, up to the first
  refusal.
-/

namespace RowFilter.Query

def withoutMark : List Char → List Char
  | '?' :: rest => rest
  | text => text

def pieces (text : List Char) : List (List Char) :=
  (text.splitOn '&').filter fun piece => !piece.isEmpty

/-- A piece cut at its first equals sign. Without one, all of it is the key. -/
def cut (piece : List Char) : List Char × List Char :=
  (piece.takeWhile (· != '='), (piece.dropWhile (· != '=')).drop 1)

def pairs (query : String) : List (List Char × List Char) :=
  (pieces (withoutMark query.toList)).map cut

def decode (text : List Char) : Except ReadError String :=
  match Percent.decode? text with
  | some decoded => .ok decoded
  | none => .error .tooLong

/-- Puts one raw pair into the criteria. A pair with an empty name changes nothing. -/
def readPair (limit : Nat) (c : Criteria) (pair : List Char × List Char) :
    Except ReadError Criteria := do
  let key ← decode pair.1
  let argument ← decode pair.2
  let bracketed := BracketKey.ofText key
  if bracketed.name.isEmpty then
    return c
  else if maxNesting < bracketed.path.length then
    throw (.tooDeep bracketed.name)
  else
    let next := c.update bracketed.name (put (.item (.text argument)) bracketed.path)
    if limit < next.size then throw (.tooManyKeys limit) else return next

def read (limit : Nat) (query : String) : Except ReadError Criteria :=
  (pairs query).foldlM (readPair limit) .empty

end RowFilter.Query
