import RowFilter.Criteria.Basic
import RowFilter.Json.Parser
import RowFilter.Limits
import RowFilter.ReadError
import Std.Data.TreeMap.Basic

/-!
# Reading criteria from a JSON body

The body is an object of arguments by key. The keys come in ascending order of their code points, and
a key written several times has its last argument.

* `Json.argument` : the argument that a document stands for;
* `Json.criteria` : the criteria that a parsed body stands for;
* `Json.read`, `Json.readBytes` : the same from a text and from bytes.
-/

namespace RowFilter.Json

/-- Why a document is no argument. -/
inductive Refusal where
  | unsupported
  | tooDeep
deriving DecidableEq, Repr

def Refusal.under (key : String) : Refusal → ReadError
  | unsupported => .unsupportedValue key
  | tooDeep => .tooDeep key

/-- The argument that a document stands for, where `room` lists may still open. Null stands for the empty
text. Of several faults the leftmost counts, and a list is refused before its items are read. -/
def argument : Nat → Document → Except Refusal Value
  | _, .null => .ok (.item (.text ""))
  | _, .text s => .ok (.item (.text s))
  | _, .number n => .ok (.item (.number n))
  | 0, .array _ => .error .tooDeep
  | room + 1, .array items => do return .list (← items.mapM (argument room))
  | _, .bool _ => .error .unsupported
  | _, .object _ => .error .unsupported

/-- Members sorted by key, each key once with the last of its documents. -/
def sortedMembers (members : List (String × Document)) : List (String × Document) :=
  let sorted : Std.TreeMap String Document :=
    members.foldl (fun sorted member => sorted.insert member.1 member.2) ∅
  sorted.toList

def entry (member : String × Document) : Except ReadError (String × Value) :=
  match argument maxNesting member.2 with
  | .ok value => .ok (member.1, value)
  | .error refusal => .error (refusal.under member.1)

/-- The criteria that a parsed body stands for. The keys are counted before any argument is read. -/
def criteria (limit : Nat) : Document → Except ReadError Criteria
  | .object members =>
    let sorted := sortedMembers members
    if limit < sorted.length then .error (.tooManyKeys limit)
    else do return Criteria.ofList (← sorted.mapM entry)
  | _ => .error .expectedObject

def read (limit : Nat) (text : String) : Except ReadError Criteria :=
  match Document.ofText? text with
  | some document => criteria limit document
  | none => .error .invalidJson

def readBytes (limit : Nat) (bytes : ByteArray) : Except ReadError Criteria :=
  match String.fromUTF8? bytes with
  | some text => read limit text
  | none => .error .invalidJson

end RowFilter.Json
