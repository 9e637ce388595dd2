import RowFilter.Json.Token

/-!
# From tokens to a document

Tokens are read one by one, and what has been read but not completed is kept as a list of open
containers, the innermost first, so that documents may nest to any depth.

* `Document` : a parsed text, with the members of an object in the order written, repeated keys included;
* `Frame` : an open container with what it holds so far;
* `State` : what may come next;
* `State.step` : one token;
* `Document.ofText?` : a whole text.
-/

namespace RowFilter.Json

inductive Document where
  | null
  | bool (value : Bool)
  | number (number : Number)
  | text (text : String)
  | array (items : List Document)
  | object (members : List (String × Document))

/-- A container that waits for the value now being read; what it holds already stands last first. -/
inductive Frame where
  | array (done : List Document)
  | object (done : List (String × Document)) (key : String)

/-- What may come next. -/
inductive State where
  | value (frames : List Frame)
  /-- The first item of an array, or its end. -/
  | firstItem (frames : List Frame)
  /-- The first key of an object, or its end. -/
  | firstKey (frames : List Frame)
  /-- A key of an object that has members already. -/
  | key (done : List (String × Document)) (frames : List Frame)
  | colon (done : List (String × Document)) (key : String) (frames : List Frame)
  /-- A comma or the end of the innermost container; or, outside of all, the end of the text. -/
  | completed (value : Document) (frames : List Frame)

namespace State

def begin? (frames : List Frame) : Token → Option State
  | .openBracket => some (.firstItem frames)
  | .openBrace => some (.firstKey frames)
  | .null => some (.completed .null frames)
  | .bool b => some (.completed (.bool b) frames)
  | .number n => some (.completed (.number n) frames)
  | .text s => some (.completed (.text s) frames)
  | _ => none

def step? : State → Token → Option State
  | .value fs, t => begin? fs t
  | .firstItem fs, .closeBracket => some (.completed (.array []) fs)
  | .firstItem fs, t => begin? (.array [] :: fs) t
  | .firstKey fs, .closeBrace => some (.completed (.object []) fs)
  | .firstKey fs, .text k => some (.colon [] k fs)
  | .key done fs, .text k => some (.colon done k fs)
  | .colon done k fs, .colon => some (.value (.object done k :: fs))
  | .completed d (.array done :: fs), .comma => some (.value (.array (d :: done) :: fs))
  | .completed d (.array done :: fs), .closeBracket =>
    some (.completed (.array (d :: done).reverse) fs)
  | .completed d (.object done k :: fs), .comma => some (.key ((k, d) :: done) fs)
  | .completed d (.object done k :: fs), .closeBrace =>
    some (.completed (.object ((k, d) :: done).reverse) fs)
  | _, _ => none

def run? : State → List Token → Option State
  | s, [] => some s
  | s, t :: ts =>
    match s.step? t with
    | some next => run? next ts
    | none => none

/-- The document read, if one is complete and nothing is open. -/
def document? : State → Option Document
  | .completed d [] => some d
  | _ => none

end State

def Document.ofTokens? (tokens : List Token) : Option Document :=
  (State.run? (.value []) tokens).bind State.document?

def Document.ofText? (text : String) : Option Document :=
  (tokens? text.toList).bind Document.ofTokens?

end RowFilter.Json
