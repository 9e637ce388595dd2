import RowFilter.Criteria.Basic

/-!
# Criteria as a developer looks at them

`Criteria.inspected` writes all entries in order between braces, each key in quotes, each argument with
its kind.
-/

namespace RowFilter

namespace Text

/-- A control character: those below the space, the delete character, and those after it up to
U+009F. -/
def isControl (c : Char) : Bool := c.toNat < 0x20 || (0x7F ≤ c.toNat && c.toNat ≤ 0x9F)

def quotedChar (c : Char) : List Char :=
  match c with
  | '"' => ['\\', '"']
  | '\\' => ['\\', '\\']
  | '\n' => ['\\', 'n']
  | '\r' => ['\\', 'r']
  | '\t' => ['\\', 't']
  | '\x00' => ['\\', '0']
  | c =>
    if isControl c then ['\\', 'u', '\x7b'] ++ Nat.toDigits 16 c.toNat ++ ['\x7d'] else [c]

def quoted (text : String) : String :=
  String.ofList ('"' :: (text.toList.flatMap quotedChar ++ ['"']))

end Text

def Scalar.inspected : Scalar → String
  | .text s => "String(" ++ Text.quoted s ++ ")"
  | .number (.int i) => "Int(" ++ (Number.int i).text ++ ")"
  | .number (.float x) => "Float(" ++ x.inspected ++ ")"

def Value.inspected (v : Value) : String :=
  v.fold Scalar.inspected fun members => "Array([" ++ ", ".intercalate members ++ "])"

/-- Criteria between braces, in order. -/
def Criteria.inspected (c : Criteria) : String :=
  "\x7b" ++ ", ".intercalate (c.toList.map fun (k, v) => Text.quoted k ++ ": " ++ Value.inspected v)
    ++ "\x7d"

end RowFilter
