import RowFilter.Text.Percent

/-!
# Why criteria cannot be read

Each cause of failure in reading a query string or a JSON body, and its wording.
-/

namespace RowFilter

inductive ReadError where
  /-- The body is no JSON text, or no UTF-8. -/
  | invalidJson
  | expectedObject
  /-- The argument of this key holds a boolean or an object. -/
  | unsupportedValue (key : String)
  | tooLong
  | tooDeep (key : String)
  | tooManyKeys (limit : Nat)
deriving DecidableEq, Repr

namespace ReadError

def message : ReadError → String
  | invalidJson => "Invalid JSON syntax or encoding"
  | expectedObject => "Expected JSON object"
  | unsupportedValue key => "Unsupported value for filter key '" ++ key ++ "'"
  | tooLong =>
    "url decoded output exceeds maximum length (" ++ toString (Percent.maxBytes / 1024) ++ "KB limit)"
  | tooDeep key => "Value for filter key '" ++ key ++ "' is nested too deeply"
  | tooManyKeys limit => "Filter source has more than " ++ toString limit ++ " keys"

end ReadError

end RowFilter
