import RowFilter.Compiler
import RowFilter.Criteria.Inspect
import RowFilter.Json.Reader
import RowFilter.Query.Reader
import RowFilter.Proofs.Shape
import RowFilter.Proofs.Traversal
import RowFilter.Proofs.Verdict
import RowFilter.Proofs.Escaping
import RowFilter.Proofs.Sql.Numeral
import RowFilter.Proofs.Sql.Token
import RowFilter.Proofs.Sql.Quoting
import RowFilter.Proofs.Sql.Layout
import RowFilter.Proofs.Sql.Formula
import RowFilter.Proofs.Sql.Grammar
import RowFilter.Proofs.Sql.Statement
import RowFilter.Proofs.Meaning
import RowFilter.Proofs.Containment
import RowFilter.Proofs.Admission
import RowFilter.Proofs.Criteria.Entries
import RowFilter.Proofs.Criteria.Refinement
import RowFilter.Proofs.Query.Assignment
import RowFilter.Proofs.Query.Spelled
import RowFilter.Proofs.Query.Independence
import RowFilter.Proofs.Text.Percent
import RowFilter.Proofs.Query.BracketKey
import RowFilter.Proofs.Query.Leaves
import RowFilter.Proofs.Query.RoundTrip
import RowFilter.Proofs.Text.ByteOrder
import RowFilter.Proofs.Json.Members
import RowFilter.Proofs.Json.Number
import RowFilter.Proofs.Json.Overflow
import RowFilter.Proofs.Json.Lexical
import RowFilter.Proofs.Json.Grammar
import RowFilter.Proofs.Json.Verdict
import RowFilter.Proofs.Json.RoundTrip
import RowFilter.Proofs.KeyLimit
import RowFilter.Proofs.Finite
import RowFilter.Proofs.Query.Placement
import RowFilter.Proofs.Json.Finite
import RowFilter.Proofs.Request
import RowFilter.Proofs.Number.Nearest
import RowFilter.Proofs.Number.Reading
import RowFilter.Proofs.Json.Agreement
import RowFilter.Proofs.Sql.Pattern
import RowFilter.Proofs.Operands
import RowFilter.Proofs.Spelling
import RowFilter.Proofs.KeyGrammar
import RowFilter.Proofs.Refusal
import RowFilter.Proofs.Number.Coercion
import RowFilter.Proofs.Number.Written
import RowFilter.Proofs.Query.Decoding
import RowFilter.Proofs.Text.IllFormed
import RowFilter.Proofs.Text.Restart
import RowFilter.Proofs.Query.DecodedSize
import RowFilter.Proofs.Query.ResolvedPath
import RowFilter.Proofs.Sql.Delimiting
