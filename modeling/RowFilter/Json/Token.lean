import RowFilter.Json.Number
import RowFilter.Text.Percent

/-!
# The tokens of JSON texts

* `Token.next?` : the token at the start of a text that is not blank there, and what follows it;
* `Json.tokens?` : the tokens of a whole text, blanks between them skipped.

A text literal is unescaped while it is read. Characters below U+0020 may not stand in it, the escapes
are those of the standard, and escaped surrogates stand in pairs, a high one before a low one.
-/

namespace RowFilter.Json

/-- A token with its meaning. -/
inductive Token where
  | openBracket
  | closeBracket
  | openBrace
  | closeBrace
  | comma
  | colon
  | null
  | bool (value : Bool)
  | number (number : Number)
  | text (text : String)
deriving DecidableEq

/-- Space, line feed, tab or carriage return. -/
def isBlank (c : Char) : Bool := c == ' ' || c == '\n' || c == '\t' || c == '\r'

def unescape? : Char → Option Char
  | '"' => some '"'
  | '\\' => some '\\'
  | '/' => some '/'
  | 'b' => some '\x08'
  | 'f' => some '\x0c'
  | 'n' => some '\n'
  | 'r' => some '\r'
  | 't' => some '\t'
  | _ => none

/-- The unit that four hexadecimal digits spell. -/
def unit? (a b c d : Char) : Option Nat := do
  let high := (← Text.hexValue? a) * 16 + (← Text.hexValue? b)
  let low := (← Text.hexValue? c) * 16 + (← Text.hexValue? d)
  return high * 256 + low

def isHighSurrogate (unit : Nat) : Bool := 0xD800 ≤ unit && unit < 0xDC00

def isLowSurrogate (unit : Nat) : Bool := 0xDC00 ≤ unit && unit < 0xE000

def paired (high low : Nat) : Char :=
  Char.ofNat (0x10000 + (high - 0xD800) * 0x400 + (low - 0xDC00))

/-- The text up to the closing quote, and what follows the quote. `done` holds the characters so far,
last first. -/
def scanText? (done : List Char) : List Char → Option (String × List Char)
  | '\\' :: 'u' :: a :: b :: c :: d :: rest =>
    match unit? a b c d with
    | none => none
    | some unit =>
      if isHighSurrogate unit then
        match rest with
        | '\\' :: 'u' :: e :: f :: g :: h :: rest =>
          match unit? e f g h with
          | none => none
          | some low =>
            if isLowSurrogate low then scanText? (paired unit low :: done) rest else none
        | _ => none
      else if isLowSurrogate unit then none
      else scanText? (Char.ofNat unit :: done) rest
  | '\\' :: c :: rest =>
    match unescape? c with
    | none => none
    | some c => scanText? (c :: done) rest
  | c :: rest =>
    if c = '"' then some (String.ofList done.reverse, rest)
    else if c.toNat < 0x20 then none
    else scanText? (c :: done) rest
  | [] => none

/-- Whether a numeral is written as JSON wants it: digits before the point, no leading zero among
several, and digits after a point. -/
def isStrict (n : Numeral) : Bool :=
  (n.whole == ['0'] || (!n.whole.isEmpty && n.whole.head? != some '0')) && n.fraction != some []

def scanNumber? (text : List Char) : Option (Number × List Char) :=
  match Numeral.scan text with
  | none => none
  | some (numeral, rest) =>
    if isStrict numeral then (number? numeral).map fun n => (n, rest) else none

def Token.next? : List Char → Option (Token × List Char)
  | '[' :: rest => some (.openBracket, rest)
  | ']' :: rest => some (.closeBracket, rest)
  | '\x7b' :: rest => some (.openBrace, rest)
  | '\x7d' :: rest => some (.closeBrace, rest)
  | ',' :: rest => some (.comma, rest)
  | ':' :: rest => some (.colon, rest)
  | '"' :: rest => (scanText? [] rest).map fun (s, rest) => (.text s, rest)
  | 'n' :: 'u' :: 'l' :: 'l' :: rest => some (.null, rest)
  | 't' :: 'r' :: 'u' :: 'e' :: rest => some (.bool true, rest)
  | 'f' :: 'a' :: 'l' :: 's' :: 'e' :: rest => some (.bool false, rest)
  | c :: rest =>
    if c = '-' ∨ c.isDigit then
      (scanNumber? (c :: rest)).map fun (n, rest) => (.number n, rest)
    else none
  | [] => none

theorem length_lt_of_scanText? {done cs rest : List Char} {s : String}
    (h : scanText? done cs = some (s, rest)) : rest.length < cs.length := by
  fun_induction scanText? done cs <;> simp_all only [List.length_cons, reduceCtorEq] <;> grind

theorem length_lt_of_scanNumber? {cs rest : List Char} {n : Number}
    (h : scanNumber? cs = some (n, rest)) : rest.length < cs.length := by
  unfold scanNumber? at h
  split at h
  · simp at h
  · rename_i numeral after scanned
    split at h
    · rename_i strict
      have bound := Numeral.length_add_whole_le_of_scan scanned
      have same : after = rest := by
        obtain ⟨_, _, found⟩ := Option.map_eq_some_iff.mp h
        exact (Prod.mk.inj found).2
      have some_digit : 0 < numeral.whole.length := by
        cases whole : numeral.whole with
        | nil => simp [isStrict, whole] at strict
        | cons => simp
      subst same
      omega
    · simp at h

theorem Token.length_lt_of_next? {cs rest : List Char} {t : Token}
    (h : Token.next? cs = some (t, rest)) : rest.length < cs.length := by
  unfold Token.next? at h
  split at h <;> try grind
  · obtain ⟨⟨s, after⟩, scanned, found⟩ := Option.map_eq_some_iff.mp h
    have := length_lt_of_scanText? scanned
    have := (Prod.mk.inj found).2
    grind
  · split at h
    · obtain ⟨⟨n, after⟩, scanned, found⟩ := Option.map_eq_some_iff.mp h
      have := length_lt_of_scanNumber? scanned
      have := (Prod.mk.inj found).2
      grind
    · simp at h

/-- The tokens of a text, after those in `done`, which stand last first. -/
def tokensAfter? (done : List Token) (text : List Char) : Option (List Token) :=
  match start : text.dropWhile isBlank with
  | [] => some done.reverse
  | c :: cs =>
    match next : Token.next? (c :: cs) with
    | none => none
    | some (t, rest) =>
      have : rest.length < text.length := by
        have shorter := Token.length_lt_of_next? next
        have kept := (List.dropWhile_sublist isBlank (l := text)).length_le
        rw [start] at kept
        omega
      tokensAfter? (t :: done) rest
termination_by text.length

def tokens? (text : List Char) : Option (List Token) := tokensAfter? [] text

end RowFilter.Json
