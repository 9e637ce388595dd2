/-!
# Decoding bytes as UTF-8, ill-formed parts included

`Utf8.decode` reads any bytes. A well-formed sequence gives its character; a *maximal subpart* of an
ill-formed one, which is the longest start of a well-formed sequence found there or else a single byte,
gives one replacement character.

The reader keeps the bits gathered so far, the count of bytes that the sequence still needs, and the
range in which the next one must lie. The range is narrower than that of all continuation bytes only
after the lead bytes of which some continuations would encode too small a number, a surrogate, or a
number past the last code point.

* `Transducer` : a machine that reads symbols one by one, keeps a state between them, and writes as it
  goes; `Transducer.run` collects what it writes in one pass;
* `Utf8.decoder`, `Utf8.decode` : the machine for bytes, and the text that it writes.
-/

namespace RowFilter

/-! ## Machines -/

/-- A machine that reads symbols of type `α` and writes symbols of type `β`. -/
structure Transducer (σ α β : Type) where
  start : σ
  /-- The next state after one symbol, and what is written for it. -/
  step : σ → α → σ × List β
  /-- What is written when the input ends. -/
  finish : σ → List β

namespace Transducer

variable {σ α β : Type}

/-- One symbol, with the output so far kept last first. -/
def advance (t : Transducer σ α β) (sofar : σ × List β) (x : α) : σ × List β :=
  let moved := t.step sofar.1 x
  (moved.1, moved.2.reverse ++ sofar.2)

def run (t : Transducer σ α β) (input : List α) : List β :=
  let ended := input.foldl t.advance (t.start, [])
  ((t.finish ended.1).reverse ++ ended.2).reverse

end Transducer

/-! ## Bytes -/

namespace Utf8

def replacement : Char := '\uFFFD'

/-- A sequence that has begun: its bits so far, how many bytes must follow, and the bounds of the next. -/
structure Pending where
  code : Nat
  missing : Nat
  low : Nat
  high : Nat
deriving DecidableEq, Repr

/-- A byte where a sequence may begin. -/
def lead (b : Nat) : Option Pending × List Char :=
  if b < 0x80 then (none, [Char.ofNat b])
  else if b < 0xC2 then (none, [replacement])
  else if b < 0xE0 then (some ⟨b - 0xC0, 1, 0x80, 0xBF⟩, [])
  else if b = 0xE0 then (some ⟨b - 0xE0, 2, 0xA0, 0xBF⟩, [])
  else if b = 0xED then (some ⟨b - 0xE0, 2, 0x80, 0x9F⟩, [])
  else if b < 0xF0 then (some ⟨b - 0xE0, 2, 0x80, 0xBF⟩, [])
  else if b = 0xF0 then (some ⟨b - 0xF0, 3, 0x90, 0xBF⟩, [])
  else if b < 0xF4 then (some ⟨b - 0xF0, 3, 0x80, 0xBF⟩, [])
  else if b = 0xF4 then (some ⟨b - 0xF0, 3, 0x80, 0x8F⟩, [])
  else (none, [replacement])

/-- A byte after a begun sequence: it continues the sequence, or it cuts the sequence short and is
itself read as a lead. -/
def continued (p : Pending) (b : Nat) : Option Pending × List Char :=
  if p.low ≤ b ∧ b ≤ p.high then
    let code := p.code * 64 + (b - 0x80)
    if p.missing = 1 then (none, [Char.ofNat code])
    else (some ⟨code, p.missing - 1, 0x80, 0xBF⟩, [])
  else
    ((lead b).1, replacement :: (lead b).2)

def decoder : Transducer (Option Pending) UInt8 Char where
  start := none
  step
    | none, b => lead b.toNat
    | some p, b => continued p b.toNat
  finish
    | none => []
    | some _ => [replacement]

/-- The text that bytes spell, each ill-formed part replaced. -/
def decode (bytes : List UInt8) : String := String.ofList (decoder.run bytes)

end Utf8

end RowFilter
