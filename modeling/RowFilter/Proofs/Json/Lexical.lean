import Mathlib.Data.List.Chain
import RowFilter.Proofs.Json.Literal
import RowFilter.Proofs.Json.Number

/-!
# The tokens of a JSON text

* `TokenText` : how a token is written;
* `Spaced` : the texts of tokens, with blanks before, between and after them;
* `Apart` : no two numbers stand next to each other, as nothing would tell where one ends;
* `tokens?_of_spaced` : tokens that stand apart are read from every text of them;
* `spaced_of_tokens?` : and only from such a text.
-/

namespace RowFilter.Json

open Percent (Encodes)

/-! ## Texts of tokens -/

inductive TokenText : Token → List Char → Prop where
  | openBracket : TokenText .openBracket ['[']
  | closeBracket : TokenText .closeBracket [']']
  | openBrace : TokenText .openBrace ['\x7b']
  | closeBrace : TokenText .closeBrace ['\x7d']
  | comma : TokenText .comma [',']
  | colon : TokenText .colon [':']
  | nullWord : TokenText .null ['n', 'u', 'l', 'l']
  | trueWord : TokenText (.bool true) ['t', 'r', 'u', 'e']
  | falseWord : TokenText (.bool false) ['f', 'a', 'l', 's', 'e']
  | number {n : Numeral} {v : Number} {part : List Char} (written : NumeralText n part)
      (converted : number? n = some v) : TokenText (.number v) part
  | text {s : String} {body : List Char} (written : Encodes CharText s.toList body) :
      TokenText (.text s) ('"' :: (body ++ ['"']))

/-- The texts of tokens with any blanks around them. -/
inductive Spaced : List Token → List Char → Prop where
  | nil {blanks : List Char} (skipped : ∀ c ∈ blanks, isBlank c) : Spaced [] blanks
  | cons {t : Token} {ts : List Token} {blanks part rest : List Char} (skipped : ∀ c ∈ blanks, isBlank c)
      (here : TokenText t part) (others : Spaced ts rest) : Spaced (t :: ts) (blanks ++ (part ++ rest))

theorem Spaced.append {ts us : List Token} {front back : List Char} (left : Spaced ts front)
    (right : Spaced us back) : Spaced (ts ++ us) (front ++ back) := by
  induction left with
  | @nil blanks skipped =>
    cases right with
    | nil skipped' => exact .nil (List.forall_mem_append.mpr ⟨skipped, skipped'⟩)
    | cons skipped' here others =>
      rw [List.nil_append, ← List.append_assoc]
      exact .cons (List.forall_mem_append.mpr ⟨skipped, skipped'⟩) here others
  | cons skipped here _ ih =>
    rw [List.cons_append, List.append_assoc, List.append_assoc]
    exact .cons skipped here ih

def Token.isNumber : Token → Bool
  | .number _ => true
  | _ => false

/-- No two numbers stand next to each other. -/
def Apart (ts : List Token) : Prop := ts.IsChain fun t u => ¬ (t.isNumber ∧ u.isNumber)

theorem apart_cons {t : Token} {ts : List Token} :
    Apart (t :: ts) ↔ (∀ u ∈ ts.head?, ¬ (t.isNumber ∧ u.isNumber)) ∧ Apart ts := List.isChain_cons

/-! ## First characters -/

theorem isBlank_iff {c : Char} : isBlank c = true ↔ c = ' ' ∨ c = '\n' ∨ c = '\t' ∨ c = '\r' := by
  simp [isBlank, or_assoc]

theorem stops_of_isBlank {c : Char} (blank : isBlank c) (rest : List Char) : Numeral.Stops (c :: rest) := by
  rintro _ ⟨⟩
  rcases isBlank_iff.mp blank with rfl | rfl | rfl | rfl <;> decide

theorem not_isBlank_of_isDigit {c : Char} (digit : c.isDigit) : isBlank c = false := by
  rw [Bool.eq_false_iff]
  intro blank
  exact Bool.false_ne_true ((stops_of_isBlank blank [] c rfl).1.symm.trans digit)

theorem TokenText.head {t : Token} {part : List Char} (here : TokenText t part) :
    ∃ c cs, part = c :: cs ∧ isBlank c = false := by
  cases here with
  | number written =>
    obtain ⟨c, cs, rfl, lead⟩ := written.head
    refine ⟨c, cs, rfl, ?_⟩
    rcases lead with rfl | digit
    · decide
    · exact not_isBlank_of_isDigit digit
  | _ => exact ⟨_, _, rfl, by decide⟩

theorem TokenText.stops {t : Token} {part : List Char} (here : TokenText t part) (noNumber : t.isNumber = false)
    (rest : List Char) : Numeral.Stops (part ++ rest) := by
  cases here with
  | number => cases noNumber
  | _ =>
    rintro _ ⟨⟩
    decide

theorem Spaced.stops {ts : List Token} {text : List Char} (spaced : Spaced ts text)
    (noNumber : ∀ u ∈ ts.head?, u.isNumber = false) : Numeral.Stops text := by
  cases spaced with
  | nil skipped =>
    cases text with
    | nil => exact fun _ none => absurd none (Option.not_mem_none _)
    | cons c blanks => exact stops_of_isBlank (skipped c List.mem_cons_self) blanks
  | @cons t ts blanks part rest skipped here others =>
    cases blanks with
    | nil => exact here.stops (noNumber t rfl) rest
    | cons c blanks => exact stops_of_isBlank (skipped c List.mem_cons_self) _

theorem dropWhile_blanks {t : Token} {blanks part rest : List Char} (skipped : ∀ c ∈ blanks, isBlank c)
    (here : TokenText t part) : (blanks ++ (part ++ rest)).dropWhile isBlank = part ++ rest := by
  obtain ⟨c, cs, rfl, noBlank⟩ := here.head
  rw [List.dropWhile_append_of_pos skipped, List.cons_append,
    List.dropWhile_cons_of_neg (by rw [noBlank]; exact Bool.false_ne_true)]

/-! ## Texts of tokens are read -/

theorem next?_number {c : Char} {rest : List Char} (lead : c = '-' ∨ c.isDigit) :
    Token.next? (c :: rest) = (scanNumber? (c :: rest)).map fun (n, rest) => (.number n, rest) := by
  unfold Token.next?
  split
  case h_11 same =>
    obtain ⟨rfl, rfl⟩ := List.cons.inj same
    exact if_pos lead
  case h_12 same => cases same
  all_goals
    rename_i same
    obtain ⟨rfl, -⟩ := List.cons.inj same
    exact absurd lead (by decide)

/-- A token is read off the text it begins, if it is no number that what follows carries on. -/
theorem next?_append {t : Token} {part rest : List Char} (here : TokenText t part)
    (apart : t.isNumber = true → Numeral.Stops rest) : Token.next? (part ++ rest) = some (t, rest) := by
  cases here with
  | number written converted =>
    obtain ⟨c, cs, rfl, lead⟩ := written.head
    rw [List.cons_append, next?_number lead, ← List.cons_append,
      scanNumber?_append written converted (apart rfl)]
    rfl
  | text written =>
    rw [List.cons_append, List.append_assoc, List.singleton_append, Token.next?, scanText?_append written,
      List.reverse_nil, List.nil_append, String.ofList_toList]
    rfl
  | _ => rfl

theorem tokenText_of_next? {t : Token} {text rest : List Char} (next : Token.next? text = some (t, rest)) :
    ∃ part, TokenText t part ∧ text = part ++ rest := by
  unfold Token.next? at next
  split at next
  case h_7 =>
    obtain ⟨⟨s, after⟩, scanned, same⟩ := Option.map_eq_some_iff.mp next
    obtain ⟨rfl, rfl⟩ := Prod.mk.inj same
    obtain ⟨chars, body, written, rfl, rfl⟩ := encodes_of_scanText? scanned
    rw [List.reverse_nil, List.nil_append]
    refine ⟨_, .text (by rwa [String.toList_ofList]), ?_⟩
    rw [List.cons_append, List.append_assoc, List.singleton_append]
  case h_11 c after _ _ _ _ _ _ _ _ _ _ =>
    split at next
    · rename_i lead
      obtain ⟨⟨v, rest⟩, scanned, same⟩ := Option.map_eq_some_iff.mp next
      obtain ⟨rfl, rfl⟩ := Prod.mk.inj same
      have noPlus : (c :: after).head? ≠ some '+' := by
        rintro ⟨⟩
        exact absurd lead (by decide)
      obtain ⟨n, part, written, converted, split⟩ := numeralText_of_scanNumber? noPlus scanned
      exact ⟨part, .number written converted, split⟩
    · cases next
  case h_12 => cases next
  all_goals
    obtain ⟨rfl, rfl⟩ := Prod.mk.inj (Option.some.inj next)
  · exact ⟨_, .openBracket, rfl⟩
  · exact ⟨_, .closeBracket, rfl⟩
  · exact ⟨_, .openBrace, rfl⟩
  · exact ⟨_, .closeBrace, rfl⟩
  · exact ⟨_, .comma, rfl⟩
  · exact ⟨_, .colon, rfl⟩
  · exact ⟨_, .nullWord, rfl⟩
  · exact ⟨_, .trueWord, rfl⟩
  · exact ⟨_, .falseWord, rfl⟩

/-! ## Texts of all tokens -/

theorem tokensAfter?_eq (done : List Token) (text : List Char) : tokensAfter? done text =
    match text.dropWhile isBlank with
    | [] => some done.reverse
    | c :: cs => (Token.next? (c :: cs)).bind fun next => tokensAfter? (next.1 :: done) next.2 := by
  rw [tokensAfter?]
  split
  · rename_i none
    rw [none]
  · rename_i c cs first
    split
    · rename_i none
      rw [first]
      dsimp only
      rw [none]
      rfl
    · rename_i found
      dsimp only
      rw [first]
      dsimp only
      rw [found]
      rfl

theorem tokensAfter?_of_spaced {ts : List Token} {text : List Char} (spaced : Spaced ts text) (apart : Apart ts)
    (done : List Token) : tokensAfter? done text = some (done.reverse ++ ts) := by
  induction spaced generalizing done with
  | nil skipped =>
    rw [tokensAfter?_eq, List.dropWhile_eq_nil_iff.mpr skipped, List.append_nil]
  | @cons t ts blanks part rest skipped here others ih =>
    obtain ⟨first, later⟩ := apart_cons.mp apart
    have stops (number : t.isNumber = true) : Numeral.Stops rest :=
      others.stops fun u next => by simpa [number] using first u next
    obtain ⟨c, cs, split, -⟩ := here.head
    have next := next?_append here stops
    rw [tokensAfter?_eq, dropWhile_blanks skipped here]
    rw [split, List.cons_append] at next ⊢
    dsimp only
    rw [next, Option.bind_some, ih later, List.reverse_cons, List.append_assoc, List.singleton_append]

/-- Tokens that stand apart are read from every text of them. -/
theorem tokens?_of_spaced {ts : List Token} {text : List Char} (spaced : Spaced ts text) (apart : Apart ts) :
    tokens? text = some ts := tokensAfter?_of_spaced spaced apart []

theorem spaced_of_tokensAfter? {done ts : List Token} {text : List Char}
    (found : tokensAfter? done text = some ts) : ∃ later, ts = done.reverse ++ later ∧ Spaced later text := by
  fun_induction tokensAfter? done text with
  | case1 done text ended =>
    obtain rfl := Option.some.inj found
    exact ⟨[], (List.append_nil _).symm, .nil (List.dropWhile_eq_nil_iff.mp ended)⟩
  | case2 => cases found
  | case3 done text c cs first t rest next _ ih =>
    obtain ⟨later, rfl, spaced⟩ := ih found
    obtain ⟨part, here, split⟩ := tokenText_of_next? next
    refine ⟨t :: later, ?_, ?_⟩
    · rw [List.reverse_cons, List.append_assoc, List.singleton_append]
    · rw [← List.takeWhile_append_dropWhile (p := isBlank) (l := text), first, split]
      exact .cons (fun _ => List.mem_takeWhile_imp) here spaced

/-- And only from a text of them. -/
theorem spaced_of_tokens? {ts : List Token} {text : List Char} (found : tokens? text = some ts) :
    Spaced ts text := by
  obtain ⟨later, rfl, spaced⟩ := spaced_of_tokensAfter? found
  exact spaced

end RowFilter.Json
