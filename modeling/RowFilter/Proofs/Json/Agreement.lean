import RowFilter.Proofs.Json.RoundTrip
import RowFilter.Proofs.Number.Coercion

/-!
# Numbers in a JSON body and in a text

* `Numeral.Modest` : the numerals with few digits that end near the point, and all integers below `2 ^ 64`;
* `exists_number?_denotes` : a JSON body gives a modest numeral its number, though it scales and rounds in two steps;
* `ofNumeral?_eq_some_iff` : a text gives it the same number, unless its written exponent is saturated;
* `read_numeral_alike` : so both readers agree up to there, and `exists_misread` : from there on they do not.
-/

namespace RowFilter

attribute [local instance (high)] instPowNat

open Percent (Encodes)

/-! ## Few digits near the point -/

namespace Numeral

/-- Integers below `2 ^ 64`, and the other numerals of which all digits together spell no more than `2 ^ 53` and
the last one stands at most twenty-two places from the point. -/
inductive Modest (n : Numeral) : Prop where
  | integer (noFraction : n.fraction = none) (noExponent : n.exponent = none) (small : digitsValue n.whole < 2 ^ (64 : Nat))
  | decimal (pointOrMark : n.fraction ≠ none ∨ n.exponent ≠ none) (small : digitsValue n.digits ≤ 2 ^ (53 : Nat))
      (written : (Json.writtenExponent n).natAbs ≤ 10 ^ (9 : Nat)) (near : -22 ≤ n.place ∧ n.place ≤ 22)

end Numeral

namespace Json

open Binary64

/-! ## Rounding twice -/

/-- The powers of ten that are doubles are used as such. -/
theorem units_powerOfTen {k : Nat} (small : k ≤ 22) : units (powerOfTen k) = 10 ^ k * 2 ^ (1074 : Nat) := by
  have bits : 5 ^ k ≤ 2 ^ (53 : Nat) := Nat.le_trans (Nat.pow_le_pow_right (by decide) small) (by decide)
  have factors : 10 ^ k = 5 ^ k * 2 ^ k := Nat.mul_pow 5 2 k
  have finite : 10 ^ k < overflow :=
    calc 10 ^ k ≤ 10 ^ (22 : Nat) := Nat.pow_le_pow_right (by decide) small
      _ < 2 ^ (128 : Nat) := by decide
      _ ≤ overflow := two_pow_le_overflow (by decide)
  rw [val_powerOfTen finite, factors]
  exact units_nearestRank bits k

/-- One more operation on doubles that hold whole numbers rounds as if nothing had been rounded before. -/
theorem scaled?_eq {magnitude : Rank} {digits : Nat} {exponent : Int}
    (whole : units magnitude = digits * 2 ^ (1074 : Nat)) (near : -22 ≤ exponent ∧ exponent ≤ 22) :
    scaled? magnitude exponent = (ofDecimal false digits exponent).rank? := by
  have power (k : Nat) : 0 < 10 ^ k := Nat.pow_pos (by decide)
  rw [scaled?, ofDecimal_eq]
  obtain ⟨i, unit⟩ : ∃ i, i = 1074 := ⟨_, rfl⟩
  split_ifs with zero past nonnegative
  · have none : digits = 0 := by
      have nothing : units magnitude = 0 := by rw [zero]; rfl
      rw [nothing, ← unit] at whole
      exact (Nat.mul_eq_zero.mp whole.symm).resolve_right (Nat.ne_of_gt (Nat.two_pow_pos i))
    rw [none, Nat.zero_mul, ofRatio_zero false (power _), rank?]
    exact congrArg some (Fin.ext zero)
  · simp only [maxPower] at past
    omega
  · rw [product_eq whole (units_powerOfTen (by omega)), Int.toNat_of_nonpos (Int.neg_nonpos_of_nonneg nonnegative),
      Nat.pow_zero]
  · rw [quotient_eq whole (units_powerOfTen (by omega)) (power _),
      Int.toNat_of_nonpos (Int.le_of_lt (Int.not_le.mp nonnegative)), Nat.pow_zero, Nat.mul_one]
  · simp only [maxPower] at *
    omega

theorem scaled?_zero (magnitude : Rank) : scaled? magnitude 0 = some magnitude := by
  obtain ⟨i, unit⟩ : ∃ i, i = 1074 := ⟨_, rfl⟩
  have one : units (powerOfTen 0) = 2 ^ (1074 : Nat) := by
    rw [units_powerOfTen (Nat.zero_le _), ← unit, Nat.pow_zero, Nat.one_mul]
  rw [scaled?]
  split_ifs with zero past nonnegative
  · rfl
  · exact absurd past (by decide)
  · rw [Int.toNat_zero, product_one one, rank?]
  · exact absurd (Int.le_refl 0) nonnegative
  · exact absurd (Int.le_refl 0) nonnegative

/-! ## The digits of a numeral -/

theorem digitsValue_nil : digitsValue [] = 0 := rfl

theorem digitsValue_le_append (before after : List Char) : digitsValue before ≤ digitsValue (before ++ after) := by
  rw [digitsValue_append]
  exact Nat.le_add_right_of_le (Nat.le_mul_of_pos_right _ (Nat.pow_pos (by decide)))

theorem gather_eq {before digits : List Char} (fits : digitsValue (before ++ digits) < wordCount) :
    gather (digitsValue before) digits = (digitsValue (before ++ digits), 0) := by
  induction digits generalizing before with
  | nil => rw [gather, List.append_nil]
  | cons c digits ih =>
    have split : before ++ c :: digits = before ++ [c] ++ digits := by simp
    have next : digitsValue (before ++ [c]) < wordCount := by
      rw [split] at fits
      exact Nat.lt_of_le_of_lt (digitsValue_le_append _ _) fits
    rw [split] at fits ⊢
    rw [gather, ← digitsValue_concat, if_pos next, ih fits]

theorem gathered_eq {n : Numeral} (fits : digitsValue n.digits < wordCount) :
    gathered n = (digitsValue n.digits, n.place) := by
  have whole : gather (digitsValue []) n.whole = (digitsValue n.whole, 0) :=
    gather_eq (Nat.lt_of_le_of_lt (digitsValue_le_append n.whole _) fits)
  have all : gather (digitsValue n.whole) (n.fraction.getD []) = (digitsValue n.digits, 0) := gather_eq fits
  rw [gathered, ← digitsValue_nil, whole]
  dsimp only
  rw [all]
  simp [Numeral.place]

/-! ## The number of a modest numeral -/

section Modest

variable {n : Numeral}

theorem numerator_lt (modest : n.Modest) : n.numerator < overflow * n.denominator := by
  have large : 2 ^ (128 : Nat) ≤ overflow * n.denominator :=
    Nat.le_trans (two_pow_le_overflow (by decide)) (Nat.le_mul_of_pos_right _ n.denominator_pos)
  refine Nat.lt_of_lt_of_le ?_ large
  rw [Numeral.numerator]
  cases modest with
  | integer noFraction noExponent small =>
    rw [Numeral.digits_of_integer noFraction, Numeral.place_of_integer noFraction noExponent, Int.toNat_zero,
      Nat.pow_zero, Nat.mul_one]
    exact Nat.lt_trans small (by decide)
  | decimal _ small _ near =>
    have power : 10 ^ n.place.toNat ≤ 10 ^ (22 : Nat) := Nat.pow_le_pow_right (by decide) (by omega)
    exact Nat.lt_of_le_of_lt (Nat.mul_le_mul small power) (by decide)

/-- The digits of a modest numeral become a double, and that is scaled to the double of its exact value. -/
theorem float?_of_modest (modest : n.Modest) {r : Rank}
    (rounded : ∀ negative, ofRatio negative n.numerator n.denominator = .finite negative r) :
    float? n = some (.finite n.negative r) := by
  have below : digitsValue n.digits < overflow * 1 ∧ digitsValue n.digits < wordCount := by
    have bits : 2 ^ (64 : Nat) ≤ overflow := two_pow_le_overflow (by decide)
    have digits : digitsValue n.digits < 2 ^ (64 : Nat) := by
      cases modest with
      | integer noFraction _ small => rwa [Numeral.digits_of_integer noFraction]
      | decimal _ small _ _ => exact Nat.lt_of_le_of_lt small (by decide)
    exact ⟨Nat.lt_of_lt_of_le digits (by omega), digits⟩
  obtain ⟨magnitude, -, word⟩ := exists_ofRatio Nat.one_pos below.1
  have rank : (ofRatio false (digitsValue n.digits) 1).rank? = some magnitude := by rw [word, rank?]
  suffices scaled : scaled? magnitude n.place = some r by
    rw [float?_eq, gathered_eq below.2, rank, Option.bind_some, scaled, Option.map_some]
  cases modest with
  | integer noFraction noExponent _ =>
    have place := Numeral.place_of_integer noFraction noExponent
    have same := rounded false
    rw [Numeral.numerator, Numeral.denominator, place, Int.neg_zero, Int.toNat_zero, Nat.pow_zero, Nat.mul_one,
      word] at same
    rw [place, scaled?_zero, (finite.inj same).2]
  | decimal _ small _ near =>
    have whole : units magnitude = digitsValue n.digits * 2 ^ (1074 : Nat) := by
      rw [rank?_ofRatio rank]
      simpa only [Nat.pow_zero, Nat.mul_one] using units_nearestRank small 0
    rw [scaled?_eq whole near, ofDecimal_eq, ← Numeral.numerator, ← Numeral.denominator, rounded, rank?]

/-- A JSON body gives a modest numeral the number of its exact value. -/
theorem exists_number?_denotes (modest : n.Modest) : ∃ v, number? n = some v ∧ n.Denotes v := by
  unfold number?
  cases integer : n.integer?.bind Number.ofInt? with
  | some v =>
    obtain ⟨i, rfl, whole⟩ := n.integer?_bind_ofInt?.mp integer
    exact ⟨.int i, rfl, .int whole⟩
  | none =>
    obtain ⟨r, nearest, rounded⟩ := exists_ofRatio n.denominator_pos (numerator_lt modest)
    refine ⟨_, by rw [float?_of_modest modest rounded, Option.map_some], .float (fun i whole => ?_) nearest⟩
    rw [n.integer?_bind_ofInt?.mpr ⟨i, rfl, whole⟩] at integer
    cases integer

end Modest

/-! ## The number of a text -/

/-- A saturated exponent falls far short of the fraction that it is to make up for. -/
theorem scale_lt {n : Numeral} (all : ∀ e ∈ n.exponent, ∀ c ∈ e.digits, c.isDigit)
    (large : 10 * exponentSaturation ≤ (writtenExponent n).natAbs) (near : -22 ≤ n.place ∧ n.place ≤ 22) :
    n.scale < -(exponentSaturation : Int) := by
  obtain ⟨read, reached, tenth, scale⟩ := Numeral.exists_saturation all large
  have place : n.place = writtenExponent n - (n.fraction.getD []).length := rfl
  simp only [exponentSaturation] at reached ⊢
  -- only an exponent that points upwards can make up for a fraction
  have up : 0 < writtenExponent n := by omega
  rw [Int.sign_eq_one_of_pos up, Int.one_mul] at scale
  omega

theorem rank_ne_zero {n : Numeral} {r : Rank} (nearest : IsNearest n.numerator n.denominator r)
    (nonzero : digitsValue n.digits ≠ 0) (near : -22 ≤ n.place ∧ n.place ≤ 22) : r.val ≠ 0 := by
  refine nearest.ne_zero n.denominator_pos ?_
  have power : 0 < 10 ^ n.place.toNat := Nat.pow_pos (by decide)
  obtain ⟨i, unit⟩ : ∃ i, i = 1074 := ⟨_, rfl⟩
  rw [← unit]
  calc n.denominator ≤ 10 ^ (22 : Nat) := Nat.pow_le_pow_right (by decide) (by omega)
    _ ≤ 2 ^ (128 : Nat) := by decide
    _ ≤ 2 ^ i := Nat.pow_le_pow_right (by decide) (by omega)
    _ ≤ n.numerator * 2 ^ i := Nat.le_mul_of_pos_left _ (Nat.mul_pos (Nat.pos_of_ne_zero nonzero) power)

/-- Where the written exponent is saturated, the text spells zero with the sign that is written. -/
theorem ofNumeral?_of_saturated {n : Numeral} (modest : n.Modest) (all : ∀ e ∈ n.exponent, ∀ c ∈ e.digits, c.isDigit)
    (large : 10 * exponentSaturation ≤ (writtenExponent n).natAbs) :
    Number.ofNumeral? n = some (.float (.finite n.negative ⟨0, by decide⟩)) := by
  have marked : n.exponent ≠ none := by
    intro noExponent
    rw [writtenExponent, noExponent] at large
    exact absurd large (by decide)
  rw [Numeral.ofNumeral?_eq_some_iff_denotes, Numeral.denotes_float_iff, Numeral.roundsTo_iff]
  refine ⟨fun i integer => ?_, ?_, rfl⟩
  · rw [Numeral.integer?_saturated] at integer
    exact marked (Numeral.bare_of_integer? integer).2
  · cases modest with
    | integer _ noExponent _ => exact absurd noExponent marked
    | decimal _ small _ near =>
      have low := scale_lt all large near
      simp only [exponentSaturation] at low
      exact Numeral.ofRatio_of_place_le (n := n.saturated) (k := 16) (Nat.lt_of_le_of_lt small (by decide))
        (by rw [Numeral.place_saturated]; omega)

/-- The text of a modest numeral spells the number of its exact value exactly if all digits are zero or the written
exponent is not saturated. -/
theorem ofNumeral?_eq_some_iff {n : Numeral} (modest : n.Modest) {v : Number} (denotes : n.Denotes v)
    (all : ∀ e ∈ n.exponent, ∀ c ∈ e.digits, c.isDigit) :
    Number.ofNumeral? n = some v ↔
      digitsValue n.digits = 0 ∨ (writtenExponent n).natAbs < 10 * exponentSaturation := by
  by_cases kept : digitsValue n.digits = 0 ∨ (writtenExponent n).natAbs < 10 * exponentSaturation
  · rw [Numeral.ofNumeral?_eq_some_iff_denotes]
    exact iff_of_true ((Numeral.denotes_saturated_iff (Numeral.ofRatio_saturated kept)).mpr denotes) kept
  · -- the text is read to zero, and the exact value lies too far from zero to be rounded to it
    refine iff_of_false (fun read => ?_) kept
    obtain ⟨nonzero, large⟩ := not_or.mp kept
    rw [ofNumeral?_of_saturated modest all (Nat.not_lt.mp large)] at read
    obtain rfl := Option.some.inj read
    obtain ⟨-, r, nearest, same⟩ := Numeral.denotes_float_iff.mp denotes
    obtain ⟨-, zero⟩ := finite.inj same
    cases modest with
    | integer _ noExponent _ =>
      rw [writtenExponent, noExponent] at large
      exact large (by decide)
    | decimal _ _ _ near => exact rank_ne_zero nearest nonzero near (congrArg Fin.val zero).symm

/-! ## Both readers -/

def memberText (keyText numeral : List Char) : String :=
  String.ofList ('\x7b' :: '"' :: (keyText ++ '"' :: ':' :: (numeral ++ ['\x7d'])))

theorem memberText_writtenAs {key : String} {keyText numeral : List Char} {v : Number}
    (encodes : Encodes CharText key.toList keyText) (here : TokenText (.number v) numeral) :
    (Document.object (documents [(key, .item (.number v))])).WrittenAs (memberText keyText numeral) := by
  have derives : Derives (.value (.object [(key, .number v)]))
      [.openBrace, .text key, .colon, .number v, .closeBrace] := .object (.lastMember (.number v))
  have blank : ∀ c ∈ ([] : List Char), isBlank c := nofun
  have spaced := Spaced.cons blank .openBrace (Spaced.cons blank (.text encodes) (Spaced.cons blank .colon
    (Spaced.cons blank here (Spaced.cons blank .closeBrace (.nil blank)))))
  rw [documents, List.map_singleton, document_item, scalarDocument]
  refine ⟨_, ?_, derives⟩
  rw [memberText, String.toList_ofList]
  simpa using spaced

theorem read_memberText {key : String} {keyText numeral : List Char} {v : Number} {limit : Nat}
    (encodes : Encodes CharText key.toList keyText) (here : TokenText (.number v) numeral) (room : 1 ≤ limit) :
    ∃ c, read limit (memberText keyText numeral) = .ok c ∧ c.toList = [(key, .item (.number v))] := by
  have shallow : ∀ member ∈ [(key, Nested.item (Scalar.number v))], member.2.depth ≤ maxNesting := by
    simp [Nested.depth, Nested.fold]
  obtain ⟨entries, done, through, lasts⟩ := exists_read shallow (memberText_writtenAs encodes here) room
  obtain ⟨entry, one⟩ := List.length_eq_one_iff.mp (size_of_mapM_entry through)
  have member : (key, Nested.item (Scalar.number v)) ∈ (Criteria.ofList entries).toList :=
    (lasts key _).mpr (by simp [last?_singleton])
  refine ⟨_, done, ?_⟩
  change (Criteria.ofList entries).toList = [entry] at one
  rw [one] at member ⊢
  rw [List.mem_singleton.mp member]

theorem tokenText_number_iff {n : Numeral} {text : List Char} (written : NumeralText n text) {v w : Number}
    (converted : number? n = some v) : TokenText (.number w) text ↔ w = v := by
  constructor
  · intro here
    cases here with
    | number written' converted' =>
      have same := Numeral.ofText?_eq_some_iff.mpr written'.written
      rw [Numeral.ofText?_eq_some_iff.mpr written.written] at same
      obtain rfl := Option.some.inj same
      exact Option.some.inj (converted'.symm.trans converted)
  · rintro rfl
    exact .number written converted

/-- A body is read to its members, whichever of its tokens is told apart from the others. -/
theorem read_of_token {before after : List Token} {t : Token} {front part back : List Char}
    (ahead : Spaced before front) (here : TokenText t part) (behind : Spaced after back)
    {members : List (String × Value)} (derives : Derives (.value (.object (documents members))) (before ++ t :: after))
    (shallow : ∀ member ∈ members, member.2.depth ≤ maxNesting) {text : String}
    (spelled : text.toList = front ++ (part ++ back)) {limit : Nat} (room : distinctKeys members ≤ limit) :
    ∃ c, read limit text = .ok c ∧ ∀ key value, (key, value) ∈ c.toList ↔ last? members key = some value := by
  have written : (Document.object (documents members)).WrittenAs text := by
    refine ⟨before ++ t :: after, ?_, derives⟩
    rw [spelled]
    exact ahead.append (.cons (List.forall_mem_nil _) here behind)
  obtain ⟨entries, done, -, lasts⟩ := exists_read shallow written room
  exact ⟨_, done, lasts⟩

/-- A number in a JSON body and the same text as a numeric argument. In a body the text of a modest numeral is the number
of the exact value and no other, wherever it stands between the tokens of the members. As an argument it is just that
number exactly if all digits are zero or the written exponent is not saturated, and else zero with the sign that is
written. -/
theorem read_numeral_alike {n : Numeral} {t : String} (written : NumeralText n t.toList) (modest : n.Modest) :
    ∃ v, n.Denotes v ∧
      (∀ w, TokenText (.number w) t.toList ↔ w = v) ∧
      (∀ (before after : List Token) (front back : List Char) (members : List (String × Value)) (text : String)
        (limit : Nat), Spaced before front → Spaced after back →
        Derives (.value (.object (documents members))) (before ++ .number v :: after) →
        (∀ member ∈ members, member.2.depth ≤ maxNesting) → text.toList = front ++ (t.toList ++ back) →
        distinctKeys members ≤ limit →
        ∃ c, read limit text = .ok c ∧ ∀ key value, (key, value) ∈ c.toList ↔ last? members key = some value) ∧
      (Value.numeric (.item (.text t)) = .item (.number v) ↔
        digitsValue n.digits = 0 ∨ (writtenExponent n).natAbs < 10 * exponentSaturation) ∧
      (10 * exponentSaturation ≤ (writtenExponent n).natAbs →
        Value.numeric (.item (.text t)) = .item (.number (.float (.finite n.negative ⟨0, by decide⟩)))) := by
  obtain ⟨v, converted, denotes⟩ := exists_number?_denotes modest
  have all := written.written.isDigit_exponent
  refine ⟨v, denotes, fun w => tokenText_number_iff written converted, ?_, ?_, fun large => ?_⟩
  · intro before after front back members text limit ahead behind derives shallow spelled room
    exact read_of_token ahead (.number written converted) behind derives shallow spelled room
  · rw [← ofNumeral?_eq_some_iff modest denotes all, numeric_text_eq_iff,
      numberSpelled?_of_writtenAs written.written]
  · rw [numeric_text_eq_iff, numberSpelled?_of_writtenAs written.written]
    exact ofNumeral?_of_saturated modest all large

/-- A sign, a point and an exponent, in a list between blanks. -/
theorem read_numeral_alike_signed : ∃ v, Numeral.Denotes ⟨true, ['2'], some ['5', '0'], some ⟨false, ['1']⟩⟩ v ∧
    (∃ c, read 1 "\x7b\"a\":[1, -2.50e1 ]\x7d" = .ok c ∧
      ("a", .list [.item (.number (.int 1)), .item (.number v)]) ∈ c.toList) ∧
    Value.numeric (.item (.text "-2.50e1")) = .item (.number v) := by
  have written : Numeral.WrittenAs ⟨true, ['2'], some ['5', '0'], some ⟨false, ['1']⟩⟩ "-2.50e1".toList :=
    .parts .minus (List.all_eq_true.mp rfl) (.point (List.all_eq_true.mp rfl))
      (.mark (.inl rfl) .none (by decide) (List.all_eq_true.mp rfl)) (.inl (by decide))
  obtain ⟨v, denotes, -, body, same, -⟩ := read_numeral_alike ⟨written, by decide, .inr (by decide), by decide⟩
    (.decimal (.inl (by decide)) (by decide) (by decide) (by decide))
  refine ⟨v, denotes, ?_, same.mpr (.inr (by decide))⟩
  have ahead : Spaced [.openBrace, .text "a", .colon, .openBracket, .number (.int 1), .comma]
      "\x7b\"a\":[1, ".toList := spaced_of_tokens? (by cbv)
  have behind : Spaced [.closeBracket, .closeBrace] " ]\x7d".toList := spaced_of_tokens? (by cbv)
  have derives : Derives (.value (.object (documents [("a", .list [.item (.number (.int 1)), .item (.number v)])])))
      ([.openBrace, .text "a", .colon, .openBracket, .number (.int 1), .comma] ++
        .number v :: [.closeBracket, .closeBrace]) := by
    rw [documents, List.map_singleton, document_list, List.map_cons, List.map_singleton, document_item, document_item]
    exact .object (.lastMember (.array (.item (.number _) (.lastItem (.number v)))))
  obtain ⟨c, done, lasts⟩ := body _ _ _ _ _ "\x7b\"a\":[1, -2.50e1 ]\x7d" 1 ahead behind derives
    (by simp [maxNesting, Nested.depth, Nested.fold]) (by decide) (Nat.le_refl 1)
  exact ⟨c, done, (lasts _ _).mpr rfl⟩

/-! ### A long fraction -/

theorem encodes_letter : Encodes CharText "a".toList ['a'] :=
  Encodes.cons (CharText.raw (by decide) (by decide) (by decide)) .nil

/-- One tenth, with `k` zeros behind the point and the exponent `k` to make up for them. -/
def tenth (k : Nat) : Numeral :=
  ⟨false, ['0'], some (List.replicate k '0' ++ ['1']), some ⟨false, decimalDigits k⟩⟩

def tenthText (k : Nat) : List Char := '0' :: '.' :: (List.replicate k '0' ++ '1' :: 'e' :: decimalDigits k)

theorem numeralText_tenth (k : Nat) : NumeralText (tenth k) (tenthText k) := by
  have digits : ∀ c ∈ List.replicate k '0' ++ ['1'], c.isDigit :=
    List.forall_mem_append.mpr ⟨fun _ => Sql.isDigit_of_mem_zeros, List.forall_mem_singleton.mpr (by decide)⟩
  have whole : ∀ c ∈ ['0'], c.isDigit := List.forall_mem_singleton.mpr (by decide)
  have parts := Numeral.WrittenAs.parts .none whole (.point digits)
    (.mark (.inl rfl) .none (Sql.decimalDigits_ne_nil k) fun _ => Sql.isDigit_of_mem_decimalDigits) (.inl (by decide))
  refine ⟨?_, nofun, .inl rfl, by simp [tenth]⟩
  simpa [tenth, tenthText] using parts

theorem digitsValue_tenth (k : Nat) : digitsValue (tenth k).digits = 1 := by
  have digits : (tenth k).digits = List.replicate (k + 1) '0' ++ ['1'] := rfl
  rw [digits, digitsValue_zeros_append]
  rfl

theorem writtenExponent_tenth (k : Nat) : writtenExponent (tenth k) = k :=
  congrArg Int.ofNat (digitsValue_decimalDigits k)

theorem modest_tenth {k : Nat} (small : k ≤ 10 ^ (9 : Nat)) : (tenth k).Modest := by
  have place : (tenth k).place = -1 := by
    rw [Numeral.place, writtenExponent_tenth]
    simp [tenth]
  refine .decimal (.inl (Option.some_ne_none _)) ?_ ?_ ?_
  · rw [digitsValue_tenth]
    exact Nat.one_le_two_pow
  · rwa [writtenExponent_tenth]
  · rw [place]
    decide

/-- With enough zeros the body still gives one tenth, and the text something else. -/
theorem exists_misread {k : Nat} (small : k ≤ 10 ^ (9 : Nat)) (large : 10 * exponentSaturation ≤ k) :
    ∃ v, (tenth k).Denotes v ∧
      (∃ c, read 1 (memberText ['a'] (tenthText k)) = .ok c ∧ c.toList = [("a", .item (.number v))]) ∧
      Value.numeric (.item (.text (String.ofList (tenthText k)))) ≠ .item (.number v) := by
  have written := numeralText_tenth k
  obtain ⟨v, converted, denotes⟩ := exists_number?_denotes (modest_tenth small)
  refine ⟨v, denotes, ?_, ?_⟩
  · exact read_memberText encodes_letter (.number written converted) (Nat.le_refl 1)
  · rw [ne_eq, numeric_text_eq_iff, numberSpelled?_of_writtenAs (by rw [String.toList_ofList]; exact written.written),
      ofNumeral?_eq_some_iff (modest_tenth small) denotes written.written.isDigit_exponent, digitsValue_tenth,
      writtenExponent_tenth]
    omega

/-- Ten times the bound on exponents is the first number of zeros at which they part. -/
theorem tenth_misread : ∃ v, (tenth 655360).Modest ∧ NumeralText (tenth 655360) (tenthText 655360) ∧
    (∃ c, read 1 (memberText ['a'] (tenthText 655360)) = .ok c ∧ c.toList = [("a", .item (.number v))]) ∧
    Value.numeric (.item (.text (String.ofList (tenthText 655360)))) ≠ .item (.number v) := by
  have small : 655360 ≤ 10 ^ (9 : Nat) := by decide
  obtain ⟨v, -, body, other⟩ := exists_misread small (Nat.le_refl _)
  exact ⟨v, modest_tenth small, numeralText_tenth _, body, other⟩

end Json

end RowFilter
