import Mathlib.Algebra.GroupWithZero.Nat
import RowFilter.Proofs.Text.Utf8

/-!
# Any bytes as a row of parts

Each character of a decoded text was read from its own bytes, or else it is the replacement character and stands for an
ill-formed part of one to three bytes: the longest beginning of a character, or one byte with which no character begins.
The replacement character has three bytes, so a text may have more bytes than it was decoded from.

* `Utf8.IllFormed`, `Utf8.Parted` : the parts of any bytes, with no reader in view; `Utf8.Parted.unique` : they are
  determined by the bytes;
* `Utf8.Begun` : a sequence that has begun, by the code points that may come of it;
* `Utf8.leads_lead`, `Utf8.Begun.encoded_append` : how a sequence begins, and how it goes on;
* `Utf8.readUpTo_step`, `Utf8.exists_parted` : the reader finds the parts, one byte after another;
* `Utf8.decode_of_parted` : so a decoded text has one character for each part;
* `Utf8.size_of_parted` : it has as many bytes as were decoded and the surplus of the replacements, and
  `Utf8.size_decode_le` : at most three times as many.
-/

namespace RowFilter

namespace Utf8

/-! ## Parts -/

/-- A character that was read from its bytes, or bytes in place of which the replacement character stands. -/
inductive Part where
  | wellFormed (c : Char)
  | illFormed (bytes : List UInt8) (nonempty : 0 < bytes.length) (short : bytes.length ≤ 3)

namespace Part

def bytes : Part → List UInt8
  | wellFormed c => String.utf8EncodeChar c
  | illFormed bytes _ _ => bytes

def char : Part → Char
  | wellFormed c => c
  | illFormed _ _ _ => replacement

def surplus : Part → Nat
  | wellFormed _ => 0
  | illFormed bytes _ _ => 3 - bytes.length

end Part

/-- Bytes with which the bytes of some character begin. -/
def IsInitial (bytes : List UInt8) : Prop := ∃ c, bytes <+: String.utf8EncodeChar c

/-- Bytes in place of which one replacement character stands, with `rest` behind them. -/
inductive IllFormed : List UInt8 → List UInt8 → Prop where
  /-- A character begins with them but has more bytes, and with the next byte no character goes on. -/
  | brokenOff {c : Char} {taken more rest : List UInt8} (begins : String.utf8EncodeChar c = taken ++ more)
      (nonempty : taken ≠ []) (proper : more ≠ []) (off : ∀ b, rest.head? = some b → ¬ IsInitial (taken ++ [b])) :
      IllFormed taken rest
  | alone {b : UInt8} {rest : List UInt8} (nothing : ¬ IsInitial [b]) : IllFormed [b] rest

theorem IllFormed.length_pos {taken rest : List UInt8} (h : IllFormed taken rest) : 0 < taken.length := by
  cases h with
  | brokenOff _ nonempty => exact List.length_pos_iff.mpr nonempty
  | alone => exact Nat.one_pos

theorem IllFormed.length_le {taken rest : List UInt8} (h : IllFormed taken rest) : taken.length ≤ 3 := by
  cases h with
  | @brokenOff c _ _ _ begins _ proper =>
    have size := congrArg List.length begins
    have least := List.length_pos_iff.mpr proper
    have most := c.utf8Size_le_four
    rw [String.length_utf8EncodeChar, List.length_append] at size
    omega
  | alone => exact Nat.le_add_left 1 2

def IllFormed.part {taken rest : List UInt8} (h : IllFormed taken rest) : Part :=
  .illFormed taken h.length_pos h.length_le

/-- Bytes divided into their parts. -/
inductive Parted : List UInt8 → List Part → Prop where
  | nil : Parted [] []
  | wellFormed (c : Char) {rest : List UInt8} {parts : List Part} (others : Parted rest parts) :
      Parted (String.utf8EncodeChar c ++ rest) (.wellFormed c :: parts)
  | illFormed {taken rest : List UInt8} {parts : List Part} (broken : IllFormed taken rest)
      (others : Parted rest parts) : Parted (taken ++ rest) (broken.part :: parts)

/-! ## One way to divide bytes -/

theorem IsInitial.of_shorter {bytes bytes' : List UInt8} (h : IsInitial bytes') (shorter : bytes <+: bytes') :
    IsInitial bytes := by
  obtain ⟨c, begins⟩ := h
  exact ⟨c, shorter.trans begins⟩

/-- No character's bytes begin with those of another. -/
theorem eq_of_encodeChar_begins {c c' : Char} (h : String.utf8EncodeChar c <+: String.utf8EncodeChar c') : c = c' := by
  obtain ⟨more, whole⟩ := h
  have first := output_encodeChar c more
  have second := output_encodeChar c' []
  rw [List.append_nil, ← whole, first] at second
  exact List.head_eq_of_cons_eq second

namespace IllFormed

variable {taken taken' rest rest' : List UInt8}

theorem isInitial (h : IllFormed taken rest) (two : 2 ≤ taken.length) : IsInitial taken := by
  cases h with
  | brokenOff begins => exact ⟨_, _, begins.symm⟩
  | alone => exact absurd two (by simp)

theorem not_isInitial_concat (h : IllFormed taken rest) {b : UInt8} (next : rest.head? = some b) :
    ¬ IsInitial (taken ++ [b]) := by
  cases h with
  | brokenOff _ _ _ off => exact off b next
  | alone nothing => exact fun initial => nothing (initial.of_shorter (List.prefix_append _ _))

/-- No character has all its bytes in the part. -/
theorem not_encodeChar_within (h : IllFormed taken rest) (c : Char) : ¬ String.utf8EncodeChar c <+: taken := by
  intro inside
  cases h with
  | @brokenOff c' _ more _ begins _ proper _ =>
    obtain rfl := eq_of_encodeChar_begins (inside.trans ⟨more, begins.symm⟩)
    have size := congrArg List.length begins
    have least := List.length_pos_iff.mpr proper
    have most := inside.length_le
    rw [List.length_append] at size
    omega
  | @alone b _ nothing =>
    have least := c.utf8Size_pos
    have size : [b].length ≤ (String.utf8EncodeChar c).length := by rwa [String.length_utf8EncodeChar]
    exact nothing ⟨c, (inside.eq_of_length_le size).symm ▸ List.prefix_rfl⟩

theorem not_encodeChar_at (h : IllFormed taken rest) (c : Char) :
    ¬ String.utf8EncodeChar c <+: taken ++ rest := by
  intro here
  rcases List.prefix_or_prefix_of_prefix here (List.prefix_append taken rest) with inside | ⟨following, whole⟩
  · exact h.not_encodeChar_within c inside
  · cases following with
    | nil =>
      rw [List.append_nil] at whole
      exact h.not_encodeChar_within c (whole ▸ List.prefix_rfl)
    | cons b following =>
      rw [← whole, List.prefix_append_right_inj] at here
      obtain ⟨behind, rfl⟩ := here
      exact h.not_isInitial_concat rfl ⟨c, following, by rw [← whole, List.append_assoc, List.singleton_append]⟩

/-- Of two ill-formed parts at the front of the same bytes, neither is the longer one. -/
theorem prefix_of_append_eq (h : IllFormed taken rest) (h' : IllFormed taken' rest')
    (same : taken ++ rest = taken' ++ rest') : taken' <+: taken := by
  have front : taken <+: taken' ++ rest' := same ▸ List.prefix_append taken rest
  rcases List.prefix_or_prefix_of_prefix front (List.prefix_append taken' rest') with ⟨more, rfl⟩ | shorter
  · cases more with
    | nil => simp
    | cons b more =>
      rw [List.append_assoc, List.append_cancel_left_eq] at same
      subst same
      have least := h.length_pos
      have initial := h'.isInitial (by rw [List.length_append, List.length_cons]; omega)
      exact absurd (initial.of_shorter ⟨more, by simp⟩) (h.not_isInitial_concat rfl)
  · exact shorter

theorem eq_of_append_eq (h : IllFormed taken rest) (h' : IllFormed taken' rest')
    (same : taken ++ rest = taken' ++ rest') : taken = taken' ∧ rest = rest' := by
  have shorter := h.prefix_of_append_eq h' same
  have longer := h'.prefix_of_append_eq h same.symm
  obtain rfl := longer.eq_of_length_le shorter.length_le
  exact ⟨rfl, List.append_cancel_left same⟩

end IllFormed

/-- The parts are determined by the bytes. -/
theorem Parted.unique {bytes : List UInt8} {parts parts' : List Part} (h : Parted bytes parts)
    (h' : Parted bytes parts') : parts = parts' := by
  induction h generalizing parts' with
  | nil =>
    generalize none : [] = bytes at h'
    cases h' with
    | nil => rfl
    | wellFormed c => exact absurd (List.append_eq_nil_iff.mp none.symm).1 String.utf8EncodeChar_ne_nil
    | illFormed broken =>
      exact absurd (List.append_eq_nil_iff.mp none.symm).1 (List.length_pos_iff.mp broken.length_pos)
  | @wellFormed c rest parts _ ih =>
    generalize same : String.utf8EncodeChar c ++ rest = bytes at h'
    cases h' with
    | nil => exact absurd (List.append_eq_nil_iff.mp same).1 String.utf8EncodeChar_ne_nil
    | @wellFormed c' rest' _ others =>
      obtain rfl : c = c' := by
        have front : String.utf8EncodeChar c <+: String.utf8EncodeChar c' ++ rest' := ⟨rest, same⟩
        rcases List.prefix_or_prefix_of_prefix front (List.prefix_append _ _) with shorter | longer
        · exact eq_of_encodeChar_begins shorter
        · exact (eq_of_encodeChar_begins longer).symm
      rw [ih (List.append_cancel_left same ▸ others)]
    | illFormed broken => exact absurd ⟨rest, same⟩ (broken.not_encodeChar_at c)
  | @illFormed taken rest parts broken _ ih =>
    generalize same : taken ++ rest = bytes at h'
    cases h' with
    | nil => exact absurd (List.append_eq_nil_iff.mp same).1 (List.length_pos_iff.mp broken.length_pos)
    | wellFormed c => exact absurd ⟨_, same.symm⟩ (broken.not_encodeChar_at c)
    | illFormed broken' others =>
      obtain ⟨rfl, rfl⟩ := broken.eq_of_append_eq broken' same
      rw [ih others]

/-! ## Code points and their bytes -/

/-- The last `n` bytes of a code point. -/
def continuation (code : Nat) : Nat → List UInt8
  | 0 => []
  | n + 1 => UInt8.ofNat (0x80 + code / 64 ^ n % 64) :: continuation code n

section Encoding

variable {code : Nat}

theorem encodeChar_ofNat_one (ascii : code < 0x80) :
    String.utf8EncodeChar (Char.ofNat code) = [UInt8.ofNat code] := by
  have itself : (Char.ofNat code).val.toNat = code := toNat_ofNat (.inl (by omega))
  simp only [String.utf8EncodeChar, itself]
  rw [if_pos (by omega)]

theorem encodeChar_ofNat_two (above : 0x80 ≤ code) (below : code < 0x800) :
    String.utf8EncodeChar (Char.ofNat code) = UInt8.ofNat (0xC0 + code / 64) :: continuation code 1 := by
  have itself : (Char.ofNat code).val.toNat = code := toNat_ofNat (.inl (by omega))
  have lead : code / 64 % 32 + 192 = 0xC0 + code / 64 := by omega
  simp only [String.utf8EncodeChar, continuation, itself]
  rw [if_neg (by omega), if_pos (by omega), lead, Nat.pow_zero, Nat.div_one, Nat.add_comm 128]

theorem encodeChar_ofNat_three (above : 0x800 ≤ code) (below : code < 0x10000)
    (noSurrogate : code < 0xD800 ∨ 0xDFFF < code) :
    String.utf8EncodeChar (Char.ofNat code) = UInt8.ofNat (0xE0 + code / 64 ^ 2) :: continuation code 2 := by
  have itself : (Char.ofNat code).val.toNat = code := toNat_ofNat (by unfold Nat.isValidChar; omega)
  have lead : code / 4096 % 16 + 224 = 0xE0 + code / 64 ^ 2 := by omega
  simp only [String.utf8EncodeChar, continuation, itself]
  rw [if_neg (by omega), if_neg (by omega), if_pos (by omega), lead, Nat.pow_zero, Nat.div_one, Nat.pow_one,
    Nat.add_comm 128, Nat.add_comm 128]

theorem encodeChar_ofNat_four (above : 0x10000 ≤ code) (below : code < 0x110000) :
    String.utf8EncodeChar (Char.ofNat code) = UInt8.ofNat (0xF0 + code / 64 ^ 3) :: continuation code 3 := by
  have itself : (Char.ofNat code).val.toNat = code := toNat_ofNat (by unfold Nat.isValidChar; omega)
  have lead : code / 262144 % 8 + 240 = 0xF0 + code / 64 ^ 3 := by omega
  have second : code / 4096 % 64 + 128 = 128 + code / 64 ^ 2 % 64 := by omega
  simp only [String.utf8EncodeChar, continuation, itself]
  rw [if_neg (by omega), if_neg (by omega), if_neg (by omega), lead, second, Nat.pow_zero, Nat.div_one,
    Nat.pow_one, Nat.add_comm 128 (code / 64 % 64), Nat.add_comm 128 (code % 64)]

end Encoding

section Bytes

variable {c : Char} {b d : UInt8} {bytes : List UInt8}

theorem first_byte (encoded : String.utf8EncodeChar c = b :: bytes) :
    b.toNat < 0x80 ∨ 0xC2 ≤ b.toNat ∧ b.toNat ≤ 0xF4 := by
  have valid : c.val.toNat < 0xD800 ∨ 0xDFFF < c.val.toNat ∧ c.val.toNat < 0x110000 := c.valid
  unfold String.utf8EncodeChar at encoded
  generalize c.val.toNat = v at valid encoded
  dsimp only at encoded
  split_ifs at encoded <;> obtain rfl := List.head_eq_of_cons_eq encoded <;> rw [UInt8.toNat_ofNat'] <;> omega

/-- After some first bytes the range of the second one is narrower. -/
theorem second_byte (encoded : String.utf8EncodeChar c = b :: d :: bytes) :
    (b.toNat = 0xE0 → 0xA0 ≤ d.toNat) ∧ (b.toNat = 0xED → d.toNat ≤ 0x9F) ∧
    (b.toNat = 0xF0 → 0x90 ≤ d.toNat) ∧ (b.toNat = 0xF4 → d.toNat ≤ 0x8F) := by
  have valid : c.val.toNat < 0xD800 ∨ 0xDFFF < c.val.toNat ∧ c.val.toNat < 0x110000 := c.valid
  unfold String.utf8EncodeChar at encoded
  generalize c.val.toNat = v at valid encoded
  dsimp only at encoded
  split_ifs at encoded
  · cases encoded
  all_goals
    obtain ⟨rfl, rfl, -⟩ := by simpa only [List.cons.injEq] using encoded
    rw [UInt8.toNat_ofNat', UInt8.toNat_ofNat']
    omega

theorem mem_tail_encodeChar (inside : d ∈ (String.utf8EncodeChar c).tail) : 0x80 ≤ d.toNat ∧ d.toNat ≤ 0xBF := by
  unfold String.utf8EncodeChar at inside
  generalize c.val.toNat = v at inside
  dsimp only at inside
  split_ifs at inside
  · cases inside
  all_goals
    simp only [List.tail_cons, List.mem_cons, List.not_mem_nil, or_false] at inside
    rcases inside with rfl | rfl | rfl <;> rw [UInt8.toNat_ofNat'] <;> omega

end Bytes

/-- Behind the first byte all bytes of a character are in one range. -/
theorem IsInitial.continues {taken : List UInt8} {b : UInt8} (nonempty : taken ≠ []) (h : IsInitial (taken ++ [b])) :
    0x80 ≤ b.toNat ∧ b.toNat ≤ 0xBF := by
  obtain ⟨c, more, encoded⟩ := h
  obtain ⟨first, taken, rfl⟩ := List.exists_cons_of_ne_nil nonempty
  apply mem_tail_encodeChar (c := c)
  rw [← encoded]
  simp

theorem IsInitial.exists_encodeChar {b d : UInt8} (h : IsInitial [b, d]) :
    ∃ c bytes, String.utf8EncodeChar c = b :: d :: bytes := by
  obtain ⟨c, bytes, encoded⟩ := h
  exact ⟨c, bytes, encoded.symm⟩

/-! ## Sequences that have begun -/

/-- What has been read when a sequence has begun. Each code point with the bits so far, the next of them in the given
range, is encoded by the bytes so far and the missing ones, and no character goes on with a byte out of the range. -/
structure Begun (p : Pending) (taken : List UInt8) : Prop where
  range : 0x80 ≤ p.low ∧ p.low ≤ p.high ∧ p.high ≤ 0xBF
  nonempty : taken ≠ []
  missing : 0 < p.missing
  encoded : ∀ code, code / 64 ^ p.missing = p.code →
    p.low ≤ 0x80 + code / 64 ^ (p.missing - 1) % 64 → 0x80 + code / 64 ^ (p.missing - 1) % 64 ≤ p.high →
    String.utf8EncodeChar (Char.ofNat code) = taken ++ continuation code p.missing
  next : ∀ b, IsInitial (taken ++ [b]) → p.low ≤ b.toNat ∧ b.toNat ≤ p.high

namespace Begun

variable {p : Pending} {taken : List UInt8}

theorem exists_more (begun : Begun p taken) : ∃ c more, String.utf8EncodeChar c = taken ++ more ∧ more ≠ [] := by
  obtain ⟨range, -, missing, encoded, -⟩ := begun
  obtain ⟨m, more⟩ : ∃ m, p.missing = m + 1 := ⟨p.missing - 1, by omega⟩
  rw [more, Nat.add_sub_cancel] at encoded
  have bits : (p.code * 64 + (p.low - 0x80)) * 64 ^ m / 64 ^ m = p.code * 64 + (p.low - 0x80) :=
    Nat.mul_div_cancel _ (Nat.pow_pos (by decide))
  refine ⟨_, _, encoded ((p.code * 64 + (p.low - 0x80)) * 64 ^ m) ?_ ?_ ?_, List.cons_ne_nil _ _⟩
  · rw [Nat.pow_succ, ← Nat.div_div_eq_div_mul, bits]
    omega
  · rw [bits]
    omega
  · rw [bits]
    omega

theorem illFormed (begun : Begun p taken) {rest : List UInt8}
    (off : ∀ b, rest.head? = some b → ¬ (p.low ≤ b.toNat ∧ b.toNat ≤ p.high)) : IllFormed taken rest := by
  obtain ⟨c, more, encoded, proper⟩ := begun.exists_more
  exact .brokenOff encoded begun.nonempty proper
    fun b here initial => off b here (begun.next b initial)

/-- A byte in the range takes the sequence on, whether it is its last or not. -/
theorem encoded_append (begun : Begun p taken) {b : UInt8} (low : p.low ≤ b.toNat) (high : b.toNat ≤ p.high)
    {code : Nat} (bits : code / 64 ^ (p.missing - 1) = p.code * 64 + (b.toNat - 0x80)) :
    String.utf8EncodeChar (Char.ofNat code) = (taken ++ [b]) ++ continuation code (p.missing - 1) := by
  obtain ⟨range, -, missing, encoded, -⟩ := begun
  obtain ⟨m, more⟩ : ∃ m, p.missing = m + 1 := ⟨p.missing - 1, by omega⟩
  rw [more, Nat.add_sub_cancel] at encoded bits
  have here : 0x80 + code / 64 ^ m % 64 = b.toNat := by omega
  rw [encoded code (by rw [Nat.pow_succ, ← Nat.div_div_eq_div_mul, bits]; omega) (by omega) (by omega),
    more, Nat.add_sub_cancel, continuation, here, UInt8.ofNat_toNat, List.append_assoc, List.singleton_append]

theorem append (begun : Begun p taken) {b : UInt8} (low : p.low ≤ b.toNat) (high : b.toNat ≤ p.high)
    (more : p.missing ≠ 1) : Begun ⟨p.code * 64 + (b.toNat - 0x80), p.missing - 1, 0x80, 0xBF⟩ (taken ++ [b]) where
  range := by simp
  nonempty := by simp
  missing := by
    have missing := begun.missing
    dsimp only
    omega
  encoded code bits _ _ := begun.encoded_append low high bits
  next d initial := initial.continues (by simp)

end Begun

theorem begun_singleton {b : UInt8} {code missing low high : Nat} (range : 0x80 ≤ low ∧ low ≤ high ∧ high ≤ 0xBF)
    (more : 0 < missing)
    (encoded : ∀ whole, whole / 64 ^ missing = code → low ≤ 0x80 + whole / 64 ^ (missing - 1) % 64 →
      0x80 + whole / 64 ^ (missing - 1) % 64 ≤ high →
      String.utf8EncodeChar (Char.ofNat whole) = b :: continuation whole missing)
    (next : ∀ d, IsInitial [b, d] → low ≤ d.toNat ∧ d.toNat ≤ high) : Begun ⟨code, missing, low, high⟩ [b] where
  range := range
  nonempty := List.cons_ne_nil b []
  missing := more
  encoded := encoded
  next := next

/-- What a byte where a sequence may begin is read as: a character, an ill-formed part by itself, or the first byte of
a sequence. -/
inductive Leads (b : UInt8) : Option Pending × List Char → Prop where
  | wellFormed {c : Char} (encoded : String.utf8EncodeChar c = [b]) : Leads b (none, [c])
  | illFormed (nothing : ¬ IsInitial [b]) : Leads b (none, [replacement])
  | begins {p : Pending} (begun : Begun p [b]) : Leads b (some p, [])

theorem ofNat_eq_byte (b : UInt8) {n : Nat} (same : n = b.toNat) : UInt8.ofNat n = b := by
  rw [same, UInt8.ofNat_toNat]

section Leads

variable {b : UInt8} {low high : Nat}

theorem Leads.out (outside : 0x80 ≤ b.toNat ∧ b.toNat < 0xC2 ∨ 0xF4 < b.toNat) : Leads b (none, [replacement]) := by
  refine .illFormed fun ⟨c, bytes, encoded⟩ => ?_
  have first := first_byte encoded.symm
  omega

theorem Leads.two (start : 0xC2 ≤ b.toNat) (upTo : b.toNat < 0xE0) :
    Leads b (some ⟨b.toNat - 0xC0, 1, 0x80, 0xBF⟩, []) := by
  refine .begins (begun_singleton (by decide) (by decide) ?_ ?_)
  · intro code bits _ _
    rw [encodeChar_ofNat_two (by omega) (by omega), ofNat_eq_byte b (by omega)]
  · exact fun d initial => IsInitial.continues (List.cons_ne_nil b []) initial

/-- After E0 and ED the range excludes the numbers of shorter sequences and the surrogates. -/
theorem Leads.three (start : 0xE0 ≤ b.toNat) (upTo : b.toNat < 0xF0)
    (lowest : b.toNat = 0xE0 ∧ low = 0xA0 ∨ b.toNat ≠ 0xE0 ∧ low = 0x80)
    (highest : b.toNat = 0xED ∧ high = 0x9F ∨ b.toNat ≠ 0xED ∧ high = 0xBF) :
    Leads b (some ⟨b.toNat - 0xE0, 2, low, high⟩, []) := by
  refine .begins (begun_singleton (by omega) (by decide) ?_ ?_)
  · intro code bits above below
    rw [encodeChar_ofNat_three (by omega) (by omega) (by omega), ofNat_eq_byte b (by omega)]
  · intro d initial
    have range := IsInitial.continues (List.cons_ne_nil b []) initial
    obtain ⟨c, bytes, encoded⟩ := initial.exists_encodeChar
    have second := second_byte encoded
    omega

/-- After F0 and F4 the range excludes the numbers of shorter sequences and those past the last code point. -/
theorem Leads.four (start : 0xF0 ≤ b.toNat) (upTo : b.toNat ≤ 0xF4)
    (lowest : b.toNat = 0xF0 ∧ low = 0x90 ∨ b.toNat ≠ 0xF0 ∧ low = 0x80)
    (highest : b.toNat = 0xF4 ∧ high = 0x8F ∨ b.toNat ≠ 0xF4 ∧ high = 0xBF) :
    Leads b (some ⟨b.toNat - 0xF0, 3, low, high⟩, []) := by
  refine .begins (begun_singleton (by omega) (by decide) ?_ ?_)
  · intro code bits above below
    rw [encodeChar_ofNat_four (by omega) (by omega), ofNat_eq_byte b (by omega)]
  · intro d initial
    have range := IsInitial.continues (List.cons_ne_nil b []) initial
    obtain ⟨c, bytes, encoded⟩ := initial.exists_encodeChar
    have second := second_byte encoded
    omega

end Leads

theorem leads_lead (b : UInt8) : Leads b (lead b.toNat) := by
  unfold lead
  refine iteInduction (fun _ => .wellFormed ?_) fun _ => ?_
  · rw [encodeChar_ofNat_one (by omega), ofNat_eq_byte b rfl]
  refine iteInduction (fun _ => .out (by omega)) fun _ => ?_
  refine iteInduction (fun _ => .two (by omega) (by omega)) fun _ => ?_
  refine iteInduction (fun _ => .three (by omega) (by omega) (by omega) (by omega)) fun _ => ?_
  refine iteInduction (fun _ => .three (by omega) (by omega) (by omega) (by omega)) fun _ => ?_
  refine iteInduction (fun _ => .three (by omega) (by omega) (by omega) (by omega)) fun _ => ?_
  refine iteInduction (fun _ => .four (by omega) (by omega) (by omega) (by omega)) fun _ => ?_
  refine iteInduction (fun _ => .four (by omega) (by omega) (by omega) (by omega)) fun _ => ?_
  exact iteInduction (fun _ => .four (by omega) (by omega) (by omega) (by omega)) fun _ => .out (by omega)

/-! ## Reading part by part -/

/-- What has been read and is not yet written in some state. -/
inductive Unwritten : Option Pending → List UInt8 → Prop where
  | none : Unwritten none []
  | some {p : Pending} {taken : List UInt8} (begun : Begun p taken) : Unwritten (some p) taken

/-- Bytes read part by part, up to those that are left: their parts come before those of the rest. -/
def ReadUpTo (bytes : List UInt8) (text : List Char) (left : List UInt8) : Prop :=
  ∃ parts : List Part, text = parts.map Part.char ∧
    ∀ rest others, Parted (left ++ rest) others → Parted (bytes ++ rest) (parts ++ others)

theorem readUpTo_nothing (bytes : List UInt8) : ReadUpTo bytes [] bytes := ⟨[], rfl, fun _ _ others => others⟩

theorem readUpTo_wellFormed {c : Char} {bytes : List UInt8} (encoded : String.utf8EncodeChar c = bytes) :
    ReadUpTo bytes [c] [] := by
  refine ⟨[.wellFormed c], rfl, fun rest others parted => ?_⟩
  rw [← encoded]
  exact .wellFormed c parted

theorem readUpTo_lead (b : UInt8) :
    ∃ left, ReadUpTo [b] (lead b.toNat).2 left ∧ Unwritten (lead b.toNat).1 left := by
  have leads := leads_lead b
  generalize lead b.toNat = read at leads
  cases leads with
  | wellFormed encoded => exact ⟨[], readUpTo_wellFormed encoded, .none⟩
  | illFormed nothing =>
    have broken (rest : List UInt8) : IllFormed [b] rest := .alone nothing
    exact ⟨[], ⟨[(broken []).part], rfl, fun rest _ parted => .illFormed (broken rest) parted⟩, .none⟩
  | begins begun => exact ⟨[b], readUpTo_nothing [b], .some begun⟩

theorem Begun.readUpTo_continued {p : Pending} {taken : List UInt8} (begun : Begun p taken) (b : UInt8) :
    ∃ left, ReadUpTo (taken ++ [b]) (continued p b.toNat).2 left ∧ Unwritten (continued p b.toNat).1 left := by
  unfold continued
  split_ifs with inside last
  · have bits : (p.code * 64 + (b.toNat - 0x80)) / 64 ^ (p.missing - 1) = p.code * 64 + (b.toNat - 0x80) := by
      rw [last, Nat.sub_self, Nat.pow_zero, Nat.div_one]
    have encoded := begun.encoded_append inside.1 inside.2 bits
    rw [last, continuation, List.append_nil] at encoded
    exact ⟨[], readUpTo_wellFormed encoded, .none⟩
  · exact ⟨taken ++ [b], readUpTo_nothing _, .some (begun.append inside.1 inside.2 last)⟩
  · have broken (rest : List UInt8) : IllFormed taken ([b] ++ rest) :=
      begun.illFormed fun d here => Option.some.inj here ▸ inside
    obtain ⟨left, ⟨parts, text, parted⟩, unwritten⟩ := readUpTo_lead b
    refine ⟨left, ⟨(broken []).part :: parts, ?_, fun rest others h => ?_⟩, unwritten⟩
    · rw [text]
      rfl
    · rw [List.append_assoc]
      exact .illFormed (broken rest) (parted rest others h)

theorem readUpTo_step {s : Option Pending} {taken : List UInt8} (unwritten : Unwritten s taken) (b : UInt8) :
    ∃ left, ReadUpTo (taken ++ [b]) (decoder.step s b).2 left ∧ Unwritten (decoder.step s b).1 left := by
  cases unwritten with
  | none => exact readUpTo_lead b
  | some begun => exact begun.readUpTo_continued b

theorem exists_parted_output {s : Option Pending} {taken : List UInt8} (unwritten : Unwritten s taken)
    (bytes : List UInt8) :
    ∃ parts, Parted (taken ++ bytes) parts ∧ decoder.output s bytes = parts.map Part.char := by
  induction bytes generalizing s taken with
  | nil =>
    cases unwritten with
    | none => exact ⟨[], .nil, rfl⟩
    | some begun =>
      have broken : IllFormed taken [] := begun.illFormed fun b here => nomatch here
      exact ⟨[broken.part], .illFormed broken .nil, rfl⟩
  | cons b bytes ih =>
    obtain ⟨left, ⟨first, written, parted⟩, next⟩ := readUpTo_step unwritten b
    obtain ⟨others, rest, output⟩ := ih next
    refine ⟨first ++ others, ?_, ?_⟩
    · rw [List.append_cons]
      exact parted bytes others rest
    · rw [Transducer.output, written, output, List.map_append]

theorem exists_parted (bytes : List UInt8) :
    ∃ parts, Parted bytes parts ∧ decode bytes = String.ofList (parts.map Part.char) := by
  obtain ⟨parts, parted, output⟩ := exists_parted_output .none bytes
  refine ⟨parts, parted, ?_⟩
  rw [decode, Transducer.run_eq_output]
  exact congrArg String.ofList output

/-- A text has the character of each part of the bytes that it is decoded from. -/
theorem decode_of_parted {bytes : List UInt8} {parts : List Part} (parted : Parted bytes parts) :
    decode bytes = String.ofList (parts.map Part.char) := by
  obtain ⟨found, parted', decoded⟩ := exists_parted bytes
  rw [decoded, parted.unique parted']

/-! ## Sizes -/

theorem Parted.bytes_eq {bytes : List UInt8} {parts : List Part} (parted : Parted bytes parts) :
    bytes = parts.flatMap Part.bytes := by
  induction parted with
  | nil => rfl
  | wellFormed _ _ ih | illFormed _ _ ih =>
    rw [List.flatMap_cons, ← ih]
    rfl

theorem Part.size_char (part : Part) : part.char.utf8Size = part.bytes.length + part.surplus := by
  cases part with
  | wellFormed c => exact (String.length_utf8EncodeChar c).symm
  | illFormed bytes nonempty short =>
    show 3 = bytes.length + (3 - bytes.length)
    omega

theorem size_parts (parts : List Part) :
    (String.ofList (parts.map Part.char)).utf8ByteSize =
      (parts.flatMap Part.bytes).length + (parts.map Part.surplus).sum := by
  induction parts with
  | nil => rfl
  | cons part parts ih =>
    rw [List.map_cons, size_ofList_cons, ih, part.size_char, List.flatMap_cons, List.length_append, List.map_cons,
      List.sum_cons]
    omega

theorem size_of_parted {bytes : List UInt8} {parts : List Part} (parted : Parted bytes parts) :
    (decode bytes).utf8ByteSize = bytes.length + (parts.map Part.surplus).sum := by
  rw [decode_of_parted parted, size_parts, ← parted.bytes_eq]

theorem Part.surplus_le (part : Part) : part.surplus ≤ 2 * part.bytes.length := by
  cases part with
  | wellFormed c => exact Nat.zero_le _
  | illFormed bytes nonempty short =>
    show 3 - bytes.length ≤ 2 * bytes.length
    omega

theorem sum_surplus_le (parts : List Part) :
    (parts.map Part.surplus).sum ≤ 2 * (parts.flatMap Part.bytes).length := by
  induction parts with
  | nil => exact Nat.le_refl 0
  | cons part parts ih =>
    have here := part.surplus_le
    simp only [List.map_cons, List.sum_cons, List.flatMap_cons, List.length_append]
    omega

theorem size_decode_le (bytes : List UInt8) : (decode bytes).utf8ByteSize ≤ 3 * bytes.length := by
  obtain ⟨parts, parted, -⟩ := exists_parted bytes
  have surplus := sum_surplus_le parts
  rw [← parted.bytes_eq] at surplus
  rw [size_of_parted parted]
  omega

end Utf8

end RowFilter
