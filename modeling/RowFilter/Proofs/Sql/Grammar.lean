import RowFilter.Proofs.Sql.Formula

/-!
# The grammar of boolean expressions

An operand is an atom or an expression in parentheses; a conjunction is operands with `AND` between them,
a disjunction conjunctions with `OR` between them, and an expression is a disjunction.

* `Derives` : the tokens of each of these, and the formula that they say;
* `Derives.unique` : tokens have one reading at most.

A derivation of one category is told from what follows it by the tokens that cannot continue it
(`Category.Ends`); the proof of uniqueness compares two derivations of texts that go on in different ways.
-/

namespace RowFilter.Sql

/-! ## Atoms as tokens -/

def Column.tokens (column : Column) : List Token :=
  [.name column.table, .symbol .dot, .name column.name]

/-- Literals with a comma between any two. -/
def rowTokens : Literal → List Literal → List Token
  | first, [] => [first.token]
  | first, second :: others => first.token :: .symbol .comma :: rowTokens second others

def Atom.predicate : Atom → List Token
  | compare _ comparison operand => [.symbol (.compare comparison), operand.token]
  | isNull _ => [.symbol .is, .symbol .null]
  | like _ first others => .symbol .like :: (first :: others).map Literal.token
  | oneOf _ first others =>
    .symbol .among :: .symbol .opening :: (rowTokens first others ++ [.symbol .closing])

def Atom.tokens (atom : Atom) : List Token := atom.column.tokens ++ atom.predicate

/-! ## Derivations -/

/-- The kinds of expressions: what a connective may stand beside, and what is joined by one. -/
inductive Category where
  | operand
  | joined (connective : Connective)

/-- What a connective joins: `AND` binds tighter than `OR`. -/
def Connective.operands : Connective → Category
  | and => .operand
  | or => .joined .and

/-- The tokens of a category, and what they say. -/
inductive Derives : Category → List Token → Formula → Prop
  | atom (a : Atom) : Derives .operand a.tokens (.atom a)
  | group {ts : List Token} {f : Formula} (inside : Derives (.joined .or) ts f) :
      Derives .operand (.symbol .opening :: (ts ++ [.symbol .closing])) f
  | one (k : Connective) {ts : List Token} {f : Formula} (only : Derives k.operands ts f) :
      Derives (.joined k) ts f
  | more (k : Connective) {ts us : List Token} {f g : Formula} (first : Derives k.operands ts f)
      (others : Derives (.joined k) us g) :
      Derives (.joined k) (ts ++ .symbol k.symbol :: us) (.join k [f, g])

/-! ## One reading at most -/

namespace Token

def isLiteral : Token → Bool
  | .text _ | .number _ | .symbol .null => true
  | _ => false

end Token

theorem Literal.isLiteral_token (l : Literal) : l.token.isLiteral := by
  cases l <;> rfl

theorem Literal.token_injective {l m : Literal} (same : l.token = m.token) : l = m := by
  cases l <;> cases m <;> simp_all [Literal.token]

/-- Whether a token can continue what it stands behind: a literal continues a pattern, a connective what
it joins. -/
def Category.continues : Category → Token → Bool
  | .operand, t => t.isLiteral
  | .joined .and, t => t.isLiteral || t = .symbol .and
  | .joined .or, t => t.isLiteral || t = .symbol .and || t = .symbol .or

def Category.Ends (c : Category) (rest : List Token) : Prop :=
  ∀ t, rest.head? = some t → ¬ c.continues t

theorem Category.ends_cons {c : Category} {t : Token} (stops : ¬ c.continues t) (rest : List Token) :
    c.Ends (t :: rest) := by
  intro u head
  obtain rfl := Option.some.inj head
  exact stops

theorem Connective.ends_operands {k : Connective} {rest : List Token}
    (ends : (Category.joined k).Ends rest) : k.operands.Ends rest := by
  intro t head continued
  refine ends t head ?_
  cases k with
  | and => exact Bool.or_eq_true_iff.mpr (.inl continued)
  | or => exact Bool.or_eq_true_iff.mpr (.inl continued)

/-- A connective ends the operand in front of it and nothing that it joins. -/
theorem Connective.ends_operands_symbol (k : Connective) (rest : List Token) :
    k.operands.Ends (.symbol k.symbol :: rest) :=
  Category.ends_cons (by cases k <;> decide) rest

theorem Connective.not_ends_symbol (k : Connective) (rest : List Token) :
    ¬ (Category.joined k).Ends (.symbol k.symbol :: rest) := by
  intro ends
  exact ends _ rfl (by cases k <;> decide)

theorem literals_unique {ls ms : List Literal} {r s : List Token}
    (endsLeft : Category.operand.Ends r) (endsRight : Category.operand.Ends s)
    (same : ls.map Literal.token ++ r = ms.map Literal.token ++ s) : ls = ms ∧ r = s := by
  induction ls generalizing ms with
  | nil =>
    cases ms with
    | nil => exact ⟨rfl, same⟩
    | cons m ms =>
      have head : r.head? = some m.token := by rw [List.map_nil, List.nil_append] at same; rw [same]; rfl
      exact absurd m.isLiteral_token (endsLeft _ head)
  | cons l ls ih =>
    cases ms with
    | nil =>
      have head : s.head? = some l.token := by rw [List.map_nil, List.nil_append] at same; rw [← same]; rfl
      exact absurd l.isLiteral_token (endsRight _ head)
    | cons m ms =>
      obtain ⟨first, others⟩ := List.cons.inj same
      obtain ⟨rfl, rest⟩ := ih others
      exact ⟨by rw [Literal.token_injective first], rest⟩

theorem row_unique {l m : Literal} {ls ms : List Literal} {r s : List Token}
    (same : rowTokens l ls ++ .symbol .closing :: r = rowTokens m ms ++ .symbol .closing :: s) :
    l = m ∧ ls = ms ∧ r = s := by
  induction ls generalizing l m ms with
  | nil =>
    cases ms with
    | nil =>
      obtain ⟨first, others⟩ := List.cons.inj same
      exact ⟨Literal.token_injective first, rfl, (List.cons.inj others).2⟩
    | cons second ms =>
      have closing := (List.cons.inj (List.cons.inj same).2).1
      cases closing
  | cons l' ls ih =>
    cases ms with
    | nil =>
      have closing := (List.cons.inj (List.cons.inj same).2).1
      cases closing
    | cons m' ms =>
      obtain ⟨first, others⟩ := List.cons.inj same
      obtain ⟨rfl, rfl, rest⟩ := ih (List.cons.inj others).2
      exact ⟨Literal.token_injective first, rfl, rest⟩

theorem Atom.column_unique {a b : Atom} {r s : List Token} (same : a.tokens ++ r = b.tokens ++ s) :
    a.column = b.column ∧ a.predicate ++ r = b.predicate ++ s := by
  simp only [tokens, Column.tokens, List.cons_append, List.nil_append, List.cons.injEq,
    Token.name.injEq, true_and] at same
  obtain ⟨table, name, predicates⟩ := same
  refine ⟨?_, predicates⟩
  cases ha : a.column
  cases hb : b.column
  simp_all

/-- Atoms are told by their first token behind the column, and then by their literals. -/
theorem Atom.unique {a b : Atom} {r s : List Token} (endsLeft : Category.operand.Ends r)
    (endsRight : Category.operand.Ends s) (same : a.tokens ++ r = b.tokens ++ s) :
    a = b ∧ r = s := by
  obtain ⟨columns, predicates⟩ := Atom.column_unique same
  cases a with
  | compare column comparison operand =>
    cases b with
    | compare column' comparison' operand' =>
      obtain rfl : column = column' := columns
      obtain ⟨symbols, behind⟩ := List.cons.inj predicates
      cases symbols
      obtain ⟨operands, rest⟩ := List.cons.inj behind
      exact ⟨by rw [Literal.token_injective operands], rest⟩
    | _ => cases (List.cons.inj predicates).1
  | isNull column =>
    cases b with
    | isNull column' =>
      obtain rfl : column = column' := columns
      obtain ⟨-, behind⟩ := List.cons.inj predicates
      exact ⟨rfl, (List.cons.inj behind).2⟩
    | _ => cases (List.cons.inj predicates).1
  | like column first others =>
    cases b with
    | like column' first' others' =>
      obtain rfl : column = column' := columns
      obtain ⟨-, behind⟩ := List.cons.inj predicates
      obtain ⟨literals, rest⟩ := literals_unique endsLeft endsRight behind
      cases literals
      exact ⟨rfl, rest⟩
    | _ => cases (List.cons.inj predicates).1
  | oneOf column first others =>
    cases b with
    | oneOf column' first' others' =>
      obtain rfl : column = column' := columns
      have rows : rowTokens first others ++ .symbol .closing :: r =
          rowTokens first' others' ++ .symbol .closing :: s := by
        simpa [predicate] using predicates
      obtain ⟨rfl, rfl, rest⟩ := row_unique rows
      exact ⟨rfl, rest⟩
    | _ => cases (List.cons.inj predicates).1

/-- What two derivations of a category leave of the same tokens is the same, if neither can go on. -/
theorem Derives.unique_prefix {c : Category} {ts us : List Token} {f g : Formula}
    (left : Derives c ts f) (right : Derives c us g) {r s : List Token} (endsLeft : c.Ends r)
    (endsRight : c.Ends s) (same : ts ++ r = us ++ s) : f = g ∧ r = s := by
  induction left generalizing us g r s with
  | atom a =>
    cases right with
    | atom b =>
      obtain ⟨rfl, rest⟩ := Atom.unique endsLeft endsRight same
      exact ⟨rfl, rest⟩
    | group inside => cases (List.cons.inj same).1
  | group inside ih =>
    cases right with
    | atom b => cases (List.cons.inj same).1
    | group other =>
      simp only [List.cons_append, List.append_assoc, List.nil_append, List.cons.injEq, true_and]
        at same
      have closed (rest : List Token) : (Category.joined .or).Ends (.symbol .closing :: rest) :=
        Category.ends_cons (by decide) rest
      obtain ⟨formula, rest⟩ := ih other (closed r) (closed s) same
      exact ⟨formula, (List.cons.inj rest).2⟩
  | one k only ih =>
    cases right with
    | one _ other =>
      exact ih other (Connective.ends_operands endsLeft) (Connective.ends_operands endsRight) same
    | more _ first others =>
      -- the right one goes on with the connective where the left one must have ended
      rw [List.append_assoc] at same
      obtain ⟨-, rfl⟩ := ih first (Connective.ends_operands endsLeft)
        (k.ends_operands_symbol _) same
      exact absurd endsLeft (k.not_ends_symbol _)
  | more k first others ihFirst ihOthers =>
    rw [List.append_assoc] at same
    cases right with
    | one _ other =>
      obtain ⟨-, rfl⟩ := ihFirst other (k.ends_operands_symbol _)
        (Connective.ends_operands endsRight) same
      exact absurd endsRight (k.not_ends_symbol _)
    | more _ first' others' =>
      rw [List.append_assoc] at same
      obtain ⟨rfl, behind⟩ := ihFirst first' (k.ends_operands_symbol _)
        (k.ends_operands_symbol _) same
      obtain ⟨rfl, rest⟩ := ihOthers others' endsLeft endsRight (List.cons.inj behind).2
      exact ⟨rfl, rest⟩

/-- Tokens say one thing at most. -/
theorem Derives.unique {c : Category} {ts : List Token} {f g : Formula} (left : Derives c ts f)
    (right : Derives c ts g) : f = g := by
  have ends : c.Ends [] := fun t head => by cases head
  exact (left.unique_prefix right ends ends rfl).1

end RowFilter.Sql
