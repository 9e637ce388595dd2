import RowFilter.Query.Reader
import RowFilter.Proofs.Criteria.Refinement
import RowFilter.Proofs.Traversal

/-!
# A query string as a list of assignments

Reading takes a query string pair by pair, and each pair may be refused. Told from the end, it is a list of
assignments that are made one after another.

* `Assignment` : a pair decoded, its key taken apart; `Query.assignments` : those of a query string;
* `Assignment.make` : an assignment made in criteria, and `makeAll` : many, one after another;
* `readPair_cases`, `foldlM_readPair_eq_ok_iff` : what one pair does, and what all do;
* `read_eq_ok_iff` : a query string is read exactly if all of it decodes, no path is too long, and the keys
  in the end are not too many; and then it gives what its assignments make.
-/

namespace RowFilter.Query

/-- A value for a place under a name. -/
structure Assignment where
  name : String
  path : List String
  argument : String
deriving DecidableEq, Repr

namespace Assignment

def ofPair (pair : List Char × List Char) : Except ReadError Assignment := do
  let key ← decode pair.1
  let argument ← decode pair.2
  return ⟨(BracketKey.ofText key).name, (BracketKey.ofText key).path, argument⟩

def isNamed (a : Assignment) : Bool := !a.name.isEmpty

def value (a : Assignment) : Option Value → Value := put (.item (.text a.argument)) a.path

def make (c : Criteria) (a : Assignment) : Criteria := c.update a.name a.value

def makeAll (c : Criteria) (as : List Assignment) : Criteria := as.foldl make c

end Assignment

open Assignment

/-- The assignments of a query string: its pairs decoded, those without a name left out. -/
def assignments (query : String) : Except ReadError (List Assignment) :=
  ((pairs query).mapM ofPair).map (List.filter isNamed)

/-! ## One pair -/

namespace Assignment

/-- Criteria with an assignment made, or the reason not to make it. An assignment without a name does
nothing, and then neither its path nor the number of keys is looked at. -/
def accept (limit : Nat) (c : Criteria) (a : Assignment) : Except ReadError Criteria :=
  if a.isNamed then
    if maxNesting < a.path.length then .error (.tooDeep a.name)
    else if limit < (make c a).size then .error (.tooManyKeys limit)
    else .ok (make c a)
  else .ok c

theorem accept_of_not_isNamed {a : Assignment} (unnamed : a.isNamed = false) (limit : Nat)
    (c : Criteria) : accept limit c a = .ok c := by
  rw [accept, unnamed]
  rfl

theorem accept_eq_ok_iff {a : Assignment} (named : a.isNamed = true) {limit : Nat}
    {c next : Criteria} :
    accept limit c a = .ok next ↔
      a.path.length ≤ maxNesting ∧ next = make c a ∧ next.size ≤ limit := by
  rw [accept, if_pos named]
  split_ifs with deep more
  · simp only [false_iff]
    rintro ⟨short, -⟩
    omega
  · simp only [false_iff]
    rintro ⟨-, rfl, room⟩
    omega
  · rw [Except.ok.injEq]
    constructor
    · rintro rfl
      exact ⟨by omega, rfl, by omega⟩
    · rintro ⟨-, made, -⟩
      exact made.symm

end Assignment

theorem readPair_eq (limit : Nat) (c : Criteria) (pair : List Char × List Char) :
    readPair limit c pair = ofPair pair >>= accept limit c := by
  unfold readPair ofPair
  cases decode pair.1 with
  | error e => rfl
  | ok key =>
    cases decode pair.2 with
    | error e => rfl
    | ok argument =>
      change (if (BracketKey.ofText key).name.isEmpty then _ else _) = accept limit c ⟨_, _, argument⟩
      unfold accept isNamed make value
      cases (BracketKey.ofText key).name.isEmpty <;> rfl

/-- A pair that is accepted changes nothing, or makes one assignment. -/
theorem readPair_cases {limit : Nat} {c next : Criteria} {pair : List Char × List Char}
    (accepted : readPair limit c pair = .ok next) :
    next = c ∨ ∃ a : Assignment, a.isNamed ∧ a.path.length ≤ maxNesting ∧ next = make c a ∧
      next.size ≤ limit := by
  rw [readPair_eq, bind_eq_ok_iff] at accepted
  obtain ⟨a, -, accepted⟩ := accepted
  cases named : a.isNamed with
  | false =>
    rw [accept_of_not_isNamed named] at accepted
    exact .inl (Except.ok.inj accepted).symm
  | true => exact .inr ⟨a, named, (accept_eq_ok_iff named).mp accepted⟩

theorem size_le_size_make (c : Criteria) (a : Assignment) : c.size ≤ (make c a).size := by
  unfold make Criteria.update Criteria.size
  split <;> simp

/-! ## All pairs -/

theorem size_le_size_makeAll (c : Criteria) (as : List Assignment) :
    c.size ≤ (makeAll c as).size := by
  unfold makeAll
  induction as generalizing c with
  | nil => exact Nat.le_refl _
  | cons a as ih => exact Nat.le_trans (size_le_size_make c a) (ih (make c a))

theorem foldlM_accept_eq_ok_iff {limit : Nat} {c last : Criteria} (room : c.size ≤ limit)
    (as : List Assignment) :
    as.foldlM (accept limit) c = .ok last ↔
      (∀ a ∈ as.filter isNamed, a.path.length ≤ maxNesting) ∧
        last = makeAll c (as.filter isNamed) ∧ last.size ≤ limit := by
  induction as generalizing c with
  | nil =>
    constructor
    · intro same
      obtain rfl := Except.ok.inj same
      exact ⟨fun _ member => absurd member List.not_mem_nil, rfl, room⟩
    · rintro ⟨-, rfl, -⟩
      rfl
  | cons a as ih =>
    rw [List.foldlM_cons, bind_eq_ok_iff]
    cases named : a.isNamed with
    | false =>
      rw [List.filter_cons_of_neg (by simp [named]), ← ih room]
      simp only [accept_of_not_isNamed named, Except.ok.injEq, exists_eq_left']
    | true =>
      rw [List.filter_cons_of_pos named, List.forall_mem_cons]
      constructor
      · rintro ⟨next, accepted, rest⟩
        obtain ⟨short, rfl, room'⟩ := (accept_eq_ok_iff named).mp accepted
        obtain ⟨others, made, fits⟩ := (ih room').mp rest
        exact ⟨⟨short, others⟩, made, fits⟩
      · rintro ⟨⟨short, others⟩, made, fits⟩
        -- keys never become fewer, so there was room for them on the way if there is in the end
        have room' : (make c a).size ≤ limit := by
          have grown := size_le_size_makeAll (make c a) (as.filter isNamed)
          have total : (makeAll (make c a) (as.filter isNamed)).size ≤ limit := by
            rw [made] at fits
            exact fits
          omega
        exact ⟨make c a, (accept_eq_ok_iff named).mpr ⟨short, rfl, room'⟩,
          (ih room').mpr ⟨others, made, fits⟩⟩

theorem foldlM_readPair_eq_ok_iff {limit : Nat} {c last : Criteria} (pairs : List (List Char × List Char)) :
    pairs.foldlM (readPair limit) c = .ok last ↔
      ∃ as, pairs.mapM ofPair = .ok as ∧ as.foldlM (accept limit) c = .ok last := by
  induction pairs generalizing c with
  | nil => simp [pure, Except.pure]
  | cons pair pairs ih =>
    rw [List.foldlM_cons, readPair_eq, mapM_cons_eq]
    cases ofPair pair with
    | error e => simp [bind, Except.bind]
    | ok a =>
      change (accept limit c a >>= fun next => pairs.foldlM (readPair limit) next) = .ok last ↔ _
      simp only [bind_eq_ok_iff, ih, map_eq_ok_iff]
      constructor
      · rintro ⟨next, accepted, as, decoded, rest⟩
        exact ⟨a :: as, ⟨as, decoded, rfl⟩, bind_eq_ok_iff.mpr ⟨next, accepted, rest⟩⟩
      · rintro ⟨_, ⟨as, decoded, rfl⟩, made⟩
        obtain ⟨next, accepted, rest⟩ := bind_eq_ok_iff.mp made
        exact ⟨next, accepted, as, decoded, rest⟩

theorem read_eq_ok_iff {limit : Nat} {query : String} {c : Criteria} :
    read limit query = .ok c ↔ ∃ as, assignments query = .ok as ∧
      (∀ a ∈ as, a.path.length ≤ maxNesting) ∧ c = makeAll .empty as ∧ c.size ≤ limit := by
  have accepted (as : List Assignment) : as.foldlM (accept limit) .empty = .ok c ↔ _ :=
    foldlM_accept_eq_ok_iff (Nat.zero_le limit) as
  unfold read assignments
  simp only [foldlM_readPair_eq_ok_iff, map_eq_ok_iff, accepted]
  constructor
  · rintro ⟨as, decoded, made⟩
    exact ⟨as.filter isNamed, ⟨as, decoded, rfl⟩, made⟩
  · rintro ⟨_, ⟨as, decoded, rfl⟩, made⟩
    exact ⟨as, decoded, made⟩

end RowFilter.Query
