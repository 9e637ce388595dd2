import Mathlib
import RowFilter.Proofs.Json.Verdict
import RowFilter.Proofs.Query.Independence

/-!
# The limit on keys only cuts off

* `CutsOff` : a reader whose limit decides nothing but whether there are too many keys;
* `Query.readPair_of_ok`, `Query.foldlM_readPair_of_lt` : what a smaller limit changes of one pair, and of all;
* `Query.pairs_append` : the pairs of a query string come first in a longer one, and `Query.keys_of_readPair` : so
  do its keys;
* `read_within_limit` : both readers cut off, a query string is read up to its first refusal, and the keys of an
  object are counted before its members are looked at.
-/

namespace RowFilter

/-- A reader whose limit decides nothing but whether there are too many keys: under a smaller limit it gives what
it gives under a larger one, if that has no more keys, and else refuses their number. -/
def CutsOff (read : Nat → String → Except ReadError Criteria) : Prop :=
  ∀ few many text, few ≤ many →
    (∀ c, read few text = .ok c ↔ read many text = .ok c ∧ c.size ≤ few) ∧
    ∀ c, read many text = .ok c → few < c.size → read few text = .error (.tooManyKeys few)

/-! ## Query strings -/

namespace Query

open Assignment

section Pair

variable {limit few : Nat} {c next last : Criteria} {pair : List Char × List Char}

theorem accept_of_ok {a : Assignment} (room : c.size ≤ few) (accepted : accept limit c a = .ok next) :
    accept few c a = if few < next.size then .error (.tooManyKeys few) else .ok next := by
  cases named : a.isNamed with
  | false =>
    rw [accept_of_not_isNamed named] at accepted ⊢
    obtain rfl := Except.ok.inj accepted
    rw [if_neg (Nat.not_lt.mpr room)]
  | true =>
    obtain ⟨short, rfl, -⟩ := (accept_eq_ok_iff named).mp accepted
    rw [accept, if_pos named, if_neg (Nat.not_lt.mpr short)]

/-- A pair that is accepted under one limit is so under another, or takes the keys past it. -/
theorem readPair_of_ok (room : c.size ≤ few) (accepted : readPair limit c pair = .ok next) :
    readPair few c pair = if few < next.size then .error (.tooManyKeys few) else .ok next := by
  rw [readPair_eq, bind_eq_ok_iff] at accepted
  obtain ⟨a, decoded, accepted⟩ := accepted
  rw [readPair_eq, decoded]
  exact accept_of_ok room accepted

/-- A pair keeps the keys that there are, and may add one behind them. -/
theorem keys_of_readPair (h : c.WellFormed) (accepted : readPair limit c pair = .ok next) :
    next.WellFormed ∧ c.keys <+: next.keys := by
  rcases readPair_cases accepted with rfl | ⟨a, -, -, rfl, -⟩
  · exact ⟨h, List.prefix_rfl⟩
  · refine ⟨h.update a.name a.value, ?_⟩
    rw [make, h.keys_update]
    split
    · exact List.prefix_rfl
    · exact List.prefix_append _ _

end Pair

section Pairs

variable {limit few : Nat} {c last : Criteria} {ps : List (List Char × List Char)}

/-- Where all pairs give too many keys, the first of them that passes the limit is refused. -/
theorem foldlM_readPair_of_lt (room : c.size ≤ few) (done : ps.foldlM (readPair limit) c = .ok last)
    (more : few < last.size) : ps.foldlM (readPair few) c = .error (.tooManyKeys few) := by
  induction ps generalizing c with
  | nil =>
    obtain rfl := Except.ok.inj done
    omega
  | cons pair ps ih =>
    rw [List.foldlM_cons, bind_eq_ok_iff] at done
    obtain ⟨next, accepted, done⟩ := done
    rw [List.foldlM_cons, readPair_of_ok room accepted]
    split
    · rfl
    · exact ih (by omega) done

theorem keys_of_foldlM_readPair (h : c.WellFormed) (done : ps.foldlM (readPair limit) c = .ok last) :
    c.keys <+: last.keys := by
  have kept (d : Criteria) (pair : List Char × List Char) (next : Criteria)
      (h : d.WellFormed ∧ c.keys <+: d.keys) (accepted : readPair limit d pair = .ok next) :
      next.WellFormed ∧ c.keys <+: next.keys := by
    obtain ⟨h', later⟩ := keys_of_readPair h.1 accepted
    exact ⟨h', h.2.trans later⟩
  exact (foldlM_invariant kept ⟨h, List.prefix_rfl⟩ done).2

end Pairs

theorem cutsOff_read : CutsOff read := by
  intro few many query le
  constructor
  · intro c
    rw [read_eq_ok_iff, read_eq_ok_iff]
    constructor
    · rintro ⟨as, assigned, short, made, room⟩
      exact ⟨⟨as, assigned, short, made, Nat.le_trans room le⟩, room⟩
    · rintro ⟨⟨as, assigned, short, made, -⟩, room⟩
      exact ⟨as, assigned, short, made, room⟩
  · exact fun c done more => foldlM_readPair_of_lt (Nat.zero_le few) done more

/-! ### Longer query strings -/

theorem withoutMark_append (text rest : List Char) :
    withoutMark (text ++ '&' :: rest) = withoutMark text ++ '&' :: rest := by
  fun_cases withoutMark text with
  | case1 => rfl
  | case2 _ noMark =>
    unfold withoutMark
    split
    · rename_i split
      rcases List.append_eq_cons_iff.mp split with ⟨-, lead⟩ | ⟨text', lead, -⟩
      · cases lead
      · exact absurd lead (noMark text')
    · rfl

theorem pieces_append (text rest : List Char) : pieces (text ++ '&' :: rest) = pieces text ++ pieces rest := by
  rw [pieces, List.splitOn_append_cons_self, List.filter_append]
  rfl

theorem pairs_append (query rest : String) :
    pairs (query ++ "&" ++ rest) = pairs query ++ (pieces rest.toList).map cut := by
  have text : (query ++ "&" ++ rest).toList = query.toList ++ '&' :: rest.toList := by
    rw [String.toList_append, String.toList_append, List.append_assoc]
    rfl
  rw [pairs, text, withoutMark_append, pieces_append, List.map_append]
  rfl

theorem read_append (limit : Nat) (query rest : String) : read limit (query ++ "&" ++ rest) =
    read limit query >>= fun c => ((pieces rest.toList).map cut).foldlM (readPair limit) c := by
  rw [read, pairs_append, List.foldlM_append]
  rfl

end Query

/-! ## JSON bodies -/

namespace Json

theorem cutsOff_read : CutsOff read := by
  intro few many text le
  unfold read
  split
  · rename_i d _
    by_cases other : ∀ members, d ≠ .object members
    · simp only [criteria_of_not_object other, reduceCtorEq, false_and, implies_true, false_implies, and_self]
    · obtain ⟨members, rfl⟩ : ∃ members, d = .object members := by simpa using other
      constructor
      · intro c
        rw [criteria_object_eq_ok_iff, criteria_object_eq_ok_iff]
        constructor
        · rintro ⟨room, entries, through, rfl⟩
          exact ⟨⟨Nat.le_trans room le, entries, through, rfl⟩, (size_of_mapM_entry through).symm ▸ room⟩
        · rintro ⟨⟨-, entries, through, rfl⟩, room⟩
          exact ⟨size_of_mapM_entry through ▸ room, entries, through, rfl⟩
      · intro c done more
        obtain ⟨-, entries, through, rfl⟩ := criteria_object_eq_ok_iff.mp done
        exact criteria_object_of_lt (size_of_mapM_entry through ▸ more)
  · simp only [reduceCtorEq, false_and, implies_true, false_implies, and_self]

end Json

/-- The limit on keys only cuts off, in both readers. A query string is read up to its first refusal: what follows
changes nothing of that, and where all is read, what comes first has given the first keys. The keys of an object are
counted before anything else of it is looked at. -/
theorem read_within_limit :
    CutsOff Query.read ∧ CutsOff Json.read ∧
    (∀ limit query rest,
      (∀ e, Query.read limit query = .error e → Query.read limit (query ++ "&" ++ rest) = .error e) ∧
      ∀ c, Query.read limit (query ++ "&" ++ rest) = .ok c →
        ∃ first, Query.read limit query = .ok first ∧ first.keys <+: c.keys) ∧
    ∀ limit members text, (Json.Document.object members).WrittenAs text → limit < Json.distinctKeys members →
      Json.read limit text = .error (.tooManyKeys limit) := by
  refine ⟨Query.cutsOff_read, Json.cutsOff_read,
    fun limit query rest => ⟨fun e refused => ?_, fun c done => ?_⟩, fun limit members text written more => ?_⟩
  · rw [Query.read_append, refused]
    rfl
  · rw [Query.read_append, bind_eq_ok_iff] at done
    obtain ⟨first, before, done⟩ := done
    have h : first.WellFormed := by
      obtain ⟨as, -, -, rfl, -⟩ := Query.read_eq_ok_iff.mp before
      exact Query.wellFormed_makeAll as
    exact ⟨first, before, Query.keys_of_foldlM_readPair h done⟩
  · rw [Json.read_of_writtenAs written, Json.criteria_object_of_lt more]

/-- A key that is repeated is no further key, and a third key behind a limit of two is refused. -/
theorem read_within_limit_repeated :
    (∃ c, Query.read 2 "a=1&b=2&a=3" = .ok c) ∧ Query.read 2 "a=1&b=2&a=3&c=4" = .error (.tooManyKeys 2) ∧
      Query.read 2 "a=1&b=2&a=3&c=4&d=5" = .error (.tooManyKeys 2) := by
  obtain ⟨cuts, -, extended, -⟩ := read_within_limit
  have two : (Query.read 9 "a=1&b=2&a=3").map Criteria.size = .ok 2 := by cbv
  have three : (Query.read 9 "a=1&b=2&a=3&c=4").map Criteria.size = .ok 3 := by cbv
  obtain ⟨c, read, size⟩ := map_eq_ok_iff.mp two
  obtain ⟨d, longer, more⟩ := map_eq_ok_iff.mp three
  have refused := (cuts 2 9 _ (by decide)).2 d longer (by omega)
  exact ⟨⟨c, ((cuts 2 9 _ (by decide)).1 c).mpr ⟨read, Nat.le_of_eq size⟩⟩, refused,
    (extended 2 _ "d=5").1 _ refused⟩

end RowFilter
