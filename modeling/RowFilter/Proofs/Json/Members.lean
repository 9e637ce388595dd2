import Mathlib.Data.List.Dedup
import RowFilter.Json.Reader
import RowFilter.Proofs.Criteria.Refinement
import RowFilter.Proofs.Text.ByteOrder
import RowFilter.Proofs.Traversal
import Std.Data.TreeMap.Lemmas

/-!
# The members of an object, each key once

A key may be written several times in an object. The body counts each once, with what stands last under it.

* `last?` : what stands last under a key;
* `mem_sortedMembers_iff`, `pairwise_sortedMembers` : the sorted members are just these, in the order of
  the bytes of their keys;
* `length_sortedMembers` : there are as many as different keys;
* `criteria_object_eq_ok_iff`, `criteria_object_of_lt` : an object has criteria exactly if its different keys are
  not too many and each sorted member has an argument;
* `toList_of_mapM_entry`, `size_of_mapM_entry` : these are then the criteria, in that order and that many.
-/

namespace RowFilter.Json

/-! ## What stands last under a key -/

section Last

variable {α β : Type}

/-- What stands last under a key. -/
def last? (members : List (String × α)) (key : String) : Option α :=
  (members.reverse.find? fun member => member.1 = key).map Prod.snd

theorem last?_append (before after : List (String × α)) (key : String) :
    last? (before ++ after) key = (last? after key).or (last? before key) := by
  rw [last?, List.reverse_append, List.find?_append, Option.map_or]
  rfl

theorem last?_singleton (k : String) (a : α) (key : String) :
    last? [(k, a)] key = if k = key then some a else none := by
  by_cases same : k = key <;> simp [last?, same]

theorem last?_isSome_iff {members : List (String × α)} {key : String} :
    (last? members key).isSome ↔ key ∈ members.map Prod.fst := by
  simp only [last?, Option.isSome_map, List.find?_isSome, List.mem_reverse, decide_eq_true_eq,
    List.mem_map]

theorem mem_of_last? {members : List (String × α)} {key : String} {a : α}
    (found : last? members key = some a) : (key, a) ∈ members := by
  obtain ⟨⟨k, b⟩, first, same⟩ := Option.map_eq_some_iff.mp found
  obtain rfl : b = a := same
  have here : k = key := by simpa using List.find?_some first
  rw [← here]
  exact List.mem_reverse.mp (List.mem_of_find?_eq_some first)

/-- Where no key is written twice, every member stands last under its key. -/
theorem last?_eq_some_iff {members : List (String × α)} (distinct : (members.map Prod.fst).Nodup)
    {key : String} {a : α} : last? members key = some a ↔ (key, a) ∈ members := by
  refine ⟨mem_of_last?, fun member => ?_⟩
  obtain ⟨b, found⟩ := Option.isSome_iff_exists.mp (last?_isSome_iff.mpr (List.mem_map_of_mem member))
  have same : (key, b) = (key, a) :=
    List.inj_on_of_nodup_map distinct (mem_of_last? found) member rfl
  rw [found, (Prod.mk.inj same).2]

theorem last?_map (f : α → β) (members : List (String × α)) (key : String) :
    last? (members.map fun member => (member.1, f member.2)) key = (last? members key).map f := by
  rw [last?, last?, ← List.map_reverse, List.find?_map, Option.map_map, Option.map_map]
  rfl

end Last

/-! ## Sorted members -/

theorem getElem?_foldl_insert (sorted : Std.TreeMap String Document) (members : List (String × Document))
    (key : String) :
    (members.foldl (fun sorted member => sorted.insert member.1 member.2) sorted)[key]? =
      (last? members key).or sorted[key]? := by
  induction members generalizing sorted with
  | nil => rfl
  | cons member members ih =>
    obtain ⟨k, d⟩ := member
    rw [List.foldl_cons, ih, ← List.singleton_append, last?_append, last?_singleton,
      Std.TreeMap.getElem?_insert, Option.or_assoc]
    simp only [Std.LawfulEqCmp.compare_eq_iff_eq]
    split <;> rfl

theorem mem_sortedMembers_iff {members : List (String × Document)} {key : String} {d : Document} :
    (key, d) ∈ sortedMembers members ↔ last? members key = some d := by
  rw [sortedMembers, Std.TreeMap.mem_toList_iff_getElem?_eq_some, getElem?_foldl_insert,
    Std.TreeMap.getElem?_emptyc, Option.or_none]

theorem pairwise_lt_sortedMembers (members : List (String × Document)) :
    ((sortedMembers members).map Prod.fst).Pairwise (· < ·) := by
  rw [List.pairwise_map]
  refine Std.TreeMap.ordered_keys_toList.imp fun less => ?_
  exact compareOfLessAndEq_eq_lt.mp less

theorem pairwise_sortedMembers (members : List (String × Document)) :
    ((sortedMembers members).map Prod.fst).Pairwise fun k l => Text.utf8 k < Text.utf8 l :=
  (pairwise_lt_sortedMembers members).imp Text.utf8_lt_utf8

theorem nodup_sortedMembers (members : List (String × Document)) :
    ((sortedMembers members).map Prod.fst).Nodup :=
  (pairwise_lt_sortedMembers members).imp String.ne_of_lt

theorem mem_keys_sortedMembers_iff {members : List (String × Document)} {key : String} :
    key ∈ (sortedMembers members).map Prod.fst ↔ key ∈ members.map Prod.fst := by
  refine Iff.trans ?_ last?_isSome_iff
  rw [Option.isSome_iff_exists, List.mem_map]
  constructor
  · rintro ⟨⟨_, d⟩, member, rfl⟩
    exact ⟨d, mem_sortedMembers_iff.mp member⟩
  · rintro ⟨d, found⟩
    exact ⟨(key, d), mem_sortedMembers_iff.mpr found, rfl⟩

def distinctKeys {α : Type} (members : List (String × α)) : Nat := (members.map Prod.fst).dedup.length

theorem length_sortedMembers (members : List (String × Document)) :
    (sortedMembers members).length = distinctKeys members := by
  have same : ((sortedMembers members).map Prod.fst).Perm (members.map Prod.fst).dedup := by
    rw [List.perm_ext_iff_of_nodup (nodup_sortedMembers members) (List.nodup_dedup _)]
    intro key
    rw [mem_keys_sortedMembers_iff, List.mem_dedup]
  rw [distinctKeys, ← same.length_eq, List.length_map]

/-! ## Criteria from sorted members -/

theorem entry_eq_ok_iff {member : String × Document} {e : String × Value} :
    entry member = .ok e ↔ e.1 = member.1 ∧ argument maxNesting member.2 = .ok e.2 := by
  obtain ⟨key, value⟩ := e
  unfold entry
  cases argument maxNesting member.2 with
  | error refusal => simp
  | ok v => simp [eq_comm]

theorem keys_of_mapM_entry {members : List (String × Document)} {entries : Entries}
    (through : members.mapM entry = .ok entries) : entries.keys = members.map Prod.fst := by
  have same : List.Forall₂ (fun member e => e.1 = member.1) members entries :=
    (mapM_eq_ok_iff.mp through).imp fun _ _ given => (entry_eq_ok_iff.mp given).1
  clear through
  induction same with
  | nil => rfl
  | cons head _ ih => rw [Entries.keys_cons, List.map_cons, head, ih]

section Object

variable {limit : Nat} {members : List (String × Document)}

theorem criteria_object_of_lt (more : limit < distinctKeys members) :
    criteria limit (.object members) = .error (.tooManyKeys limit) := by
  rw [← length_sortedMembers] at more
  exact if_pos more

theorem criteria_object_of_le (room : distinctKeys members ≤ limit) :
    criteria limit (.object members) =
      (sortedMembers members).mapM entry >>= fun entries => pure (.ofList entries) := by
  rw [← length_sortedMembers] at room
  exact if_neg (Nat.not_lt.mpr room)

theorem criteria_object_eq_ok_iff {c : Criteria} : criteria limit (.object members) = .ok c ↔
    distinctKeys members ≤ limit ∧
      ∃ entries, (sortedMembers members).mapM entry = .ok entries ∧ c = .ofList entries := by
  rcases Nat.lt_or_ge limit (distinctKeys members) with more | room
  · rw [criteria_object_of_lt more]
    exact iff_of_false nofun fun h => absurd h.1 (Nat.not_le.mpr more)
  · rw [criteria_object_of_le room, bind_eq_ok_iff]
    constructor
    · rintro ⟨entries, through, made⟩
      exact ⟨room, entries, through, (Except.ok.inj made).symm⟩
    · rintro ⟨-, entries, through, rfl⟩
      exact ⟨entries, through, rfl⟩

theorem toList_of_mapM_entry {entries : Entries} (through : (sortedMembers members).mapM entry = .ok entries) :
    (Criteria.ofList entries).toList = entries := by
  refine Criteria.toList_ofList ?_
  rw [keys_of_mapM_entry through]
  exact nodup_sortedMembers members

theorem size_of_mapM_entry {entries : Entries} (through : (sortedMembers members).mapM entry = .ok entries) :
    (Criteria.ofList entries).size = distinctKeys members := by
  have size : (Criteria.ofList entries).size = (Criteria.ofList entries).toList.length := rfl
  rw [size, toList_of_mapM_entry through, ← length_sortedMembers]
  exact ((mapM_eq_ok_iff.mp through).length_eq).symm

end Object

end RowFilter.Json
