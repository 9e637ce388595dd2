import RowFilter.Criteria.Basic
import Mathlib.Data.List.Nodup

/-!
# Plain lists of pairs as ordered maps

The same operations as on `Criteria`, on a list of keys with values and nothing beside it. A key that is
there keeps its place and takes the new value, and a key that is not there goes last.

* `Entries.get?`, `Entries.update`, `Entries.remove` : one key;
* `Entries.keys_update`, `Entries.nodup_keys_update` : an update keeps keys distinct;
* `Entries.forall_mem_update` : an update keeps what holds of all values;
* `Entries.get?_update` : an update is seen at its own key only;
* `Entries.exists_split` : where a key that is there stands, for the operations that work in place.
-/

namespace RowFilter

/-- Keys with their values, in order. -/
abbrev Entries : Type := List (String × Value)

namespace Entries

def keys (l : Entries) : List String := l.map Prod.fst

def get? (l : Entries) (key : String) : Option Value :=
  (l.find? fun entry => entry.1 = key).map Prod.snd

/-- Gives a key the value that `f` makes of its present one, or of none. -/
def update (l : Entries) (key : String) (f : Option Value → Value) : Entries :=
  if key ∈ l.keys then l.map fun entry => if entry.1 = key then (key, f (some entry.2)) else entry
  else l ++ [(key, f none)]

def insert (l : Entries) (key : String) (value : Value) : Entries := l.update key fun _ => value

def insertMany (l : Entries) (pairs : List (String × Value)) : Entries :=
  pairs.foldl (fun l pair => l.insert pair.1 pair.2) l

def remove (l : Entries) (key : String) : Entries := l.filter fun entry => entry.1 ≠ key

variable {l before after : Entries} {key : String}

@[simp] theorem keys_nil : keys [] = [] := rfl

@[simp] theorem keys_cons (entry : String × Value) (l : Entries) :
    keys (entry :: l) = entry.1 :: keys l := rfl

@[simp] theorem keys_append (l m : Entries) : keys (l ++ m) = keys l ++ keys m := List.map_append

theorem get?_cons (k : String) (value : Value) (l : Entries) (key : String) :
    get? ((k, value) :: l) key = if k = key then some value else get? l key := by
  unfold get?
  by_cases same : k = key <;> simp [same]

theorem get?_append (l m : Entries) (key : String) :
    get? (l ++ m) key = (get? l key).or (get? m key) := by
  rw [get?, List.find?_append, Option.map_or]
  rfl

theorem get?_eq_none_iff : l.get? key = none ↔ key ∉ l.keys := by
  simp only [get?, keys, Option.map_eq_none_iff, List.find?_eq_none, decide_eq_true_eq, List.mem_map,
    not_exists, not_and]

/-! ## A key that is not there -/

theorem ne_of_mem (absent : key ∉ l.keys) {entry : String × Value} (member : entry ∈ l) : entry.1 ≠ key :=
  ne_of_mem_of_not_mem (List.mem_map_of_mem member) absent

theorem update_of_not_mem (absent : key ∉ l.keys) (f : Option Value → Value) :
    l.update key f = l ++ [(key, f none)] := if_neg absent

theorem remove_of_not_mem (absent : key ∉ l.keys) : l.remove key = l := by
  rw [remove, List.filter_eq_self]
  intro entry member
  simpa using ne_of_mem absent member

theorem map_of_not_mem (absent : key ∉ l.keys) (g : String × Value → String × Value) :
    (l.map fun entry => if entry.1 = key then g entry else entry) = l := by
  conv_rhs => rw [← List.map_id l]
  exact List.map_congr_left fun _ member => if_neg (ne_of_mem absent member)

/-! ## A key that is there -/

/-- A key that is there has a place, with no other of its kind before or after. -/
theorem exists_split (distinct : l.keys.Nodup) (present : key ∈ l.keys) :
    ∃ (before : Entries) (value : Value) (after : Entries), l = before ++ (key, value) :: after ∧
      key ∉ before.keys ∧ key ∉ after.keys := by
  obtain ⟨⟨_, value⟩, member, rfl⟩ := List.mem_map.mp present
  obtain ⟨before, after, rfl⟩ := List.append_of_mem member
  rw [keys_append, keys_cons, List.nodup_middle, List.nodup_cons, List.mem_append, not_or] at distinct
  exact ⟨before, value, after, rfl, distinct.1.1, distinct.1.2⟩

theorem get?_split (fresh : key ∉ before.keys) (value : Value) (after : Entries) :
    get? (before ++ (key, value) :: after) key = some value := by
  rw [get?_append, get?_eq_none_iff.mpr fresh, Option.none_or, get?_cons, if_pos rfl]

theorem get?_of_mem (distinct : l.keys.Nodup) {entry : String × Value} (member : entry ∈ l) :
    l.get? entry.1 = some entry.2 := by
  obtain ⟨before, after, rfl⟩ := List.append_of_mem member
  rw [keys_append, keys_cons, List.nodup_middle, List.nodup_cons, List.mem_append, not_or] at distinct
  exact get?_split distinct.1.1 entry.2 after

theorem update_split (fresh : key ∉ before.keys) (last : key ∉ after.keys) (value : Value)
    (f : Option Value → Value) :
    update (before ++ (key, value) :: after) key f = before ++ (key, f (some value)) :: after := by
  have present : key ∈ keys (before ++ (key, value) :: after) := by simp
  rw [update, if_pos present, List.map_append, List.map_cons, map_of_not_mem fresh,
    map_of_not_mem last, if_pos rfl]

theorem remove_split (fresh : key ∉ before.keys) (last : key ∉ after.keys) (value : Value) :
    remove (before ++ (key, value) :: after) key = before ++ after := by
  have earlier := remove_of_not_mem fresh
  have later := remove_of_not_mem last
  rw [remove] at earlier later ⊢
  rw [List.filter_append, List.filter_cons_of_neg (by simp), earlier, later]

/-! ## Updates -/

theorem keys_update (l : Entries) (key : String) (f : Option Value → Value) :
    (l.update key f).keys = if key ∈ l.keys then l.keys else l.keys ++ [key] := by
  unfold update
  split
  · have kept (entry : String × Value) :
        (if entry.1 = key then (key, f (some entry.2)) else entry).1 = entry.1 := by
      split
      · rename_i same
        exact same.symm
      · rfl
    rw [keys, List.map_map]
    exact List.map_congr_left fun entry _ => kept entry
  · rw [keys_append]
    rfl

theorem nodup_keys_update (distinct : l.keys.Nodup) (key : String) (f : Option Value → Value) :
    (l.update key f).keys.Nodup := by
  rw [keys_update]
  split
  · exact distinct
  · rename_i absent
    exact List.nodup_append.mpr ⟨distinct, List.nodup_singleton key, fun other member same singleton eq =>
      absent (List.mem_singleton.mp singleton ▸ eq ▸ member)⟩

/-- What holds of all values holds of them still, if it does of what one, or a new one, is updated to. -/
theorem forall_mem_update {P : Value → Prop} {f : Option Value → Value}
    (updated : ∀ v?, (∀ v ∈ v?, P v) → P (f v?)) (each : ∀ entry ∈ l, P entry.2) :
    ∀ entry ∈ l.update key f, P entry.2 := by
  unfold update
  split
  · rw [List.forall_mem_map]
    intro entry inside
    split
    · refine updated _ fun v same => ?_
      obtain rfl := Option.some.inj same
      exact each entry inside
    · exact each entry inside
  · rw [List.forall_mem_append, List.forall_mem_singleton]
    exact ⟨each, updated none nofun⟩

theorem get?_map (l : Entries) (key other : String) (f : Value → Value) :
    get? (l.map fun entry => if entry.1 = key then (key, f entry.2) else entry) other =
      if other = key then (l.get? key).map f else l.get? other := by
  induction l with
  | nil => simp [get?]
  | cons entry l ih =>
    obtain ⟨k, value⟩ := entry
    rw [List.map_cons, get?_cons, get?_cons]
    by_cases here : k = key
    · subst here
      rw [if_pos rfl, get?_cons, ih]
      by_cases same : k = other
      · simp [same]
      · simp [same, Ne.symm same]
    · rw [if_neg here, get?_cons, ih, if_neg here]
      by_cases same : other = key
      · subst same
        simp [here]
      · simp [same]

/-- An update gives its key what it makes of the present value, and leaves every other key alone. -/
theorem get?_update (l : Entries) (key other : String) (f : Option Value → Value) :
    (l.update key f).get? other = if other = key then some (f (l.get? key)) else l.get? other := by
  by_cases present : key ∈ l.keys
  · have found : l.get? key ≠ none := fun none => get?_eq_none_iff.mp none present
    obtain ⟨value, found⟩ := Option.ne_none_iff_exists'.mp found
    rw [update, if_pos present, get?_map l key other fun value => f (some value), found,
      Option.map_some]
  · have absent := get?_eq_none_iff.mpr present
    rw [update_of_not_mem present, get?_append, get?_cons, absent]
    by_cases same : other = key
    · subst same
      rw [if_pos rfl, if_pos rfl, absent, Option.none_or]
    · rw [if_neg same, if_neg (Ne.symm same)]
      exact Option.or_none

theorem insertMany_of_nodup {pairs : Entries} (distinct : (l ++ pairs).keys.Nodup) :
    l.insertMany pairs = l ++ pairs := by
  induction pairs generalizing l with
  | nil => rw [List.append_nil, insertMany, List.foldl_nil]
  | cons pair pairs ih =>
    have fresh : pair.1 ∉ l.keys := by
      rw [keys_append, keys_cons, List.nodup_append] at distinct
      exact fun inside => distinct.2.2 pair.1 inside pair.1 List.mem_cons_self rfl
    rw [← List.singleton_append, ← List.append_assoc] at distinct ⊢
    rw [insertMany, List.singleton_append, List.foldl_cons, insert, update_of_not_mem fresh]
    exact ih distinct

end Entries

end RowFilter
