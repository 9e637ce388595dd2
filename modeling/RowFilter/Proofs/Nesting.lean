import RowFilter.Value.Nested

/-!
# How deep a nested list is

* `Nested.Within` : nested lists with items and lists of a kind, at most so many lists in one another;
* `Nested.depth_list_le_iff` : a list is one deeper than its deepest member;
* `Nested.within_of_depth_le` : so a depth bounds how many lists stand in one another;
* `Nested.Within.forall_items` : the kind of the items is that of every item, at any depth.
-/

namespace RowFilter.Nested

variable {α : Type}

/-- Nested lists with items and lists of a kind, and with at most `room` lists in one another. -/
inductive Within (leaf : α → Prop) (row : List (Nested α) → Prop) : Nat → Nested α → Prop where
  | item {room : Nat} {a : α} (kind : leaf a) : Within leaf row room (.item a)
  | list {room : Nat} {members : List (Nested α)} (kind : row members)
      (each : ∀ v ∈ members, Within leaf row room v) : Within leaf row (room + 1) (.list members)

theorem items_item (a : α) : (item a).items = [a] := by
  rw [items, fold]

theorem items_list (members : List (Nested α)) : (list members).items = members.flatMap items := by
  rw [items, fold]
  rfl

theorem Within.forall_items {leaf : α → Prop} {row : List (Nested α) → Prop} {room : Nat} {v : Nested α}
    (within : Within leaf row room v) : ∀ a ∈ v.items, leaf a := by
  induction within with
  | item kind =>
    rw [items_item, List.forall_mem_singleton]
    exact kind
  | list _ _ ih =>
    rw [items_list]
    intro a inside
    obtain ⟨v, member, here⟩ := List.mem_flatMap.mp inside
    exact ih v member a here

theorem foldl_max_le_iff (depths : List Nat) (start bound : Nat) :
    depths.foldl max start ≤ bound ↔ start ≤ bound ∧ ∀ n ∈ depths, n ≤ bound := by
  induction depths generalizing start with
  | nil => simp
  | cons n depths ih => rw [List.foldl_cons, ih, Nat.max_le, List.forall_mem_cons, and_assoc]

theorem depth_list (members : List (Nested α)) :
    (list members).depth = (members.map depth).foldl max 0 + 1 := by
  rw [depth, fold]
  rfl

theorem depth_list_le_iff {members : List (Nested α)} {room : Nat} :
    (list members).depth ≤ room + 1 ↔ ∀ v ∈ members, v.depth ≤ room := by
  rw [depth_list, Nat.add_le_add_iff_right, foldl_max_le_iff, List.forall_mem_map]
  exact and_iff_right (Nat.zero_le room)

theorem within_of_depth_le {room : Nat} {v : Nested α} (shallow : v.depth ≤ room) :
    Within (fun _ => True) (fun _ => True) room v := by
  induction room generalizing v with
  | zero =>
    cases v with
    | item a => exact .item trivial
    | list members =>
      rw [depth_list] at shallow
      omega
  | succ room ih =>
    cases v with
    | item a => exact .item trivial
    | list members => exact .list trivial fun w inside => ih (depth_list_le_iff.mp shallow w inside)

end RowFilter.Nested
