import RowFilter.Proofs.Shape
import RowFilter.Proofs.Traversal

/-!
# Arguments with every item changed

Changing the items of an argument leaves its shape, so reading a command's operands before the change or
after it comes to the same.

* `Nested.Alike` : two arguments of one nesting whose items correspond; `Nested.Alike.map_eq`;
* `Shape.fits_map_iff` : a shape does not see the items;
* `Condition.ofArgument?_map` : a command takes its operands from the places that the shape gives.
-/

namespace RowFilter

variable {α β γ : Type}

namespace Nested

mutual

/-- One nesting, and items that correspond. -/
inductive Alike (same : α → β → Prop) : Nested α → Nested β → Prop
  | item {a : α} {b : β} (items : same a b) : Alike same (.item a) (.item b)
  | list {as : List (Nested α)} {bs : List (Nested β)} (members : AlikeMembers same as bs) :
      Alike same (.list as) (.list bs)

inductive AlikeMembers (same : α → β → Prop) : List (Nested α) → List (Nested β) → Prop
  | nil : AlikeMembers same [] []
  | cons {a : Nested α} {b : Nested β} {as : List (Nested α)} {bs : List (Nested β)}
      (first : Alike same a b) (others : AlikeMembers same as bs) :
      AlikeMembers same (a :: as) (b :: bs)

end

@[simp] theorem map_item (f : α → β) (a : α) : (item a).map f = item (f a) := by
  rw [map]

@[simp] theorem map_list (f : α → β) (members : List (Nested α)) :
    (list members).map f = list (members.map (map f)) := by
  rw [map]

mutual

/-- Arguments that correspond become equal when corresponding items do. -/
theorem Alike.map_eq {same : α → β → Prop} {f : α → γ} {g : β → γ}
    (agree : ∀ a b, same a b → f a = g b) {v : Nested α} {w : Nested β} (alike : Alike same v w) :
    v.map f = w.map g := by
  cases alike with
  | item items => rw [map_item, map_item, agree _ _ items]
  | list members => rw [map_list, map_list, members.map_eq agree]

theorem AlikeMembers.map_eq {same : α → β → Prop} {f : α → γ} {g : β → γ}
    (agree : ∀ a b, same a b → f a = g b) {as : List (Nested α)} {bs : List (Nested β)}
    (alike : AlikeMembers same as bs) : as.map (map f) = bs.map (map g) := by
  cases alike with
  | nil => rfl
  | cons first others => rw [List.map_cons, List.map_cons, first.map_eq agree, others.map_eq agree]

end

/-! ## Reading operands -/

theorem scalar?_map (f : α → β) (v : Nested α) : (v.map f).scalar? = v.scalar?.map f := by
  cases v <;> simp [scalar?]

theorem scalars?_map (f : α → β) (v : Nested α) : (v.map f).scalars? = v.scalars?.map (List.map f) := by
  cases v with
  | item a => rw [map_item]; rfl
  | list members =>
    rw [map_list]
    cases members with
    | nil => rfl
    | cons m members =>
      change ((m :: members).map (map f)).mapM scalar? = ((m :: members).mapM scalar?).map _
      simp only [List.mapM_map, Function.comp_def, scalar?_map]
      exact mapM_map_eq scalar? f (m :: members)

theorem pair?_map (f : α → β) (v : Nested α) : (v.map f).pair? = v.pair?.map (Prod.map f f) := by
  unfold pair?
  rw [scalars?_map]
  cases v.scalars? with
  | none => rfl
  | some operands => rcases operands with _ | ⟨low, _ | ⟨high, _ | _⟩⟩ <;> rfl

theorem pairs?_map (f : α → β) (v : Nested α) :
    (v.map f).pairs? = v.pairs?.map (List.map (Prod.map f f)) := by
  cases v with
  | item a => rw [map_item]; rfl
  | list members =>
    rw [map_list]
    cases members with
    | nil => rfl
    | cons m members =>
      change ((m :: members).map (map f)).mapM pair? = ((m :: members).mapM pair?).map _
      simp only [List.mapM_map, Function.comp_def, pair?_map]
      exact mapM_map_eq pair? (Prod.map f f) (m :: members)

end Nested

theorem Shape.fits_map_iff (f : α → β) (v : Nested α) {shape : Shape} :
    shape.Fits (v.map f) ↔ shape.Fits v := by
  cases shape with
  | single => simp only [fits_single_iff, Nested.scalar?_map, Option.isSome_map]
  | ignored => exact ⟨fun _ => .ignored v, fun _ => .ignored _⟩
  | items => simp only [fits_items_iff, Nested.scalars?_map, Option.isSome_map]
  | pairs => simp only [fits_pairs_iff, Nested.pairs?_map, Option.isSome_map]

theorem Condition.ofArgument?_map (f : α → β) (v : Nested α) (command : Command) :
    Condition.ofArgument? (v.map f) command =
      (Condition.ofArgument? v command).map (Condition.map f) := by
  cases command with
  | isNull => rfl
  | equals | differs | above | atLeast | contains | startsWith =>
    simp only [ofArgument?, Nested.scalar?_map, Option.map_map]
    rfl
  | oneOf =>
    simp only [ofArgument?, Nested.scalars?_map, Option.map_map]
    rfl
  | within | outside =>
    simp only [ofArgument?, Nested.pairs?_map, Option.map_map]
    rfl

end RowFilter
