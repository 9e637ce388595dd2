import RowFilter.Condition

/-!
# The arguments that a command takes

* `Shape.Fits` : a shape as a set of arguments, said without reading any;
* `Nested.scalars?_eq_some_iff`, `Nested.pairs?_eq_some_iff` : which lists the two readers of lists take;
* `Condition.ofArgument?_isSome_iff` : a command takes exactly the arguments of its shape.
-/

namespace RowFilter

variable {α β : Type}

inductive Shape.Fits : Shape → Nested α → Prop
  | single (a : α) : Fits .single (.item a)
  | ignored (argument : Nested α) : Fits .ignored argument
  | items (operands : List α) (some : operands ≠ []) : Fits .items (.list (operands.map .item))
  | pairs (ranges : List (α × α)) (some : ranges ≠ []) :
      Fits .pairs (.list (ranges.map fun range => .list [.item range.1, .item range.2]))

namespace Nested

/-- A reader that undoes `write`, used on every member of a list. -/
theorem mapM_eq_some_iff {read : β → Option α} {write : α → β}
    (undoes : ∀ b a, read b = some a ↔ b = write a) {bs : List β} {as : List α} :
    bs.mapM read = some as ↔ bs = as.map write := by
  induction bs generalizing as with
  | nil => cases as <;> simp
  | cons b bs ih =>
    simp only [List.mapM_cons, Option.bind_eq_bind, Option.pure_def, Option.bind_eq_some_iff,
      Option.some.injEq, undoes, ih]
    constructor
    · rintro ⟨a, rfl, rest, rfl, rfl⟩
      rfl
    · intro written
      cases as with
      | nil => simp at written
      | cons a as =>
        obtain ⟨rfl, rfl⟩ := List.cons.inj written
        exact ⟨a, rfl, as, rfl, rfl⟩

theorem scalar?_eq_some_iff {v : Nested α} {a : α} : v.scalar? = some a ↔ v = .item a := by
  cases v <;> simp [scalar?]

theorem scalars?_eq_some_iff {v : Nested α} {operands : List α} :
    v.scalars? = some operands ↔ operands ≠ [] ∧ v = .list (operands.map .item) := by
  unfold scalars?
  split
  · simp
  · cases operands <;> simp
  · rw [mapM_eq_some_iff fun _ _ => scalar?_eq_some_iff, list.injEq]
    cases operands <;> simp

theorem pair?_eq_some_iff {v : Nested α} {low high : α} :
    v.pair? = some (low, high) ↔ v = .list [.item low, .item high] := by
  unfold pair?
  split
  · rename_i l h found
    rw [scalars?_eq_some_iff] at found
    obtain ⟨-, rfl⟩ := found
    simp
  · rename_i other
    constructor
    · simp
    · rintro rfl
      exact absurd rfl (other low high)

theorem pairs?_eq_some_iff {v : Nested α} {ranges : List (α × α)} :
    v.pairs? = some ranges ↔
      ranges ≠ [] ∧ v = .list (ranges.map fun range => .list [.item range.1, .item range.2]) := by
  unfold pairs?
  split
  · simp
  · cases ranges <;> simp
  · rw [mapM_eq_some_iff fun _ _ => pair?_eq_some_iff, list.injEq]
    cases ranges <;> simp

end Nested

namespace Shape

theorem fits_single_iff {v : Nested α} : single.Fits v ↔ v.scalar?.isSome := by
  simp only [Option.isSome_iff_exists, Nested.scalar?_eq_some_iff]
  constructor
  · rintro ⟨a⟩
    exact ⟨a, rfl⟩
  · rintro ⟨a, rfl⟩
    exact .single a

theorem fits_items_iff {v : Nested α} : items.Fits v ↔ v.scalars?.isSome := by
  simp only [Option.isSome_iff_exists, Nested.scalars?_eq_some_iff]
  constructor
  · rintro (_ | _ | ⟨operands, some⟩)
    exact ⟨operands, some, rfl⟩
  · rintro ⟨operands, some, rfl⟩
    exact .items operands some

theorem fits_pairs_iff {v : Nested α} : pairs.Fits v ↔ v.pairs?.isSome := by
  simp only [Option.isSome_iff_exists, Nested.pairs?_eq_some_iff]
  constructor
  · rintro (_ | _ | _ | ⟨ranges, some⟩)
    exact ⟨ranges, some, rfl⟩
  · rintro ⟨ranges, some, rfl⟩
    exact .pairs ranges some

instance : (shape : Shape) → (v : Nested α) → Decidable (shape.Fits v)
  | .single, _ => decidable_of_iff _ fits_single_iff.symm
  | .ignored, v => .isTrue (.ignored v)
  | .items, _ => decidable_of_iff _ fits_items_iff.symm
  | .pairs, _ => decidable_of_iff _ fits_pairs_iff.symm

end Shape

theorem Condition.ofArgument?_isSome_iff (v : Nested α) (command : Command) :
    (Condition.ofArgument? v command).isSome ↔ command.shape.Fits v := by
  cases command with
  | isNull => exact ⟨fun _ => .ignored v, fun _ => rfl⟩
  | equals | differs | above | atLeast | contains | startsWith =>
    rw [Condition.ofArgument?, Option.isSome_map]
    exact Shape.fits_single_iff.symm
  | oneOf =>
    rw [Condition.ofArgument?, Option.isSome_map]
    exact Shape.fits_items_iff.symm
  | within | outside =>
    rw [Condition.ofArgument?, Option.isSome_map]
    exact Shape.fits_pairs_iff.symm

end RowFilter
