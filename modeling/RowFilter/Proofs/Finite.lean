import RowFilter.Criterion
import RowFilter.Proofs.Nesting
import RowFilter.Proofs.Traversal

/-!
# Finite numbers

* `Number.isFinite`, `Scalar.isFinite` : every text and every integer, and the doubles that SQL can write;
* `Scalar.isFinite_of_numberSpelled?` : a text spells no other number;
* `Criterion.isFinite_of_read` : so a key that is taken apart asks for finite numbers if its argument has no other.
-/

namespace RowFilter

def Number.isFinite : Number → Bool
  | .int _ => true
  | .float x => x.isFinite

def Scalar.isFinite : Scalar → Bool
  | .text _ => true
  | .number n => n.isFinite

theorem Number.isFinite_of_ofInt? {i : Int} {n : Number} (fits : ofInt? i = some n) : n.isFinite := by
  unfold ofInt? at fits
  split at fits
  · obtain rfl := Option.some.inj fits
    rfl
  · cases fits

theorem Number.isFinite_of_ofNumeral? {numeral : Numeral} {n : Number} (spelled : ofNumeral? numeral = some n) :
    n.isFinite := by
  unfold ofNumeral? at spelled
  split at spelled
  · rename_i m integer
    obtain ⟨i, -, fits⟩ := Option.bind_eq_some_iff.mp integer
    obtain rfl := Option.some.inj spelled
    exact isFinite_of_ofInt? fits
  · dsimp only at spelled
    split at spelled
    · rename_i finite
      obtain rfl := Option.some.inj spelled
      exact finite
    · cases spelled

namespace Scalar

theorem isFinite_of_numberSpelled? {text : String} {n : Number} (spelled : numberSpelled? text = some n) :
    n.isFinite := by
  obtain ⟨numeral, -, spelled⟩ := Option.bind_eq_some_iff.mp spelled
  exact Number.isFinite_of_ofNumeral? spelled

theorem isFinite_numeric {s : Scalar} (finite : s.isFinite) : s.numeric.isFinite := by
  cases s with
  | number n => exact finite
  | text t =>
    rw [numeric]
    cases spelled : numberSpelled? t with
    | none => rfl
    | some n => exact isFinite_of_numberSpelled? spelled

end Scalar

theorem Value.isFinite_numeric {v : Value} (finite : ∀ s ∈ v.items, s.isFinite) :
    ∀ s ∈ (Value.numeric v).items, s.isFinite := by
  cases v with
  | list members => exact finite
  | item s =>
    rw [numeric, Nested.items_item, List.forall_mem_singleton] at *
    exact Scalar.isFinite_numeric finite

theorem Criterion.isFinite_of_read {key : String} {argument : Value} {criterion : Criterion}
    (taken : read key argument = .ok criterion) (finite : ∀ s ∈ argument.items, s.isFinite) :
    ∀ s ∈ criterion.argument.items, s.isFinite := by
  unfold read at taken
  split at taken
  · obtain rfl := Except.ok.inj taken
    exact Value.isFinite_numeric finite
  · obtain ⟨commands, -, made⟩ := bind_eq_ok_iff.mp taken
    obtain rfl := Except.ok.inj made
    exact finite

end RowFilter
