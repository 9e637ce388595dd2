import RowFilter.Proofs.Finite
import RowFilter.Proofs.Json.Verdict

/-!
# What a JSON body can hold

* `Document.Finite` : documents with finite numbers; the document of a text is one (`Document.finite_of_writtenAs`);
* `bounded_of_argument` : its argument has its numbers, and lists no deeper than there is room for;
* `Given` : criteria of such arguments, few enough, in the order of the bytes of their keys;
* `given_of_read` : a body gives no others.
-/

namespace RowFilter.Json

/-! ## Documents -/

inductive Document.Finite : Document → Prop where
  | null : Document.Finite .null
  | bool (b : Bool) : Document.Finite (.bool b)
  | number {n : Number} (finite : n.isFinite) : Document.Finite (.number n)
  | text (s : String) : Document.Finite (.text s)
  | array {items : List Document} (each : ∀ d ∈ items, Document.Finite d) : Document.Finite (.array items)
  | object {members : List (String × Document)} (each : ∀ member ∈ members, Document.Finite member.2) :
      Document.Finite (.object members)

def Phrase.Finite : Phrase → Prop
  | .value d => d.Finite
  | .items ds => ∀ d ∈ ds, d.Finite
  | .members ms => ∀ member ∈ ms, member.2.Finite

theorem isFinite_of_tokenText {n : Number} {part : List Char} (written : TokenText (.number n) part) :
    n.isFinite := by
  cases written with
  | number _ converted =>
    cases n with
    | int i => rfl
    | float x => exact number?_isFinite converted

theorem isFinite_of_spaced {ts : List Token} {text : List Char} (spaced : Spaced ts text) :
    ∀ n, .number n ∈ ts → n.isFinite := by
  induction spaced with
  | nil => exact fun n none => absurd none List.not_mem_nil
  | cons _ here _ ih =>
    intro n inside
    rcases List.mem_cons.mp inside with rfl | later
    · exact isFinite_of_tokenText here
    · exact ih n later

/-- A phrase has no numbers but those of its tokens. -/
theorem Derives.finite {p : Phrase} {ts : List Token} (derives : Derives p ts)
    (numbers : ∀ n, .number n ∈ ts → n.isFinite) : p.Finite := by
  induction derives with
  | null => exact .null
  | bool b => exact .bool b
  | number n => exact .number (numbers n List.mem_cons_self)
  | text s => exact .text s
  | emptyArray => exact .array nofun
  | emptyObject => exact .object nofun
  | array _ ih => exact .array (ih fun n inside => numbers n (by simp [inside]))
  | object _ ih => exact .object (ih fun n inside => numbers n (by simp [inside]))
  | lastItem _ ih => exact List.forall_mem_singleton.mpr (ih numbers)
  | item _ _ ih others =>
    exact List.forall_mem_cons.mpr ⟨ih fun n inside => numbers n (by simp [inside]),
      others fun n inside => numbers n (by simp [inside])⟩
  | lastMember _ ih => exact List.forall_mem_singleton.mpr (ih fun n inside => numbers n (by simp [inside]))
  | member _ _ ih others =>
    exact List.forall_mem_cons.mpr ⟨ih fun n inside => numbers n (by simp [inside]),
      others fun n inside => numbers n (by simp [inside])⟩

theorem Document.finite_of_writtenAs {d : Document} {text : String} (written : d.WrittenAs text) : d.Finite := by
  obtain ⟨ts, spaced, derives⟩ := written
  exact derives.finite (isFinite_of_spaced spaced)

/-! ## Arguments -/

/-- Texts and finite numbers, in lists of which at most `room` stand in one another. -/
abbrev Bounded (room : Nat) (v : Value) : Prop := v.Within (fun s => s.isFinite) (fun _ => True) room

theorem bounded_of_argument {d : Document} (finite : d.Finite) {room : Nat} {v : Value}
    (given : argument room d = .ok v) : Bounded room v := by
  induction finite generalizing room v with
  | null | text =>
    rw [argument] at given
    obtain rfl := Except.ok.inj given
    exact .item rfl
  | number finite =>
    rw [argument] at given
    obtain rfl := Except.ok.inj given
    exact .item finite
  | bool | object =>
    rw [argument] at given
    cases given
  | @array items _ ih =>
    cases room with
    | zero =>
      rw [argument] at given
      cases given
    | succ room =>
      rw [argument, bind_eq_ok_iff] at given
      obtain ⟨values, through, made⟩ := given
      obtain rfl := Except.ok.inj made
      refine .list trivial fun w inside => ?_
      obtain ⟨d, member, given⟩ := exists_of_forall₂_right (mapM_eq_ok_iff.mp through) inside
      exact ih d member given

/-! ## Criteria -/

/-- Criteria that a JSON body may give: few enough keys, in the order of their bytes, with values of its texts and
finite numbers. -/
structure Given (limit : Nat) (c : Criteria) : Prop where
  wellFormed : c.WellFormed
  ascending : c.keys.Pairwise fun k l => Text.utf8 k < Text.utf8 l
  room : c.size ≤ limit
  bounded : ∀ entry ∈ c.toList, Bounded maxNesting entry.2

theorem given_of_read {limit : Nat} {text : String} {c : Criteria} (done : read limit text = .ok c) :
    Given limit c := by
  unfold read at done
  split at done
  · rename_i d parsed
    have finite := Document.finite_of_writtenAs (Document.ofText?_eq_some_iff.mp parsed)
    cases finite with
    | @object members each =>
      obtain ⟨room, entries, through, rfl⟩ := criteria_object_eq_ok_iff.mp done
      have list := toList_of_mapM_entry through
      refine ⟨Criteria.wellFormed_ofList entries, ?_, ?_, ?_⟩
      · rw [Criteria.keys_eq, list, keys_of_mapM_entry through]
        exact pairwise_sortedMembers members
      · exact size_of_mapM_entry through ▸ room
      · rw [list]
        intro e inside
        obtain ⟨⟨key, d⟩, member, given⟩ := exists_of_forall₂_right (mapM_eq_ok_iff.mp through) inside
        have last := mem_of_last? (mem_sortedMembers_iff.mp member)
        exact bounded_of_argument (each (key, d) last) (entry_eq_ok_iff.mp given).2
    | _ => cases done
  · cases done

end RowFilter.Json
