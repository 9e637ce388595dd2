import Mathlib.Data.List.Forall2

/-!
# Going through a list up to the first refusal

* `refusal?` : the refusal of a result, if it is one;
* `mapM_eq_ok_iff` : a list is gone through if every member is;
* `mapM_eq_error_iff`, `refusal?_mapM` : otherwise the refusal is that of the first refused member;
* `foldlM_invariant` : what every accepted step keeps is kept by all of them;
* `forall₂_append`, `exists_of_forall₂_right` : parts and members of a list that corresponds to another.
-/

namespace RowFilter

variable {ε α β : Type}

def refusal? : Except ε α → Option ε
  | .ok _ => none
  | .error e => some e

@[simp] theorem refusal?_ok (a : α) : refusal? (.ok a : Except ε α) = none := rfl

@[simp] theorem refusal?_error (e : ε) : refusal? (.error e : Except ε α) = some e := rfl

theorem refusal?_eq_some_iff {x : Except ε α} {e : ε} : refusal? x = some e ↔ x = .error e := by
  cases x <;> simp

theorem refusal?_eq_none_iff {x : Except ε α} : refusal? x = none ↔ ∃ a, x = .ok a := by
  cases x <;> simp

theorem refusal?_bind (x : Except ε α) (f : α → Except ε β) :
    refusal? (x >>= f) = match x with
      | .ok a => refusal? (f a)
      | .error e => some e := by
  cases x <;> rfl

theorem bind_eq_ok_iff {x : Except ε α} {f : α → Except ε β} {b : β} :
    x >>= f = .ok b ↔ ∃ a, x = .ok a ∧ f a = .ok b := by
  cases x with
  | ok a =>
    constructor
    · intro h
      exact ⟨a, rfl, h⟩
    · rintro ⟨a', found, h⟩
      obtain rfl := Except.ok.inj found
      exact h
  | error e =>
    constructor
    · intro h
      cases h
    · rintro ⟨_, found, -⟩
      cases found

theorem map_eq_ok_iff {x : Except ε α} {f : α → β} {b : β} :
    x.map f = .ok b ↔ ∃ a, x = .ok a ∧ f a = b := by
  cases x <;> simp [Except.map]

/-- What is done to an accepted result is never a reason to refuse it. -/
@[simp] theorem refusal?_map (f : α → β) (x : Except ε α) : refusal? (x.map f) = refusal? x := by
  cases x <;> rfl

@[simp] theorem refusal?_bind_pure (f : α → β) (x : Except ε α) :
    refusal? (x >>= fun a => pure (f a)) = refusal? x := by
  cases x <;> rfl

/-! ## Lists -/

theorem mapM_cons_eq (f : α → Except ε β) (a : α) (as : List α) :
    (a :: as).mapM f = match f a with
      | .ok b => (as.mapM f).map (b :: ·)
      | .error e => .error e := by
  rw [List.mapM_cons]
  cases f a with
  | error e => rfl
  | ok b => cases as.mapM f <;> rfl

theorem mapM_eq_ok_iff {f : α → Except ε β} {as : List α} {bs : List β} :
    as.mapM f = .ok bs ↔ List.Forall₂ (fun a b => f a = .ok b) as bs := by
  induction as generalizing bs with
  | nil => cases bs <;> simp [pure, Except.pure]
  | cons a as ih =>
    rw [mapM_cons_eq]
    cases head : f a with
    | error e => cases bs <;> simp [head]
    | ok b =>
      cases tail : as.mapM f with
      | error e => cases bs <;> simp [head, ← ih, tail, Except.map]
      | ok rest => cases bs <;> simp [head, ← ih, tail, Except.map]

theorem refusal?_mapM (f : α → Except ε β) (as : List α) :
    refusal? (as.mapM f) = as.findSome? fun a => refusal? (f a) := by
  induction as with
  | nil => rfl
  | cons a as ih =>
    rw [mapM_cons_eq, List.findSome?_cons]
    cases f a with
    | error e => rfl
    | ok b => rw [refusal?_ok, refusal?_map, ih]

theorem mapM_eq_error_iff {f : α → Except ε β} {as : List α} {e : ε} :
    as.mapM f = .error e ↔ ∃ before a after, as = before ++ a :: after ∧
      (∀ x ∈ before, ∃ b, f x = .ok b) ∧ f a = .error e := by
  rw [← refusal?_eq_some_iff, refusal?_mapM, List.findSome?_eq_some_iff]
  simp only [refusal?_eq_some_iff, refusal?_eq_none_iff]
  constructor
  · rintro ⟨before, a, after, split, found, clear⟩
    exact ⟨before, a, after, split, clear, found⟩
  · rintro ⟨before, a, after, split, clear, found⟩
    exact ⟨before, a, after, split, found, clear⟩

theorem mapM_map_eq {m : Type → Type} [Monad m] [LawfulMonad m] {γ : Type} (f : α → m β) (g : β → γ)
    (as : List α) : (as.mapM fun a => g <$> f a) = List.map g <$> as.mapM f := by
  induction as with
  | nil => simp
  | cons a as ih => simp [List.mapM_cons, ih]

theorem mapM_ok_iff_forall {f : α → Except ε β} {as : List α} :
    (∃ bs, as.mapM f = .ok bs) ↔ ∀ a ∈ as, ∃ b, f a = .ok b := by
  simp only [← refusal?_eq_none_iff, refusal?_mapM, List.findSome?_eq_none_iff]

/-- What is gathered from the results is gathered from the members, if that holds of each. -/
theorem flatMap_eq_of_mapM {γ : Type} {f : α → Except ε β} {g : α → List γ} {h : β → List γ}
    (each : ∀ a b, f a = .ok b → h b = g a) {as : List α} {bs : List β} (through : as.mapM f = .ok bs) :
    bs.flatMap h = as.flatMap g := by
  have related := (mapM_eq_ok_iff.mp through).imp each
  clear through
  induction related with
  | nil => rfl
  | cons head _ ih =>
    rw [List.flatMap_cons, List.flatMap_cons, head, ih]

theorem mapM_congr_forall₂ {m : Type → Type} [Monad m] [LawfulMonad m] {γ : Type} {f : α → m γ}
    {g : β → m γ} {as : List α} {bs : List β} (same : List.Forall₂ (fun a b => f a = g b) as bs) :
    as.mapM f = bs.mapM g := by
  induction same with
  | nil => rfl
  | cons head _ ih => rw [List.mapM_cons, List.mapM_cons, head, ih]

/-- What every accepted step keeps is kept by all of them. -/
theorem foldlM_invariant {step : β → α → Except ε β} {P : β → Prop}
    (kept : ∀ b a next, P b → step b a = .ok next → P next) {as : List α} {b last : β} (start : P b)
    (done : as.foldlM step b = .ok last) : P last := by
  induction as generalizing b with
  | nil => exact Except.ok.inj done ▸ start
  | cons a as ih =>
    rw [List.foldlM_cons, bind_eq_ok_iff] at done
    obtain ⟨next, accepted, done⟩ := done
    exact ih (kept b a next start accepted) done

/-! ## The accepted part of a result -/

theorem toOption_eq_some_iff {x : Except ε α} {a : α} : x.toOption = some a ↔ x = .ok a := by
  cases x <;> simp [Except.toOption]

theorem toOption_map (f : α → β) (x : Except ε α) : (x.map f).toOption = x.toOption.map f := by
  cases x <;> rfl

theorem toOption_bind_pure (f : α → β) (x : Except ε α) :
    (x >>= fun a => pure (f a)).toOption = x.toOption.map f := by
  cases x <;> rfl

theorem toOption_mapM (f : α → Except ε β) (as : List α) :
    (as.mapM f).toOption = as.mapM fun a => (f a).toOption := by
  induction as with
  | nil => rfl
  | cons a as ih =>
    rw [mapM_cons_eq, List.mapM_cons, ← ih]
    cases f a with
    | error e => rfl
    | ok b => cases as.mapM f <;> rfl

/-! ## Lists that correspond member by member -/

theorem exists_of_forall₂_right {R : α → β → Prop} {as : List α} {bs : List β}
    (related : List.Forall₂ R as bs) {b : β} (member : b ∈ bs) : ∃ a ∈ as, R a b := by
  induction related with
  | nil => exact absurd member List.not_mem_nil
  | @cons a _ as _ head _ ih =>
    rcases List.mem_cons.mp member with rfl | later
    · exact ⟨a, List.mem_cons_self, head⟩
    · obtain ⟨a', inside, found⟩ := ih later
      exact ⟨a', List.mem_cons_of_mem a inside, found⟩

theorem forall₂_append {R : α → β → Prop} {before after : List α} {bs : List β}
    (related : List.Forall₂ R (before ++ after) bs) :
    ∃ before' after', bs = before' ++ after' ∧ List.Forall₂ R before before' ∧
      List.Forall₂ R after after' := by
  induction before generalizing bs with
  | nil => exact ⟨[], bs, rfl, .nil, related⟩
  | cons a before ih =>
    cases related with
    | cons head tail =>
      obtain ⟨before', after', rfl, prior, later⟩ := ih tail
      exact ⟨_ :: before', after', rfl, .cons head prior, later⟩

theorem forall₂_append_cons {R : α → β → Prop} {before after : List α} {a : α} {bs : List β}
    (related : List.Forall₂ R (before ++ a :: after) bs) :
    ∃ before' b after', bs = before' ++ b :: after' ∧ List.Forall₂ R before before' ∧ R a b := by
  obtain ⟨before', rest, rfl, prior, later⟩ := forall₂_append related
  cases later with
  | cons head tail => exact ⟨before', _, _, rfl, prior, head⟩

end RowFilter
