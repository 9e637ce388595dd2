import RowFilter.Json.Parser
import RowFilter.Proofs.Json.Lexical

/-!
# The grammar of JSON texts

* `Derives` : what tokens stand for: a document, items between commas, or members between commas;
* `Document.WrittenAs` : the texts of a document;
* `Derives.ofTokens?_eq` : tokens of a document are read to that document;
* `State.Reads` : what the tokens read so far are, given the state they lead to. Every step keeps it, so a run does;
* `Document.ofText?_eq_some_iff` : a text is read to a document exactly if it is a text of it.
-/

namespace RowFilter.Json

/-! ## The grammar -/

/-- What a part of a text may stand for. -/
inductive Phrase where
  | value (d : Document)
  | items (ds : List Document)
  | members (ms : List (String × Document))

/-- The tokens of a phrase. Items and members have a comma between each two, and none before or after. -/
inductive Derives : Phrase → List Token → Prop where
  | null : Derives (.value .null) [.null]
  | bool (b : Bool) : Derives (.value (.bool b)) [.bool b]
  | number (n : Number) : Derives (.value (.number n)) [.number n]
  | text (s : String) : Derives (.value (.text s)) [.text s]
  | emptyArray : Derives (.value (.array [])) [.openBracket, .closeBracket]
  | array {ds : List Document} {ts : List Token} (items : Derives (.items ds) ts) :
      Derives (.value (.array ds)) (.openBracket :: (ts ++ [.closeBracket]))
  | emptyObject : Derives (.value (.object [])) [.openBrace, .closeBrace]
  | object {ms : List (String × Document)} {ts : List Token} (members : Derives (.members ms) ts) :
      Derives (.value (.object ms)) (.openBrace :: (ts ++ [.closeBrace]))
  | lastItem {d : Document} {ts : List Token} (value : Derives (.value d) ts) : Derives (.items [d]) ts
  | item {d : Document} {ds : List Document} {ts us : List Token} (value : Derives (.value d) ts)
      (others : Derives (.items ds) us) : Derives (.items (d :: ds)) (ts ++ .comma :: us)
  | lastMember {key : String} {d : Document} {ts : List Token} (value : Derives (.value d) ts) :
      Derives (.members [(key, d)]) (.text key :: .colon :: ts)
  | member {key : String} {d : Document} {ms : List (String × Document)} {ts us : List Token}
      (value : Derives (.value d) ts) (others : Derives (.members ms) us) :
      Derives (.members ((key, d) :: ms)) (.text key :: .colon :: (ts ++ .comma :: us))

def Document.WrittenAs (d : Document) (text : String) : Prop :=
  ∃ ts, Spaced ts text.toList ∧ Derives (.value d) ts

/-- Numbers are kept apart by commas. -/
theorem Derives.apart_append {p : Phrase} {ts : List Token} (derives : Derives p ts) {us : List Token}
    (apart : Apart us) (noNumber : ∀ u ∈ us.head?, u.isNumber = false) : Apart (ts ++ us) := by
  have behind {t : Token} {us : List Token} (mark : t.isNumber = false) (apart : Apart us) : Apart (t :: us) :=
    apart_cons.mpr ⟨fun _ _ both => Bool.false_ne_true (mark.symm.trans both.1), apart⟩
  induction derives generalizing us with
  | null | bool | text => exact behind rfl apart
  | number n =>
    exact apart_cons.mpr ⟨fun u first both => Bool.false_ne_true ((noNumber u first).symm.trans both.2), apart⟩
  | emptyArray | emptyObject => exact behind rfl (behind rfl apart)
  | array _ ih | object _ ih =>
    rw [List.cons_append, List.append_assoc]
    exact behind rfl (ih (behind rfl apart) (by rintro _ ⟨⟩; rfl))
  | lastItem _ ih => exact ih apart noNumber
  | item _ _ ih others =>
    rw [List.append_assoc]
    exact ih (behind rfl (others apart noNumber)) (by rintro _ ⟨⟩; rfl)
  | lastMember _ ih => exact behind rfl (behind rfl (ih apart noNumber))
  | member _ _ ih others =>
    rw [List.cons_append, List.cons_append, List.append_assoc]
    exact behind rfl (behind rfl (ih (behind rfl (others apart noNumber)) (by rintro _ ⟨⟩; rfl)))

theorem Derives.apart {p : Phrase} {ts : List Token} (derives : Derives p ts) : Apart ts := by
  rw [← List.append_nil ts]
  exact derives.apart_append .nil fun _ none => absurd none (Option.not_mem_none _)

/-! ## Tokens of a document are read -/

namespace State

/-- Reading a phrase from the state in front of it leads to the state behind it, whatever follows. -/
def Carried : Phrase → List Token → Prop
  | .value d, ts => ∀ frames rest, run? (.value frames) (ts ++ rest) = run? (.completed d frames) rest
  | .items ds, ts => ∀ done frames rest, run? (.value (.array done :: frames)) (ts ++ .closeBracket :: rest) =
      run? (.completed (.array (done.reverse ++ ds)) frames) rest
  | .members ms, ts => ∀ done frames rest, run? (.key done frames) (ts ++ .closeBrace :: rest) =
      run? (.completed (.object (done.reverse ++ ms)) frames) rest

end State

theorem Derives.head {p : Phrase} {ts : List Token} (derives : Derives p ts) :
    ∃ t us, ts = t :: us ∧ t ≠ .closeBracket := by
  induction derives with
  | lastItem _ ih => exact ih
  | item _ _ ih _ =>
    obtain ⟨t, us, rfl, opens⟩ := ih
    exact ⟨t, _, rfl, opens⟩
  | _ => exact ⟨_, _, rfl, Token.noConfusion⟩

/-- Since nothing begins with a closing bracket, the first item of an array is read as any other value. -/
theorem Derives.run?_firstItem {p : Phrase} {ts : List Token} (derives : Derives p ts) (frames : List Frame)
    (rest : List Token) :
    State.run? (.firstItem frames) (ts ++ rest) = State.run? (.value (.array [] :: frames)) (ts ++ rest) := by
  obtain ⟨t, us, rfl, opens⟩ := derives.head
  have same : State.step? (.firstItem frames) t = State.step? (.value (.array [] :: frames)) t := by
    cases t with
    | closeBracket => exact absurd rfl opens
    | _ => rfl
  rw [List.cons_append, State.run?, State.run?, same]

theorem Derives.run?_firstKey {ms : List (String × Document)} {ts : List Token} (members : Derives (.members ms) ts)
    (frames : List Frame) (rest : List Token) :
    State.run? (.firstKey frames) (ts ++ rest) = State.run? (.key [] frames) (ts ++ rest) := by
  cases members <;> rfl

theorem Derives.carried {p : Phrase} {ts : List Token} (derives : Derives p ts) : State.Carried p ts := by
  induction derives with
  | null | bool | number | text | emptyArray | emptyObject => exact fun _ _ => rfl
  | array items ih =>
    intro frames rest
    calc State.run? (.value frames) (.openBracket :: (_ ++ [.closeBracket]) ++ rest)
        = State.run? (.firstItem frames) (_ ++ .closeBracket :: rest) := by
          rw [List.cons_append, List.append_assoc]; rfl
      _ = State.run? (.value (.array [] :: frames)) (_ ++ .closeBracket :: rest) := items.run?_firstItem frames _
      _ = _ := ih [] frames rest
  | object members ih =>
    intro frames rest
    calc State.run? (.value frames) (.openBrace :: (_ ++ [.closeBrace]) ++ rest)
        = State.run? (.firstKey frames) (_ ++ .closeBrace :: rest) := by
          rw [List.cons_append, List.append_assoc]; rfl
      _ = State.run? (.key [] frames) (_ ++ .closeBrace :: rest) := members.run?_firstKey frames _
      _ = _ := ih [] frames rest
  | lastItem value ih =>
    intro done frames rest
    rw [ih, ← List.reverse_cons]
    rfl
  | item value others ih othersIh =>
    intro done frames rest
    rw [List.append_assoc, ih, List.append_cons done.reverse, ← List.reverse_cons]
    exact othersIh _ frames rest
  | lastMember value ih =>
    intro done frames rest
    apply (ih _ _).trans
    rw [← List.reverse_cons]
    rfl
  | member value others ih othersIh =>
    intro done frames rest
    rw [List.cons_append, List.cons_append, List.append_assoc, List.append_cons done.reverse,
      ← List.reverse_cons]
    exact (ih _ _).trans (othersIh _ frames rest)

theorem Derives.ofTokens?_eq {d : Document} {ts : List Token} (derives : Derives (.value d) ts) :
    Document.ofTokens? ts = some d := by
  have run : State.run? (.value []) ts = some (.completed d []) := by
    rw [← List.append_nil ts]
    exact derives.carried [] []
  rw [Document.ofTokens?, run]
  rfl

/-! ## Nothing else is read -/

/-- The items of an open array, last first, and their tokens. -/
inductive Items : List Document → List Token → Prop where
  | nil : Items [] []
  | snoc {d : Document} {done : List Document} {ts us : List Token} (others : Items done ts)
      (value : Derives (.value d) us) : Items (d :: done) (ts ++ (us ++ [.comma]))

inductive Members : List (String × Document) → List Token → Prop where
  | nil : Members [] []
  | snoc {key : String} {d : Document} {done : List (String × Document)} {ts us : List Token}
      (others : Members done ts) (value : Derives (.value d) us) :
      Members ((key, d) :: done) (ts ++ (.text key :: .colon :: (us ++ [.comma])))

/-- Open containers, the innermost first, and the tokens read since the outermost was opened. -/
inductive Opened : List Frame → List Token → Prop where
  | nil : Opened [] []
  | array {frames : List Frame} {done : List Document} {ts us : List Token} (outer : Opened frames ts)
      (items : Items done us) : Opened (.array done :: frames) (ts ++ .openBracket :: us)
  | object {frames : List Frame} {done : List (String × Document)} {key : String} {ts us : List Token}
      (outer : Opened frames ts) (members : Members done us) :
      Opened (.object done key :: frames) (ts ++ .openBrace :: (us ++ [.text key, .colon]))

theorem Items.derives_append {done ds : List Document} {ts us : List Token} (items : Items done ts)
    (derives : Derives (.items ds) us) : Derives (.items (done.reverse ++ ds)) (ts ++ us) := by
  induction items generalizing ds us with
  | nil => exact derives
  | snoc _ value ih =>
    rw [List.reverse_cons, List.append_assoc, List.append_assoc, List.append_assoc]
    exact ih (.item value derives)

theorem Members.derives_append {done ms : List (String × Document)} {ts us : List Token}
    (members : Members done ts) (derives : Derives (.members ms) us) :
    Derives (.members (done.reverse ++ ms)) (ts ++ us) := by
  induction members generalizing ms us with
  | nil => exact derives
  | snoc _ value ih =>
    rw [List.reverse_cons, List.append_assoc, List.append_assoc, List.cons_append, List.cons_append,
      List.cons_append, List.append_assoc]
    exact ih (.member value derives)

namespace State

/-- What the tokens read so far are, given the state they lead to. -/
inductive Reads : State → List Token → Prop where
  | value {frames : List Frame} {ts : List Token} (outer : Opened frames ts) : Reads (.value frames) ts
  | firstItem {frames : List Frame} {ts : List Token} (outer : Opened frames ts) :
      Reads (.firstItem frames) (ts ++ [.openBracket])
  | firstKey {frames : List Frame} {ts : List Token} (outer : Opened frames ts) :
      Reads (.firstKey frames) (ts ++ [.openBrace])
  | key {frames : List Frame} {done : List (String × Document)} {ts us : List Token} (outer : Opened frames ts)
      (members : Members done us) : Reads (.key done frames) (ts ++ .openBrace :: us)
  | colon {frames : List Frame} {done : List (String × Document)} {key : String} {ts us : List Token}
      (outer : Opened frames ts) (members : Members done us) :
      Reads (.colon done key frames) (ts ++ .openBrace :: (us ++ [.text key]))
  | completed {frames : List Frame} {d : Document} {ts us : List Token} (outer : Opened frames ts)
      (value : Derives (.value d) us) : Reads (.completed d frames) (ts ++ us)

theorem Reads.begin {frames : List Frame} {ts : List Token} {t : Token} {next : State} (outer : Opened frames ts)
    (step : begin? frames t = some next) : Reads next (ts ++ [t]) := by
  unfold begin? at step
  split at step <;> cases step
  · exact .firstItem outer
  · exact .firstKey outer
  · exact .completed outer .null
  · exact .completed outer (.bool _)
  · exact .completed outer (.number _)
  · exact .completed outer (.text _)

inductive Step : State → Token → State → Prop where
  | begin {frames : List Frame} {t : Token} {next : State} (begun : begin? frames t = some next) :
      Step (.value frames) t next
  | emptyArray {frames : List Frame} : Step (.firstItem frames) .closeBracket (.completed (.array []) frames)
  | beginItem {frames : List Frame} {t : Token} {next : State}
      (begun : begin? (.array [] :: frames) t = some next) : Step (.firstItem frames) t next
  | emptyObject {frames : List Frame} : Step (.firstKey frames) .closeBrace (.completed (.object []) frames)
  | firstKey {frames : List Frame} {key : String} : Step (.firstKey frames) (.text key) (.colon [] key frames)
  | key {frames : List Frame} {done : List (String × Document)} {key : String} :
      Step (.key done frames) (.text key) (.colon done key frames)
  | colon {frames : List Frame} {done : List (String × Document)} {key : String} :
      Step (.colon done key frames) .colon (.value (.object done key :: frames))
  | nextItem {frames : List Frame} {done : List Document} {d : Document} :
      Step (.completed d (.array done :: frames)) .comma (.value (.array (d :: done) :: frames))
  | endArray {frames : List Frame} {done : List Document} {d : Document} :
      Step (.completed d (.array done :: frames)) .closeBracket
        (.completed (.array (d :: done).reverse) frames)
  | nextMember {frames : List Frame} {done : List (String × Document)} {key : String} {d : Document} :
      Step (.completed d (.object done key :: frames)) .comma (.key ((key, d) :: done) frames)
  | endObject {frames : List Frame} {done : List (String × Document)} {key : String} {d : Document} :
      Step (.completed d (.object done key :: frames)) .closeBrace
        (.completed (.object ((key, d) :: done).reverse) frames)

theorem Step.of_step? {s next : State} {t : Token} (step : s.step? t = some next) : Step s t next := by
  unfold step? at step
  split at step
  case h_1 => exact .begin step
  case h_3 => exact .beginItem step
  case h_12 => cases step
  all_goals
    obtain rfl := Option.some.inj step
    constructor

theorem Reads.step {s next : State} {t : Token} {ts : List Token} (reads : Reads s ts)
    (step : s.step? t = some next) : Reads next (ts ++ [t]) := by
  cases Step.of_step? step with
  | begin begun =>
    cases reads with
    | value outer => exact begin outer begun
  | emptyArray =>
    cases reads with
    | firstItem outer =>
      rw [List.append_assoc]
      exact .completed outer .emptyArray
  | beginItem begun =>
    cases reads with
    | firstItem outer => exact begin (.array outer .nil) begun
  | emptyObject =>
    cases reads with
    | firstKey outer =>
      rw [List.append_assoc]
      exact .completed outer .emptyObject
  | firstKey =>
    cases reads with
    | firstKey outer =>
      rw [List.append_assoc]
      exact .colon outer .nil
  | key =>
    cases reads with
    | key outer members =>
      rw [List.append_assoc]
      exact .colon outer members
  | colon =>
    cases reads with
    | colon outer members =>
      rw [List.append_assoc, List.cons_append, List.append_assoc]
      exact .value (.object outer members)
  | nextItem =>
    cases reads with
    | completed outer value =>
      cases outer with
      | array outer items =>
        rw [List.append_assoc, List.append_assoc, List.cons_append]
        exact .value (.array outer (.snoc items value))
  | endArray =>
    cases reads with
    | completed outer value =>
      cases outer with
      | array outer items =>
        rw [List.append_assoc, List.append_assoc, List.cons_append, ← List.append_assoc, List.reverse_cons]
        exact .completed outer (.array (items.derives_append (.lastItem value)))
  | @nextMember _ _ k =>
    cases reads with
    | completed outer value =>
      cases outer with
      | object outer members =>
        have read := key outer (Members.snoc members value : Members ((k, _) :: _) _)
        simpa only [List.append_assoc, List.cons_append, List.nil_append] using read
  | @endObject _ _ k =>
    cases reads with
    | completed outer value =>
      cases outer with
      | object outer members =>
        have last : Derives (.members [(k, _)]) _ := .lastMember value
        have read := completed outer (.object (members.derives_append last))
        rw [List.reverse_cons]
        simpa only [List.append_assoc, List.cons_append, List.nil_append] using read

theorem Reads.run {s last : State} {ts us : List Token} (reads : Reads s ts) (run : run? s us = some last) :
    Reads last (ts ++ us) := by
  induction us generalizing s ts with
  | nil =>
    obtain rfl := Option.some.inj run
    rwa [List.append_nil]
  | cons t us ih =>
    rw [run?] at run
    split at run
    · rename_i next step
      rw [List.append_cons]
      exact ih (reads.step step) run
    · cases run

end State

/-- Tokens that are read to a document are tokens of it. -/
theorem derives_of_ofTokens? {d : Document} {ts : List Token} (found : Document.ofTokens? ts = some d) :
    Derives (.value d) ts := by
  obtain ⟨last, run, complete⟩ := Option.bind_eq_some_iff.mp found
  have reads : State.Reads last ts := State.Reads.run (.value .nil) run
  unfold State.document? at complete
  split at complete
  · obtain rfl := Option.some.inj complete
    cases reads with
    | completed outer value =>
      cases outer
      exact value
  · cases complete

/-- A text is read to a document exactly if it is a text of it. -/
theorem Document.ofText?_eq_some_iff {d : Document} {text : String} :
    Document.ofText? text = some d ↔ d.WrittenAs text := by
  constructor
  · intro found
    obtain ⟨ts, lexed, parsed⟩ := Option.bind_eq_some_iff.mp found
    exact ⟨ts, spaced_of_tokens? lexed, derives_of_ofTokens? parsed⟩
  · rintro ⟨ts, spaced, derives⟩
    rw [Document.ofText?, tokens?_of_spaced spaced derives.apart]
    exact derives.ofTokens?_eq

end RowFilter.Json
