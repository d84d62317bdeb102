import Bytewise.Proofs.Audit.Agreement
import Bytewise.Selector.Event
import Mathlib.Data.List.Forall2

/-!
# The log tells the truth

What an event says about a request is had from two sides: the size from the set that was named, the
number of accepted bytes from the encoding that was chosen. Since the choice is exact, the one
follows from the other.

* `Request.run_serve`, `Request.run_serveAll`: one event for each request, in their order;
* `Request.cardinality_of_answer`: what is accepted, from the size of the named set;
* `Request.told_event`: the event of a request is true, and so is its text;
* `Request.log_tells_truth`: whole logs.
-/

namespace Bytewise

/-- What is written of an event. -/
structure Record where
  level : String
  target : String
  message : String
  deriving DecidableEq, Repr

def Event.record (e : Event) : Record := ⟨e.level.name, Event.target, e.message⟩

namespace Request

variable {r : Request} {m : Matcher}

/-! ## One event for each request -/

/-- The event that a request leaves. -/
def event (r : Request) : Event :=
  match r.answer with
  | .error .emptySet => .rejected r.inverse
  | .ok m => .built m.kind r.set.card r.inverse m.cardinality

theorem run_serve (r : Request) (log : List Event) :
    r.serve.run log = (r.answer, log ++ [r.event]) := by
  unfold serve event
  cases r.answer with
  | error e =>
    cases e
    rfl
  | ok m => rfl

theorem run_serveAll (rs : List Request) (log : List Event) :
    (serveAll rs).run log = (rs.map answer, log ++ rs.map event) := by
  induction rs generalizing log with
  | nil =>
    rw [List.map_nil, List.map_nil, List.append_nil]
    rfl
  | cons r rs ih =>
    have hrest := ih (log ++ [r.event])
    rw [List.append_assoc] at hrest
    rw [serveAll, List.mapM_cons, StateT.run_bind, run_serve]
    show (do
      let p ← (serveAll rs).run (log ++ [r.event])
      pure (r.answer :: p.1, p.2) : Id _) = _
    rw [hrest]
    rfl

/-! ## The event is true -/

/-- The size of the target, from that of the named set. -/
def targetSize (r : Request) : Nat := if r.inverse then 256 - r.set.card else r.set.card

theorem card_target (r : Request) : (r.set.complementIf r.inverse).card = r.targetSize := by
  have hsum := r.set.card_complement
  unfold targetSize ByteSet.complementIf
  split
  · omega
  · rfl

/-- **What is accepted follows from the named set.** Whichever encoding was chosen, it counts the
members of the target. -/
theorem cardinality_of_answer (h : r.answer = .ok m) : m.cardinality = r.targetSize := by
  have hne : r.set ≠ .empty := by
    intro he
    rw [answer, he, Selector.select_empty] at h
    cases h
  rw [answer, r.selector.select_of_ne_empty hne] at h
  have hagrees :=
    Matcher.agrees_iff.mpr (r.selector.accepts_choose_eq_contains r.set r.inverse)
  rw [Except.ok.inj h] at hagrees
  rw [hagrees.cardinality, card_target]

/-- The event that a request should leave when it is answered in some way, and how it is written. -/
inductive Told (r : Request) : Except SelectError Matcher → Event → Record → Prop
  | rejected : Told r (.error .emptySet) (.rejected r.inverse)
      ⟨"DEBUG", "byteclass::factory",
        "rejecting empty byte set (inverse: " ++ Wording.ofFlag r.inverse ++ ")"⟩
  | built (m : Matcher) : Told r (.ok m) (.built m.kind r.set.card r.inverse r.targetSize)
      ⟨"TRACE", "byteclass::factory",
        "built " ++ m.kind.name ++ " matcher for " ++ Wording.ofNat r.set.card
          ++ " byte values (inverse: " ++ Wording.ofFlag r.inverse ++ ", matches: "
          ++ Wording.ofNat r.targetSize ++ ")"⟩

theorem told_event (r : Request) : r.Told r.answer r.event r.event.record := by
  unfold event
  cases h : r.answer with
  | error e =>
    cases e
    exact .rejected
  | ok m =>
    simp only
    rw [cardinality_of_answer h]
    exact .built m

theorem Told.debug_iff {answer : Except SelectError Matcher} {e : Event} {record : Record}
    (h : r.Told answer e record) : record.level = "DEBUG" ↔ answer = .error .emptySet := by
  cases h <;> simp

/-- **The log tells the truth.** However many requests are served, to whatever selectors, each adds
one event to those before, in the order of the requests. A request that is refused leaves a record
of the level DEBUG with its sense, and no other request does; any other leaves one of the level
TRACE, with the kind of the matcher it is answered by, the size of the set it names, its sense, and
the size of its target. -/
theorem log_tells_truth (rs : List Request) (before : List Event) :
    ∃ events, (serveAll rs).run before =
        (rs.map fun r => r.selector.select r.set r.inverse, before ++ events) ∧
      events.length = rs.length ∧
      List.Forall₂ (fun r e => r.Told (r.selector.select r.set r.inverse) e e.record ∧
        (e.record.level = "DEBUG" ↔ r.selector.select r.set r.inverse = .error .emptySet) ∧
        e.record.target = "byteclass::factory") rs events := by
  refine ⟨rs.map event, run_serveAll rs before, List.length_map event, ?_⟩
  rw [List.forall₂_map_right_iff, List.forall₂_same]
  intro r _
  exact ⟨r.told_event, r.told_event.debug_iff, rfl⟩

example : ((serveAll [⟨{}, .empty, true⟩, ⟨⟨0⟩, .ofList [5], true⟩]).run []).2.map Event.message =
    ["rejecting empty byte set (inverse: true)",
      "built InvertedOne matcher for 1 byte values (inverse: true, matches: 255)"] := by
  decide +kernel

end Request

end Bytewise
