import Bytewise.Selector.Basic

/-!
# Events

Each request to a selector leaves one event, in the order of the requests.

Core Lean only.
-/

namespace Bytewise

inductive Event
  /-- The request named no byte. -/
  | rejected (inverse : Bool)
  /-- A matcher of some kind was chosen for a set of some size, and accepts so many bytes. -/
  | built (kind : Kind) (size : Nat) (inverse : Bool) (accepted : Nat)
  deriving DecidableEq, Repr

namespace Event

inductive Level
  | debug
  | trace
  deriving DecidableEq, Repr

def Level.name : Level → String
  | debug => "DEBUG"
  | trace => "TRACE"

def level : Event → Level
  | rejected _ => .debug
  | built .. => .trace

/-- The channel that every event goes to. -/
def target : String := "byteclass::factory"

def message : Event → String
  | rejected inverse => "rejecting empty byte set (inverse: " ++ Wording.ofFlag inverse ++ ")"
  | built kind size inverse accepted =>
    "built " ++ kind.name ++ " matcher for " ++ Wording.ofNat size ++ " byte values (inverse: "
      ++ Wording.ofFlag inverse ++ ", matches: " ++ Wording.ofNat accepted ++ ")"

end Event

structure Request where
  selector : Selector
  set : ByteSet
  inverse : Bool
  deriving DecidableEq

namespace Request

def answer (r : Request) : Except SelectError Matcher := r.selector.select r.set r.inverse

/-- Answers a request and adds its event to those before. -/
def serve (r : Request) : StateM (List Event) (Except SelectError Matcher) := do
  let answer := r.answer
  match answer with
  | .error .emptySet => modify (· ++ [.rejected r.inverse])
  | .ok m => modify (· ++ [.built m.kind r.set.card r.inverse m.cardinality])
  return answer

/-- Serves requests one after another. -/
def serveAll (rs : List Request) : StateM (List Event) (List (Except SelectError Matcher)) :=
  rs.mapM serve

end Request

end Bytewise
