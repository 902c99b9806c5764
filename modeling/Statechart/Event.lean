import Statechart.Json.Basic
import Statechart.StateId

/-!
# Statechart.Event

Events, what transitions listen for, and the bands of the event queue.

* `Event`: what the engine processes. `Event.data` is what guards and actions see of it,
  `Event.name` is what traces show.
* `EventPattern.accepts`: does a transition of this source listen for that event?
* `Priority`: the band an event waits in.
-/

namespace Statechart

inductive Event where
  /-- Starts an instance: the root is entered. -/
  | start
  | named (name : String) (data : Json)
  /-- Lets transitions without event be tried. -/
  | immediate
  /-- `delay` milliseconds have passed since `state` was entered. -/
  | delayed (state : StateId) (delay : Nat)
  | serviceSuccess (serviceId : String) (data : Json)
  | serviceError (serviceId : String) (message : String)
  /-- A compound or orthogonal state was completed. -/
  | done (state : StateId)
  | executionError (message : String)
  deriving Inhabited, Repr

namespace Event

def data : Event → Json
  | .named _ data => data
  | .serviceSuccess _ data => data
  | .serviceError id message => .obj [("service_id", .str id), ("message", .str message)]
  | .executionError message => .obj [("message", .str message)]
  | _ => .null

def name : Event → String
  | .start => "init"
  | .named name _ => name
  | .immediate => "always"
  | .delayed state delay => "after." ++ toString delay ++ "." ++ state.text
  | .serviceSuccess id _ => "done.invoke." ++ id
  | .serviceError id _ => "error.invoke." ++ id
  | .done state => "done.state." ++ state.text
  | .executionError _ => "error.execution"

def isError : Event → Bool
  | .serviceError _ _ => true
  | .executionError _ => true
  | _ => false

/-- Equality of events; their data are compared as JSON values. -/
def same : Event → Event → Bool
  | .start, .start => true
  | .named n d, .named n' d' => n == n' && d == d'
  | .immediate, .immediate => true
  | .delayed s t, .delayed s' t' => s == s' && t == t'
  | .serviceSuccess i d, .serviceSuccess i' d' => i == i' && d == d'
  | .serviceError i m, .serviceError i' m' => i == i' && m == m'
  | .done s, .done s' => s == s'
  | .executionError m, .executionError m' => m == m'
  | _, _ => false

instance : BEq Event := ⟨same⟩

end Event

inductive EventPattern where
  | named (name : String)
  | immediate
  /-- The timer of this many milliseconds, started when the source was entered. -/
  | delayed (delay : Nat)
  | done
  | serviceSuccess (serviceId : String)
  | serviceError (serviceId : String)
  | executionError
  deriving DecidableEq, Repr

namespace EventPattern

/-- Does a transition of `source` with this pattern listen for the event? -/
def accepts (p : EventPattern) (source : StateId) (event : Event) : Bool :=
  match p, event with
  | .named n, .named n' _ => n == n'
  | .immediate, .immediate => true
  | .delayed d, .delayed state d' => d == d' && state == source
  | .done, .done state => state == source
  | .serviceSuccess i, .serviceSuccess i' _ => i == i'
  | .serviceError i, .serviceError i' _ => i == i'
  | .executionError, .executionError _ => true
  | _, _ => false

def name? : EventPattern → Option String
  | .named name => some name
  | _ => none

end EventPattern

/-- The bands of the queue, the most urgent first. -/
inductive Priority where
  | stabilization
  | currentMacrostep
  | nextMacrostep
  deriving DecidableEq, Inhabited, Repr

namespace Priority

def all : List Priority := [.stabilization, .currentMacrostep, .nextMacrostep]

end Priority

end Statechart
