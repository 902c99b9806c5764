import Statechart.Guard.Parser
import Statechart.StateId

/-!
# Statechart.Error

What can be wrong with a chart, and what can go wrong in the engine.

* `Flaw`: a structural mistake in a definition.
* `ChartError`: the mistakes of a chart's author. Reading and building a chart fail with these.
* `EngineError`: the errors of a running engine.

Each has a text for people (`message`) and a stable code for programs (`code`).
-/

namespace Statechart

/-- A structural mistake. The identifiers name the state it was found in. -/
inductive Flaw where
  | invalidKey (key : String)
  | childrenNotAllowed (id : StateId) (kind : String)
  | childrenNeeded (id : StateId) (kind : String)
  | finalNotEmpty (id : StateId)
  | duplicateChild (id : StateId) (key : String)
  | duplicateService (id : StateId) (serviceId : String)
  | initialNotChild (id : StateId) (initial : String)
  | forbiddenNotEmpty (id : StateId)
  | rootTarget (id : StateId)
  | guardTwice
  | initialNotAllowed (id : StateId)
  | initialNeeded (id : StateId)
  | invalidDelay (id : StateId) (key : String)
  | invalidStateKey (id : StateId) (key : String)
  | invalidChartId (id : String)
  deriving DecidableEq, Repr

namespace Flaw

def message : Flaw → String
  | .invalidKey key => "invalid state key '" ++ key ++ "'"
  | .childrenNotAllowed id kind => id.text ++ ": " ++ kind ++ " state cannot have children"
  | .childrenNeeded id kind => id.text ++ ": " ++ kind ++ " state needs at least one child"
  | .finalNotEmpty id => id.text ++ ": final state cannot declare transitions or services"
  | .duplicateChild id key => id.text ++ ": duplicate child key '" ++ key ++ "'"
  | .duplicateService id serviceId => id.text ++ ": duplicate service id '" ++ serviceId ++ "'"
  | .initialNotChild id initial =>
    id.text ++ ": initial state '" ++ initial ++ "' is not a child"
  | .forbiddenNotEmpty id =>
    id.text ++ ": forbidden transition cannot have targets, actions or a guard"
  | .rootTarget id => id.text ++ ": the root state cannot be a transition target"
  | .guardTwice => "a transition takes either 'guard' or 'in', not both"
  | .initialNotAllowed id => id.text ++ ": 'initial' is only valid on compound states"
  | .initialNeeded id => id.text ++ ": compound state needs 'initial'"
  | .invalidDelay id key =>
    id.text ++ ": 'after' key '" ++ key ++ "' is not a number of milliseconds"
  | .invalidStateKey id key => id.text ++ ": invalid state key '" ++ key ++ "'"
  | .invalidChartId id => "invalid chart id '" ++ id ++ "'"

end Flaw

inductive DecodeError where
  | malformed
  | duplicateKey (key : String)
  deriving DecidableEq, Repr

namespace DecodeError

/-- The reason in words, where there is more to say than that the shape is wrong. -/
def message? : DecodeError → Option String
  | .malformed => none
  | .duplicateKey key => some ("duplicate key '" ++ key ++ "'")

end DecodeError

inductive ChartError where
  | invalidDefinition (flaw : Flaw)
  | unknownTarget (state : StateId) (target : String)
  | invalidGuard (reason : GuardError)
  | unknownService (name : String)
  | badJson (reason : DecodeError)
  deriving DecidableEq, Repr

namespace ChartError

def code : ChartError → String
  | .invalidDefinition _ => "INVALID_DEFINITION"
  | .unknownTarget _ _ => "UNKNOWN_TARGET"
  | .invalidGuard _ => "INVALID_GUARD"
  | .unknownService _ => "UNKNOWN_SERVICE"
  | .badJson _ => "BAD_DEFINITION_JSON"

def message : ChartError → String
  | .invalidDefinition flaw => "invalid chart definition: " ++ flaw.message
  | .unknownTarget state target =>
    "unknown target '" ++ target ++ "' referenced from state '" ++ state.text ++ "'"
  | .invalidGuard reason => "invalid guard expression: " ++ reason.message
  | .unknownService name => "unknown service: " ++ name
  | .badJson reason => "JSON error: " ++ (reason.message?.getD "invalid chart")

end ChartError

inductive EngineError where
  | notInitialized (event : String)
  | notBelow (id above : StateId)
  | noCommonAncestor (source target : StateId)
  | microstepLimit (limit : Nat)
  | unknownState (id : String)
  deriving DecidableEq, Repr

namespace EngineError

def code : EngineError → String
  | .notInitialized _ => "INVARIANT_VIOLATION"
  | .notBelow _ _ => "INVARIANT_VIOLATION"
  | .noCommonAncestor _ _ => "INVARIANT_VIOLATION"
  | .microstepLimit _ => "MICROSTEP_LIMIT"
  | .unknownState _ => "UNKNOWN_STATE"

def message : EngineError → String
  | .notInitialized event =>
    "chart invariant violated: event '" ++ event ++ "' processed before initialization"
  | .notBelow id above =>
    "chart invariant violated: " ++ id.text ++ " is not below " ++ above.text
  | .noCommonAncestor source target =>
    "chart invariant violated: " ++ source.text ++ " and " ++ target.text ++ " share no ancestor"
  | .microstepLimit limit => "macrostep exceeded " ++ toString limit ++ " microsteps"
  | .unknownState id => "unknown state: " ++ id

end EngineError

end Statechart
