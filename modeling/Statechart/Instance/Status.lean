import Statechart.Engine.Drain
import Statechart.Event.Json

/-!
# Statechart.Instance.Status

How far an instance has come, and what its operations fail with.

* `Status`: the status of an instance that has ended carries how it ended.
* `InstanceError`: the errors of instances, with texts and stable codes.
-/

namespace Statechart

inductive Termination where
  | completed
  | cancelled
  | faulted (fault : Fault)
  deriving DecidableEq, Repr

inductive Status where
  | notStarted
  | active
  | ended (termination : Termination)
  deriving DecidableEq, Inhabited, Repr

namespace Status

def text : Status → String
  | .notStarted => "not_started"
  | .active => "active"
  | .ended .completed => "completed"
  | .ended .cancelled => "cancelled"
  | .ended (.faulted _) => "errored"

def isTerminal : Status → Bool
  | .ended _ => true
  | _ => false

def termination? : Status → Option Termination
  | .ended termination => some termination
  | _ => none

end Status

inductive InstanceError where
  | chart (e : ChartError)
  | engine (e : EngineError)
  | alreadyStarted
  | notStarted
  | terminated (status : Status)
  /-- An action failed that no active state reacted to. -/
  | execution (message : String)
  | serviceFailed (serviceId : String) (message : String)
  | noHost
  deriving DecidableEq, Repr

namespace InstanceError

def ofFault : Fault → InstanceError
  | .execution message => .execution message
  | .service id message => .serviceFailed id message

def code : InstanceError → String
  | .chart e => e.code
  | .engine e => e.code
  | .alreadyStarted => "ALREADY_STARTED"
  | .notStarted => "NOT_STARTED"
  | .terminated _ => "TERMINATED"
  | .execution _ => "EXECUTION_ERROR"
  | .serviceFailed _ _ => "SERVICE_FAILED"
  | .noHost => "NO_RUNTIME"

def message : InstanceError → String
  | .chart e => "core error: " ++ e.message
  | .engine e => "core error: " ++ e.message
  | .alreadyStarted => "instance already started"
  | .notStarted => "instance not started"
  | .terminated status => "instance is " ++ status.text
  | .execution message => "instance faulted: " ++ message
  | .serviceFailed id message => "service '" ++ id ++ "' failed: " ++ message
  | .noHost => "no tokio runtime available to run services"

end InstanceError

end Statechart
