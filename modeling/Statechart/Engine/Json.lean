import Statechart.Engine.Drain
import Statechart.Event.Json

/-!
# Statechart.Engine.Json

Limits and microsteps as JSON values.
-/

namespace Statechart

open Json

namespace TransitionRef

def toJson (r : TransitionRef) : Json :=
  .obj [("source", r.source.toJson), ("index", .int r.index)]

end TransitionRef

namespace MicrostepKind

def toJson : MicrostepKind → Json
  | .initialization => .obj [(tagKey, .str "initialization")]
  | .stabilization => .obj [(tagKey, .str "stabilization")]
  | .event cause transition =>
    .obj [(tagKey, .str "event"), ("event", cause.toJson), ("transition", transition.toJson)]

end MicrostepKind

namespace Microstep

def toJson (m : Microstep) : Json :=
  .obj [("kind", m.kind.toJson), ("exited", .arr (m.exited.map StateId.toJson)),
    ("entered", .arr (m.entered.map StateId.toJson))]

end Microstep

namespace ServiceErrorPolicy

/-- Reads a policy: its name, or an object with the name as its only key and null in it. -/
def ofJson? : Json → Option ServiceErrorPolicy
  | .str name => ofName? name
  | .obj [(name, .null)] => ofName? name
  | _ => none

end ServiceErrorPolicy

namespace Limits

/-- A field that may be missing, but is not null. -/
def fieldOr? {α : Type} (read : Json → Option α) (default : α) : Option Json → Option α
  | none => some default
  | some v => read v

def ofJson? (v : Json) : Option Limits := do
  let fs ← record? ["max_microsteps", "service_errors"] false v
  let maxMicrosteps ← fieldOr? nat? ({} : Limits).maxMicrosteps (find? "max_microsteps" fs)
  let serviceErrors ←
    fieldOr? ServiceErrorPolicy.ofJson? ({} : Limits).serviceErrors (find? "service_errors" fs)
  return { maxMicrosteps, serviceErrors }

end Limits

end Statechart
