import Statechart.Configuration
import Statechart.Event
import Statechart.Json.Record

/-!
# Statechart.Event.Json

Events, priorities and the identifiers in them as JSON values. An event is a variant with its tag in
the field `type`; an identifier is the list of its keys; a delay is a number of 64 bits.

* `Event.toJson`, `Event.ofJson?`: writing and reading events. What is read may also be an array of
  the tag and the fields, and an object may hold other fields besides.
-/

namespace Statechart

open Json

namespace StateId

def toJson (id : StateId) : Json :=
  .arr (id.keys.map .str)

/-- Reads a list of keys, without looking at the keys. -/
def ofJson? (v : Json) : Option StateId :=
  (strings? v).map StateId.mk

end StateId

namespace Configuration

def toJson (c : Configuration) : Json :=
  .arr (c.ids.map StateId.toJson)

def ofJson? : Json → Option Configuration
  | .arr items => (items.mapM StateId.ofJson?).map ofList
  | _ => none

end Configuration

namespace Event

def tag : Event → String
  | .start => "initialize"
  | .named _ _ => "named"
  | .immediate => "immediate"
  | .delayed _ _ => "delayed"
  | .serviceSuccess _ _ => "service_success"
  | .serviceError _ _ => "service_error"
  | .done _ => "done"
  | .executionError _ => "execution_error"

/-- Milliseconds as a number of 64 bits: of a delay that is too long, the lower bits. -/
def delayToJson (delay : Nat) : Json :=
  .int (delay % (greatestNat64 + 1) : Nat)

def toFields : Event → Fields
  | .start => []
  | .named name data => [("name", .str name), ("data", data)]
  | .immediate => []
  | .delayed state delay => [("state", state.toJson), ("delay", delayToJson delay)]
  | .serviceSuccess id data => [("service_id", .str id), ("data", data)]
  | .serviceError id message => [("service_id", .str id), ("message", .str message)]
  | .done state => [("state", state.toJson)]
  | .executionError message => [("message", .str message)]

def toJson (e : Event) : Json :=
  .obj ((tagKey, .str e.tag) :: e.toFields)

def decodeFields? (tag : String) (content : Json) : Option Event :=
  match tag with
  | "initialize" => if isBare content then some .start else none
  | "named" => do
    let fs ← record? ["name", "data"] false content
    let name ← required? str? (find? "name" fs)
    let data ← find? "data" fs
    return .named name data
  | "immediate" => if isBare content then some .immediate else none
  | "delayed" => do
    let fs ← record? ["state", "delay"] false content
    let state ← required? StateId.ofJson? (find? "state" fs)
    let delay ← required? nat64? (find? "delay" fs)
    return .delayed state delay
  | "service_success" => do
    let fs ← record? ["service_id", "data"] false content
    let id ← required? str? (find? "service_id" fs)
    let data ← find? "data" fs
    return .serviceSuccess id data
  | "service_error" => do
    let fs ← record? ["service_id", "message"] false content
    let id ← required? str? (find? "service_id" fs)
    let message ← required? str? (find? "message" fs)
    return .serviceError id message
  | "done" => do
    let fs ← record? ["state"] false content
    let state ← required? StateId.ofJson? (find? "state" fs)
    return .done state
  | "execution_error" => do
    let fs ← record? ["message"] false content
    let message ← required? str? (find? "message" fs)
    return .executionError message
  | _ => none

def ofJson? (v : Json) : Option Event := do
  let (tag, content) ← tagged? v
  let tag ← str? tag
  decodeFields? tag content

end Event

namespace Priority

def text : Priority → String
  | .stabilization => "stabilization"
  | .currentMacrostep => "current_macrostep"
  | .nextMacrostep => "next_macrostep"

def ofName? (name : String) : Option Priority :=
  all.find? (·.text = name)

/-- Reads a band: its name, or an object with the name as its only key and null in it. -/
def ofJson? : Json → Option Priority
  | .str name => ofName? name
  | .obj [(name, .null)] => ofName? name
  | _ => none

end Priority

end Statechart
