import Statechart.Json.Basic

/-!
# Statechart.Service

Services: computations bound to a state, started when the state is entered. A service is described
by what it does on an input (`ServiceRun`), not by how.

* `ServiceBody`: a service that can be started.
* `Registry`: services by the names that charts use.
* `Registry.commandLine`: the services that every chart run from the command line can name.
-/

namespace Statechart

/-- What a started service does. Delays are in milliseconds. -/
inductive ServiceRun where
  | succeed (delay : Nat) (data : Json)
  | fail (delay : Nat) (message : String)
  /-- Ends without a report. -/
  | abandon
  | untilCancelled

abbrev ServiceBody := Json → ServiceRun

/-- A declared service. Without an id it is named after its place in the chart. -/
structure ServiceDef where
  id : Option String := none
  body : ServiceBody
  input : Json := .null

structure Service where
  id : String
  body : ServiceBody
  input : Json

structure Registry where
  services : List (String × ServiceBody) := []

namespace Registry

def register (r : Registry) (name : String) (body : ServiceBody) : Registry :=
  ⟨(name, body) :: r.services.filter (·.1 ≠ name)⟩

def contains (r : Registry) (name : String) : Bool :=
  r.services.any (·.1 = name)

def lookup? (r : Registry) (name : String) : Option ServiceBody :=
  (r.services.find? (·.1 = name)).map (·.2)

def names (r : Registry) : List String :=
  (r.services.map (·.1)).mergeSort (· ≤ ·)

def echo : ServiceBody := fun input => .succeed 0 input

/-- Succeeds with its input after the time it names, or after a second. -/
def sleep : ServiceBody := fun input =>
  let named := (input.get? "ms").bind Json.nat?
  .succeed ((named.or input.nat?).getD 1000) input

def fail : ServiceBody := fun input =>
  let named := (input.get? "message").bind Json.str?
  .fail 0 ((named.or input.str?).getD "service failed")

def commandLine : Registry :=
  (((({} : Registry).register "echo" echo).register "sleep" sleep).register "fail" fail)

end Registry

end Statechart
