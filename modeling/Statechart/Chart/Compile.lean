import Statechart.Chart.Decode
import Statechart.Chart.Encode
import Statechart.Number.Natural
import Statechart.Tree.Build

/-!
# Statechart.Chart.Compile

From a written chart to a definition, and on to a tree.

* `ActionSpec.toAction`: what a written action does.
* `StateSpec.toNodeDef`: a state and the states below it, with services looked up by name.
* `Chart`: a written chart whose id was checked, with its checksum.
-/

namespace Statechart

namespace ActionSpec

/-- Writes fields into a context that is an object, or null for an empty one. -/
def mergeInto (context : Json) (values : Json.Fields) : Except ActionError Json :=
  match context with
  | .null => .ok (.obj (Json.insertAll values []))
  | .obj fields => .ok (.obj (Json.insertAll values fields))
  | _ => .error ⟨"context is not an object"⟩

def mergeEvent (key : Option String) (context data : Json) : Except ActionError Json :=
  match key, data with
  | some key, data => mergeInto context [(key, data)]
  | none, .obj values => mergeInto context values
  | none, .null => .ok context
  | none, _ => .error ⟨"event data is not an object"⟩

def toAction : ActionSpec → Action Json
  | .assign values => .assign fun context _ => mergeInto context values
  | .assignEvent key => .assign fun context data => mergeEvent key context data
  | .raise event data => .raise (.named event data)
  | .send event data => .send (.named event data)
  | .log message => .log fun _ _ => .ok message
  | .fail message => .run fun _ _ => .error ⟨message⟩

end ActionSpec

def TransitionObject.guardDef (t : TransitionObject) : Except ChartError (Option (GuardDef Json)) :=
  match t.guard, t.inState with
  | some _, some _ => .error (.invalidDefinition .guardTwice)
  | some text, none =>
    match GuardExpr.parse text with
    | .ok e => .ok (some (.ofExpr e))
    | .error reason => .error (.invalidGuard reason)
  | none, some name => .ok (some (.inState name))
  | none, none => .ok none

def TransitionSpec.toDef (event : EventPattern) :
    TransitionSpec → Except ChartError (TransitionDef Json)
  | .target goal => .ok { event, targets := [goal] }
  | .object t => do
    let guard ← t.guardDef
    return { event, targets := (t.target.map Targets.toList).getD [], guard,
             actions := t.actions.map ActionSpec.toAction }

def transitionDefs (event : EventPattern) :
    List TransitionSpec → Except ChartError (List (TransitionDef Json))
  | [] => .ok []
  | t :: rest => do
    let first ← t.toDef event
    let others ← transitionDefs event rest
    return first :: others

def optionalDefs (event : EventPattern) :
    Option TransitionList → Except ChartError (List (TransitionDef Json))
  | none => .ok []
  | some list => transitionDefs event list.toList

namespace StateSpec

/-- The transitions for named events. An event without transitions is forbidden. -/
def onDefs : List (String × Option TransitionList) → Except ChartError (List (TransitionDef Json))
  | [] => .ok []
  | (name, none) :: rest => do
    let others ← onDefs rest
    return { event := .named name, forbidden := true } :: others
  | (name, some list) :: rest => do
    let first ← transitionDefs (.named name) list.toList
    let others ← onDefs rest
    return first ++ others

def afterDefs (id : StateId) :
    List (String × TransitionList) → Except ChartError (List (TransitionDef Json))
  | [] => .ok []
  | (key, list) :: rest =>
    match Number.parseNat64? key with
    | none => .error (.invalidDefinition (.invalidDelay id key))
    | some delay => do
      let first ← transitionDefs (.delayed delay) list.toList
      let others ← afterDefs id rest
      return first ++ others

/-- The services from a place on, and the transitions that they come with. -/
def invokeDefs (id : StateId) (services : Registry) :
    Nat → List InvokeSpec → Except ChartError (List ServiceDef × List (TransitionDef Json))
  | _, [] => .ok ([], [])
  | place, i :: rest => do
    let serviceId := i.id.getD (generatedServiceId id place)
    match services.lookup? i.src with
    | none => .error (.unknownService i.src)
    | some body => do
      let onDone ← optionalDefs (.serviceSuccess serviceId) i.onDone
      let onError ← optionalDefs (.serviceError serviceId) i.onError
      let (others, transitions) ← invokeDefs id services (place + 1) rest
      return (⟨some serviceId, body, i.input⟩ :: others, onDone ++ onError ++ transitions)

/-- The type of a state; if none is written, a state with states below it is compound. -/
def impliedType (type : Option StateType) (states : List (String × StateSpec)) : StateType :=
  type.getD (if states.isEmpty then .atomic else .compound)

/-- The kind of a state. Compound states, and only these, name their initial child. -/
def kindDef (id : StateId) (type : StateType) (initial : Option String) :
    Except ChartError (KindDef Json) :=
  match type, initial with
  | .compound, some initial => .ok (.compound initial [])
  | .compound, none => .error (.invalidDefinition (.initialNeeded id))
  | _, some _ => .error (.invalidDefinition (.initialNotAllowed id))
  | .atomic, none => .ok .atomic
  | .parallel, none => .ok .orthogonal
  | .final, none => .ok .final

def isStateKey (key : String) : Bool :=
  key ≠ "" && !key.toList.contains StateId.separator

mutual

def toNodeDef (services : Registry) (id : StateId) :
    StateSpec → Except ChartError (NodeDef Json)
  | ⟨type, initial, entry, exit, on, always, after, onDone, onError, invoke, states⟩ => do
    let kind ← kindDef id (impliedType type states) initial
    let named ← onDefs on
    let eventless ← optionalDefs .immediate always
    let delayed ← afterDefs id after
    let done ← optionalDefs .done onDone
    let failed ← optionalDefs .executionError onError
    let (services', served) ← invokeDefs id services 0 invoke
    let children ← statesToDefs services id states
    return { key := id.key, kind, children, entry := entry.map ActionSpec.toAction,
             exit := exit.map ActionSpec.toAction,
             transitions := named ++ eventless ++ delayed ++ done ++ failed ++ served,
             services := services' }

def statesToDefs (services : Registry) (id : StateId) :
    List (String × StateSpec) → Except ChartError (List (NodeDef Json))
  | [] => .ok []
  | (key, s) :: rest => do
    refuseIf (!isStateKey key) (.invalidStateKey id key)
    let first ← toNodeDef services (id.child key) s
    let others ← statesToDefs services id rest
    return first :: others

end

end StateSpec

/-- A written chart with an id that can be a root key, and its checksum. -/
structure Chart where
  spec : ChartSpec
  checksum : String

namespace Chart

def ofSpec (spec : ChartSpec) : Except ChartError Chart :=
  if StateSpec.isStateKey spec.id then .ok ⟨spec, spec.checksum⟩
  else .error (.invalidDefinition (.invalidChartId spec.id))

def ofJson (v : Json) : Except ChartError Chart :=
  match ChartSpec.ofJson v with
  | .ok spec => ofSpec spec
  | .error reason => .error (.badJson reason)

def parse (text : String) : Except ChartError Chart :=
  match ChartSpec.parse text with
  | .ok spec => ofSpec spec
  | .error reason => .error (.badJson reason)

def toNodeDef (c : Chart) (services : Registry) : Except ChartError (NodeDef Json) :=
  c.spec.root.toNodeDef services (.root c.spec.id)

def build (c : Chart) (services : Registry) : Except ChartError (Tree Json) := do
  let d ← c.toNodeDef services
  Tree.build d

end Chart

end Statechart
