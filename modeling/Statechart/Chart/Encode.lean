import Statechart.Chart
import Statechart.Checksum
import Statechart.Json.Record
import Statechart.Json.Text

/-!
# Statechart.Chart.Encode

Writing charts as JSON. Fields stand in a fixed order, and fields that say nothing are left out, so
that a chart has one canonical text, and a checksum.
-/

namespace Statechart

open Json

namespace StateType

def name : StateType → String
  | .atomic => "atomic"
  | .compound => "compound"
  | .parallel => "parallel"
  | .final => "final"

end StateType

def Targets.toJson : Targets → Json
  | .one target => .str target
  | .many targets => .arr (targets.map .str)

def ActionSpec.toJson : ActionSpec → Json
  | .assign values => .obj [(tagKey, .str "assign"), ("values", .obj values)]
  | .assignEvent key => .obj ((tagKey, .str "assign_event") :: fieldIf "key" .str key)
  | .raise event data =>
    .obj ((tagKey, .str "raise") :: ("event", .str event) :: fieldUnlessNull "data" data)
  | .send event data =>
    .obj ((tagKey, .str "send") :: ("event", .str event) :: fieldUnlessNull "data" data)
  | .log message => .obj [(tagKey, .str "log"), ("message", .str message)]
  | .fail message => .obj [(tagKey, .str "fail"), ("message", .str message)]

def TransitionSpec.toJson : TransitionSpec → Json
  | .target goal => .str goal
  | .object t =>
    .obj (fieldIf "target" Targets.toJson t.target ++ fieldIf "guard" .str t.guard ++
      fieldIf "in" .str t.inState ++ fieldOf "actions" ActionSpec.toJson t.actions)

def TransitionList.toJson : TransitionList → Json
  | .many candidates => .arr (candidates.map TransitionSpec.toJson)
  | .one transition => transition.toJson

def InvokeSpec.toJson (i : InvokeSpec) : Json :=
  .obj (fieldIf "id" .str i.id ++ [("src", .str i.src)] ++ fieldUnlessNull "input" i.input ++
    fieldIf "onDone" TransitionList.toJson i.onDone ++
    fieldIf "onError" TransitionList.toJson i.onError)

/-- Entries by key as JSON, unless there are none. -/
def entriesField {α : Type} (key : String) (write : α → Json) : List (String × α) → Fields
  | [] => []
  | entries => [(key, .obj (entries.map fun (k, v) => (k, write v)))]

namespace StateSpec

def ownFields (s : StateSpec) : Fields :=
  fieldIf "type" (fun t => .str (StateType.name t)) s.type ++
    fieldIf "initial" .str s.initial ++
    fieldOf "entry" ActionSpec.toJson s.entry ++
    fieldOf "exit" ActionSpec.toJson s.exit ++
    entriesField "on" (fun l => (l.map TransitionList.toJson).getD .null) s.on ++
    fieldIf "always" TransitionList.toJson s.always ++
    entriesField "after" TransitionList.toJson s.after ++
    fieldIf "onDone" TransitionList.toJson s.onDone ++
    fieldIf "onError" TransitionList.toJson s.onError ++
    fieldOf "invoke" InvokeSpec.toJson s.invoke

mutual

def toFields : StateSpec → Fields
  | ⟨type, initial, entry, exit, on, always, after, onDone, onError, invoke, states⟩ =>
    let own :=
      ownFields ⟨type, initial, entry, exit, on, always, after, onDone, onError, invoke, []⟩
    match states with
    | [] => own
    | (k, s) :: rest => own ++ [("states", .obj ((k, .obj (toFields s)) :: statesToFields rest))]

def statesToFields : List (String × StateSpec) → Fields
  | [] => []
  | (k, s) :: rest => (k, .obj (toFields s)) :: statesToFields rest

end

end StateSpec

namespace ChartSpec

def toJson (c : ChartSpec) : Json :=
  .obj (("id", .str c.id) :: fieldUnlessNull "context" c.context ++ c.root.toFields)

/-- The canonical text of a chart. -/
def canonical (c : ChartSpec) : String :=
  c.toJson.compact

def checksum (c : ChartSpec) : String :=
  Checksum.ofText c.canonical

end ChartSpec

end Statechart
