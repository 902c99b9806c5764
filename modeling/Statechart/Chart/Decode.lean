import Statechart.Chart
import Statechart.Error
import Statechart.Json.Parser
import Statechart.Json.Record

/-!
# Statechart.Chart.Decode

Reading charts from JSON.

* `ChartSpec.ofJson`: a chart from a value.
* `ChartSpec.parse`: a chart from text. Here a key that `states`, `on` or `after` writes twice is
  still seen, and is an error of its own.

The fields of a state are read in the order in which they are written, so the first of several
mistakes is reported.
-/

namespace Statechart

open Json

namespace StateType

def ofName? (name : String) : Option StateType :=
  match name with
  | "atomic" => some .atomic
  | "compound" => some .compound
  | "parallel" => some .parallel
  | "orthogonal" => some .parallel
  | "final" => some .final
  | _ => none

/-- Reads a type: its name, or an object with the name as its only key and nothing in it. -/
def decode? : Json → Option StateType
  | .str name => ofName? name
  | .obj [(name, .null)] => ofName? name
  | .obj [(name, .obj [])] => ofName? name
  | _ => none

end StateType

namespace Targets

def decode? : Json → Option Targets
  | .str target => some (.one target)
  | v => (strings? v).map .many

end Targets

namespace ActionSpec

def tags : List String := ["assign", "assign_event", "raise", "send", "log", "fail"]

def decodeFields? (tag : String) (content : Json) : Option ActionSpec :=
  match tag with
  | "assign" => do
    let fs ← record? ["values"] false content
    let values ← required? fields? (find? "values" fs)
    return .assign (dedupFields values)
  | "assign_event" => do
    let fs ← record? ["key"] false content
    let key ← optional? str? (find? "key" fs)
    return .assignEvent key
  | "raise" => do
    let fs ← record? ["event", "data"] false content
    let event ← required? str? (find? "event" fs)
    return .raise event ((find? "data" fs).getD .null).dedup
  | "send" => do
    let fs ← record? ["event", "data"] false content
    let event ← required? str? (find? "event" fs)
    return .send event ((find? "data" fs).getD .null).dedup
  | "log" => do
    let fs ← record? ["message"] false content
    let message ← required? str? (find? "message" fs)
    return .log message
  | "fail" => do
    let fs ← record? ["message"] false content
    let message ← required? str? (find? "message" fs)
    return .fail message
  | _ => none

/-- Reads an action. Inside a chart its tag may also be the place of the tag. -/
def decode? (inChart : Bool) (v : Json) : Option ActionSpec := do
  let (tag, content) ← tagged? v
  let tag ← tagName? tags inChart tag
  decodeFields? tag content

end ActionSpec

namespace TransitionSpec

def decode? : Json → Option TransitionSpec
  | .str goal => some (.target goal)
  | v => do
    let fs ← record? ["target", "guard", "in", "actions"] true v
    let goal ← optional? Targets.decode? (find? "target" fs)
    let guard ← optional? str? (find? "guard" fs)
    let inState ← optional? str? (find? "in" fs)
    let actions ← list? (ActionSpec.decode? true) (find? "actions" fs)
    return .object { target := goal, guard, inState, actions }

end TransitionSpec

namespace TransitionList

/-- Reads a list of candidates or, failing that, one transition. -/
def decode? (v : Json) : Option TransitionList :=
  let candidates := match v with
    | .arr items => items.mapM TransitionSpec.decode?
    | _ => none
  match candidates with
  | some ts => some (.many ts)
  | none => (TransitionSpec.decode? v).map .one

end TransitionList

namespace InvokeSpec

def decode? (v : Json) : Option InvokeSpec := do
  let fs ← record? ["id", "src", "input", "onDone", "onError"] true v
  let id ← optional? str? (find? "id" fs)
  let src ← required? str? (find? "src" fs)
  let onDone ← optional? TransitionList.decode? (find? "onDone" fs)
  let onError ← optional? TransitionList.decode? (find? "onError" fs)
  return { id, src, input := ((find? "input" fs).getD .null).dedup, onDone, onError }

end InvokeSpec

inductive StateField where
  | type
  | initial
  | entry
  | exit
  | on
  | always
  | after
  | onDone
  | onError
  | invoke
  | states
  deriving DecidableEq, Repr

namespace StateField

def all : List StateField :=
  [.type, .initial, .entry, .exit, .on, .always, .after, .onDone, .onError, .invoke, .states]

def key : StateField → String
  | .type => "type"
  | .initial => "initial"
  | .entry => "entry"
  | .exit => "exit"
  | .on => "on"
  | .always => "always"
  | .after => "after"
  | .onDone => "onDone"
  | .onError => "onError"
  | .invoke => "invoke"
  | .states => "states"

def ofKey? (key : String) : Option StateField :=
  all.find? (·.key = key)

end StateField

def orMalformed {α : Type} : Option α → Except DecodeError α
  | some a => .ok a
  | none => .error .malformed

/-- Reads the entries of an object in turn, each key once. -/
def decodeEntries {α : Type} (read : Json → Option α) (seen : List String) :
    Fields → Except DecodeError (List (String × α))
  | [] => .ok []
  | (k, v) :: rest => do
    let a ← orMalformed (read v)
    if seen.contains k then .error (.duplicateKey k)
    else do
      let entries ← decodeEntries read (k :: seen) rest
      return (k, a) :: entries

namespace StateSpec

def decodeField (field : StateField) (s : StateSpec) (v : Json) : Except DecodeError StateSpec :=
  match field with
  | .type => do return { s with type := ← orMalformed (optional? StateType.decode? (some v)) }
  | .initial => do return { s with initial := ← orMalformed (optional? str? (some v)) }
  | .entry => do
    return { s with entry := ← orMalformed (list? (ActionSpec.decode? true) (some v)) }
  | .exit => do
    return { s with exit := ← orMalformed (list? (ActionSpec.decode? true) (some v)) }
  | .on => do
    let fs ← orMalformed (fields? v)
    return { s with on := ← decodeEntries (optional? TransitionList.decode? ∘ some) [] fs }
  | .always => do
    return { s with always := ← orMalformed (optional? TransitionList.decode? (some v)) }
  | .after => do
    let fs ← orMalformed (fields? v)
    return { s with after := ← decodeEntries TransitionList.decode? [] fs }
  | .onDone => do
    return { s with onDone := ← orMalformed (optional? TransitionList.decode? (some v)) }
  | .onError => do
    return { s with onError := ← orMalformed (optional? TransitionList.decode? (some v)) }
  | .invoke => do
    return { s with invoke := ← orMalformed (list? InvokeSpec.decode? (some v)) }
  | .states => .error .malformed

mutual

def decode : Json → Except DecodeError StateSpec
  | .obj fields => decodeKeyed [] {} fields
  | .arr items => decodeInOrder StateField.all {} items
  | _ => .error .malformed

/-- Reads the fields of an object in turn. Other keys are passed over. -/
def decodeKeyed (seen : List StateField) (s : StateSpec) : Fields → Except DecodeError StateSpec
  | [] => .ok s
  | (k, v) :: rest =>
    match StateField.ofKey? k with
    | none => decodeKeyed seen s rest
    | some field =>
      if seen.contains field then .error .malformed
      else
        match field, v with
        | .states, .obj children => do
          let states ← decodeStates [] children
          decodeKeyed (field :: seen) { s with states } rest
        | field, v => do
          let s ← decodeField field s v
          decodeKeyed (field :: seen) s rest

def decodeInOrder (left : List StateField) (s : StateSpec) :
    List Json → Except DecodeError StateSpec
  | [] => .ok s
  | v :: rest =>
    match left, v with
    | [], _ => .error .malformed
    | .states :: left, .obj children => do
      let states ← decodeStates [] children
      decodeInOrder left { s with states } rest
    | field :: left, v => do
      let s ← decodeField field s v
      decodeInOrder left s rest

def decodeStates (seen : List String) : Fields → Except DecodeError (List (String × StateSpec))
  | [] => .ok []
  | (k, v) :: rest => do
    let state ← decode v
    if seen.contains k then .error (.duplicateKey k)
    else do
      let states ← decodeStates (k :: seen) rest
      return (k, state) :: states

end

end StateSpec

namespace ChartSpec

/-- Reads a chart. Besides its id and context, its fields are those of the root state. -/
def ofJson (v : Json) : Except DecodeError ChartSpec :=
  match v with
  | .obj fields =>
    if repeats ["id", "context"] fields then .error .malformed
    else
      match required? str? (find? "id" fields) with
      | none => .error .malformed
      | some id => do
        let root ← StateSpec.decodeKeyed [] {}
          (fields.filter fun (k, _) => k ≠ "id" && k ≠ "context")
        return { id, context := ((find? "context" fields).getD .null).dedup, root }
  | _ => .error .malformed

/-- Reads a chart from text. What stands behind the chart is looked at last. -/
def parse (text : String) : Except DecodeError ChartSpec :=
  match parseDocument? text with
  | none => .error .malformed
  | some (v, rest) => do
    let chart ← ofJson v
    if (skipSpace rest).isEmpty then return chart else .error .malformed

end ChartSpec

end Statechart
