import Statechart.Chart.Compile
import Statechart.Instance.Status
import Statechart.Json.Parser

/-!
# Statechart.Command.Argument

JSON arguments of the command line, and what commands fail with. An argument is a JSON text, or
behind `@` the path of a file that holds one.
-/

namespace Statechart

inductive CommandError where
  | unreadable (path : String)
  | notJson
  | chart (e : ChartError)
  | failed (e : InstanceError)
  | stillWaiting
  deriving DecidableEq, Repr

namespace CommandError

def message : CommandError → String
  | .unreadable _ => "No such file or directory (os error 2)"
  | .notJson => "invalid JSON"
  | .chart e => e.message
  | .failed e => e.message
  | .stillWaiting => "still waiting"

end CommandError

abbrev Files := String → Option String

/-- An argument that stands for a JSON value. -/
inductive Argument where
  | inline (text : String)
  | file (path : String)
  deriving DecidableEq, Repr

namespace Argument

/-- What stands in front of a path. -/
def fileMark : Char := '@'

def ofText (text : String) : Argument :=
  match text.toList with
  | [] => .inline text
  | c :: rest => if c = fileMark then .file (String.ofList rest) else .inline text

theorem ofText_eq_inline {text : String} (h : text.toList.head? ≠ some fileMark) :
    ofText text = .inline text := by
  rw [ofText]
  cases htext : text.toList with
  | nil => rfl
  | cons c rest =>
    rw [htext] at h
    exact if_neg fun hmark => h (congrArg some hmark)

def path? : Argument → Option String
  | .inline _ => none
  | .file path => some path

def text (files : Files) : Argument → Except CommandError String
  | .inline text => .ok text
  | .file path =>
    match files path with
    | some content => .ok content
    | none => .error (.unreadable path)

def value (files : Files) (a : Argument) : Except CommandError Json := do
  let text ← a.text files
  match Json.parse? text with
  | some v => return v.dedup
  | none => .error .notJson

end Argument

def Chart.ofArgument (files : Files) (argument : String) : Except CommandError Chart := do
  let v ← (Argument.ofText argument).value files
  match Chart.ofJson v with
  | .ok chart => return chart
  | .error e => .error (.chart e)

end Statechart
