import Statechart.Command.Argument
import Statechart.Instance.Clock
import Statechart.Json.Text

/-!
# Statechart.Command

The commands of the command line, as functions from their arguments to the text they print.

* `Command.validate`: checks a chart and prints its tree.
* `Command.run`: starts a chart, sends events, and prints where that led.
* `Command.instantiate`: an instance of a chart with the services of the command line.
-/

namespace Statechart

namespace Command

def treeLine (n : Node Json) : String :=
  String.ofList (List.replicate (2 * n.id.depth) ' ') ++ n.id.key ++ " (" ++ n.kind.name ++ ")\n"

def validText (c : Chart) (t : Tree Json) : String :=
  "Valid chart " ++ c.spec.id ++ " (" ++ toString t.size ++ " states, checksum: " ++ c.checksum ++
    ")\n" ++ String.join (t.nodes.map treeLine)

def validate (files : Files) (chart : String) : Except CommandError String := do
  let c ← Chart.ofArgument files chart
  match c.build .commandLine with
  | .ok t => return validText c t
  | .error e => .error (.chart e)

def traceText (m : Microstep) : String :=
  "-> " ++ m.text

def stateText (s : Snapshot Json) : String :=
  "Status: " ++ s.status.text ++ "\nConfiguration: " ++ s.configuration.text ++ "\nContext: " ++
    s.context.pretty

/-- An instance of a chart, with a context of its own if one is given. -/
def instantiate (files : Files) (limits : Limits) (chart : String) (context : Option String) :
    Except CommandError (Instance Json) := do
  let c ← Chart.ofArgument files chart
  let context ← match context with
    | some argument => (Argument.ofText argument).value files
    | none => pure c.spec.context
  match c.build .commandLine with
  | .ok tree => return .new { tree, limits } context
  | .error e => .error (.failed (.chart e))

structure RunOptions where
  events : List String := []
  context : Option String := none
  trace : Bool := false
  wait : Bool := false

def traceLines (o : RunOptions) (s : Snapshot Json) : String :=
  if o.trace then String.join (s.microsteps.map fun m => traceText m ++ "\n") else ""

def called (o : RunOptions) : Except InstanceError (Snapshot Json) × Instance Json →
    Except CommandError (String × Instance Json)
  | (.ok s, i) => .ok (traceLines o s, i)
  | (.error e, _) => .error (.failed e)

def tooLate (i : Instance Json) (event : String) : String :=
  "Warning: instance is " ++ i.status.text ++ ", not sending " ++ event ++ "\n"

/-- Sends events in turn, until the instance ends. -/
def sendAll (o : RunOptions) :
    List String → Instance Json → Except CommandError (String × Instance Json)
  | [], i => .ok ("", i)
  | event :: rest, i =>
    if i.status.isTerminal then .ok (tooLate i event, i)
    else do
      let (first, i) ← called o (i.send (.named event .null))
      let (others, i) ← sendAll o rest i
      return (first ++ others, i)

/-- The longest wait for the end of an instance: a day, in milliseconds. -/
def longestWait : Nat := 24 * 60 * 60 * 1000

def waitForEnd (i : Instance Json) : Except CommandError (Instance Json) :=
  let i := i.wait longestWait
  match i.outcome with
  | some (.faulted fault) => .error (.failed (.ofFault fault))
  | some _ => .ok i
  | none => .error .stillWaiting

def run (files : Files) (limits : Limits) (chart : String) (o : RunOptions) :
    Except CommandError (String × Instance Json) := do
  let i ← instantiate files limits chart o.context
  let (started, i) ← called o i.start
  let (sent, i) ← sendAll o o.events i
  let i ← if o.wait && !i.status.isTerminal then waitForEnd i else pure i
  return (started ++ sent ++ stateText (i.snapshot []), i)

end Command

end Statechart
