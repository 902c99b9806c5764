import Statechart.Command

/-!
# Statechart.Command.Invocation

The arguments of the program: which command is meant, and how. Options may stand before and behind
the chart.
-/

namespace Statechart

inductive Invocation where
  | validate (chart : String)
  | run (chart : String) (options : Command.RunOptions)
  | session (chart : String) (context : Option String)

def Command.RunOptions.sending (o : Command.RunOptions) (names : List String) :
    Command.RunOptions :=
  { o with events := o.events ++ names }

namespace Invocation

def usage : String :=
  "usage: statechart [--config FILE] validate CHART\n" ++
    "       statechart [--config FILE] run CHART [--events A,B] [--ctx JSON]\n" ++
    "                  [--trace] [--wait]\n" ++
    "       statechart [--config FILE] repl CHART [--ctx JSON]\n"

/-- The names of a list that commas separate. -/
def namesOf (text : String) : List String :=
  (Text.splitAtChar ',' text.toList).map String.ofList

def readOptions (chart : Option String) (o : Command.RunOptions) :
    List String → Option (String × Command.RunOptions)
  | [] => chart.map fun chart => (chart, o)
  | "--trace" :: rest => readOptions chart { o with trace := true } rest
  | "-t" :: rest => readOptions chart { o with trace := true } rest
  | "--wait" :: rest => readOptions chart { o with wait := true } rest
  | "-w" :: rest => readOptions chart { o with wait := true } rest
  | "--events" :: names :: rest => readOptions chart (o.sending (namesOf names)) rest
  | "-e" :: names :: rest => readOptions chart (o.sending (namesOf names)) rest
  | "--ctx" :: context :: rest => readOptions chart { o with context := some context } rest
  | "-c" :: context :: rest => readOptions chart { o with context := some context } rest
  | text :: rest => if chart.isSome then none else readOptions (some text) o rest

def ofArguments? : List String → Option Invocation
  | "validate" :: rest => (readOptions none {} rest).map fun (chart, _) => .validate chart
  | "run" :: rest => (readOptions none {} rest).map fun (chart, o) => .run chart o
  | "repl" :: rest => (readOptions none {} rest).map fun (chart, o) => .session chart o.context
  | _ => none

/-- Takes the file of the settings from the front of the arguments. -/
def settingsFile : List String → Option String × List String
  | "--config" :: file :: rest => (some file, rest)
  | "-c" :: file :: rest => (some file, rest)
  | rest => (none, rest)

def chart : Invocation → String
  | .validate c => c
  | .run c _ => c
  | .session c _ => c

def context? : Invocation → Option String
  | .validate _ => none
  | .run _ o => o.context
  | .session _ c => c

def files (i : Invocation) : List String :=
  (i.chart :: i.context?.toList).filterMap fun argument => (Argument.ofText argument).path?

end Invocation

end Statechart
