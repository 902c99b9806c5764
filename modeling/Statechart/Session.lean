import Statechart.Command
import Statechart.Text.Lower

/-!
# Statechart.Session

Interactive sessions with an instance: what is printed at the start, what each line is answered
with, and what is printed at the end.

* `SessionCommand.ofLine?`: the command that a line gives.
* `Session.start`, `Session.answer`: a session and its answers.
-/

namespace Statechart

inductive SessionCommand where
  | help
  | quit
  | send (event : String) (data : Option String)
  | sendNothing
  | nextEvents
  | state
  | context
  | services
  | unknown (name : String)
  deriving DecidableEq, Repr

namespace SessionCommand

/-- The command to send what the words after it say. Several words of data are one text, with
single spaces between them. -/
def ofSendWords : List String → SessionCommand
  | [] => .sendNothing
  | [event] => .send event none
  | event :: data => .send event (some (" ".intercalate data))

def ofWords (name : String) (words : List String) : SessionCommand :=
  match Text.toLower name with
  | "help" | "?" => .help
  | "quit" | "exit" | "q" => .quit
  | "send" | "s" => ofSendWords words
  | "next" | "n" => .nextEvents
  | "state" | "st" => .state
  | "ctx" => .context
  | "services" => .services
  | other => .unknown other

/-- The command that a line gives; a blank line gives none. -/
def ofLine? (line : String) : Option SessionCommand :=
  match Text.words line with
  | [] => none
  | name :: words => some (ofWords name words)

def path? : SessionCommand → Option String
  | .send _ (some data) => (Argument.ofText data).path?
  | _ => none

end SessionCommand

inductive Answer where
  | nothing
  | text (text : String)
  | failure (e : CommandError)
  | farewell
  deriving DecidableEq, Repr

namespace Answer

def print : Answer → String
  | .nothing => ""
  | .text said => said ++ "\n\n"
  | .failure e => "Error: " ++ e.message ++ "\n\n"
  | .farewell => ""

end Answer

namespace Session

def helpText : String :=
  "\nAvailable commands:\n" ++
    "  help                      Show this help\n\n" ++
    "  send <event> [data_json]  Send an event\n" ++
    "  next                      List events the active states react to\n" ++
    "  state                     Show status, configuration and context\n" ++
    "  ctx                       Show the context\n" ++
    "  services                  Number of running services and timers\n\n" ++
    "  quit, exit                Cancel the instance and exit\n"

def openingText (name : String) (s : Snapshot Json) : String :=
  "harel REPL\n" ++ String.join (s.microsteps.map fun m => Command.traceText m ++ "\n") ++
    "Started instance " ++ name ++ " in " ++ s.configuration.text ++ "\n" ++
    "Type 'help' for available commands.\n\n"

def endOfInputText : String := "^D\n"

def closingText : String := "Instance cancelled.\n"

def start (name : String) (i : Instance Json) : Except CommandError (String × Instance Json) :=
  match i.start with
  | (.ok s, i) => .ok (openingText name s, i)
  | (.error e, _) => .error (.failed e)

def sentData (files : Files) : Option String → Except CommandError Json
  | some text => (Argument.ofText text).value files
  | none => .ok .null

def sentText (event : String) (s : Snapshot Json) : String :=
  if s.microsteps.isEmpty then event ++ " ignored (no transition)"
  else
    let lines := s.microsteps.map Command.traceText ++ ["Now in " ++ s.configuration.text]
    let ending := if s.status.isTerminal then ["Instance " ++ s.status.text] else []
    "\n".intercalate (lines ++ ending)

def sendEvent (i : Instance Json) (event : String) (data : Json) : Answer × Instance Json :=
  match i.send (.named event data) with
  | (.ok s, i) => (.text (sentText event s), i)
  | (.error e, i) => (.failure (.failed e), i)

def send (files : Files) (i : Instance Json) (event : String) (data : Option String) :
    Answer × Instance Json :=
  match sentData files data with
  | .error e => (.failure e, i)
  | .ok data => sendEvent i event data

def nextEventsText (i : Instance Json) : String :=
  match i.nextEvents with
  | [] => "No events"
  | events => ", ".intercalate events

def perform (files : Files) (i : Instance Json) : SessionCommand → Answer × Instance Json
  | .help => (.text helpText, i)
  | .quit => (.farewell, i)
  | .send event data => send files i event data
  | .sendNothing => (.text "Usage: send <event> [data_json]", i)
  | .nextEvents => (.text (nextEventsText i), i)
  | .state => (.text (Command.stateText (i.snapshot [])), i)
  | .context => (.text i.run.context.pretty, i)
  | .services => (.text (toString i.activities.size ++ " running"), i)
  | .unknown name => (.text ("Unknown command: " ++ name ++ ". Type 'help' for help."), i)

def answer (files : Files) (i : Instance Json) (line : String) : Answer × Instance Json :=
  match SessionCommand.ofLine? line with
  | some command => perform files i command
  | none => (.nothing, i)

end Session

end Statechart
