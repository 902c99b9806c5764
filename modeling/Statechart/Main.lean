import Statechart.Command.Invocation
import Statechart.Session
import Statechart.Settings.File

/-!
# Statechart.Main

The program. All it does is to read files, the environment and lines, and to print.
-/

namespace Statechart.Main

def content? (path : String) : IO (Option String) := do
  try
    return some (← IO.FS.readFile path)
  catch _ =>
    return none

def readAll (paths : List String) : IO Files := do
  let read ← paths.mapM fun path => return (path, ← content? path)
  return fun path => (read.find? (·.1 = path)).bind (·.2)

def environment : IO (String → Option String) := do
  let v := Settings.names
  let names := [v.maxMicrosteps, v.serviceErrors, v.cancelOnDrop, v.logFilter, v.logColours]
  let read ← names.mapM fun name => return (name, ← IO.getEnv name)
  return fun name => (read.find? (·.1 = name)).bind (·.2)

/-- The settings of the file that the arguments or the environment name, and the environment. -/
def settings (file : Option String) : IO (Except SettingsError Settings) := do
  let path := file.or (← IO.getEnv Settings.names.file)
  let read ← path.mapM content?
  return Settings.load (← environment) read

def complain (message : String) : IO UInt32 := do
  IO.eprintln ("Error: " ++ message)
  return 1

def writeLog (i : Instance Json) : IO (Instance Json) := do
  for message in i.log.reverse do
    IO.eprintln message
  return { i with log := [] }

/-- Answers lines until the session is over. Between two lines the time passes that really does. -/
partial def converse (input output : IO.FS.Stream) (time : Nat) (i : Instance Json) : IO Unit := do
  output.putStr "harel> "
  output.flush
  let line ← input.getLine
  let present ← IO.monoMsNow
  let i := i.advance (present - time)
  if line.isEmpty then
    output.putStr (Session.endOfInputText ++ Session.closingText)
  else
    let paths := ((SessionCommand.ofLine? line).bind SessionCommand.path?).toList
    match Session.answer (← readAll paths) i line with
    | (.farewell, _) => output.putStr Session.closingText
    | (a, i) =>
      output.putStr a.print
      converse input output present (← writeLog i)

def carryOut (s : Settings) (invocation : Invocation) : IO UInt32 := do
  let files ← readAll invocation.files
  match invocation with
  | .validate chart =>
    match Command.validate files chart with
    | .ok text =>
      IO.println text
      return 0
    | .error e => complain e.message
  | .run chart options =>
    match Command.run files s.limits chart options with
    | .ok (text, i) =>
      IO.sleep i.now.toUInt32
      let _ ← writeLog i
      IO.println text
      return 0
    | .error e => complain e.message
  | .session chart context =>
    match Command.instantiate files s.limits chart context >>= Session.start "session" with
    | .ok (text, i) =>
      IO.print text
      converse (← IO.getStdin) (← IO.getStdout) (← IO.monoMsNow) (← writeLog i)
      return 0
    | .error e => complain e.message

end Statechart.Main

open Statechart in
def main (arguments : List String) : IO UInt32 := do
  let (file, rest) := Invocation.settingsFile arguments
  match ← Main.settings file with
  | .error e => Main.complain (e.message?.getD "the settings cannot be read")
  | .ok s =>
    match Invocation.ofArguments? rest with
    | some invocation => Main.carryOut s invocation
    | none =>
      IO.eprint Invocation.usage
      return 2
