import Statechart.Settings
import Statechart.Yaml.Reader

/-!
# Statechart.Settings.File

Settings as YAML files. A file may leave out any field, and hold others besides.

* `Settings.parse?`, `Settings.toText`: reading and writing a file.
* `Settings.load`: the settings of a file and the environment together.
-/

namespace Statechart

namespace Settings

open Yaml

def text? : Yaml → Option String
  | .scalar _ text => some text
  | _ => none

def bool? : Yaml → Option Bool
  | .scalar true text => Plain.bool? text
  | _ => none

def nat? : Yaml → Option Nat
  | .scalar true text => Plain.nat64? text
  | _ => none

def policy? (y : Yaml) : Option ServiceErrorPolicy :=
  (text? y).bind ServiceErrorPolicy.ofName?

/-- The fields of a section by key. A section of which nothing is written has none. -/
def entries? : Yaml → Option (List (String × Yaml))
  | .mapping entries => entries.mapM fun (key, value) => (text? key).map fun key => (key, value)
  | .scalar true "" => some []
  | _ => none

/-- Reads the fields of a section in turn. `read` gives the change that a known field makes, if its
value can be read; a known field stands there once. -/
def readEntries {α : Type} (known : List String) (read : String → Yaml → Option (α → α))
    (seen : List String) (a : α) : List (String × Yaml) → Option α
  | [] => some a
  | (key, value) :: rest =>
    if !known.contains key then readEntries known read seen a rest
    else if seen.contains key then none
    else do
      let change ← read key value
      readEntries known read (key :: seen) (change a) rest

def readFields? {α : Type} (known : List String) (read : String → Yaml → Option (α → α)) (a : α)
    (y : Yaml) : Option α := do
  let entries ← entries? y
  readEntries known read [] a entries

def engineField (key : String) (y : Yaml) : Option (Limits → Limits) :=
  match key with
  | "max_microsteps" => (nat? y).map fun n l => { l with maxMicrosteps := n }
  | "service_errors" => (policy? y).map fun p l => { l with serviceErrors := p }
  | _ => none

def servicesField (key : String) (y : Yaml) : Option (Settings → Settings) :=
  match key with
  | "cancel_on_drop" => (bool? y).map fun b s => { s with cancelOnDrop := b }
  | _ => none

def logField (key : String) (y : Yaml) : Option (Settings → Settings) :=
  match key with
  | "filter" => (text? y).map fun text s => { s with logFilter := text }
  | "ansi" => (bool? y).map fun b s => { s with logColours := b }
  | _ => none

/-- Reads a section of settings. Missing fields of a section have their defaults. -/
def settingsField (key : String) (y : Yaml) : Option (Settings → Settings) :=
  match key with
  | "engine" => do
    let limits ← readFields? ["max_microsteps", "service_errors"] engineField {} y
    return fun s => { s with limits }
  | "services" => do
    let read ← readFields? ["cancel_on_drop"] servicesField {} y
    return fun s => { s with cancelOnDrop := read.cancelOnDrop }
  | "log" => do
    let read ← readFields? ["filter", "ansi"] logField {} y
    return fun s => { s with logFilter := read.logFilter, logColours := read.logColours }
  | _ => none

def ofYaml? (y : Yaml) : Option Settings :=
  readFields? ["engine", "services", "log"] settingsField {} y

def parse? (text : String) : Option Settings :=
  (Yaml.parse? text).bind ofYaml?

def valueIndent : Nat := 4

def toText (s : Settings) : String :=
  "engine:\n  max_microsteps: " ++ toString s.limits.maxMicrosteps ++
    "\n  service_errors: " ++ s.limits.serviceErrors.text ++
    "\nservices:\n  cancel_on_drop: " ++ toString s.cancelOnDrop ++
    "\nlog:\n  filter: " ++ writeText valueIndent s.logFilter ++
    "  ansi: " ++ toString s.logColours ++ "\n"

/-- The settings of a file with this content; none if it cannot be read. -/
def ofFile (content : Option String) : Except SettingsError Settings :=
  match content with
  | none => .error .unreadable
  | some text =>
    match parse? text with
    | some s => .ok s
    | none => .error .malformed

def ofEnvironment (env : String → Option String) : Settings :=
  override env {}

/-- The settings of a file, if one is named, and the environment, without flaw. -/
def load (env : String → Option String) (file : Option (Option String)) :
    Except SettingsError Settings := do
  let s ← match file with
    | some content => ofFile content
    | none => pure {}
  check (s.override env)

end Settings

end Statechart
