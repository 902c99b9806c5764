import Statechart.Engine.Drain
import Statechart.Number.Natural
import Statechart.Text.Blank

/-!
# Statechart.Settings

The settings of the program: limits of the engine, what becomes of activities, and logging.

* `Settings.override`: what environment variables say goes before what a file says.
* `Settings.check`: values that can be read, but make no sense.
-/

namespace Statechart

structure Settings where
  limits : Limits := {}
  /-- Are activities cancelled when their instance is given up? -/
  cancelOnDrop : Bool := true
  logFilter : String := "info"
  logColours : Bool := true
  deriving DecidableEq, Inhabited, Repr

inductive SettingsFlaw where
  | noMicrosteps
  | noLogFilter
  deriving DecidableEq, Repr

namespace SettingsFlaw

def message : SettingsFlaw → String
  | .noMicrosteps => "engine.max_microsteps must be greater than 0"
  | .noLogFilter => "log.filter must not be empty"

end SettingsFlaw

inductive SettingsError where
  | unreadable
  | malformed
  | invalid (flaw : SettingsFlaw)
  deriving DecidableEq, Repr

namespace SettingsError

def message? : SettingsError → Option String
  | .invalid flaw => some ("configuration validation failed: " ++ flaw.message)
  | _ => none

end SettingsError

namespace Settings

structure Variables where
  maxMicrosteps : String := "HAREL_MAX_MICROSTEPS"
  serviceErrors : String := "HAREL_SERVICE_ERRORS"
  cancelOnDrop : String := "HAREL_CANCEL_ON_DROP"
  logFilter : String := "HAREL_LOG"
  logColours : String := "HAREL_LOG_ANSI"
  file : String := "HAREL_CONFIG"

def names : Variables := {}

def isOn (value : String) : Bool :=
  value = "1" || value.toList.map Char.toLower = "true".toList

/-- The limits with what the environment says. Values that cannot be read say nothing. -/
def overrideLimits (env : String → Option String) (l : Limits) : Limits where
  maxMicrosteps := ((env names.maxMicrosteps).bind Number.parseNat64?).getD l.maxMicrosteps
  serviceErrors :=
    ((env names.serviceErrors).bind fun text => (ServiceErrorPolicy.parse text).toOption).getD
      l.serviceErrors

def override (env : String → Option String) (s : Settings) : Settings where
  limits := overrideLimits env s.limits
  cancelOnDrop := ((env names.cancelOnDrop).map isOn).getD s.cancelOnDrop
  logFilter := (env names.logFilter).getD s.logFilter
  logColours := ((env names.logColours).map isOn).getD s.logColours

def flaw? (s : Settings) : Option SettingsFlaw :=
  if s.limits.maxMicrosteps = 0 then some .noMicrosteps
  else if (Text.trimChars s.logFilter.toList).isEmpty then some .noLogFilter
  else none

def check (s : Settings) : Except SettingsError Settings :=
  match s.flaw? with
  | none => .ok s
  | some flaw => .error (.invalid flaw)

end Settings

end Statechart
