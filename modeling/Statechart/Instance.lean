import Statechart.Activity
import Statechart.Engine.Json
import Statechart.Instance.Status

/-!
# Statechart.Instance

Instances of charts: a run of the engine together with the services and timers of the active
states. An instance takes one event at a time, and its queue is empty between two calls.

* `Instance.start`, `Instance.send`: the calls from outside. `Instance.startOn` asks for a host
  first.
* `Instance.deliver`: a report of an activity. It is dropped if the activity is not registered any
  more.
* `Instance.cancel`, `Instance.requestCancel`, `Instance.heedCancel`: ending from outside, at once
  or at the next opportunity.
-/

namespace Statechart

variable {C : Type}

/-- What callers see of an instance, with the microsteps of their call. -/
structure Snapshot (C : Type) where
  configuration : Configuration
  context : C
  status : Status
  microsteps : List Microstep

def Snapshot.toJson (s : Snapshot Json) : Json :=
  .obj [("configuration", s.configuration.toJson), ("context", s.context),
    ("status", .str s.status.text), ("microsteps", .arr (s.microsteps.map Microstep.toJson))]

structure Instance (C : Type) where
  engine : Engine C
  run : Run C
  activities : Activities := {}
  status : Status := .notStarted
  /-- What those who wait for the end of the instance are told. None before it. -/
  outcome : Option Termination := none
  /-- Was the instance asked to end? -/
  cancelRequested : Bool := false
  log : List String := []

namespace Instance

def new (engine : Engine C) (context : C) : Instance C :=
  { engine, run := .new context }

def snapshot (i : Instance C) (microsteps : List Microstep) : Snapshot C :=
  ⟨i.run.configuration, i.run.context, i.status, microsteps⟩

/-- Ends an instance. No event waits any more, and no activity is registered. -/
def finish (i : Instance C) (termination : Termination) : Instance C :=
  { i with
    status := .ended termination
    outcome := some termination
    run := { i.run with queue := i.run.queue.clear }
    activities := i.activities.cancelAll }

/-- Takes over a run: the signals that it gave lead to starting and cancelling activities, and its
messages are kept. -/
def adopt (i : Instance C) (run : Run C) : Instance C :=
  let signals := run.signals.reverse
  let messages := run.signals.filterMap fun
    | .logged message => some message
    | _ => none
  { i with
    run := { run with signals := [] }
    activities := i.activities.follow i.engine.tree signals
    log := messages ++ i.log }

/-- Processes the waiting events, and ends the instance if that is what they lead to. -/
def drain (i : Instance C) : Except InstanceError (List Microstep) × Instance C :=
  let (result, run) := i.engine.drain i.run
  let i := i.adopt run
  match result with
  | .ok report =>
    match report.outcome with
    | .quiescent => (.ok report.microsteps, i)
    | .completed => (.ok report.microsteps, i.finish .completed)
    | .faulted fault => (.error (.ofFault fault), i.finish (.faulted fault))
  | .error e => (.error (.engine e), i.finish (.faulted (.execution e.message)))

def accept (i : Instance C) (event : Event) : Except InstanceError (List Microstep) × Instance C :=
  drain { i with run := { i.run with queue := i.run.queue.enqueue event .nextMacrostep } }

def acceptCall (i : Instance C) (event : Event) : Except InstanceError (Snapshot C) × Instance C :=
  match i.accept event with
  | (.ok microsteps, i) => (.ok (i.snapshot microsteps), i)
  | (.error e, i) => (.error e, i)

/-- Starts an instance. One that was asked to end before ends instead. -/
def start (i : Instance C) : Except InstanceError (Snapshot C) × Instance C :=
  match i.status with
  | .active => (.error .alreadyStarted, i)
  | .ended _ => (.error (.terminated i.status), i)
  | .notStarted =>
    if i.cancelRequested then
      let i := i.finish .cancelled
      (.error (.terminated i.status), i)
    else
      acceptCall { i with status := .active, activities := i.activities.attach } .start

/-- Starts an instance if there is a host that can run its services. -/
def startOn (hosted : Bool) (i : Instance C) : Except InstanceError (Snapshot C) × Instance C :=
  if hosted then i.start else (.error .noHost, i)

def startUnhosted (i : Instance C) : Except InstanceError (Snapshot C) :=
  (i.startOn false).1

def send (i : Instance C) (event : Event) : Except InstanceError (Snapshot C) × Instance C :=
  match i.status with
  | .notStarted => (.error .notStarted, i)
  | .ended _ => (.error (.terminated i.status), i)
  | .active => i.acceptCall event

/-- Takes in the report of an activity, if the activity is registered. -/
def deliver (i : Instance C) (r : Report) : Instance C :=
  match i.status with
  | .active =>
    match i.activities.finish? r.owner r.ticket with
    | some activities => (accept { i with activities } r.event).2
    | none => i
  | _ => i

def cancelNow (i : Instance C) : Instance C :=
  if i.status.isTerminal then i else i.finish .cancelled

def requestCancel (i : Instance C) : Instance C :=
  { i with cancelRequested := true }

def cancel (i : Instance C) : Instance C :=
  i.requestCancel.cancelNow

/-- Ends a started instance that was asked to end. -/
def heedCancel (i : Instance C) : Instance C :=
  if i.cancelRequested && i.status == .active then i.cancelNow else i

def nextEvents (i : Instance C) : List String :=
  match i.status with
  | .active => i.engine.tree.nextEvents i.run.configuration
  | _ => []

/-- The activities of an instance that is given up: cancelled, or left to themselves. -/
def release (i : Instance C) (cancelActivities : Bool) : Activities :=
  if cancelActivities then i.activities.cancelAll else i.activities

end Instance

end Statechart
