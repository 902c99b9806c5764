import Statechart.Action
import Statechart.Tree

/-!
# Statechart.Activity

Services and timers of active states. An activity is started when its state is entered and
cancelled when the state is left. It never touches the instance: what it ends with is a report, and
the report counts only as long as its activity is registered.

* `Activities.enter`, `Activities.exit`: what entering and leaving a state does.
* `Activities.finish?`: is a report still welcome? Every activity has a ticket of its own, so the
  report of an earlier stay in a state is not taken for one of the present stay.
* `Activities.takeDue`, `Activities.nextDue?`, `Activities.elapse`: the reports that come in as time
  passes. Time is a number of milliseconds.
-/

namespace Statechart

inductive ActivityKind where
  | service (id : String)
  | timer (delay : Nat)
  deriving DecidableEq, Repr

/-- A started activity. No other has the same ticket. -/
structure Activity where
  owner : StateId
  kind : ActivityKind
  ticket : Nat
  deriving DecidableEq, Repr

/-- What an activity ends with. -/
structure Report where
  owner : StateId
  ticket : Nat
  event : Event
  deriving Repr

structure TimedReport where
  due : Nat
  report : Report
  deriving Repr

/-- The services and timers of an instance. -/
structure Activities where
  /-- Can activities be started? -/
  attached : Bool := false
  now : Nat := 0
  nextTicket : Nat := 0
  running : List Activity := []
  /-- The reports to come, in the order in which their activities were started. -/
  pending : List TimedReport := []
  /-- All activities so far, the latest first. -/
  started : List Activity := []
  cancelled : List Activity := []

/-- When a service ends, and the event it ends with; none if it ends without a report. -/
def ServiceRun.report? (id : String) : ServiceRun → Option (Nat × Event)
  | .succeed delay data => some (delay, .serviceSuccess id data)
  | .fail delay message => some (delay, .serviceError id message)
  | .abandon => none
  | .untilCancelled => none

def Node.delays {C : Type} (n : Node C) : List Nat :=
  (n.transitions.filterMap fun t =>
    match t.event with
    | .delayed delay => some delay
    | _ => none).eraseDups

namespace Activities

def attach (a : Activities) : Activities :=
  { a with attached := true }

def start (a : Activities) (owner : StateId) (kind : ActivityKind) (ending : Option (Nat × Event)) :
    Activities :=
  let activity := ⟨owner, kind, a.nextTicket⟩
  let tasks := match ending with
    | some (delay, event) => [⟨a.now + delay, ⟨owner, a.nextTicket, event⟩⟩]
    | none => []
  { a with
    nextTicket := a.nextTicket + 1
    running := a.running ++ [activity]
    pending := a.pending ++ tasks
    started := activity :: a.started }

def startService (owner : StateId) (a : Activities) (s : Service) : Activities :=
  a.start owner (.service s.id) ((s.body s.input).report? s.id)

def startTimer (owner : StateId) (a : Activities) (delay : Nat) : Activities :=
  a.start owner (.timer delay) (some (delay, .delayed owner delay))

/-- Starts the services of a state in order, then a timer for each of its delays. -/
def enter {C : Type} (a : Activities) (n : Node C) : Activities :=
  if a.attached then n.delays.foldl (startTimer n.id) (n.services.foldl (startService n.id) a)
  else a

def cancelBy (a : Activities) (test : Activity → Bool) : Activities :=
  let (gone, kept) := a.running.partition test
  { a with
    running := kept
    pending := a.pending.filter fun t => !gone.any (·.ticket = t.report.ticket)
    cancelled := gone.reverse ++ a.cancelled }

def exit (a : Activities) (id : StateId) : Activities :=
  a.cancelBy (·.owner = id)

def cancelAll (a : Activities) : Activities :=
  a.cancelBy fun _ => true

/-- Strikes an activity of a state off the register. None if it is not registered. -/
def finish? (a : Activities) (owner : StateId) (ticket : Nat) : Option Activities :=
  let is (x : Activity) : Bool := x.owner = owner && x.ticket = ticket
  if a.running.any is then some { a with running := a.running.filter (!is ·) } else none

def size (a : Activities) : Nat :=
  a.running.length

def isRunning (a : Activities) (owner : StateId) (serviceId : String) : Bool :=
  a.running.any fun x => x.owner = owner && x.kind = .service serviceId

/-- Starts and cancels what the states entered and left in turn ask for. -/
def follow {C : Type} (t : Tree C) (a : Activities) : List Signal → Activities
  | [] => a
  | .entered id :: rest =>
    match t.node? id with
    | some n => follow t (a.enter n) rest
    | none => follow t a rest
  | .exited id :: rest => follow t (a.exit id) rest
  | .logged _ :: rest => follow t a rest

/-- The reports that are due, in the order in which their activities were started. -/
def takeDue (a : Activities) : List Report × Activities :=
  let (due, later) := a.pending.partition (·.due ≤ a.now)
  (due.map TimedReport.report, { a with pending := later })

def nextDue? (a : Activities) : Option Nat :=
  (a.pending.map TimedReport.due).min?

def moveTo (a : Activities) (time : Nat) : Activities :=
  { a with now := time }

/-- Lets a time pass: the reports that come in meanwhile, in the order in which they do. -/
def elapse (a : Activities) (duration : Nat) : List Report × Activities :=
  let time := a.now + duration
  let (due, later) := a.pending.partition (·.due ≤ time)
  let inTime := due.mergeSort fun s t => s.due ≤ t.due
  (inTime.map TimedReport.report, { a with now := time, pending := later })

end Activities

end Statechart
