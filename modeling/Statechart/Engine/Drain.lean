import Statechart.Engine.Process

/-!
# Statechart.Engine.Drain

Running to completion: events are taken from the queue and processed until the queue is empty, the
chart is complete, or an error that no active state reacts to faults the instance.

* `Engine`: a tree with its limits.
* `Engine.drain`: the loop. Every round that applies a microstep uses up some of the limit, and
  every other round leaves the queue one event shorter, so the loop ends.
-/

namespace Statechart

variable {C : Type}

/-- What becomes of the failure of a service that no active state reacts to. -/
inductive ServiceErrorPolicy where
  | ignore
  | fail
  deriving DecidableEq, Inhabited, Repr

namespace ServiceErrorPolicy

def text : ServiceErrorPolicy → String
  | .ignore => "ignore"
  | .fail => "fail"

def ofName? (name : String) : Option ServiceErrorPolicy :=
  if name = "ignore" then some .ignore
  else if name = "fail" then some .fail
  else none

/-- The policy of this name; capital ASCII letters are taken for small ones. The error is the text
for people. -/
def parse (text : String) : Except String ServiceErrorPolicy :=
  let name := String.ofList (text.toList.map Char.toLower)
  match ofName? name with
  | some policy => .ok policy
  | none => .error ("unknown service error policy '" ++ name ++ "'")

end ServiceErrorPolicy

structure Limits where
  /-- The most microsteps that one drain may apply. -/
  maxMicrosteps : Nat := 10000
  serviceErrors : ServiceErrorPolicy := .ignore
  deriving DecidableEq, Inhabited, Repr

inductive Fault where
  | execution (message : String)
  | service (serviceId : String) (message : String)
  deriving DecidableEq, Repr

namespace Fault

def message : Fault → String
  | .execution message => "unhandled execution error: " ++ message
  | .service id message => "unhandled failure of service '" ++ id ++ "': " ++ message

end Fault

inductive DrainOutcome where
  /-- The queue is empty and the instance goes on. -/
  | quiescent
  | completed
  | faulted (fault : Fault)
  deriving DecidableEq, Repr

structure DrainReport where
  microsteps : List Microstep
  processed : Nat
  outcome : DrainOutcome

/-- A tree with the limits under which it runs. -/
structure Engine (C : Type) where
  tree : Tree C
  limits : Limits := {}

namespace Engine

/-- The fault that an event causes if no active state reacts to it. -/
def faultOf? (e : Engine C) : Event → Option Fault
  | .executionError message => some (.execution message)
  | .serviceError id message =>
    match e.limits.serviceErrors with
    | .fail => some (.service id message)
    | .ignore => none
  | _ => none

def dropEvents (run : Run C) : Run C :=
  { run with queue := run.queue.clear }

inductive Stop where
  | limit
  | completed
  | faulted (fault : Fault)

/-- Does the drain end after processing `event`? `count` microsteps were applied so far. -/
def stop? (e : Engine C) (event : Event) (step : StepReport) (count : Nat) : Option Stop :=
  if e.limits.maxMicrosteps < count then some .limit
  else if step.completed then some .completed
  else if step.handled then none
  else (e.faultOf? event).map .faulted

theorem le_of_stop?_eq_none {e : Engine C} {event : Event} {step : StepReport} {count : Nat}
    (h : e.stop? event step count = none) : count ≤ e.limits.maxMicrosteps := by
  unfold stop? at h
  split at h
  · simp at h
  · omega

/-- Goes on with a drain that applied `count` microsteps so far, those of `applied`, the latest
first. -/
def drainFrom (e : Engine C) (applied : List Microstep) (count processed : Nat) (run : Run C) :
    Except EngineError DrainReport × Run C :=
  match _hq : run.queue.dequeue? with
  | none => (.ok ⟨applied.reverse, processed, .quiescent⟩, run)
  | some ((event, _), queue) =>
    match _hp : e.tree.process event { run with queue } with
    | (.error err, run') => (.error err, run')
    | (.ok step, run') =>
      let applied' := step.microsteps.reverse ++ applied
      let count' := count + step.microsteps.length
      match hs : e.stop? event step count' with
      | some .limit => (.error (.microstepLimit e.limits.maxMicrosteps), dropEvents run')
      | some .completed => (.ok ⟨applied'.reverse, processed + 1, .completed⟩, dropEvents run')
      | some (.faulted fault) =>
        (.ok ⟨applied'.reverse, processed + 1, .faulted fault⟩, dropEvents run')
      | none => drainFrom e applied' count' (processed + 1) run'
termination_by (e.limits.maxMicrosteps - count, run.queue.size)
decreasing_by
  have hle := le_of_stop?_eq_none hs
  by_cases hms : step.microsteps = []
  · have hrun : run' = { run with queue } := Tree.process_idle _hp hms
    have hsize := EventQueue.size_of_dequeue? _hq
    have hcount : count + step.microsteps.length = count := by simp [hms]
    rw [hcount]
    apply Prod.Lex.right
    rw [hrun]
    simp only
    omega
  · have hpos : 0 < step.microsteps.length := List.length_pos_iff.2 hms
    apply Prod.Lex.left
    omega

/-- Processes waiting events until none waits, the chart is complete, or an error faults it. -/
def drain (e : Engine C) (run : Run C) : Except EngineError DrainReport × Run C :=
  e.drainFrom [] 0 0 run

end Engine

end Statechart
