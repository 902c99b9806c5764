import Statechart.EventQueue

/-!
# Statechart.Action

Actions and how they are carried out. An action works on a context of any type `C` and on the data
of the event that caused it.

* `Action`: what may be written on entry, exit and transitions. `Action.assign` is the one that
  computes a context anew.
* `Action.perform`: one action on one context. An update in place works on a copy, so an action
  that fails has changed nothing.
* `Store`: what a block of actions works on. `runBlock` carries out a block up to its first
  failure and reports the failure as an event.
-/

namespace Statechart

structure ActionError where
  message : String
  deriving DecidableEq, Repr

/-- An update in place: whether it failed, and what it has made of the context by then. -/
abbrev Mutation (C : Type) := C → Json → Except ActionError Unit × C

inductive Action (C : Type) where
  /-- Delivers an event after the current macrostep. -/
  | send (event : Event)
  /-- Delivers an event within the current macrostep. -/
  | raise (event : Event)
  | log (message : C → Json → Except ActionError String)
  | mutate (update : Mutation C)
  | run (effect : C → Json → Except ActionError Unit)

structure Performed (C : Type) where
  context : C
  emitted : Option (Event × Priority) := none
  logged : Option String := none

namespace Action

variable {C : Type}

/-- The update that puts a new context in the place of the old one, once it is computed. -/
def assign (next : C → Json → Except ActionError C) : Action C :=
  .mutate fun context data =>
    match next context data with
    | .ok context => (.ok (), context)
    | .error e => (.error e, context)

def kind : Action C → String
  | .send _ => "send"
  | .raise _ => "raise"
  | .log _ => "log"
  | .mutate _ => "assign"
  | .run _ => "run"

/-- An update works on a copy, which takes the place of the context if the update succeeds. -/
def perform (a : Action C) (context : C) (data : Json) : Except ActionError (Performed C) :=
  match a with
  | .send event => .ok { context, emitted := some (event, .nextMacrostep) }
  | .raise event => .ok { context, emitted := some (event, .currentMacrostep) }
  | .log message => do
    let text ← message context data
    return { context, logged := some text }
  | .mutate update => do
    let (result, copy) := update context data
    result
    return { context := copy }
  | .run effect => do
    effect context data
    return { context }

end Action

/-- What can be observed of a run from outside, besides its state. -/
inductive Signal where
  | entered (id : StateId)
  | exited (id : StateId)
  | logged (message : String)
  deriving DecidableEq, Repr

/-- What blocks of actions work on. `signals` are those given so far, the latest first. -/
structure Store (C : Type) where
  context : C
  queue : EventQueue := .empty
  signals : List Signal := []

namespace Store

variable {C : Type}

def signal (s : Store C) (g : Signal) : Store C :=
  { s with signals := g :: s.signals }

def enqueue (s : Store C) (event : Event) (p : Priority) : Store C :=
  { s with queue := s.queue.enqueue event p }

def accept (s : Store C) (p : Performed C) : Store C :=
  let s := { s with context := p.context }
  let s := match p.emitted with
    | some (event, band) => s.enqueue event band
    | none => s
  match p.logged with
  | some message => s.signal (.logged message)
  | none => s

end Store

structure BlockOutcome where
  executed : Nat := 0
  failure : Option ActionError := none
  deriving DecidableEq, Repr

def failureEvent (origin : String) (e : ActionError) : Event :=
  .executionError (origin ++ ": " ++ e.message)

/-- Carries out a block in order, up to the first failure, which is reported to the current
macrostep. -/
def runBlock {C : Type} (origin : String) (data : Json) :
    List (Action C) → Store C → BlockOutcome × Store C
  | [], s => ({}, s)
  | a :: rest, s =>
    match a.perform s.context data with
    | .error e => ({ failure := some e }, s.enqueue (failureEvent origin e) .currentMacrostep)
    | .ok p =>
      let (outcome, s) := runBlock origin data rest (s.accept p)
      ({ outcome with executed := outcome.executed + 1 }, s)

end Statechart
