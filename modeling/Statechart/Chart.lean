import Statechart.Json.Basic

/-!
# Statechart.Chart

Charts as they are written in JSON, with every choice of spelling that a writer had: one target or
a list of them, one transition or a list of candidates, entries in the order in which they were
written.
-/

namespace Statechart

inductive StateType where
  | atomic
  | compound
  | parallel
  | final
  deriving DecidableEq, Inhabited, Repr

inductive Targets where
  | one (target : String)
  | many (targets : List String)
  deriving DecidableEq, Repr

namespace Targets

def toList : Targets → List String
  | .one target => [target]
  | .many targets => targets

end Targets

inductive ActionSpec where
  | assign (values : Json.Fields)
  /-- Writes the event data into the context, or into one field of it. -/
  | assignEvent (key : Option String)
  | raise (event : String) (data : Json)
  | send (event : String) (data : Json)
  | log (message : String)
  | fail (message : String)
  deriving BEq, Repr

structure TransitionObject where
  target : Option Targets := none
  guard : Option String := none
  inState : Option String := none
  actions : List ActionSpec := []
  deriving BEq, Repr

inductive TransitionSpec where
  | target (target : String)
  | object (fields : TransitionObject)
  deriving BEq, Repr

inductive TransitionList where
  | many (candidates : List TransitionSpec)
  | one (transition : TransitionSpec)
  deriving BEq, Repr

namespace TransitionList

def toList : TransitionList → List TransitionSpec
  | .many candidates => candidates
  | .one transition => [transition]

end TransitionList

structure InvokeSpec where
  id : Option String := none
  src : String
  input : Json := .null
  onDone : Option TransitionList := none
  onError : Option TransitionList := none
  deriving BEq, Repr

/-- A written state. In `on`, an event without transitions is forbidden. -/
structure StateSpec where
  type : Option StateType := none
  initial : Option String := none
  entry : List ActionSpec := []
  exit : List ActionSpec := []
  on : List (String × Option TransitionList) := []
  always : Option TransitionList := none
  after : List (String × TransitionList) := []
  onDone : Option TransitionList := none
  onError : Option TransitionList := none
  invoke : List InvokeSpec := []
  states : List (String × StateSpec) := []
  deriving BEq, Repr

structure ChartSpec where
  id : String
  context : Json := .null
  root : StateSpec
  deriving BEq, Repr

end Statechart
