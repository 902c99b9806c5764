import Statechart.Action
import Statechart.Guard
import Statechart.Service

/-!
# Statechart.Definition

Charts as their authors declare them: a tree of states with targets written as texts. `Tree.build`
checks such a definition and resolves the targets.
-/

namespace Statechart

inductive KindDef (C : Type) where
  | atomic
  | final
  /-- One child is active at a time, at first the one with the key `initial`. -/
  | compound (initial : String) (actions : List (Action C))
  | orthogonal

namespace KindDef

def name {C : Type} : KindDef C → String
  | .atomic => "atomic"
  | .final => "final"
  | .compound _ _ => "compound"
  | .orthogonal => "orthogonal"

end KindDef

/-- A declared transition. A target is the dotted way from the parent of the source, or behind `#`
the dotted identifier of a state. A forbidden transition swallows its event. -/
structure TransitionDef (C : Type) where
  event : EventPattern
  targets : List String := []
  guard : Option (GuardDef C) := none
  actions : List (Action C) := []
  forbidden : Bool := false

/-- A declared state with the states below it. -/
structure NodeDef (C : Type) where
  key : String
  kind : KindDef C
  children : List (NodeDef C) := []
  entry : List (Action C) := []
  exit : List (Action C) := []
  transitions : List (TransitionDef C) := []
  services : List ServiceDef := []

end Statechart
