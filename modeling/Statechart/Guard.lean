import Statechart.Configuration
import Statechart.Guard.Parser

/-!
# Statechart.Guard

Guards of transitions, as they are declared (`GuardDef`) and as they stand in a built tree
(`Guard`), where the names of states are resolved.
-/

namespace Statechart

inductive Guard (C : Type) where
  | inState (id : StateId)
  | context (holds : C → Bool)
  | contextAndEvent (holds : C → Json → Bool)

/-- A declared guard. The name of a state is resolved as the target of a transition is. -/
inductive GuardDef (C : Type) where
  | inState (name : String)
  | context (holds : C → Bool)
  | contextAndEvent (holds : C → Json → Bool)

def Guard.evaluate {C : Type} (g : Guard C) (c : Configuration) (context : C) (data : Json) :
    Bool :=
  match g with
  | .inState id => c.contains id
  | .context holds => holds context
  | .contextAndEvent holds => holds context data

def GuardDef.ofExpr (e : GuardExpr) : GuardDef Json :=
  .contextAndEvent fun context data => e.evaluate context data

end Statechart
