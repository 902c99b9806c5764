import Statechart.Error
import Statechart.Tree

/-!
# Statechart.Engine.Plan

Which states a microstep leaves and enters.

* `Tree.plan`: for a transition from a source to one target. What is left lies below the least
  common ancestor, on the source's side and, between regions of an orthogonal state, also on the
  target's side. A transition of the root stays inside the root.
* `Tree.planStabilization`: for the first active state that lacks children.
-/

namespace Statechart

variable {C : Type}

/-- The states to leave, innermost first, and the states to enter, outermost first. -/
structure Plan where
  exited : List StateId := []
  entered : List StateId := []
  deriving DecidableEq, Repr

namespace Tree

/-- The tops of the branches that a step to `target` leaves, when `top` is the state it stays
inside, and `boundary` the child of `top` on the side of the source. -/
def exitRoots (t : Tree C) (c : Configuration) (top : StateId) (boundary : Option StateId)
    (target : StateId) : List StateId :=
  let own := boundary.toList
  match t.kind? top with
  | some (.orthogonal _) => own ++ (target.oneBeneath top).toList.filter (!own.contains ·)
  | some (.compound children _ _) =>
    if boundary.isNone then own ++ children.filter c.contains else own
  | _ => own

/-- The active states of a branch, innermost first. -/
def activeBranch (t : Tree C) (c : Configuration) (top : StateId) : List StateId :=
  ((top :: t.descendants top).filter c.contains).reverse

def planWithin (t : Tree C) (c : Configuration) (top : StateId) (boundary : Option StateId)
    (target : StateId) : Plan :=
  let exited := (t.exitRoots c top boundary target).flatMap (t.activeBranch c)
  let remaining := c.eraseAll exited
  let way := (target.ancestorsUntil top).reverse ++ [target]
  { exited, entered := way.filter (!remaining.contains ·) }

def plan (t : Tree C) (c : Configuration) (source target : StateId) : Except EngineError Plan :=
  match source.lca target with
  | some top =>
    match source.oneBeneath top with
    | some boundary => .ok (t.planWithin c top (some boundary) target)
    | none => .error (.notBelow source top)
  | none =>
    if source = t.root.id then .ok (t.planWithin c source none target)
    else .error (.noCommonAncestor source target)

/-- The children that an active state of this kind lacks: the initial child of a compound state,
every inactive child of an orthogonal state. -/
def missingChildren (kind : NodeKind C) (c : Configuration) : List StateId :=
  match kind with
  | .compound _ initial _ => [initial]
  | .orthogonal children => children.filter (!c.contains ·)
  | _ => []

/-- The first active state that lacks children, and the step that gives it children. -/
def planStabilization (t : Tree C) (c : Configuration) : Option (Node C × Plan) :=
  match t.unstable c with
  | [] => none
  | n :: _ => some (n, { entered := missingChildren n.kind c })

end Tree

end Statechart
