import Statechart.Error
import Statechart.Tree

/-!
# Statechart.Tree.Build

Checking a definition and building its tree. The states are laid out first, depth first in order of
declaration; then the targets and guards of all transitions are resolved, in the same order. The
first mistake on this way is reported.

* `NodeDef.layOut`: the states of a definition, with their transitions still declared.
* `Tree.resolve`: the state that a target text names, or what is wrong with it.
* `TransitionDef.resolve`: a declared transition among the states of the chart.
* `Tree.build`: both.
-/

namespace Statechart

variable {C : Type}

/-- A built state whose transitions are still as declared. -/
structure Draft (C : Type) where
  node : Node C
  pending : List (TransitionDef C)

def refuseIf (condition : Bool) (flaw : Flaw) : Except ChartError Unit :=
  if condition then .error (.invalidDefinition flaw) else .ok ()

def firstRepeated? (seen : List String) : List String → Option String
  | [] => none
  | k :: rest => if seen.contains k then some k else firstRepeated? (k :: seen) rest

/-- May a state have this key? It must not be empty, hold a dot or start as an absolute target. -/
def isKey (key : String) : Bool :=
  match key.toList with
  | [] => false
  | c :: rest => c ≠ '#' && !(c :: rest).contains StateId.separator

def generatedServiceId (id : StateId) (place : Nat) : String :=
  id.text ++ ":invoke[" ++ toString place ++ "]"

/-- The services of a state from a place on, and all service ids used so far. -/
def nameServices (id : StateId) (used : List String) :
    Nat → List ServiceDef → Except ChartError (List Service × List String)
  | _, [] => .ok ([], used)
  | place, s :: rest => do
    let serviceId := s.id.getD (generatedServiceId id place)
    refuseIf (used.contains serviceId) (.duplicateService id serviceId)
    let (services, used) ← nameServices id (serviceId :: used) (place + 1) rest
    return (⟨serviceId, s.body, s.input⟩ :: services, used)

namespace NodeDef

def check (id : StateId) (d : NodeDef C) : Except ChartError Unit := do
  match d.kind with
  | .atomic | .final => refuseIf (!d.children.isEmpty) (.childrenNotAllowed id d.kind.name)
  | .compound _ _ | .orthogonal => refuseIf d.children.isEmpty (.childrenNeeded id d.kind.name)
  match d.kind with
  | .final => refuseIf (!d.transitions.isEmpty || !d.services.isEmpty) (.finalNotEmpty id)
  | _ => pure ()
  match firstRepeated? [] (d.children.map NodeDef.key) with
  | some key => .error (.invalidDefinition (.duplicateChild id key))
  | none => pure ()

def builtKind (id : StateId) (children : List StateId) : KindDef C → Except ChartError (NodeKind C)
  | .atomic => .ok .atomic
  | .final => .ok .final
  | .orthogonal => .ok (.orthogonal children)
  | .compound initial actions =>
    match children.find? (·.key == initial) with
    | some child => .ok (.compound children child actions)
    | none => .error (.invalidDefinition (.initialNotChild id initial))

def idBelow (parent : Option StateId) (key : String) : StateId :=
  match parent with
  | some p => p.child key
  | none => .root key

mutual

/-- Lays out a state and the states below it. `used` are the service ids used so far. -/
def layOut (parent : Option StateId) (used : List String) :
    NodeDef C → Except ChartError ((Draft C × List (Draft C)) × List String)
  | ⟨key, kind, children, entry, exit, transitions, services⟩ => do
    refuseIf (!isKey key) (.invalidKey key)
    let id := idBelow parent key
    check id ⟨key, kind, children, entry, exit, transitions, services⟩
    let (built, used) ← nameServices id used 0 services
    let (below, used) ← layOutAll id used children
    let kind ← builtKind id (children.map fun child => id.child child.key) kind
    return ((⟨⟨id, kind, entry, exit, [], built⟩, transitions⟩, below), used)

def layOutAll (parent : StateId) (used : List String) :
    List (NodeDef C) → Except ChartError (List (Draft C) × List String)
  | [] => .ok ([], used)
  | d :: rest => do
    let ((first, below), used) ← layOut (some parent) used d
    let (others, used) ← layOutAll parent used rest
    return (first :: below ++ others, used)

end

end NodeDef

namespace Tree

/-- The state that a target text of `source` names; a text that names none is a mistake. -/
def resolveAmong (known : List StateId) (source : StateId) (target : String) :
    Except ChartError StateId :=
  match resolveAmong? known source target with
  | some id => .ok id
  | none => .error (.unknownTarget source target)

def resolve (t : Tree C) (source : StateId) (target : String) : Except ChartError StateId :=
  resolveAmong t.ids source target

theorem resolveAmong_eq_ok {known : List StateId} {source id : StateId} {target : String} :
    resolveAmong known source target = .ok id ↔ resolveAmong? known source target = some id := by
  rw [resolveAmong]
  cases resolveAmong? known source target <;> simp

end Tree

namespace TransitionDef

/-- Resolves the targets of a transition of `owner`; the root is no target. -/
def resolveTargets (root : StateId) (known : List StateId) (owner : StateId) :
    List String → Except ChartError (List StateId)
  | [] => .ok []
  | target :: rest => do
    let id ← Tree.resolveAmong known owner target
    refuseIf (id == root) (.rootTarget owner)
    let ids ← resolveTargets root known owner rest
    return id :: ids

def resolveGuard (known : List StateId) (owner : StateId) :
    Option (GuardDef C) → Except ChartError (Option (Guard C))
  | none => .ok none
  | some (.inState name) => do
    let id ← Tree.resolveAmong known owner name
    return some (.inState id)
  | some (.context holds) => .ok (some (.context holds))
  | some (.contextAndEvent holds) => .ok (some (.contextAndEvent holds))

/-- Resolves a transition of `owner`. A forbidden transition has nothing but its event. -/
def resolve (root : StateId) (known : List StateId) (owner : StateId) (d : TransitionDef C) :
    Except ChartError (Transition C) :=
  if d.forbidden then do
    refuseIf (!d.targets.isEmpty || !d.actions.isEmpty || d.guard.isSome) (.forbiddenNotEmpty owner)
    return .forbidden d.event
  else do
    let targets ← resolveTargets root known owner d.targets
    let guard ← resolveGuard known owner d.guard
    return .taken d.event guard targets d.actions

def resolveAll (root : StateId) (known : List StateId) (owner : StateId) :
    List (TransitionDef C) → Except ChartError (List (Transition C))
  | [] => .ok []
  | d :: rest => do
    let first ← d.resolve root known owner
    let others ← resolveAll root known owner rest
    return first :: others

end TransitionDef

namespace Draft

def finish (root : StateId) (known : List StateId) (d : Draft C) : Except ChartError (Node C) := do
  let transitions ← TransitionDef.resolveAll root known d.node.id d.pending
  return { d.node with transitions }

def finishAll (root : StateId) (known : List StateId) :
    List (Draft C) → Except ChartError (List (Node C))
  | [] => .ok []
  | d :: rest => do
    let first ← d.finish root known
    let others ← finishAll root known rest
    return first :: others

end Draft

def Tree.build (d : NodeDef C) : Except ChartError (Tree C) := do
  let ((first, below), _) ← d.layOut none []
  let root := first.node.id
  let known := root :: below.map (·.node.id)
  let first ← first.finish root known
  let rest ← Draft.finishAll root known below
  return ⟨first, rest⟩

end Statechart
