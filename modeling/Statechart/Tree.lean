import Statechart.Definition

/-!
# Statechart.Tree

Built charts. The states stand in one list in document order: a state comes before the states
below it, and siblings come in the order in which they were declared. States refer to each other by
identifier.

* `Tree.node?`, `Tree.index?`: a state and its place by identifier.
* `Tree.active`, `Tree.unstable`: the active states, and those whose children are missing.
* `Tree.isDone`: has a state reached completion?
* `Tree.resolve?`: the state that a target text names.
-/

namespace Statechart

/-- A transition with resolved targets. -/
inductive Transition (C : Type) where
  /-- Swallows the event: it has no effect, and hides the event from the states above. -/
  | forbidden (event : EventPattern)
  | taken (event : EventPattern) (guard : Option (Guard C)) (targets : List StateId)
      (actions : List (Action C))

namespace Transition

variable {C : Type}

def event : Transition C → EventPattern
  | .forbidden event => event
  | .taken event _ _ _ => event

def guard? : Transition C → Option (Guard C)
  | .forbidden _ => none
  | .taken _ guard _ _ => guard

def targets : Transition C → List StateId
  | .forbidden _ => []
  | .taken _ _ targets _ => targets

def actions : Transition C → List (Action C)
  | .forbidden _ => []
  | .taken _ _ _ actions => actions

def isForbidden : Transition C → Bool
  | .forbidden _ => true
  | .taken _ _ _ _ => false

/-- Does a transition of `source` react to the event here? It listens for it, and its guard, if
there is one, holds. -/
def isEnabled (t : Transition C) (source : StateId) (c : Configuration) (context : C)
    (event : Event) : Bool :=
  t.event.accepts source event &&
    match t.guard? with
    | some g => g.evaluate c context event.data
    | none => true

end Transition

/-- What sort of state a built state is, with its children in order of declaration. -/
inductive NodeKind (C : Type) where
  | atomic
  | final
  | compound (children : List StateId) (initial : StateId) (actions : List (Action C))
  | orthogonal (children : List StateId)

namespace NodeKind

variable {C : Type}

def name : NodeKind C → String
  | .atomic => "atomic"
  | .final => "final"
  | .compound _ _ _ => "compound"
  | .orthogonal _ => "orthogonal"

def children : NodeKind C → List StateId
  | .atomic => []
  | .final => []
  | .compound children _ _ => children
  | .orthogonal children => children

def initialActions : NodeKind C → List (Action C)
  | .compound _ _ actions => actions
  | _ => []

def isFinal : NodeKind C → Bool
  | .final => true
  | _ => false

def isLeaf : NodeKind C → Bool
  | .atomic => true
  | .final => true
  | _ => false

end NodeKind

/-- A built state. -/
structure Node (C : Type) where
  id : StateId
  kind : NodeKind C
  entry : List (Action C)
  exit : List (Action C)
  transitions : List (Transition C)
  services : List Service

/-- A built chart: its states in document order, the root first. -/
structure Tree (C : Type) where
  root : Node C
  rest : List (Node C)

namespace Tree

variable {C : Type}

def nodes (t : Tree C) : List (Node C) :=
  t.root :: t.rest

def ids (t : Tree C) : List StateId :=
  t.nodes.map Node.id

def size (t : Tree C) : Nat :=
  t.nodes.length

def node? (t : Tree C) (id : StateId) : Option (Node C) :=
  t.nodes.find? (·.id = id)

def index? (t : Tree C) (id : StateId) : Option Nat :=
  t.ids.findIdx? (· = id)

def kind? (t : Tree C) (id : StateId) : Option (NodeKind C) :=
  (t.node? id).map Node.kind

def isFinal (t : Tree C) (id : StateId) : Bool :=
  (t.kind? id).any NodeKind.isFinal

def descendants (t : Tree C) (id : StateId) : List StateId :=
  t.ids.filter id.isAncestorOf

def active (t : Tree C) (c : Configuration) : List (Node C) :=
  t.nodes.filter (c.contains ·.id)

/-- Does an active state of this kind lack children? A compound state needs one, an orthogonal
state needs all. -/
def lacksChildren (kind : NodeKind C) (c : Configuration) : Bool :=
  match kind with
  | .compound children _ _ => !children.any c.contains
  | .orthogonal children => !children.all c.contains
  | _ => false

def unstable (t : Tree C) (c : Configuration) : List (Node C) :=
  (t.active c).filter (lacksChildren ·.kind c)

/-- Is a state of this kind complete, when `done` are the complete states below it? -/
def isComplete (t : Tree C) (c : Configuration) (done : List StateId) (kind : NodeKind C) : Bool :=
  match kind with
  | .atomic => false
  | .final => true
  | .compound children _ _ => children.any fun id => t.isFinal id && c.contains id
  | .orthogonal children => children.all done.contains

/-- The active states that have reached completion. The list is walked from its end, so that the
children of a state are known before the state. -/
def doneStates (t : Tree C) (c : Configuration) : List StateId :=
  t.nodes.foldr (fun n done =>
    if c.contains n.id && t.isComplete c done n.kind then n.id :: done else done) []

/-- Is the state active and complete? A final state is; a compound state is if its active child is
final; an orthogonal state is if all its children are. -/
def isDone (t : Tree C) (id : StateId) (c : Configuration) : Bool :=
  (t.doneStates c).contains id

/-- The identifier that a target text of `source` stands for. Behind `#` stands an identifier;
other texts are the way down from the parent of the source, or from the root if it is the source. -/
def targetId? (source : StateId) (target : String) : Option StateId :=
  match target.toList with
  | '#' :: rest => StateId.parse? (String.ofList rest)
  | _ =>
    let keys := StateId.splitDots target
    if keys.any (· == "") then none
    else some ⟨(source.parent?.getD source).keys ++ keys⟩

def resolveAmong? (known : List StateId) (source : StateId) (target : String) : Option StateId :=
  (targetId? source target).filter known.contains

def resolve? (t : Tree C) (source : StateId) (target : String) : Option StateId :=
  resolveAmong? t.ids source target

end Tree

end Statechart
