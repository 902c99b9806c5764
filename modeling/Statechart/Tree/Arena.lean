import Statechart.Tree.Build

/-!
# Statechart.Tree.Arena

Built charts in an arena. The states stand in slots and refer to each other by place; an index
leads from identifiers to places. A definition takes its slots depth first. The kind of a state is
filled in when its children have their places, and its transitions when all states have.

* `Builder.allocate`: the slots of a definition.
* `Arena.build`: its arena.
* `Arena.parents`, `Arena.lca`, `Arena.oneBeneath`: on the way up, along the parents.
* `Arena.descendants`: on the way down, with a stack of what is still to come.
-/

namespace Statechart

variable {C : Type}

/-- What sort of state stands in a slot, with the places of its children. -/
inductive SlotKind (C : Type) where
  | atomic
  | final
  | compound (children : List Nat) (initial : Nat) (actions : List (Action C))
  | orthogonal (children : List Nat)

def SlotKind.children : SlotKind C → List Nat
  | .atomic => []
  | .final => []
  | .compound children _ _ => children
  | .orthogonal children => children

/-- A transition between places. -/
inductive SlotTransition (C : Type) where
  | forbidden (event : EventPattern)
  | taken (source : Nat) (event : EventPattern) (guard : Option (Guard C)) (targets : List Nat)
      (actions : List (Action C))

structure Slot (C : Type) where
  id : StateId
  index : Nat
  parent : Option Nat
  entry : List (Action C)
  exit : List (Action C)
  transitions : List (SlotTransition C)
  services : List Service
  kind : SlotKind C

/-- The identifier at a place. -/
def idAt (slots : List (Slot C)) (place : Nat) : StateId :=
  ((slots[place]?).map Slot.id).getD default

/-- Slots that are being taken. -/
structure Builder (C : Type) where
  slots : List (Slot C) := []
  /-- The places of identifiers, the latest first. -/
  index : List (StateId × Nat) := []
  /-- The declared transitions of the states at their places. -/
  pending : List (Nat × List (TransitionDef C)) := []
  serviceIds : List String := []

namespace Builder

/-- Takes the next slot. The state in it counts as atomic for the time being. -/
def push (b : Builder C) (id : StateId) (parent : Option Nat) (entry exit : List (Action C))
    (services : List Service) (transitions : List (TransitionDef C)) (serviceIds : List String) :
    Builder C where
  slots := b.slots ++ [⟨id, b.slots.length, parent, entry, exit, [], services, .atomic⟩]
  index := (id, b.slots.length) :: b.index
  pending := b.pending ++ [(b.slots.length, transitions)]
  serviceIds

def setKind (b : Builder C) (place : Nat) (kind : SlotKind C) : Builder C :=
  { b with slots := b.slots.modify place fun s => { s with kind } }

/-- The kind of the state `id` whose children are at these places. -/
def builtKind (slots : List (Slot C)) (id : StateId) (children : List Nat) :
    KindDef C → Except ChartError (SlotKind C)
  | .atomic => .ok .atomic
  | .final => .ok .final
  | .orthogonal => .ok (.orthogonal children)
  | .compound initial actions =>
    match children.find? fun place => (idAt slots place).key == initial with
    | some place => .ok (.compound children place actions)
    | none => .error (.invalidDefinition (.initialNotChild id initial))

mutual

/-- Takes slots for a state and the states below it, and tells the place of the state. -/
def allocate (parent : Option Nat) (b : Builder C) :
    NodeDef C → Except ChartError (Nat × Builder C)
  | ⟨key, kind, children, entry, exit, transitions, services⟩ => do
    refuseIf (!isKey key) (.invalidKey key)
    let id := NodeDef.idBelow (parent.map (idAt b.slots)) key
    NodeDef.check id ⟨key, kind, children, entry, exit, transitions, services⟩
    let (built, serviceIds) ← nameServices id b.serviceIds 0 services
    let place := b.slots.length
    let (places, b) ← allocateAll place
      (b.push id parent entry exit built transitions serviceIds) children
    let kind ← builtKind b.slots id places kind
    return (place, b.setKind place kind)

def allocateAll (parent : Nat) (b : Builder C) :
    List (NodeDef C) → Except ChartError (List Nat × Builder C)
  | [] => .ok ([], b)
  | d :: rest => do
    let (first, b) ← allocate (some parent) b d
    let (others, b) ← allocateAll parent b rest
    return (first :: others, b)

end

end Builder

structure Arena (C : Type) where
  slots : List (Slot C)
  index : List (StateId × Nat)

namespace Arena

def ids (a : Arena C) : List StateId :=
  a.slots.map Slot.id

def indexOf (a : Arena C) (id : StateId) : Option Nat :=
  a.index.lookup id

def parent? (a : Arena C) (place : Nat) : Option Nat :=
  (a.slots[place]?).bind Slot.parent

def children (a : Arena C) (place : Nat) : List Nat :=
  ((a.slots[place]?).map (·.kind.children)).getD []

/-! ## Transitions -/

/-- The identifier that a target text stands for at a place. -/
def targetId? (a : Arena C) (source : Nat) (target : String) : Option StateId :=
  match target.toList with
  | '#' :: rest => StateId.parse? (String.ofList rest)
  | _ =>
    let anchor := (a.parent? source).getD source
    let keys := StateId.splitDots target
    if keys.any (· == "") then none
    else some (keys.foldl StateId.child (idAt a.slots anchor))

def resolve (a : Arena C) (source : Nat) (target : String) : Except ChartError Nat :=
  match (a.targetId? source target).bind a.indexOf with
  | some place => .ok place
  | none => .error (.unknownTarget (idAt a.slots source) target)

/-- The places of the targets; the root, at the first place, is none. -/
def resolveTargets (a : Arena C) (owner : Nat) : List String → Except ChartError (List Nat)
  | [] => .ok []
  | target :: rest => do
    let place ← a.resolve owner target
    refuseIf (place == 0) (.rootTarget (idAt a.slots owner))
    let places ← resolveTargets a owner rest
    return place :: places

def resolveGuard (a : Arena C) (owner : Nat) :
    Option (GuardDef C) → Except ChartError (Option (Guard C))
  | none => .ok none
  | some (.inState name) => do
    let place ← a.resolve owner name
    return some (.inState (idAt a.slots place))
  | some (.context holds) => .ok (some (.context holds))
  | some (.contextAndEvent holds) => .ok (some (.contextAndEvent holds))

def resolveTransition (a : Arena C) (owner : Nat) (d : TransitionDef C) :
    Except ChartError (SlotTransition C) :=
  if d.forbidden then do
    refuseIf (!d.targets.isEmpty || !d.actions.isEmpty || d.guard.isSome)
      (.forbiddenNotEmpty (idAt a.slots owner))
    return .forbidden d.event
  else do
    let targets ← a.resolveTargets owner d.targets
    let guard ← a.resolveGuard owner d.guard
    return .taken owner d.event guard targets d.actions

def resolveTransitions (a : Arena C) (owner : Nat) :
    List (TransitionDef C) → Except ChartError (List (SlotTransition C))
  | [] => .ok []
  | d :: rest => do
    let first ← a.resolveTransition owner d
    let others ← resolveTransitions a owner rest
    return first :: others

def finish (a : Arena C) (owner : Nat) (defs : List (TransitionDef C)) :
    Except ChartError (Arena C) := do
  let transitions ← a.resolveTransitions owner defs
  return { a with slots := a.slots.modify owner fun s => { s with transitions } }

def finishAll (a : Arena C) : List (Nat × List (TransitionDef C)) → Except ChartError (Arena C)
  | [] => .ok a
  | (owner, defs) :: rest => do
    let a ← a.finish owner defs
    finishAll a rest

def build (d : NodeDef C) : Except ChartError (Arena C) := do
  let (_, b) ← Builder.allocate none {} d
  finishAll ⟨b.slots, b.index⟩ b.pending

/-! ## Walks

`fuel` bounds the steps of a walk; without enough of it there is no result. -/

/-- The places above, nearest first. -/
def parents (a : Arena C) : Nat → Nat → Option (List Nat)
  | 0, _ => none
  | fuel + 1, place =>
    match a.parent? place with
    | none => some []
    | some p => (a.parents fuel p).map (p :: ·)

/-- The first place above the one that is above the other as well. -/
def lca (a : Arena C) (fuel one other : Nat) : Option (Option Nat) := do
  let aboveOther ← a.parents fuel other
  let aboveOne ← a.parents fuel one
  return aboveOne.find? aboveOther.contains

/-- The child of `above` on the way down to a place. -/
def oneBeneath (a : Arena C) (fuel place above : Nat) : Option (Option Nat) := do
  let parents ← a.parents fuel place
  return (place :: parents).find? (a.parent? · == some above)

/-- Takes places from the end of the stack, and puts their children there, the last one first. -/
def walkDown (a : Arena C) : Nat → List Nat → List Nat → Option (List Nat)
  | 0, _, _ => none
  | fuel + 1, stack, passed =>
    match stack.getLast? with
    | none => some passed
    | some place =>
      a.walkDown fuel (stack.dropLast ++ (a.children place).reverse) (passed ++ [place])

/-- The places below, in document order. -/
def descendants (a : Arena C) (fuel place : Nat) : Option (List Nat) :=
  a.walkDown fuel (a.children place).reverse []

end Arena

end Statechart
