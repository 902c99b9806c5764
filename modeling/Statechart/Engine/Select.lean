import Statechart.Tree

/-!
# Statechart.Engine.Select

Which transitions react to an event. Every active state offers the first of its transitions that
reacts; a state offers none if one below it does. Descendants come later in document order, so a
sweep from the end of the order meets them before their ancestors.

* `Tree.selectBy`: the sweep, for any test on transitions.
* `Tree.select`: the transitions that an event enables.
* `Tree.nextEvents`: the named events that would be taken, guards aside.
-/

namespace Statechart

variable {C : Type}

/-- A transition by its source and its place among the transitions of the source. -/
structure TransitionRef where
  source : StateId
  index : Nat
  deriving DecidableEq, Repr

def TransitionRef.text (r : TransitionRef) : String :=
  r.source.text ++ "[" ++ toString r.index ++ "]"

structure Selected (C : Type) where
  ref : TransitionRef
  transition : Transition C

def Node.firstBy (n : Node C) (test : Transition C → Bool) : Option (Selected C) :=
  match n.transitions.findIdx? test with
  | none => none
  | some i => n.transitions[i]?.map fun t => ⟨⟨n.id, i⟩, t⟩

namespace Tree

/-- Adds what a state offers to what was selected behind it in document order. -/
def sweepStep (test : StateId → Transition C → Bool) (n : Node C) (selected : List (Selected C)) :
    List (Selected C) :=
  if selected.any fun s => n.id.isAncestorOf s.ref.source then selected
  else match n.firstBy (test n.id) with
    | some s => s :: selected
    | none => selected

/-- The transitions of active states that pass a test, at most one on every way from the root, in
document order of their sources. -/
def selectBy (t : Tree C) (c : Configuration) (test : StateId → Transition C → Bool) :
    List (Selected C) :=
  (t.active c).foldr (sweepStep test) []

def select (t : Tree C) (c : Configuration) (context : C) (event : Event) : List (Selected C) :=
  t.selectBy c fun source transition => transition.isEnabled source c context event

def listenedNames (t : Tree C) (c : Configuration) : List String :=
  ((t.active c).flatMap fun n => n.transitions.filterMap (·.event.name?)).eraseDups

/-- Would an event of this name be taken, if every guard held? -/
def wouldTake (t : Tree C) (c : Configuration) (name : String) : Bool :=
  (t.selectBy c fun source transition =>
    transition.event.accepts source (.named name .null)).any fun s => !s.transition.isForbidden

/-- The names of the events that would be taken if every guard held, in order. -/
def nextEvents (t : Tree C) (c : Configuration) : List String :=
  ((t.listenedNames c).filter (t.wouldTake c)).mergeSort (· ≤ ·)

end Tree

end Statechart
