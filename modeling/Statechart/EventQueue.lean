import Statechart.Event

/-!
# Statechart.EventQueue

The queue of waiting events. It has three bands; the next event is the oldest of the most urgent
band that is not empty.
-/

namespace Statechart

/-- Waiting events by band, the oldest first. -/
structure EventQueue where
  stabilization : List Event := []
  currentMacrostep : List Event := []
  nextMacrostep : List Event := []

namespace EventQueue

def empty : EventQueue where

instance : Inhabited EventQueue := ⟨empty⟩

def band (q : EventQueue) : Priority → List Event
  | .stabilization => q.stabilization
  | .currentMacrostep => q.currentMacrostep
  | .nextMacrostep => q.nextMacrostep

def enqueue (q : EventQueue) (event : Event) : Priority → EventQueue
  | .stabilization => { q with stabilization := q.stabilization ++ [event] }
  | .currentMacrostep => { q with currentMacrostep := q.currentMacrostep ++ [event] }
  | .nextMacrostep => { q with nextMacrostep := q.nextMacrostep ++ [event] }

/-- Takes the next event, with the band it waited in. -/
def dequeue? : EventQueue → Option ((Event × Priority) × EventQueue)
  | ⟨e :: es, current, next⟩ => some ((e, .stabilization), ⟨es, current, next⟩)
  | ⟨[], e :: es, next⟩ => some ((e, .currentMacrostep), ⟨[], es, next⟩)
  | ⟨[], [], e :: es⟩ => some ((e, .nextMacrostep), ⟨[], [], es⟩)
  | ⟨[], [], []⟩ => none

/-- Does an equal event wait in the band? -/
def contains (q : EventQueue) (event : Event) (p : Priority) : Bool :=
  (q.band p).contains event

def size (q : EventQueue) : Nat :=
  q.stabilization.length + q.currentMacrostep.length + q.nextMacrostep.length

def isEmpty (q : EventQueue) : Bool :=
  q.stabilization.isEmpty && q.currentMacrostep.isEmpty && q.nextMacrostep.isEmpty

def bandSize (q : EventQueue) (p : Priority) : Nat :=
  (q.band p).length

def clear (_ : EventQueue) : EventQueue := empty

/-- A dequeued event leaves the queue one shorter. -/
theorem size_of_dequeue? {q r : EventQueue} {ep : Event × Priority}
    (h : q.dequeue? = some (ep, r)) : r.size + 1 = q.size := by
  rcases q with ⟨_ | ⟨e, es⟩, _ | ⟨f, fs⟩, _ | ⟨g, gs⟩⟩ <;>
    simp_all only [dequeue?, Option.some.injEq, Prod.mk.injEq, reduceCtorEq] <;>
    obtain ⟨_, rfl⟩ := h <;> simp [size] <;> omega

end EventQueue

end Statechart
