import Statechart.Instance

/-!
# Statechart.Instance.Clock

Instances in time. Time stands still while anything is ready; then it moves on to the next report.

* `Instance.settle`: delivers what is due, and what becomes due by that, until nothing is.
* `Instance.advance`: lets time pass, with every report at its time.
* `Instance.wait`: lets time pass until the instance ends, or a deadline is reached. What is due at
  the deadline itself comes too late.
-/

namespace Statechart

variable {C : Type}

namespace Instance

def moveTo (i : Instance C) (time : Nat) : Instance C :=
  { i with activities := i.activities.moveTo time }

def now (i : Instance C) : Nat :=
  i.activities.now

/-- Delivers all reports that are due now. None if there are none. -/
def deliverDue? (i : Instance C) : Option (Instance C) :=
  match i.activities.takeDue with
  | ([], _) => none
  | (reports, activities) => some (reports.foldl deliver { i with activities })

def settleFor : Nat → Instance C → Instance C
  | 0, i => i
  | rounds + 1, i =>
    match i.deliverDue? with
    | some i => settleFor rounds i
    | none => i

/-- The most rounds of deliveries at one time. A chart can keep itself busy without time passing,
and is left alone after so many rounds. -/
def maxRounds : Nat := 1000000

/-- Delivers what is due until nothing is. -/
def settle (i : Instance C) : Instance C :=
  settleFor maxRounds i.heedCancel

def advanceFrom (target now : Nat) (i : Instance C) : Instance C :=
  let i := (i.moveTo now).settle
  match i.activities.nextDue? with
  | none => i.moveTo target
  | some due =>
    if now < due ∧ due ≤ target then advanceFrom target due i else i.moveTo target
termination_by target - now

def advance (i : Instance C) (duration : Nat) : Instance C :=
  i.advanceFrom (i.now + duration) i.now

def waitFrom (deadline now : Nat) (i : Instance C) : Instance C :=
  let i := (i.moveTo now).settle
  if i.status.isTerminal then i
  else match i.activities.nextDue? with
    | none => i.moveTo deadline
    | some due =>
      if now < due ∧ due < deadline then waitFrom deadline due i else i.moveTo deadline
termination_by deadline - now

/-- Waits until the instance ends, but not longer than a time. -/
def wait (i : Instance C) (duration : Nat) : Instance C :=
  if i.status.isTerminal || duration == 0 then i
  else i.waitFrom (i.now + duration) i.now

end Instance

end Statechart
