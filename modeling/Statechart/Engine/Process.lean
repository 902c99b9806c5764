import Statechart.Engine.Plan
import Statechart.Engine.Select

/-!
# Statechart.Engine.Process

One event, and what follows from it before the next event is taken from the queue.

* `Run`: the state of a run.
* `Tree.apply`: one microstep. The states left run their exit actions, then the actions of the
  transition run, then the states entered run their entry actions.
* `Tree.stabilize`: microsteps until no active state lacks children.
* `Tree.process`: an event. The selected transitions are taken in document order, each from the
  configuration that the earlier ones left; then the configuration is stabilized, and completed
  states and transitions without event are queued.
* `Tree.process_idle`: an event without microsteps leaves the queue as it was.
-/

namespace Statechart

variable {C : Type}

/-- The state of a run: what actions work on, and the active states. -/
structure Run (C : Type) extends Store C where
  configuration : Configuration := .empty

def Run.new (context : C) : Run C := { context }

inductive MicrostepKind where
  | initialization
  | stabilization
  | event (event : Event) (transition : TransitionRef)
  deriving Repr

/-- A microstep that was applied: the states left, innermost first, and the states entered,
outermost first. -/
structure Microstep where
  kind : MicrostepKind
  exited : List StateId
  entered : List StateId
  deriving Repr

namespace Microstep

def listText (ids : List StateId) : String :=
  ", ".intercalate (ids.map StateId.text)

def text (m : Microstep) : String :=
  let cause := match m.kind with
    | .initialization => "initialization"
    | .stabilization => "stabilization"
    | .event event transition => event.name ++ " via " ++ transition.text
  cause ++ ": exited [" ++ listText m.exited ++ "] entered [" ++ listText m.entered ++ "]"

end Microstep

/-- What a microstep is applied for: the name of its actions in failures, the data they see, and
the kind of the microstep. -/
structure Cause where
  origin : String
  data : Json
  kind : MicrostepKind

namespace Tree

/-- Leaves a state, which stays in the configuration until all states of the step were left. -/
def leave (t : Tree C) (data : Json) (run : Run C) (id : StateId) : Run C :=
  let actions := ((t.node? id).map Node.exit).getD []
  let (_, store) := runBlock ("exit " ++ id.text) data actions run.toStore
  { run with toStore := store.signal (.exited id) }

def enter (t : Tree C) (data : Json) (run : Run C) (id : StateId) : Run C :=
  let actions := ((t.node? id).map Node.entry).getD []
  let (_, store) := runBlock ("entry " ++ id.text) data actions run.toStore
  { configuration := run.configuration.insert id, toStore := store.signal (.entered id) }

def apply (t : Tree C) (plan : Plan) (actions : List (Action C)) (cause : Cause) (run : Run C) :
    Microstep × Run C :=
  let run := plan.exited.foldl (t.leave cause.data) run
  let run := { run with configuration := run.configuration.eraseAll plan.exited }
  let run := { run with toStore := (runBlock cause.origin cause.data actions run.toStore).2 }
  let run := plan.entered.foldl (t.enter cause.data) run
  (⟨cause.kind, plan.exited, plan.entered⟩, run)

def stabilizeFor (t : Tree C) (data : Json) : Nat → Run C → List Microstep × Run C
  | 0, run => ([], run)
  | fuel + 1, run =>
    match t.planStabilization run.configuration with
    | none => ([], run)
    | some (n, plan) =>
      let cause := ⟨"initial " ++ n.id.text, data, .stabilization⟩
      let (m, run) := t.apply plan n.kind.initialActions cause run
      let (ms, run) := t.stabilizeFor data fuel run
      (m :: ms, run)

/-- Gives children to the states that lack them. Every step enters a state, so there are no more
steps than states. -/
def stabilize (t : Tree C) (data : Json) (run : Run C) : List Microstep × Run C :=
  t.stabilizeFor data t.size run

def isCompleted (t : Tree C) (c : Configuration) : Bool :=
  t.isDone t.root.id c

/-- The states that may have been completed by entering these: the complete states above those that
are final and still active, except the root. -/
def completedBy (t : Tree C) (c : Configuration) (entered : List StateId) : List StateId :=
  ((entered.filter fun id => t.isFinal id && c.contains id).flatMap StateId.ancestors).filter
    fun id => id ≠ t.root.id && t.isDone id c

/-- Queues the completion of a state, unless it is queued already. -/
def queueDone (queue : EventQueue) (id : StateId) : EventQueue :=
  if queue.contains (.done id) .currentMacrostep then queue
  else queue.enqueue (.done id) .currentMacrostep

def hasEventless (t : Tree C) (c : Configuration) : Bool :=
  (t.active c).any fun n => n.transitions.any (·.event == .immediate)

/-- Queues the trial of transitions without event, unless it is queued already. -/
def queueImmediate (queue : EventQueue) : EventQueue :=
  if queue.contains .immediate .stabilization then queue
  else queue.enqueue .immediate .stabilization

end Tree

structure StepReport where
  microsteps : List Microstep := []
  /-- Did an active state react, if only by swallowing the event? -/
  handled : Bool := false
  completed : Bool := false

namespace Tree

/-- Takes a selected transition to its targets in turn. Its actions go with the first step. -/
def takeTo (t : Tree C) (source : StateId) (cause : Cause) :
    List (Action C) → List StateId → Run C → Except EngineError (List Microstep) × Run C
  | _, [], run => (.ok [], run)
  | actions, target :: rest, run =>
    match t.plan run.configuration source target with
    | .error e => (.error e, run)
    | .ok plan =>
      let (m, run) := t.apply plan actions cause run
      match t.takeTo source cause [] rest run with
      | (.ok ms, run) => (.ok (m :: ms), run)
      | (.error e, run) => (.error e, run)

/-- Takes a selected transition. One without targets only runs its actions. -/
def take (t : Tree C) (event : Event) (s : Selected C) (run : Run C) :
    Except EngineError (List Microstep) × Run C :=
  let cause := ⟨"transition " ++ s.ref.text, event.data, .event event s.ref⟩
  match s.transition.targets with
  | [] =>
    let (m, run) := t.apply {} s.transition.actions cause run
    (.ok [m], run)
  | targets => t.takeTo s.ref.source cause s.transition.actions targets run

/-- Takes selected transitions in turn. A forbidden transition does nothing, and neither does one
whose source is not active when its turn comes. -/
def takeAll (t : Tree C) (event : Event) :
    List (Selected C) → Run C → Except EngineError (List Microstep) × Run C
  | [], run => (.ok [], run)
  | s :: rest, run =>
    if s.transition.isForbidden || !run.configuration.contains s.ref.source then
      t.takeAll event rest run
    else
      match t.take event s run with
      | (.error e, run) => (.error e, run)
      | (.ok ms, run) =>
        match t.takeAll event rest run with
        | (.ok ms', run) => (.ok (ms ++ ms'), run)
        | (.error e, run) => (.error e, run)

/-- Completes the processing of an event whose transitions gave the microsteps `taken`. -/
def settle (t : Tree C) (data : Json) (handled : Bool) (taken : List Microstep) (run : Run C) :
    StepReport × Run C :=
  let (more, run) := t.stabilize data run
  let microsteps := taken ++ more
  let entered := microsteps.flatMap Microstep.entered
  let completed := !entered.isEmpty && t.isCompleted run.configuration
  let queue := (t.completedBy run.configuration entered).foldl queueDone run.queue
  let queue :=
    if !microsteps.isEmpty && !completed && t.hasEventless run.configuration then
      queueImmediate queue
    else queue
  (⟨microsteps, handled, completed⟩, { run with queue })

def process (t : Tree C) (event : Event) (run : Run C) :
    Except EngineError StepReport × Run C :=
  match event with
  | .start =>
    if run.configuration.isInitialized then (.ok { handled := true }, run)
    else
      let cause := ⟨"initialize", .null, .initialization⟩
      let (m, run) := t.apply { entered := [t.root.id] } [] cause run
      let (report, run) := t.settle .null true [m] run
      (.ok report, run)
  | event =>
    if !run.configuration.isInitialized then (.error (.notInitialized event.name), run)
    else
      let selected := t.select run.configuration run.context event
      match t.takeAll event selected run with
      | (.error e, run) => (.error e, run)
      | (.ok taken, run) =>
        let (report, run) := t.settle event.data (!selected.isEmpty) taken run
        (.ok report, run)

/-! ## Events without microsteps -/

theorem stabilizeFor_idle {t : Tree C} {data : Json} {fuel : Nat} {run : Run C}
    (h : (t.stabilizeFor data fuel run).1 = []) : (t.stabilizeFor data fuel run).2 = run := by
  cases fuel with
  | zero => rfl
  | succ fuel =>
    unfold stabilizeFor at h ⊢
    split
    · rfl
    · rename_i hplan
      simp [hplan] at h

theorem settle_idle {t : Tree C} {data : Json} {handled : Bool} {taken : List Microstep}
    {run : Run C} (h : (t.settle data handled taken run).1.microsteps = []) :
    (t.settle data handled taken run).2 = run := by
  simp only [settle, List.append_eq_nil_iff] at h
  obtain ⟨htaken, hmore⟩ := h
  have hrun : (t.stabilize data run).2 = run := stabilizeFor_idle hmore
  simp [settle, htaken, hmore, hrun, completedBy]

theorem takeTo_ne_nil {t : Tree C} {source : StateId} {cause : Cause} {actions : List (Action C)}
    {targets : List StateId} {run run' : Run C} {ms : List Microstep} (hne : targets ≠ [])
    (h : t.takeTo source cause actions targets run = (.ok ms, run')) : ms ≠ [] := by
  cases targets with
  | nil => exact absurd rfl hne
  | cons target rest =>
    unfold takeTo at h
    split at h
    · simp at h
    · simp only at h
      split at h
      · simp only [Prod.mk.injEq, Except.ok.injEq] at h
        rw [← h.1]; simp
      · simp at h

theorem take_ne_nil {t : Tree C} {event : Event} {s : Selected C} {run run' : Run C}
    {ms : List Microstep} (h : t.take event s run = (.ok ms, run')) : ms ≠ [] := by
  unfold take at h
  simp only at h
  split at h
  · simp only [Prod.mk.injEq, Except.ok.injEq] at h
    rw [← h.1]; simp
  · rename_i hne
    exact takeTo_ne_nil hne h

theorem takeAll_idle {t : Tree C} {event : Event} {selected : List (Selected C)} {run run' : Run C}
    (h : t.takeAll event selected run = (.ok [], run')) : run' = run := by
  induction selected generalizing run with
  | nil => simp [takeAll] at h; exact h.symm
  | cons s rest ih =>
    unfold takeAll at h
    split at h
    · exact ih h
    · split at h
      · simp at h
      · rename_i ms run₁ htake
        split at h
        · simp only [Prod.mk.injEq, Except.ok.injEq, List.append_eq_nil_iff] at h
          exact absurd h.1.1 (take_ne_nil htake)
        · simp at h

/-- An event without microsteps changes nothing. -/
theorem process_idle {t : Tree C} {event : Event} {run run' : Run C} {report : StepReport}
    (h : t.process event run = (.ok report, run')) (hidle : report.microsteps = []) :
    run' = run := by
  unfold process at h
  split at h
  · split at h
    · simp only [Prod.mk.injEq] at h; exact h.2.symm
    · simp only [Prod.mk.injEq, Except.ok.injEq] at h
      obtain ⟨rfl, -⟩ := h
      simp [settle] at hidle
  · split at h
    · simp at h
    · simp only at h
      split at h
      · simp at h
      · rename_i taken run₁ htake
        simp only [Prod.mk.injEq, Except.ok.injEq] at h
        obtain ⟨rfl, rfl⟩ := h
        have htaken : taken = [] := by
          simp only [settle, List.append_eq_nil_iff] at hidle
          exact hidle.1
        rw [settle_idle hidle]
        exact takeAll_idle (htaken ▸ htake)

end Tree

end Statechart
