import Statechart.Engine.Drain

/-!
# Statechart.Proofs.Rounds

The loop of a drain, round by round. `Engine.Rounds` describes the rounds after which the drain
goes on, and `Engine.Ends` the ways in which it comes to an end; `Engine.drain_rounds` says that
every drain is a number of such rounds and such an end. Invariants of single events are carried
over to drains by induction on the rounds.
-/

namespace Statechart

variable {C : Type}

theorem EventQueue.eq_empty_of_dequeue? {q : EventQueue} (h : q.dequeue? = none) : q = .empty := by
  rcases q with ⟨_ | ⟨e, es⟩, _ | ⟨f, fs⟩, _ | ⟨g, gs⟩⟩ <;> cases h
  rfl

/-- A round of a drain: the event, the band it waited in, and what became of it. -/
structure Round where
  event : Event
  band : Priority
  report : StepReport

/-- The microsteps of some rounds. -/
def Round.microsteps (rounds : List Round) : List Microstep :=
  rounds.flatMap (·.report.microsteps)

namespace Engine

section Stop

variable {e : Engine C} {event : Event} {step : StepReport} {count : Nat}

theorem stop?_eq_limit :
    e.stop? event step count = some .limit ↔ e.limits.maxMicrosteps < count := by
  simp only [stop?]
  split
  · rename_i hlt
    simp [hlt]
  · rename_i hle
    simp only [hle, iff_false]
    split
    · simp
    · split
      · simp
      · simp

theorem stop?_eq_completed :
    e.stop? event step count = some .completed ↔
      count ≤ e.limits.maxMicrosteps ∧ step.completed = true := by
  simp only [stop?, ← Nat.not_lt]
  split
  · rename_i hlt
    simp [hlt]
  · rename_i hle
    cases step.completed <;> cases step.handled <;> simp [hle]

theorem stop?_eq_faulted {fault : Fault} :
    e.stop? event step count = some (.faulted fault) ↔
      count ≤ e.limits.maxMicrosteps ∧ step.completed = false ∧ step.handled = false ∧
        e.faultOf? event = some fault := by
  simp only [stop?, ← Nat.not_lt]
  split
  · rename_i hlt
    simp [hlt]
  · rename_i hle
    cases step.completed <;> cases step.handled <;> simp [hle]

/-- A drain goes on within the limit, if the root is not complete and the event does not fault. -/
theorem stop?_eq_none :
    e.stop? event step count = none ↔
      count ≤ e.limits.maxMicrosteps ∧ step.completed = false ∧
        (step.handled = true ∨ e.faultOf? event = none) := by
  simp only [stop?, ← Nat.not_lt]
  split
  · rename_i hlt
    simp [hlt]
  · rename_i hle
    cases step.completed <;> cases step.handled <;> simp [hle]

end Stop

/-- The rounds of a drain from `start` after which it goes on, and the run they lead to. -/
inductive Rounds (e : Engine C) (start : Run C) : List Round → Run C → Prop where
  | none : Rounds e start [] start
  | next {past : List Round} {run run' : Run C} {event : Event} {band : Priority}
      {queue : EventQueue} {report : StepReport} :
      Rounds e start past run → run.queue.dequeue? = some ((event, band), queue) →
      e.tree.process event { run with queue } = (.ok report, run') →
      e.stop? event report ((Round.microsteps past).length + report.microsteps.length) = .none →
      Rounds e start (past ++ [⟨event, band, report⟩]) run'

/-- The result of a drain that was stopped after these rounds. -/
def verdict (e : Engine C) (rounds : List Round) : Stop → Except EngineError DrainReport
  | .limit => .error (.microstepLimit e.limits.maxMicrosteps)
  | .completed => .ok ⟨Round.microsteps rounds, rounds.length, .completed⟩
  | .faulted fault => .ok ⟨Round.microsteps rounds, rounds.length, .faulted fault⟩

/-- The ways in which a drain ends that has some rounds behind it, with all its rounds and its
result. A round may end the drain; an event whose processing fails makes no round. -/
inductive Ends (e : Engine C) (past : List Round) (run : Run C) :
    List Round → Except EngineError DrainReport × Run C → Prop where
  | quiescent : run.queue.dequeue? = none →
      Ends e past run past (.ok ⟨Round.microsteps past, past.length, .quiescent⟩, run)
  | failed {event : Event} {band : Priority} {queue : EventQueue} {err : EngineError}
      {run' : Run C} :
      run.queue.dequeue? = some ((event, band), queue) →
      e.tree.process event { run with queue } = (.error err, run') →
      Ends e past run past (.error err, run')
  | stopped {event : Event} {band : Priority} {queue : EventQueue} {report : StepReport}
      {run' : Run C} {stop : Stop} :
      run.queue.dequeue? = some ((event, band), queue) →
      e.tree.process event { run with queue } = (.ok report, run') →
      e.stop? event report ((Round.microsteps past).length + report.microsteps.length) =
        some stop →
      Ends e past run (past ++ [⟨event, band, report⟩])
        (e.verdict (past ++ [⟨event, band, report⟩]) stop, dropEvents run')

/-- The drain from `start` has exactly these rounds. -/
def Drains (e : Engine C) (start : Run C) (rounds : List Round)
    (result : Except EngineError DrainReport × Run C) : Prop :=
  ∃ past run, e.Rounds start past run ∧ e.Ends past run rounds result

theorem microsteps_concat (past : List Round) (r : Round) :
    Round.microsteps (past ++ [r]) = Round.microsteps past ++ r.report.microsteps := by
  simp [Round.microsteps]

theorem drainFrom_eq (e : Engine C) (applied : List Microstep) (count processed : Nat)
    (run : Run C) :
    e.drainFrom applied count processed run =
      match run.queue.dequeue? with
      | none => (.ok ⟨applied.reverse, processed, .quiescent⟩, run)
      | some ((event, _), queue) =>
        match e.tree.process event { run with queue } with
        | (.error err, run') => (.error err, run')
        | (.ok step, run') =>
          match e.stop? event step (count + step.microsteps.length) with
          | some .limit => (.error (.microstepLimit e.limits.maxMicrosteps), dropEvents run')
          | some .completed =>
            (.ok ⟨(step.microsteps.reverse ++ applied).reverse, processed + 1, .completed⟩,
              dropEvents run')
          | some (.faulted fault) =>
            (.ok ⟨(step.microsteps.reverse ++ applied).reverse, processed + 1, .faulted fault⟩,
              dropEvents run')
          | none =>
            e.drainFrom (step.microsteps.reverse ++ applied) (count + step.microsteps.length)
              (processed + 1) run' := by
  rw [drainFrom]
  split
  · rename_i hq; rw [hq]
  · rename_i event band queue hq
    rw [hq]
    split
    · rename_i err run' hp; simp only [hp]
    · rename_i step run' hp
      simp only [hp]
      split <;> rename_i hs <;> simp only [hs]

section Loop

variable {e : Engine C} {past : List Round} {run run' : Run C} {event : Event} {band : Priority}
  {queue : EventQueue} {report : StepReport}

theorem drainFrom_stop {stop : Stop} (hq : run.queue.dequeue? = some ((event, band), queue))
    (hp : e.tree.process event { run with queue } = (.ok report, run'))
    (hs : e.stop? event report ((Round.microsteps past).length + report.microsteps.length) =
      some stop) :
    e.drainFrom (Round.microsteps past).reverse (Round.microsteps past).length past.length run =
      (e.verdict (past ++ [⟨event, band, report⟩]) stop, dropEvents run') := by
  rw [drainFrom_eq, hq]
  simp only [hp, hs]
  cases stop <;> simp [verdict, microsteps_concat]

theorem drainFrom_next (hq : run.queue.dequeue? = some ((event, band), queue))
    (hp : e.tree.process event { run with queue } = (.ok report, run'))
    (hs : e.stop? event report ((Round.microsteps past).length + report.microsteps.length) =
      none) :
    e.drainFrom (Round.microsteps past).reverse (Round.microsteps past).length past.length run =
      e.drainFrom (report.microsteps.reverse ++ (Round.microsteps past).reverse)
        ((Round.microsteps past).length + report.microsteps.length) (past.length + 1) run' := by
  rw [drainFrom_eq, hq]
  simp only [hp, hs]

end Loop

/-- The loop of a drain carries the microsteps of the rounds behind it, latest first, and their
numbers. -/
theorem drainFrom_rounds (e : Engine C) {start : Run C} (applied : List Microstep)
    (count processed : Nat) (run : Run C) :
    ∀ past, e.Rounds start past run → applied = (Round.microsteps past).reverse →
      count = (Round.microsteps past).length → processed = past.length →
      ∃ rounds, e.Drains start rounds (e.drainFrom applied count processed run) := by
  induction applied, count, processed, run using drainFrom.induct e with
  | case1 applied count processed run hq =>
    rintro past hpast rfl rfl rfl
    refine ⟨past, past, run, hpast, ?_⟩
    rw [drainFrom_eq, hq, List.reverse_reverse]
    exact .quiescent hq
  | case2 applied count processed run event band queue hq err run' hp =>
    rintro past hpast - - -
    refine ⟨past, past, run, hpast, ?_⟩
    rw [drainFrom_eq, hq]
    simp only [hp]
    exact .failed hq hp
  | case3 applied count processed run event band queue hq report run' hp count' hs
  | case4 applied count processed run event band queue hq report run' hp count' hs
  | case5 applied count processed run event band queue hq report run' hp count' fault hs =>
    rintro past hpast rfl rfl rfl
    rw [drainFrom_stop hq hp hs]
    exact ⟨_, past, run, hpast, .stopped hq hp hs⟩
  | case6 applied count processed run event band queue hq report run' hp applied' count' hs ih =>
    rintro past hpast rfl rfl rfl
    rw [drainFrom_next hq hp hs]
    refine ih (past ++ [⟨event, band, report⟩]) (.next hpast hq hp hs) ?_ ?_ ?_
    · simp [applied', microsteps_concat]
    · simp [count', microsteps_concat]
    · simp

/-- Every drain is a number of rounds that go on, and an end. -/
theorem drain_rounds (e : Engine C) (run : Run C) : ∃ rounds, e.Drains run rounds (e.drain run) :=
  e.drainFrom_rounds [] 0 0 run [] .none rfl rfl rfl

/-- A drain goes through all rounds after which it goes on. -/
theorem Rounds.drain_eq {e : Engine C} {start run : Run C} {past : List Round}
    (hrounds : e.Rounds start past run) :
    e.drain start = e.drainFrom (Round.microsteps past).reverse (Round.microsteps past).length
      past.length run := by
  induction hrounds with
  | none => rfl
  | next _ hq hp hs ih =>
    rw [ih, drainFrom_next hq hp hs]
    simp [microsteps_concat]

theorem Rounds.drain_quiescent {e : Engine C} {start run : Run C} {past : List Round}
    (hrounds : e.Rounds start past run) (hq : run.queue.dequeue? = .none) :
    e.drain start = (.ok ⟨Round.microsteps past, past.length, .quiescent⟩, run) := by
  rw [hrounds.drain_eq, drainFrom_eq, hq, List.reverse_reverse]

theorem Rounds.drain_stopped {e : Engine C} {start run run' : Run C} {past : List Round}
    {event : Event} {band : Priority} {queue : EventQueue} {report : StepReport} {stop : Stop}
    (hrounds : e.Rounds start past run) (hq : run.queue.dequeue? = some ((event, band), queue))
    (hp : e.tree.process event { run with queue } = (.ok report, run'))
    (hs : e.stop? event report ((Round.microsteps past).length + report.microsteps.length) =
      some stop) :
    e.drain start = (e.verdict (past ++ [⟨event, band, report⟩]) stop, dropEvents run') := by
  rw [hrounds.drain_eq, drainFrom_stop hq hp hs]

/-- The report of a drain lists the microsteps of its rounds. -/
theorem Drains.report_microsteps {e : Engine C} {start run' : Run C} {rounds : List Round}
    {report : DrainReport} (hdrain : e.Drains start rounds (.ok report, run')) :
    report.microsteps = Round.microsteps rounds := by
  obtain ⟨past, run, -, hends⟩ := hdrain
  generalize hresult : ((Except.ok report : Except EngineError DrainReport), run') = result at hends
  cases hends with
  | quiescent _ => cases hresult; rfl
  | failed _ _ => cases hresult
  | @stopped _ _ _ _ _ stop _ _ _ => cases stop <;> cases hresult <;> rfl

/-- A drain that comes to rest leaves no event waiting. -/
theorem drain_rest {e : Engine C} {run run' : Run C} {report : DrainReport}
    (hd : e.drain run = (.ok report, run')) (hrest : report.outcome = .quiescent) :
    ∃ past, e.Rounds run past run' ∧ run'.queue = .empty := by
  obtain ⟨rounds, past, mid, hrounds, hends⟩ := e.drain_rounds run
  rw [hd] at hends
  generalize hresult : ((Except.ok report : Except EngineError DrainReport), run') = result at hends
  cases hends with
  | quiescent hq =>
    cases hresult
    exact ⟨_, hrounds, EventQueue.eq_empty_of_dequeue? hq⟩
  | failed _ _ => cases hresult
  | @stopped _ _ _ _ _ stop _ _ _ =>
    cases stop <;> cases hresult <;> cases hrest

section First

variable {e : Engine C} {start run run' : Run C} {past : List Round} {event : Event}
  {band : Priority} {queue : EventQueue} {report : StepReport}

theorem Rounds.first (hrounds : e.Rounds start past run)
    (hq : start.queue.dequeue? = some ((event, band), queue))
    (hp : e.tree.process event { start with queue } = (.ok report, run')) :
    past = [] ∧ run = start ∨ ∃ rest, past = ⟨event, band, report⟩ :: rest := by
  induction hrounds with
  | none => exact .inl ⟨rfl, rfl⟩
  | @next past run run'' event' band' queue' report' _ hq' hp' _ ih =>
    rcases ih with ⟨rfl, rfl⟩ | ⟨rest, rfl⟩
    · rw [hq] at hq'
      cases hq'
      rw [hp] at hp'
      cases hp'
      exact .inr ⟨[], rfl⟩
    · exact .inr ⟨rest ++ [⟨event', band', report'⟩], rfl⟩

/-- The first round of a drain takes the event that waits first, if it is not refused. -/
theorem Drains.first {rounds : List Round} {result : Except EngineError DrainReport × Run C}
    (hdrain : e.Drains start rounds result)
    (hq : start.queue.dequeue? = some ((event, band), queue))
    (hp : e.tree.process event { start with queue } = (.ok report, run')) :
    ∃ rest, rounds = ⟨event, band, report⟩ :: rest := by
  obtain ⟨past, run, hrounds, hends⟩ := hdrain
  rcases hrounds.first hq hp with ⟨rfl, rfl⟩ | ⟨rest, rfl⟩
  · cases hends with
    | quiescent hq' =>
      rw [hq] at hq'
      cases hq'
    | failed hq' hp' =>
      rw [hq] at hq'
      cases hq'
      rw [hp] at hp'
      cases hp'
    | stopped hq' hp' _ =>
      rw [hq] at hq'
      cases hq'
      rw [hp] at hp'
      cases hp'
      exact ⟨[], rfl⟩
  · cases hends with
    | quiescent _ => exact ⟨rest, rfl⟩
    | failed _ _ => exact ⟨rest, rfl⟩
    | stopped _ _ _ => exact ⟨rest ++ [_], rfl⟩

end First

section Preserves

variable {e : Engine C} {P : List Event → Run C → Prop} {start run : Run C} {rounds : List Round}
  {result : Except EngineError DrainReport × Run C}

theorem Rounds.preserves (hrounds : e.Rounds start rounds run) (events : List Event)
    (hqueue : ∀ {events run} queue, P events run → P events { run with queue })
    (hok : ∀ {events run event report run'}, P events run →
      e.tree.process event run = (.ok report, run') → P (events ++ [event]) run')
    (hstart : P events start) : P (events ++ rounds.map Round.event) run := by
  induction hrounds with
  | none => rwa [List.map_nil, List.append_nil]
  | next _ _ hp _ ih =>
    rw [List.map_append, ← List.append_assoc]
    exact hok (hqueue _ ih) hp

/-- What holds of the events processed and the run holds after a drain, if it does not depend on
the waiting events and processing an event keeps it. -/
theorem Drains.preserves (hdrain : e.Drains start rounds result) (events : List Event)
    (hqueue : ∀ {events run} queue, P events run → P events { run with queue })
    (hok : ∀ {events run event report run'}, P events run →
      e.tree.process event run = (.ok report, run') → P (events ++ [event]) run')
    (herror : ∀ {events run event err run'}, P events run →
      e.tree.process event run = (.error err, run') → P events run')
    (hstart : P events start) : P (events ++ rounds.map Round.event) result.2 := by
  obtain ⟨past, run, hrounds, hends⟩ := hdrain
  have hpast := hrounds.preserves events hqueue hok hstart
  cases hends with
  | quiescent => exact hpast
  | failed _ hp => exact herror (hqueue _ hpast) hp
  | stopped _ hp _ =>
    rw [List.map_append, ← List.append_assoc]
    exact hqueue _ (hok (hqueue _ hpast) hp)

end Preserves

/-! ## Runs of calls -/

/-- The runs that calls lead to, with the events that were processed. Between the calls, any events
may be put into any bands of the queue. -/
inductive Reachable (e : Engine C) (context : C) : List Event → Run C → Prop where
  | new : Reachable e context [] (.new context)
  | queue {events : List Event} {run : Run C} (queue : EventQueue) :
      Reachable e context events run → Reachable e context events { run with queue }
  | process {events : List Event} {run run' : Run C} {event : Event} {report : StepReport} :
      Reachable e context events run → e.tree.process event run = (.ok report, run') →
      Reachable e context (events ++ [event]) run'
  | refused {events : List Event} {run run' : Run C} {event : Event} {err : EngineError} :
      Reachable e context events run → e.tree.process event run = (.error err, run') →
      Reachable e context events run'
  | drain {events : List Event} {run : Run C} {rounds : List Round} :
      Reachable e context events run → e.Drains run rounds (e.drain run) →
      Reachable e context (events ++ rounds.map Round.event) (e.drain run).2

/-- What holds at the start, does not depend on the waiting events and is kept by processing an
event holds of every run. -/
theorem Reachable.preserves {e : Engine C} {P : List Event → Run C → Prop} {context : C}
    {events : List Event} {run : Run C} (hr : e.Reachable context events run)
    (hqueue : ∀ {events run} queue, P events run → P events { run with queue })
    (hok : ∀ {events run event report run'}, P events run →
      e.tree.process event run = (.ok report, run') → P (events ++ [event]) run')
    (herror : ∀ {events run event err run'}, P events run →
      e.tree.process event run = (.error err, run') → P events run')
    (hnew : P [] (.new context)) : P events run := by
  induction hr with
  | new => exact hnew
  | queue queue _ ih => exact hqueue queue ih
  | process _ hp ih => exact hok ih hp
  | refused _ hp ih => exact herror ih hp
  | drain _ hdrain ih => exact hdrain.preserves _ hqueue hok herror ih

end Engine

end Statechart
