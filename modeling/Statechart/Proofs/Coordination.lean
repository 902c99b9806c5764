import Statechart.Proofs.Endings
import Statechart.Proofs.Listeners

/-!
# Statechart.Proofs.Coordination

An instance does what the bare engine does with the events that it accepts. Services, timers,
cancellation and the passing of time decide which events these are, and nothing else.

* `Engine.feed`, `Engine.feedAll`: the bare engine, which has one event after the other processed.
* `Instance.accepted`: the events that an instance accepts during some calls.
* `Instance.Follows`: an instance agrees with the bare engine. Every call keeps this.
* `Instance.follows_engine`: after any calls.
-/

namespace Statechart

variable {C : Type}

/-! ## The bare engine -/

namespace Engine

/-- Has one event processed, which is put into a band of the queue. -/
def feed (e : Engine C) (run : Run C) (event : Event) (band : Priority) :
    Except EngineError DrainReport × Run C :=
  e.drain { run with queue := run.queue.enqueue event band }

/-- Has events processed one after the other from the beginning. The results, and the run. -/
def feedAll (e : Engine C) (context : C) (events : List (Event × Priority)) :
    List (Except EngineError DrainReport) × Run C :=
  events.foldl (fun fed next =>
    let (result, run) := e.feed fed.2 next.1 next.2
    (fed.1 ++ [result], run)) ([], .new context)

/-- Did the drain end with the instance going on? -/
def Rests (result : Except EngineError DrainReport) : Prop :=
  ∃ report, result = .ok report ∧ report.outcome = .quiescent

theorem feedAll_concat (e : Engine C) (context : C) (events : List (Event × Priority))
    (event : Event) (band : Priority) :
    e.feedAll context (events ++ [(event, band)]) =
      let fed := e.feedAll context events
      let (result, run) := e.feed fed.2 event band
      (fed.1 ++ [result], run) := by
  rw [feedAll, List.foldl_append]
  rfl

theorem feedAll_length (e : Engine C) (context : C) (events : List (Event × Priority)) :
    (e.feedAll context events).1.length = events.length := by
  induction events using List.reverseRecOn with
  | nil => rfl
  | append_singleton events next ih =>
    rw [feedAll_concat]
    simp [ih]

/-- The band of an event that waits alone makes no difference. -/
theorem feed_band {e : Engine C} {run : Run C} (hq : run.queue = .empty) (event : Event)
    (band band' : Priority) : e.feed run event band = e.feed run event band' := by
  have alone : ∀ band : Priority, (EventQueue.empty.enqueue event band).dequeue? =
      some ((event, band), EventQueue.empty) := by
    intro band
    cases band <;> rfl
  rw [feed, feed, hq, drain, drain, drainFrom_eq, drainFrom_eq]
  simp only [alone]

/-- A drain that comes to rest has processed all events. -/
theorem Rests.queue {e : Engine C} {run : Run C} (h : Rests (e.drain run).1) :
    (e.drain run).2.queue = .empty := by
  obtain ⟨report, hok, hrest⟩ := h
  have hdrain : e.drain run = (.ok report, (e.drain run).2) := Prod.ext hok rfl
  obtain ⟨-, -, hq⟩ := drain_rest hdrain hrest
  exact hq

/-- If all drains came to rest, no event waits. -/
theorem feedAll_queue {e : Engine C} {context : C} {events : List (Event × Priority)}
    (h : ∀ result ∈ (e.feedAll context events).1, Rests result) :
    (e.feedAll context events).2.queue = .empty := by
  cases events using List.reverseRecOn with
  | nil => rfl
  | append_singleton events next =>
    rw [feedAll_concat] at h ⊢
    exact (h _ (List.mem_append_right _ (List.mem_singleton_self _))).queue

end Engine

/-- The first event goes into a band, the others wait for the next macrostep. -/
def inTurn (band : Priority) : List Event → List (Event × Priority)
  | [] => []
  | first :: rest => (first, band) :: rest.map (·, .nextMacrostep)

theorem inTurn_length (band : Priority) (events : List Event) :
    (inTurn band events).length = events.length := by
  cases events <;> simp [inTurn]

theorem inTurn_concat (band : Priority) (events : List Event) (event : Event) :
    ∃ band', inTurn band (events ++ [event]) = inTurn band events ++ [(event, band')] := by
  cases events with
  | nil => exact ⟨band, rfl⟩
  | cons first rest => exact ⟨.nextMacrostep, by simp [inTurn]⟩

namespace Status

/-- The status that the result of a drain leads to. -/
def after : Except EngineError DrainReport → Status
  | .ok report =>
    match report.outcome with
    | .quiescent => .active
    | .completed => .ended .completed
    | .faulted fault => .ended (.faulted fault)
  | .error e => .ended (.faulted (.execution e.message))

/-- The status that the last of some drains leads to. -/
def afterAll (results : List (Except EngineError DrainReport)) : Status :=
  match results.getLast? with
  | some result => after result
  | none => .notStarted

variable {result : Except EngineError DrainReport}

theorem after_eq_active : after result = .active ↔ Engine.Rests result := by
  cases result with
  | error e => simp [after, Engine.Rests]
  | ok report => cases ho : report.outcome <;> simp [after, Engine.Rests, ho]

theorem afterAll_concat (results : List (Except EngineError DrainReport))
    (result : Except EngineError DrainReport) : afterAll (results ++ [result]) = after result := by
  rw [afterAll, List.getLast?_concat]

theorem after_ne_notStarted : after result ≠ .notStarted := by
  cases result with
  | error e => simp [after]
  | ok report => cases ho : report.outcome <;> simp [after, ho]

/-- If all drains but the last came to rest and no status is final, the last did so too. -/
theorem rests_of_afterAll {results : List (Except EngineError DrainReport)}
    (hs : (afterAll results).isTerminal = false)
    (hearlier : ∀ result ∈ results.dropLast, Engine.Rests result) :
    ∀ result ∈ results, Engine.Rests result := by
  cases results using List.reverseRecOn with
  | nil => exact fun _ h => absurd h List.not_mem_nil
  | append_singleton results last =>
    rw [afterAll_concat] at hs
    rw [List.dropLast_concat] at hearlier
    have hlast : Engine.Rests last := by
      refine after_eq_active.1 ?_
      cases ha : after last with
      | active => rfl
      | notStarted => exact absurd ha after_ne_notStarted
      | ended termination =>
        rw [ha] at hs
        cases hs
    intro result hresult
    rcases List.mem_append.1 hresult with hresult | hresult
    · exact hearlier result hresult
    · rw [List.mem_singleton.1 hresult]
      exact hlast

end Status

/-! ## The events that an instance accepts -/

/-- Does the call ask the instance to end? -/
def Call.asksForEnd : Call → Bool
  | .cancel => true
  | .requestCancel => true
  | _ => false

namespace Instance

/-- The event that the instance has processed in a call: the first one on starting, one sent to an
active instance, and the one of a report whose activity is registered. -/
def accepted? (i : Instance C) : Call → Option Event
  | .start => if i.status = .notStarted ∧ i.cancelRequested = false then some .start else none
  | .send event => if i.status = .active then some event else none
  | .deliver r => if i.Accepts r then some r.event else none
  | _ => none

/-- The events that the instance accepts in some calls. -/
def accepted (i : Instance C) : List Call → List Event
  | [] => []
  | call :: rest => (i.accepted? call).toList ++ (i.perform call).accepted rest

variable {e : Engine C} {context : C} {band : Priority} {events : List Event} {i j : Instance C}
  {call : Call} {event : Event}

/-- An event is accepted by opening the instance with it. -/
theorem opens_of_accepted (ha : i.accepted? call = some event) :
    ∃ reported j, i.Opens call reported j ∧ j.engine = i.engine ∧ j.status = .active ∧
      j.run = { i.run with queue := i.run.queue.enqueue event .nextMacrostep } := by
  cases call with
  | start =>
    simp only [accepted?, Option.ite_none_right_eq_some, Option.some.injEq] at ha
    obtain ⟨⟨hs, hc⟩, rfl⟩ := ha
    exact ⟨_, _, .start hs hc, rfl, rfl, rfl⟩
  | send event' =>
    simp only [accepted?, Option.ite_none_right_eq_some, Option.some.injEq] at ha
    obtain ⟨hs, rfl⟩ := ha
    exact ⟨_, _, .send event' hs, rfl, hs, rfl⟩
  | deliver r =>
    simp only [accepted?, Option.ite_none_right_eq_some, Option.some.injEq] at ha
    obtain ⟨haccepts, rfl⟩ := ha
    exact ⟨_, _, .deliver r haccepts, rfl, haccepts.1, rfl⟩
  | _ => cases ha

theorem not_opens_of_accepted (ha : i.accepted? call = none) {reported : List Activity} :
    ¬ i.Opens call reported j := by
  intro ho
  cases ho with
  | start hs hc => simp [accepted?, hs, hc] at ha
  | send event hs => simp [accepted?, hs] at ha
  | deliver r haccepts => simp [accepted?, haccepts] at ha

theorem status_of_accepted (ha : i.accepted? call = some event) :
    i.status = .notStarted ∧ call = .start ∧ event = .start ∨ i.status = .active := by
  cases call with
  | start =>
    simp only [accepted?, Option.ite_none_right_eq_some, Option.some.injEq] at ha
    exact .inl ⟨ha.1.1, rfl, ha.2.symm⟩
  | send event' =>
    simp only [accepted?, Option.ite_none_right_eq_some] at ha
    exact .inr ha.1
  | deliver r =>
    simp only [accepted?, Option.ite_none_right_eq_some] at ha
    exact .inr ha.1.1
  | _ => cases ha

/-! ## Cancellation -/

theorem drain_cancelRequested (j : Instance C) :
    j.drain.2.cancelRequested = j.cancelRequested := by
  rcases j.drain_cases with ⟨hd, -⟩ | ⟨termination, hd⟩ <;> rw [hd] <;> rfl

theorem Opens.cancelRequested {reported : List Activity} (ho : i.Opens call reported j) :
    j.cancelRequested = i.cancelRequested ∧ call.asksForEnd = false := by
  cases ho <;> exact ⟨rfl, rfl⟩

theorem perform_cancelRequested (i : Instance C) (call : Call) :
    (i.perform call).cancelRequested = (i.cancelRequested || call.asksForEnd) := by
  cases ha : i.accepted? call with
  | some event =>
    obtain ⟨reported, j, ho, -⟩ := opens_of_accepted ha
    obtain ⟨hsame, hnot⟩ := ho.cancelRequested
    rw [ho.perform, drain_cancelRequested, hsame, hnot, Bool.or_false]
  | none =>
    cases call with
    | start =>
      simp only [perform, start]
      split
      · simp [Call.asksForEnd]
      · simp [Call.asksForEnd]
      · rename_i hs
        split
        · simp [Call.asksForEnd, finish]
        · rename_i hc
          simp [accepted?, hs, hc] at ha
    | startUnhosted => simp [perform, Call.asksForEnd, startOn]
    | send event =>
      simp only [perform, send]
      split
      · simp [Call.asksForEnd]
      · simp [Call.asksForEnd]
      · rename_i hs
        simp [accepted?, hs] at ha
    | deliver r =>
      have hnot : ¬ i.Accepts r := by simpa [accepted?] using ha
      rw [perform, deliver_of_not_accepts hnot]
      simp [Call.asksForEnd]
    | cancel =>
      simp only [perform, cancel, cancelNow]
      split <;> simp [Call.asksForEnd, requestCancel, finish]
    | requestCancel => simp [perform, Call.asksForEnd, requestCancel]
    | heedCancel =>
      simp only [perform, heedCancel, cancelNow]
      split
      · split <;> simp [Call.asksForEnd, finish]
      · simp [Call.asksForEnd]
    | collect => simp [perform, Call.asksForEnd]
    | moveTo time => simp [perform, Call.asksForEnd, moveTo]

theorem performAll_cancelRequested (i : Instance C) (calls : List Call) :
    (i.performAll calls).cancelRequested =
      (i.cancelRequested || calls.any Call.asksForEnd) := by
  induction calls generalizing i with
  | nil => simp [performAll]
  | cons call rest ih =>
    have hrest := ih (i.perform call)
    rw [perform_cancelRequested, Bool.or_assoc] at hrest
    exact hrest

/-- An instance is ended from outside only if it was asked to end. -/
theorem undisturbed_of_not_accepted (ha : i.accepted? call = none)
    (hasked : (i.perform call).cancelRequested = false) : i.Undisturbed (i.perform call) := by
  obtain ⟨hc, hcall⟩ : i.cancelRequested = false ∧ call.asksForEnd = false := by
    simpa [perform_cancelRequested] using hasked
  cases call with
  | cancel => cases hcall
  | start =>
    cases hs : i.status with
    | notStarted => simp [accepted?, hs, hc] at ha
    | active => exact .of_eq (by simp only [perform, start, hs])
    | ended termination => exact perform_of_ended hs _
  | startUnhosted => exact .refl i
  | heedCancel => exact .of_eq (by simp [perform, heedCancel, hc])
  | send event =>
    cases hs : i.status with
    | notStarted => exact .of_eq (by simp only [perform, send, hs])
    | active => simp [accepted?, hs] at ha
    | ended termination => exact perform_of_ended hs _
  | deliver r =>
    have hnot : ¬ i.Accepts r := by simpa [accepted?] using ha
    exact .of_eq (deliver_of_not_accepts hnot)
  | requestCancel => exact .passing i _ _ _
  | collect => exact .passing i _ _ _
  | moveTo time => exact .passing i _ _ _

/-- What is not accepted does not disturb the instance, or ends one that was asked to end. -/
theorem perform_of_not_accepted (ha : i.accepted? call = none) :
    i.Undisturbed (i.perform call) ∨
      i.status.isTerminal = false ∧ (i.perform call).cancelRequested = true ∧
        ∃ i', i.Undisturbed i' ∧ i.perform call = i'.finish .cancelled := by
  by_cases hu : i.Undisturbed (i.perform call)
  · exact .inl hu
  refine .inr ⟨?_, ?_, ?_⟩
  · cases hs : i.status with
    | notStarted => rfl
    | active => rfl
    | ended termination => exact absurd (perform_of_ended hs call) hu
  · cases hasked : (i.perform call).cancelRequested with
    | true => rfl
    | false => exact absurd (undisturbed_of_not_accepted ha hasked) hu
  · exact (perform_of_not_opens fun _ _ => not_opens_of_accepted ha).resolve_left hu

/-! ## Step by step -/

theorem drain_status (hs : j.status = .active) :
    j.drain.2.status = Status.after (j.engine.drain j.run).1 := by
  simp only [drain]
  generalize j.engine.drain j.run = result
  obtain ⟨result, run⟩ := result
  cases result with
  | error err => rfl
  | ok report =>
    cases ho : report.outcome with
    | quiescent =>
      simp only [ho, Status.after]
      exact hs
    | completed => simp only [ho, Status.after, finish]
    | faulted fault => simp only [ho, Status.after, finish]

theorem drain_engine (j : Instance C) : j.drain.2.engine = j.engine := by
  rcases j.drain_cases with ⟨hd, -⟩ | ⟨termination, hd⟩ <;> rw [hd] <;> rfl

theorem drain_run (j : Instance C) :
    j.drain.2.run = { (j.engine.drain j.run).2 with queue := .empty, signals := [] } := by
  rcases j.drain_cases with ⟨hd, hq⟩ | ⟨termination, hd⟩
  · rw [hd, ← hq]
    rfl
  · rw [hd]
    rfl

/-- The instance agrees with the bare engine after some events. All drains but the last came to
rest, and the last one tells the status unless the instance was asked to end before. -/
structure Follows (e : Engine C) (context : C) (band : Priority) (events : List Event)
    (i : Instance C) : Prop where
  engine : i.engine = e
  run : i.run = { (e.feedAll context (inTurn band events)).2 with queue := .empty, signals := [] }
  first : events = [] ∨ ∃ later, events = .start :: later
  earlier : ∀ result ∈ (e.feedAll context (inTurn band events)).1.dropLast, Engine.Rests result
  status : i.status = Status.afterAll (e.feedAll context (inTurn band events)).1 ∨
    i.status = .ended .cancelled ∧ i.cancelRequested = true ∧
      ∀ result ∈ (e.feedAll context (inTurn band events)).1, Engine.Rests result

theorem follows_new (e : Engine C) (context : C) (band : Priority) :
    Follows e context band [] (.new e context) :=
  ⟨rfl, rfl, .inl rfl, fun _ h => absurd h List.not_mem_nil, .inl rfl⟩

/-- As long as the instance goes on, all drains came to rest. -/
theorem Follows.rests (hf : Follows e context band events i) (hs : i.status.isTerminal = false) :
    ∀ result ∈ (e.feedAll context (inTurn band events)).1, Engine.Rests result := by
  rcases hf.status with hlast | ⟨hcancelled, -⟩
  · exact Status.rests_of_afterAll (by rwa [hlast] at hs) hf.earlier
  · rw [hcancelled] at hs
    cases hs

/-- While all drains come to rest, the instance and the bare engine differ in the signals only. -/
theorem Follows.run_after (hf : Follows e context band events i)
    (hrests : ∀ result ∈ (e.feedAll context (inTurn band events)).1, Engine.Rests result) :
    ∃ past, (e.feedAll context (inTurn band events)).2 = i.run.after past := by
  have hqueue := Engine.feedAll_queue hrests
  refine ⟨(e.feedAll context (inTurn band events)).2.signals, ?_⟩
  rw [hf.run, Run.after]
  simp only [List.nil_append, ← hqueue]

theorem Follows.first_accepted (hf : Follows e context band [] i)
    (ha : i.accepted? call = some event) : event = .start := by
  rcases status_of_accepted ha with ⟨-, -, hstart⟩ | hactive
  · exact hstart
  · rcases hf.status with hs | ⟨hs, -⟩
    · cases hs.symm.trans hactive
    · cases hs.symm.trans hactive

theorem Follows.accepting (hf : Follows e context band events i)
    (ha : i.accepted? call = some event) :
    Follows e context band (events ++ [event]) (i.perform call) := by
  obtain ⟨reported, j, ho, hj, hactive, hrun⟩ := opens_of_accepted ha
  have hgoing : i.status.isTerminal = false := by
    rcases status_of_accepted ha with ⟨hs, -⟩ | hs <;> rw [hs] <;> rfl
  have hrests := hf.rests hgoing
  obtain ⟨past, hpast⟩ := hf.run_after hrests
  obtain ⟨band', hturn⟩ := inTurn_concat band events event
  generalize hfed : e.feedAll context (inTurn band events) = fed at hrests hpast
  -- The bare engine drains the run that the instance drains, with more signals behind it.
  have hfeed : e.feed fed.2 event band' =
      Prod.map id (Run.after past) (j.engine.drain j.run) := by
    have hqueue : fed.2.queue = .empty := by
      rw [hpast, Run.after_queue, hf.run]
    rw [Engine.feed_band hqueue event band' .nextMacrostep, Engine.feed, hj, hf.engine,
      ← Engine.drain_after, hrun, hpast]
    rfl
  have hnext : e.feedAll context (inTurn band (events ++ [event])) =
      (fed.1 ++ [(j.engine.drain j.run).1], (j.engine.drain j.run).2.after past) := by
    rw [hturn, Engine.feedAll_concat, hfed]
    simp only [hfeed]
    rfl
  rw [ho.perform]
  refine ⟨?_, ?_, ?_, ?_, ?_⟩
  · rw [drain_engine, hj]
    exact hf.engine
  · rw [hnext, drain_run]
    rfl
  · rcases hf.first with rfl | ⟨later, rfl⟩
    · exact .inr ⟨[], by rw [hf.first_accepted ha, List.nil_append]⟩
    · exact .inr ⟨later ++ [event], rfl⟩
  · rw [hnext, List.dropLast_concat]
    exact hrests
  · rw [hnext, drain_status hactive]
    exact .inl (Status.afterAll_concat _ _).symm

theorem Follows.perform (hf : Follows e context band events i) (call : Call) :
    Follows e context band (events ++ (i.accepted? call).toList) (i.perform call) := by
  cases ha : i.accepted? call with
  | some event => exact hf.accepting ha
  | none =>
    rw [Option.toList_none, List.append_nil]
    rcases perform_of_not_accepted ha with hu | ⟨hgoing, hasked, i', hu, hp⟩
    · refine ⟨hu.engine.trans hf.engine, hu.run.trans hf.run, hf.first, hf.earlier, ?_⟩
      rw [hu.status, perform_cancelRequested]
      refine hf.status.imp_right fun ⟨hs, hc, hall⟩ => ⟨hs, ?_, hall⟩
      rw [hc, Bool.true_or]
    · refine ⟨?_, ?_, hf.first, hf.earlier, .inr ⟨by rw [hp]; rfl, hasked, hf.rests hgoing⟩⟩
      · rw [hp]
        exact hu.engine.trans hf.engine
      · rw [hp]
        simp only [finish, hu.run, hf.run]
        rfl

theorem Follows.performAll (hf : Follows e context band events i) (calls : List Call) :
    Follows e context band (events ++ i.accepted calls) (i.performAll calls) := by
  induction calls generalizing i events with
  | nil =>
    rw [accepted, List.append_nil]
    exact hf
  | cons call rest ih =>
    have hrest := ih (hf.perform call)
    rwa [List.append_assoc] at hrest

/-- After any calls, configuration and context are those that the bare engine comes to with the
events that the instance has accepted: the first one in any band, the others one by one, each when
no event waits. The first one is that of starting. All drains but the last came to rest, so nothing
is accepted after one that did not; and the last one tells the status, unless the instance was
cancelled, which all drains had come to rest before. -/
theorem follows_engine (e : Engine C) (context : C) (calls : List Call) (band : Priority) :
    let i := (new e context).performAll calls
    let events := (new e context).accepted calls
    let fed := e.feedAll context (inTurn band events)
    (events = [] ∨ ∃ later, events = .start :: later) ∧ fed.1.length = events.length ∧
      i.run.configuration = fed.2.configuration ∧ i.run.context = fed.2.context ∧
      (∀ result ∈ fed.1.dropLast, Engine.Rests result) ∧
      (i.status = Status.afterAll fed.1 ∨
        i.status = .ended .cancelled ∧ calls.any Call.asksForEnd = true ∧
          ∀ result ∈ fed.1, Engine.Rests result) := by
  intro i events fed
  have hf : Follows e context band events i := by
    simpa using (follows_new e context band).performAll calls
  have hasked : i.cancelRequested = calls.any Call.asksForEnd := by
    rw [performAll_cancelRequested]
    rfl
  refine ⟨hf.first, ?_, ?_, ?_, hf.earlier, ?_⟩
  · rw [Engine.feedAll_length, inTurn_length]
  · rw [hf.run]
  · rw [hf.run]
  · rw [← hasked]
    exact hf.status

end Instance

end Statechart
