import Statechart.Proofs.Blocks
import Statechart.Proofs.Budget

/-!
# Statechart.Proofs.Accounting

No event is lost in a drain, and no failure goes by unnoticed. A drain is followed turn by turn,
with the run that each event is processed in. Whatever is put into the queue is taken from it
later, or still waits; a turn after which the drain goes on was no fault, so some active state
reacted to it.

* `Engine.Turns`: the rounds of a drain with the runs in between.
* `Engine.Turns.balance`: processed and waiting events against those that were put into the queue.
* `Engine.Turns.served`: an event queued in a turn is taken in a later one, or waits.
* `Engine.Turns.drain_faulted`: an error that no active state reacts to ends the drain.
* `Engine.nothing_lost`: every drain.
-/

namespace Statechart

variable {C : Type}

/-! ## Waiting events -/

namespace EventQueue

/-- The waiting events in the order in which they are taken. -/
def events (q : EventQueue) : List Event :=
  q.stabilization ++ (q.currentMacrostep ++ q.nextMacrostep)

theorem events_empty : empty.events = [] := rfl

theorem events_of_dequeue? {q r : EventQueue} {event : Event} {band : Priority}
    (h : q.dequeue? = some ((event, band), r)) : q.events = event :: r.events := by
  rcases q with ⟨_ | ⟨e, es⟩, _ | ⟨f, fs⟩, _ | ⟨g, gs⟩⟩ <;> cases h <;> rfl

theorem enqueue_events (q : EventQueue) (event : Event) (band : Priority) :
    (q.enqueue event band).events.Perm (q.events ++ [event]) := by
  cases band with
  | stabilization =>
    simp only [events, enqueue, List.append_assoc]
    rw [← List.append_assoc q.currentMacrostep]
    exact List.perm_append_comm.append_left _
  | currentMacrostep =>
    simp only [events, enqueue, List.append_assoc]
    exact (List.perm_append_comm.append_left _).append_left _
  | nextMacrostep => simp only [events, enqueue, List.append_assoc, List.Perm.refl]

theorem enqueueAll_events (q : EventQueue) (waiting : List (Event × Priority)) :
    (q.enqueueAll waiting).events.Perm (q.events ++ waiting.map Prod.fst) := by
  induction waiting generalizing q with
  | nil => rw [List.map_nil, List.append_nil, enqueueAll_nil]
  | cons w rest ih =>
    have hfirst := (q.enqueue_events w.1 w.2).append_right (rest.map Prod.fst)
    rw [List.append_assoc] at hfirst
    exact (ih (q.enqueue w.1 w.2)).trans hfirst

end EventQueue

namespace Tree

variable {t : Tree C} {run run' : Run C} {event : Event} {report : StepReport}

theorem failureEvent_mem_queuedIn {b : Block C} {err : ActionError}
    (hb : b ∈ t.processBlocks event run) (h : b.failure? = some err) :
    failureEvent b.origin err ∈ (t.queuedIn event run).map Prod.fst := by
  have hacted := List.mem_flatMap.2 ⟨b, hb, Block.failure_mem_queued h⟩
  have hqueued : (failureEvent b.origin err, .currentMacrostep) ∈ t.queuedIn event run := by
    simp only [queuedIn]
    split
    · exact hacted
    · exact List.mem_append_left _ hacted
  exact List.mem_map_of_mem hqueued

/-- What is recorded as put into the queue waits there after the event. -/
theorem process_events {result : Except EngineError StepReport}
    (hp : t.process event run = (result, run')) :
    run'.queue.events.Perm (run.queue.events ++ (t.queuedIn event run).map Prod.fst) := by
  have hqueue := process_queue (t := t) event run
  rw [hp] at hqueue
  rw [hqueue]
  exact run.queue.enqueueAll_events _

/-! ## Reactions -/

/-- Does an active state react to the event, if only by swallowing it? -/
def Reacts (t : Tree C) (run : Run C) (event : Event) : Prop :=
  ∃ n ∈ t.active run.configuration, ∃ tr ∈ n.transitions,
    tr.isEnabled n.id run.configuration run.context event = true

theorem select_eq_nil : t.select run.configuration run.context event = [] ↔
    ¬ t.Reacts run event := by
  simp only [select, selectBy_eq_nil, Reacts, not_exists, not_and, Bool.not_eq_true]

/-- Handled is what an active state reacts to. -/
theorem reacts_of_handled (he : event ≠ .start) (hp : t.process event run = (.ok report, run'))
    (hhandled : report.handled = true) : t.Reacts run event := by
  by_contra hnone
  rw [process_eq he, select_eq_nil.2 hnone] at hp
  split at hp
  · cases hp
    cases hhandled
  · cases hp

/-! ## Settled charts -/

/-- Is the chart started, with no active state that lacks children? -/
def Settled (t : Tree C) (c : Configuration) : Prop :=
  c.isInitialized = true ∧ t.unstable c = []

theorem Planned.initialized (h : t.WellFormed) {c : Configuration} {p : Plan}
    (hp : t.Planned c p) (hc : c.isInitialized = true) : (p.applyTo c).isInitialized = true := by
  obtain ⟨id, hid⟩ := Configuration.isInitialized_iff.1 hc
  refine Configuration.isInitialized_iff.2 ?_
  cases hp with
  | initialization _ => exact ⟨_, Plan.mem_applyTo.2 (.inl (List.mem_singleton_self _))⟩
  | targetless => exact ⟨id, Plan.mem_applyTo.2 (.inr ⟨hid, List.not_mem_nil⟩)⟩
  | @transition n tr target p hn htr htarget _ hplan =>
    obtain ⟨hmem, hne⟩ := h.targets _ hn _ htr _ htarget
    obtain ⟨top, boundary, hs, rfl, -⟩ := plan_eq_ok h (id_mem_ids hn) hmem hne hplan
    exact ⟨target, (mem_applyTo_planWithin h hs).2 (.inl ⟨.refl _, hs.target_below⟩)⟩
  | stabilization hplan =>
    obtain ⟨-, rfl⟩ := planStabilization_eq_some hplan
    exact ⟨id, Plan.mem_applyTo.2 (.inr ⟨hid, List.not_mem_nil⟩)⟩

theorem Steps.initialized (h : t.WellFormed) {ms : List Microstep} (hsteps : t.Steps run ms run')
    (hc : run.configuration.isInitialized = true) : run'.configuration.isInitialized = true := by
  induction hsteps with
  | nil => exact hc
  | cons hp _ ih =>
    refine ih ?_
    rw [apply_configuration]
    exact hp.initialized h hc

/-- The start settles a chart, and every other event keeps it settled. -/
theorem process_settled (h : t.WellFormed)
    (hc : t.Settled run.configuration ∨ run.configuration = .empty)
    (hp : t.process event run = (.ok report, run')) : t.Settled run'.configuration := by
  rcases process_cases h event run with ⟨-, hinit, hok⟩ | ⟨-, -, herr⟩ |
    ⟨data, handled, taken, mid, hsteps, hnew, hok⟩
  · rw [hok] at hp
    cases hp
    refine hc.resolve_right fun hempty => ?_
    rw [hempty] at hinit
    cases hinit
  · rw [herr] at hp
    cases hp
  · rw [hok] at hp
    cases hp
    have hmid : mid.configuration.isInitialized = true := by
      cases hinit : run.configuration.isInitialized with
      | true => exact hsteps.initialized h hinit
      | false =>
        rw [(hnew hinit).2.2]
        exact Configuration.isInitialized_iff.2 ⟨_, Configuration.mem_insert.2 (.inl rfl)⟩
    have hlast := (stabilize_steps data mid).initialized h hmid
    exact ⟨hlast, unstable_stabilize h data mid⟩

/-- In a settled chart nothing becomes of an event that no active state reacts to. -/
theorem process_unreacted (hc : t.Settled run.configuration) (he : event ≠ .start)
    (hnone : ¬ t.Reacts run event) : t.process event run = (.ok {}, run) := by
  rw [process_eq he, hc.1, if_pos rfl, select_eq_nil.2 hnone]
  simp only [takeAll, settle, stabilize_settled event.data hc.2]
  rfl

/-- Is a drain about to start the chart, or to go on with a settled one? -/
def Ready (t : Tree C) (run : Run C) : Prop :=
  t.Settled run.configuration ∨ run.configuration = .empty ∧
    ∃ band queue, run.queue.dequeue? = some ((.start, band), queue)

end Tree

/-! ## Turns -/

/-- A round of a drain with the run that its event is processed in, the event already taken from
the queue. -/
structure Turn (C : Type) extends Round where
  run : Run C

namespace Turn

/-- The blocks of actions that are carried out in the turn. -/
def blocks (t : Tree C) (turn : Turn C) : List (Block C) :=
  t.processBlocks turn.event turn.run

/-- The events that are put into the queue in the turn. -/
def queued (t : Tree C) (turn : Turn C) : List Event :=
  (t.queuedIn turn.event turn.run).map Prod.fst

def microsteps (turns : List (Turn C)) : List Microstep :=
  Round.microsteps (turns.map toRound)

/-- A turn among some and one more is the last, or stands among those before it. -/
theorem split_concat {past before later : List (Turn C)} {turn last : Turn C}
    (h : past ++ [last] = before ++ turn :: later) :
    (past = before ∧ last = turn ∧ later = []) ∨
      ∃ rest, past = before ++ turn :: rest ∧ later = rest ++ [last] := by
  rcases later.eq_nil_or_concat with rfl | ⟨rest, other, rfl⟩
  · obtain ⟨rfl, hlast⟩ := List.append_inj' h rfl
    exact .inl ⟨rfl, List.head_eq_of_cons_eq hlast, rfl⟩
  · rw [List.concat_eq_append] at h ⊢
    rw [← List.cons_append, ← List.append_assoc] at h
    obtain ⟨rfl, hlast⟩ := List.append_inj' h rfl
    exact .inr ⟨rest, rfl, by rw [hlast]⟩

end Turn

namespace Engine

/-- The turns of a drain from `start` after which it goes on, and the run they lead to. -/
inductive Turns (e : Engine C) (start : Run C) : List (Turn C) → Run C → Prop where
  | none : Turns e start [] start
  | next {past : List (Turn C)} {run run' : Run C} {event : Event} {band : Priority}
      {queue : EventQueue} {report : StepReport} :
      Turns e start past run → run.queue.dequeue? = some ((event, band), queue) →
      e.tree.process event { run with queue } = (.ok report, run') →
      e.stop? event report ((Turn.microsteps past).length + report.microsteps.length) = .none →
      Turns e start (past ++ [⟨⟨event, band, report⟩, { run with queue }⟩]) run'

variable {e : Engine C} {start run run' : Run C} {past : List (Turn C)} {event : Event}
  {band : Priority} {queue : EventQueue}

theorem Rounds.turns {rounds : List Round} (hrounds : e.Rounds start rounds run) :
    ∃ turns, turns.map Turn.toRound = rounds ∧ e.Turns start turns run := by
  induction hrounds with
  | none => exact ⟨[], rfl, .none⟩
  | next _ hq hp hs ih =>
    obtain ⟨turns, rfl, hturns⟩ := ih
    exact ⟨_, List.map_append, hturns.next hq hp hs⟩

namespace Turns

theorem rounds (hturns : e.Turns start past run) :
    e.Rounds start (past.map Turn.toRound) run := by
  induction hturns with
  | none => exact .none
  | next _ hq hp hs ih =>
    rw [List.map_append]
    exact ih.next hq hp hs

/-- What was processed and what waits is what waited at the start and what was put into the queue
since. -/
theorem balance (hturns : e.Turns start past run) :
    (past.map (·.event) ++ run.queue.events).Perm
      (start.queue.events ++ past.flatMap (Turn.queued e.tree)) := by
  induction hturns with
  | none => rw [List.map_nil, List.nil_append, List.flatMap_nil, List.append_nil]
  | @next past mid run' event band queue report _ hq hp _ ih =>
    have hqueue := Tree.process_events hp
    rw [EventQueue.events_of_dequeue? hq] at ih
    simp only [List.map_append, List.map_singleton, List.flatMap_append, List.flatMap_singleton,
      List.append_assoc, List.singleton_append]
    refine ((hqueue.cons event).append_left _).trans ?_
    rw [← List.append_assoc, ← List.cons_append, ← List.append_assoc]
    exact ih.append_right _

/-- An event that is put into the queue in a turn is taken in a later one, or waits. -/
theorem served (hturns : e.Turns start past run) {before later : List (Turn C)} {turn : Turn C}
    (hpast : past = before ++ turn :: later) {queued : Event}
    (hqueued : queued ∈ turn.queued e.tree) :
    queued ∈ later.map (·.event) ∨ queued ∈ run.queue.events := by
  induction hturns generalizing later with
  | none => cases before <;> cases hpast
  | @next past mid run' event band queue report _ hq hp _ ih =>
    have hqueue := Tree.process_events hp
    rcases Turn.split_concat hpast with ⟨-, rfl, -⟩ | ⟨rest, hrest, rfl⟩
    · exact .inr (hqueue.symm.subset (List.mem_append_right _ hqueued))
    · rw [List.map_append]
      rcases ih hrest with htaken | hwaits
      · exact .inl (List.mem_append_left _ htaken)
      · rw [EventQueue.events_of_dequeue? hq] at hwaits
        rcases List.mem_cons.1 hwaits with rfl | hwaits
        · exact .inl (List.mem_append_right _ (List.mem_singleton_self _))
        · exact .inr (hqueue.symm.subset (List.mem_append_left _ hwaits))

/-- Where the drain goes on after an error, an active state reacted to it. -/
theorem reacts (hturns : e.Turns start past run) {turn : Turn C} (hturn : turn ∈ past)
    {fault : Fault} (hfault : e.faultOf? turn.event = some fault) :
    e.tree.Reacts turn.run turn.event := by
  induction hturns with
  | none => cases hturn
  | @next past mid run' event band queue report _ _ hp hs ih =>
    rcases List.mem_append.1 hturn with hturn | hturn
    · exact ih hturn
    · cases List.mem_singleton.1 hturn
      have hstart : event ≠ .start := by
        rintro rfl
        cases hfault
      refine Tree.reacts_of_handled hstart hp ((stop?_eq_none.1 hs).2.2.resolve_right ?_)
      rw [hfault]
      intro hnone
      cases hnone

/-- When nothing waits any more, every failure of a block was processed, and answered. -/
theorem answered (hturns : e.Turns start past run) (hempty : run.queue = .empty)
    {before later : List (Turn C)} {turn : Turn C} (hpast : past = before ++ turn :: later)
    {block : Block C} (hblock : block ∈ turn.blocks e.tree) {err : ActionError}
    (hfailed : block.failure? = some err) :
    ∃ answer ∈ later, answer.event = .executionError (block.origin ++ ": " ++ err.message) ∧
      e.tree.Reacts answer.run answer.event := by
  have hqueued := Tree.failureEvent_mem_queuedIn hblock hfailed
  rcases hturns.served hpast hqueued with htaken | hwaits
  · obtain ⟨answer, hanswer, hevent⟩ := List.mem_map.1 htaken
    have hmem : answer ∈ past := by
      rw [hpast]
      exact List.mem_append_right _ (List.mem_cons_of_mem _ hanswer)
    have hfault : e.faultOf? answer.event =
        some (.execution (block.origin ++ ": " ++ err.message)) := by
      rw [hevent]
      rfl
    exact ⟨answer, hanswer, hevent, hturns.reacts hmem hfault⟩
  · rw [hempty] at hwaits
    cases hwaits

/-- A drain stays ready. -/
theorem ready (h : e.tree.WellFormed) (hturns : e.Turns start past run)
    (hstart : e.tree.Ready start) : e.tree.Ready run := by
  induction hturns with
  | none => exact hstart
  | @next past mid run' event band queue report _ _ hp _ ih =>
    have hbefore : e.tree.Settled ({ mid with queue } : Run C).configuration ∨
        ({ mid with queue } : Run C).configuration = .empty := ih.imp_right And.left
    exact .inl (Tree.process_settled h hbefore hp)

/-- An error that no active state reacts to ends the drain. -/
theorem drain_faulted (h : e.tree.WellFormed) (hturns : e.Turns start past run)
    (hstart : e.tree.Ready start) (hq : run.queue.dequeue? = some ((event, band), queue))
    {fault : Fault} (hfault : e.faultOf? event = some fault)
    (hnone : ¬ e.tree.Reacts run event) :
    e.drain start = (.ok ⟨Turn.microsteps past, past.length + 1, .faulted fault⟩,
      { run with queue := .empty }) := by
  have hne : event ≠ .start := by
    rintro rfl
    cases hfault
  have hsettled : e.tree.Settled run.configuration := by
    refine (hturns.ready h hstart).resolve_right ?_
    rintro ⟨-, band', queue', hq'⟩
    rw [hq] at hq'
    cases hq'
    exact hne rfl
  have hp : e.tree.process event { run with queue } = (.ok {}, { run with queue }) :=
    Tree.process_unreacted hsettled hne hnone
  have hs : e.stop? event {} ((Turn.microsteps past).length + 0) = some (.faulted fault) :=
    stop?_eq_faulted.2 ⟨hturns.rounds.within, rfl, rfl, hfault⟩
  rw [hturns.rounds.drain_stopped hq hp hs, verdict, microsteps_concat, List.append_nil,
    List.length_append, List.length_map]
  rfl

end Turns

/-- A drain that comes to rest has processed what waited at the start and what was put into the
queue since, and nothing else. For every block of actions that failed, the failure was processed
later in the drain, when an active state reacted to it. An error that no active state reacts to
ends the drain, as the fault with its message, and no event is left waiting. -/
theorem nothing_lost {d : NodeDef C} {t : Tree C} (hb : Tree.build d = .ok t) (limits : Limits)
    {start : Run C} (hstart : t.Ready start) :
    (∀ report run', Engine.drain ⟨t, limits⟩ start = (.ok report, run') →
      report.outcome = .quiescent →
      ∃ turns, Turns ⟨t, limits⟩ start turns run' ∧ report.processed = turns.length ∧
        (turns.map (·.event)).Perm (start.queue.events ++ turns.flatMap (Turn.queued t)) ∧
        ∀ before turn later, turns = before ++ turn :: later →
          ∀ block ∈ turn.blocks t, ∀ err, block.failure? = some err →
            ∃ answer ∈ later,
              answer.event = .executionError (block.origin ++ ": " ++ err.message) ∧
                t.Reacts answer.run answer.event) ∧
    ∀ past run event band queue message, Turns ⟨t, limits⟩ start past run →
      run.queue.dequeue? = some ((event, band), queue) → ¬ t.Reacts run event →
      (event = .executionError message →
        Engine.drain ⟨t, limits⟩ start =
          (.ok ⟨Turn.microsteps past, past.length + 1, .faulted (.execution message)⟩,
            { run with queue := .empty })) ∧
      (limits.serviceErrors = .fail → ∀ service, event = .serviceError service message →
        Engine.drain ⟨t, limits⟩ start =
          (.ok ⟨Turn.microsteps past, past.length + 1, .faulted (.service service message)⟩,
            { run with queue := .empty })) := by
  have h : (⟨t, limits⟩ : Engine C).tree.WellFormed := Tree.build_wellFormed hb
  refine ⟨fun report run' hd hrest => ?_, fun past run event band queue message hturns hq hnone =>
    ⟨fun he => ?_, fun hpolicy service he => ?_⟩⟩
  · obtain ⟨rounds, hrounds, hempty⟩ := drain_rest hd hrest
    obtain ⟨turns, rfl, hturns⟩ := hrounds.turns
    have hreport := hrounds.drain_quiescent (hempty ▸ rfl)
    rw [hd] at hreport
    cases hreport
    have hbalance := hturns.balance
    rw [hempty] at hbalance
    rw [EventQueue.events_empty, List.append_nil] at hbalance
    exact ⟨turns, hturns, List.length_map _, hbalance, fun before turn later hsplit block hblock
      err hfailed => hturns.answered hempty hsplit hblock hfailed⟩
  · subst he
    exact hturns.drain_faulted h hstart hq rfl hnone
  · subst he
    refine hturns.drain_faulted h hstart hq ?_ hnone
    rw [faultOf?, hpolicy]

end Engine

/-! A state that swallows errors, and one that does not. -/

def failing : NodeDef Nat where
  key := "m"
  kind := .compound "a" []
  children := [
    { key := "a", kind := .atomic, transitions := [
      { event := .named "stay", actions := [.run fun _ _ => .error ⟨"boom"⟩] },
      { event := .named "leave", targets := ["b"], actions := [.run fun _ _ => .error ⟨"boom"⟩] },
      { event := .executionError, forbidden := true }] },
    { key := "b", kind := .atomic }]

def failingTree : Tree Nat where
  root := ⟨⟨["m"]⟩, .compound [⟨["m", "a"]⟩, ⟨["m", "b"]⟩] ⟨["m", "a"]⟩ [], [], [], [], []⟩
  rest := [
    ⟨⟨["m", "a"]⟩, .atomic, [], [], [
      .taken (.named "stay") none [] [.run fun _ _ => .error ⟨"boom"⟩],
      .taken (.named "leave") none [⟨["m", "b"]⟩] [.run fun _ _ => .error ⟨"boom"⟩],
      .forbidden .executionError], []⟩,
    ⟨⟨["m", "b"]⟩, .atomic, [], [], [], []⟩]

def failingAt (waiting : List Event) : Run Nat where
  context := 0
  queue := ⟨[], [], waiting⟩
  configuration := .ofList [⟨["m"]⟩, ⟨["m", "a"]⟩]

/-- The failure of the transition to `b`, met by `b`. -/
def failingLeft : Run Nat where
  context := 0
  queue := ⟨[], [.executionError "transition m.a[1]: boom"], [.named "late" .null]⟩
  signals := [.entered ⟨["m", "b"]⟩, .exited ⟨["m", "a"]⟩]
  configuration := .ofList [⟨["m"]⟩, ⟨["m", "b"]⟩]

/-- The failure is swallowed where it is met by `a`. Where it is met by `b`, it ends the drain, and
the event behind it is dropped. -/
theorem failing_answered :
    Tree.build failing = .ok failingTree ∧
      (∃ turns run', Engine.Turns ⟨failingTree, {}⟩ (failingAt [.named "stay" .null]) turns run' ∧
        turns.length = 2 ∧
        (turns.map (·.event)).Perm
          (.named "stay" .null :: turns.flatMap (Turn.queued failingTree)) ∧
        ∀ before turn later, turns = before ++ turn :: later →
          ∀ block ∈ turn.blocks failingTree, ∀ err, block.failure? = some err →
            ∃ answer ∈ later,
              answer.event = .executionError (block.origin ++ ": " ++ err.message) ∧
                failingTree.Reacts answer.run answer.event) ∧
      ∃ microsteps run', Engine.drain ⟨failingTree, {}⟩
          (failingAt [.named "leave" .null, .named "late" .null]) =
        (.ok ⟨microsteps, 2, .faulted (.execution "transition m.a[1]: boom")⟩, run') ∧
        run'.queue = .empty := by
  have hbuild : Tree.build failing = .ok failingTree := rfl
  have hready : ∀ waiting, failingTree.Ready (failingAt waiting) := fun _ => .inl ⟨rfl, rfl⟩
  have hnone : Engine.Rounds ⟨failingTree, {}⟩ (failingAt [.named "stay" .null]) [] _ := .none
  have hquiet := ((hnone.next rfl rfl rfl).next rfl rfl rfl).drain_quiescent rfl
  have hleft : Engine.Turns ⟨failingTree, {}⟩
      (failingAt [.named "leave" .null, .named "late" .null]) _ failingLeft :=
    .next .none rfl rfl rfl
  obtain ⟨hstay, -⟩ := Engine.nothing_lost hbuild {} (hready [.named "stay" .null])
  obtain ⟨-, hleave⟩ :=
    Engine.nothing_lost hbuild {} (hready [.named "leave" .null, .named "late" .null])
  obtain ⟨turns, hturns, hlength, hevents, hanswered⟩ := hstay _ _ hquiet rfl
  have hunmet : ¬ failingTree.Reacts failingLeft
      (.executionError "transition m.a[1]: boom") := Tree.select_eq_nil.1 rfl
  exact ⟨hbuild, ⟨turns, _, hturns, hlength.symm, hevents, hanswered⟩, _, _,
    (hleave _ _ _ _ _ _ hleft rfl hunmet).1 rfl, rfl⟩

end Statechart
