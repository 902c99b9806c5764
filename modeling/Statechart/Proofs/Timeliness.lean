import Statechart.Proofs.Accounting
import Statechart.Proofs.Completion
import Statechart.Proofs.Trace

/-!
# Statechart.Proofs.Timeliness

When the completion of a state is out of date. Completions wait in the queue behind other events,
and the engine does not look at the state again when it comes to them. In charts that send and raise
no completions themselves, each was true when it was queued, and it is true when it is processed
unless states within the completed one were left in between.

* `Tree.Ordinary`: charts whose actions emit ordinary events.
* `Tree.done_queued`: the completions that an event puts into the queue.
* `Tree.Course`: runs from the start, turn by turn.
* `Tree.Announced`: a completion that was true when it was queued.
* `Tree.Course.timely`: every course.
-/

namespace Statechart

variable {C : Type}

/-! ## What actions put into the queue -/

/-- Is this the start, or an event with a name? -/
def Event.isOrdinary : Event → Bool
  | .start => true
  | .named _ _ => true
  | _ => false

/-- All actions of a state and its transitions. -/
def Node.actions (n : Node C) : List (Action C) :=
  n.entry ++ n.exit ++ n.kind.initialActions ++ n.transitions.flatMap Transition.actions

/-- A completion that a block puts into the queue was emitted by one of its actions. -/
theorem done_mem_actionsQueue {origin : String} {data : Json} {actions : List (Action C)}
    {context : C} {id : StateId} {band : Priority}
    (h : (.done id, band) ∈ actionsQueue origin data actions context) :
    ∃ a ∈ actions, a.emits.map Prod.fst = some (.done id) := by
  induction actions generalizing context with
  | nil => cases h
  | cons a rest ih =>
    rw [actionsQueue] at h
    split at h
    · cases List.mem_singleton.1 h
    · rename_i p hp
      rcases List.mem_append.1 h with hown | hrest
      · refine ⟨a, List.mem_cons_self, ?_⟩
        rw [← (Action.perform_eq_ok hp).1, Option.mem_toList.1 hown]
        rfl
      · obtain ⟨b, hb, hemitted⟩ := ih hrest
        exact ⟨b, List.mem_cons_of_mem _ hb, hemitted⟩

namespace Tree

/-- The actions of the chart send and raise ordinary events only. -/
def Ordinary (t : Tree C) : Prop :=
  ∀ n ∈ t.nodes, ∀ a ∈ n.actions, ∀ event ∈ a.emits.map Prod.fst, event.isOrdinary = true

instance (t : Tree C) : Decidable t.Ordinary :=
  inferInstanceAs
    (Decidable (∀ n ∈ t.nodes, ∀ a ∈ n.actions, ∀ event ∈ a.emits.map Prod.fst, _))

variable {t : Tree C} {run run' : Run C} {event : Event} {report : StepReport} {id : StateId}

/-! ## The actions of the blocks -/

/-- Is this an action of the chart? -/
def Has (t : Tree C) (a : Action C) : Prop :=
  ∃ n ∈ t.nodes, a ∈ n.actions

theorem leaveBlocks_actions (data : Json) (ids : List StateId) (run : Run C) :
    ∀ b ∈ t.leaveBlocks data ids run, ∀ a ∈ b.actions, t.Has a := by
  induction ids generalizing run with
  | nil => exact fun b hb => by cases hb
  | cons id rest ih =>
    refine List.forall_mem_cons.2 ⟨fun a ha => ?_, ih _⟩
    simp only [exitBlock] at ha
    cases hn : t.node? id with
    | none => rw [hn] at ha; cases ha
    | some n =>
      rw [hn] at ha
      exact ⟨n, List.mem_of_find?_eq_some hn, by simp [Node.actions, show a ∈ n.exit from ha]⟩

theorem enterBlocks_actions (data : Json) (ids : List StateId) (run : Run C) :
    ∀ b ∈ t.enterBlocks data ids run, ∀ a ∈ b.actions, t.Has a := by
  induction ids generalizing run with
  | nil => exact fun b hb => by cases hb
  | cons id rest ih =>
    refine List.forall_mem_cons.2 ⟨fun a ha => ?_, ih _⟩
    simp only [entryBlock] at ha
    cases hn : t.node? id with
    | none => rw [hn] at ha; cases ha
    | some n =>
      rw [hn] at ha
      exact ⟨n, List.mem_of_find?_eq_some hn, by simp [Node.actions, show a ∈ n.entry from ha]⟩

theorem applyBlocks_actions (p : Plan) {actions : List (Action C)}
    (hactions : ∀ a ∈ actions, t.Has a) (cause : Cause) (run : Run C) :
    ∀ b ∈ t.applyBlocks p actions cause run, ∀ a ∈ b.actions, t.Has a := by
  simp only [applyBlocks]
  refine List.forall_mem_append.2 ⟨leaveBlocks_actions _ _ _, ?_⟩
  exact List.forall_mem_cons.2 ⟨hactions, enterBlocks_actions _ _ _⟩

theorem stabilizeBlocksFor_actions (data : Json) (fuel : Nat) (run : Run C) :
    ∀ b ∈ t.stabilizeBlocksFor data fuel run, ∀ a ∈ b.actions, t.Has a := by
  induction fuel generalizing run with
  | zero => exact fun b hb => by cases hb
  | succ fuel ih =>
    rw [stabilizeBlocksFor]
    split
    · exact fun b hb => by cases hb
    · rename_i n p hp
      refine List.forall_mem_append.2 ⟨applyBlocks_actions p (fun a ha => ?_) _ run, ih _⟩
      obtain ⟨hn, -⟩ := planStabilization_eq_some hp
      exact ⟨n, (mem_unstable.1 hn).1.1, by simp [Node.actions, ha]⟩

theorem takeToBlocks_actions (source : StateId) (cause : Cause) {actions : List (Action C)}
    (hactions : ∀ a ∈ actions, t.Has a) (targets : List StateId) (run : Run C) :
    ∀ b ∈ t.takeToBlocks source cause actions targets run, ∀ a ∈ b.actions, t.Has a := by
  induction targets generalizing actions run with
  | nil => exact fun b hb => by cases hb
  | cons target rest ih =>
    rw [takeToBlocks]
    split
    · exact fun b hb => by cases hb
    · refine List.forall_mem_append.2 ⟨applyBlocks_actions _ hactions cause run, ?_⟩
      exact ih (fun a ha => by cases ha) _

theorem takeBlocks_actions (event : Event) {s : Selected C} (hs : t.Offers s) (run : Run C) :
    ∀ b ∈ t.takeBlocks event s run, ∀ a ∈ b.actions, t.Has a := by
  obtain ⟨n, hn, -, htr⟩ := hs
  have hactions : ∀ a ∈ s.transition.actions, t.Has a := fun a ha =>
    ⟨n, hn, List.mem_append_right _ (List.mem_flatMap.2 ⟨_, htr, ha⟩)⟩
  simp only [takeBlocks]
  split
  · exact applyBlocks_actions _ hactions _ run
  · exact takeToBlocks_actions _ _ hactions _ run

theorem takeAllBlocks_actions (event : Event) {selected : List (Selected C)}
    (hs : ∀ s ∈ selected, t.Offers s) (run : Run C) :
    ∀ b ∈ t.takeAllBlocks event selected run, ∀ a ∈ b.actions, t.Has a := by
  induction selected generalizing run with
  | nil => exact fun b hb => by cases hb
  | cons s rest ih =>
    rw [List.forall_mem_cons] at hs
    rw [takeAllBlocks]
    split
    · exact ih hs.2 run
    · refine List.forall_mem_append.2 ⟨takeBlocks_actions event hs.1 run, ?_⟩
      split
      · exact fun b hb => by cases hb
      · exact ih hs.2 _

/-- Every action that an event carries out is one of the chart. -/
theorem processBlocks_actions (event : Event) (run : Run C) :
    ∀ b ∈ t.processBlocks event run, ∀ a ∈ b.actions, t.Has a := by
  by_cases he : event = .start
  · subst he
    simp only [processBlocks]
    split
    · exact fun b hb => by cases hb
    · refine List.forall_mem_append.2 ⟨?_, stabilizeBlocksFor_actions _ _ _⟩
      exact applyBlocks_actions _ (fun a ha => by cases ha) _ run
  · rw [processBlocks_eq he]
    split
    · refine List.forall_mem_append.2 ⟨?_, ?_⟩
      · exact takeAllBlocks_actions event (fun s hs => (mem_select hs).1) run
      · split
        · exact fun b hb => by cases hb
        · exact stabilizeBlocksFor_actions _ _ _
    · exact fun b hb => by cases hb

/-! ## Completions -/

theorem done_mem_closingQueue {c : Configuration} {queue : EventQueue} {band : Priority}
    (h : (.done id, band) ∈ t.closingQueue report c queue) : t.isDone id c = true := by
  rcases mem_closingQueue h with heq | ⟨other, -, hdone, heq⟩
  · cases heq
  · cases heq
    exact hdone

/-- The completions that an event puts into the queue are true after the event. -/
theorem done_queued (ht : t.Ordinary) (hp : t.process event run = (.ok report, run'))
    (h : .done id ∈ (t.queuedIn event run).map Prod.fst) :
    t.isDone id run'.configuration = true := by
  obtain ⟨⟨_, band⟩, hqueued, rfl⟩ := List.mem_map.1 h
  simp only [queuedIn, hp] at hqueued
  rcases List.mem_append.1 hqueued with hacted | hclosing
  · obtain ⟨b, hb, hemits⟩ := List.mem_flatMap.1 hacted
    obtain ⟨a, ha, hemitted⟩ := done_mem_actionsQueue hemits
    obtain ⟨n, hn, haction⟩ := processBlocks_actions event run b hb a ha
    cases ht n hn a haction _ hemitted
  · exact done_mem_closingQueue hclosing

end Tree

/-- What is active within a state stays active in microsteps that leave nothing within it. -/
theorem Replays.stays {c c' : Configuration} {ms : List Microstep} (h : Replays c ms c')
    {id : StateId} (hnone : ∀ m ∈ ms, ∀ x ∈ m.exited, ¬ x.Within id) :
    ∀ x ∈ c, x.Within id → x ∈ c' := by
  intro x hx hin
  refine h.mem_iff.2 ⟨.inl hx, ?_⟩
  rintro ⟨m, later, hsuffix, hexited, -⟩
  exact hnone m (hsuffix.subset List.mem_cons_self) x hexited hin

/-! ## Courses -/

namespace Turn

/-- The run that the turn leads to. -/
def after (t : Tree C) (turn : Turn C) : Run C :=
  (t.process turn.event turn.run).2

/-- Does the turn leave the state, or one below it? -/
def Leaves (turn : Turn C) (id : StateId) : Prop :=
  ∃ m ∈ turn.report.microsteps, ∃ x ∈ m.exited, x.Within id

end Turn

namespace Tree

/-- Runs from the start, turn by turn. Ordinary events come from outside: they are put into any band
of the queue, or processed at once. Waiting events are served in their order, or dropped. -/
inductive Course (t : Tree C) (context : C) : List (Turn C) → Run C → Prop where
  | new : Course t context [] (.new context)
  | receive {past : List (Turn C)} {run : Run C} (event : Event) (band : Priority) :
      Course t context past run → event.isOrdinary = true →
      Course t context past { run with queue := run.queue.enqueue event band }
  | handle {past : List (Turn C)} {run run' : Run C} {event : Event} {report : StepReport}
      (band : Priority) :
      Course t context past run → event.isOrdinary = true →
      t.process event run = (.ok report, run') →
      Course t context (past ++ [⟨⟨event, band, report⟩, run⟩]) run'
  | serve {past : List (Turn C)} {run run' : Run C} {event : Event} {band : Priority}
      {queue : EventQueue} {report : StepReport} :
      Course t context past run → run.queue.dequeue? = some ((event, band), queue) →
      t.process event { run with queue } = (.ok report, run') →
      Course t context (past ++ [⟨⟨event, band, report⟩, { run with queue }⟩]) run'
  | refuse {past : List (Turn C)} {run run' : Run C} {event : Event} {band : Priority}
      {queue : EventQueue} {err : EngineError} :
      Course t context past run → run.queue.dequeue? = some ((event, band), queue) →
      t.process event { run with queue } = (.error err, run') → Course t context past run'
  | drop {past : List (Turn C)} {run : Run C} :
      Course t context past run → Course t context past { run with queue := .empty }

/-- The state was complete after a turn that queued its completion. It still is, unless a later turn
left states within it. -/
def Announced (t : Tree C) (past : List (Turn C)) (c : Configuration) (id : StateId) : Prop :=
  ∃ before turn since, past = before ++ turn :: since ∧
    .done id ∈ turn.queued t ∧ t.isDone id (turn.after t).configuration = true ∧
    (t.isDone id c = true ∨ ∃ later ∈ since, later.Leaves id)

variable {t : Tree C} {context : C} {past : List (Turn C)} {run run' : Run C} {event : Event}
  {band : Priority} {report : StepReport} {id : StateId}

/-- A turn takes nothing back, unless it leaves states within the completed one. -/
theorem Announced.next (h : t.WellFormed) (ha : t.Announced past run.configuration id)
    (hp : t.process event run = (.ok report, run')) :
    t.Announced (past ++ [⟨⟨event, band, report⟩, run⟩]) run'.configuration id := by
  obtain ⟨before, turn, since, rfl, hqueued, hdone, hsince⟩ := ha
  refine ⟨before, turn, since ++ [⟨⟨event, band, report⟩, run⟩], by simp, hqueued, hdone, ?_⟩
  rcases hsince with hnow | ⟨later, hlater, hleaves⟩
  · by_cases hleaves : (⟨⟨event, band, report⟩, run⟩ : Turn C).Leaves id
    · exact .inr ⟨_, List.mem_append_right _ (List.mem_singleton_self _), hleaves⟩
    · have hnone : ∀ m ∈ report.microsteps, ∀ x ∈ m.exited, ¬ x.Within id :=
        fun m hm x hx hin => hleaves ⟨m, hm, x, hx, hin⟩
      have hstays := (process_traced h hp).replays.stays hnone
      exact .inl (isDone_of_within h hstays hnow)
  · exact .inr ⟨later, List.mem_append_left _ hlater, hleaves⟩

/-- After a turn, the completions that wait were announced if those that waited before it were. -/
theorem announced_process (h : t.WellFormed) (ht : t.Ordinary)
    (hwaiting : ∀ id, .done id ∈ run.queue.events → t.Announced past run.configuration id)
    (hp : t.process event run = (.ok report, run')) :
    ∀ id, .done id ∈ run'.queue.events →
      t.Announced (past ++ [⟨⟨event, band, report⟩, run⟩]) run'.configuration id := by
  intro id hid
  rcases List.mem_append.1 ((process_events hp).subset hid) with hold | hnew
  · exact (hwaiting id hold).next h hp
  · have hdone := done_queued ht hp hnew
    have hafter : (⟨⟨event, band, report⟩, run⟩ : Turn C).after t = run' := congrArg Prod.snd hp
    exact ⟨past, _, [], rfl, hnew, by rw [hafter]; exact hdone, .inl hdone⟩

namespace Course

/-- Every completion that waits was announced, and so was every one that was processed. -/
theorem announced (h : t.WellFormed) (ht : t.Ordinary) (hc : t.Course context past run) :
    (∀ id, .done id ∈ run.queue.events → t.Announced past run.configuration id) ∧
      ∀ before now later id, past = before ++ now :: later → now.event = .done id →
        t.Announced before now.run.configuration id := by
  induction hc with
  | new => exact ⟨fun id hid => (by cases hid), fun before _ _ _ hsplit => by simp at hsplit⟩
  | @receive past run event band _ he ih =>
    refine ⟨fun id hid => ih.1 id ?_, ih.2⟩
    refine (List.mem_append.1 ((run.queue.enqueue_events event band).subset hid)).resolve_right ?_
    intro hsame
    rw [← List.mem_singleton.1 hsame] at he
    cases he
  | @handle past run run' event report band _ he hp ih =>
    refine ⟨announced_process h ht ih.1 hp, fun before now later id hsplit hnow => ?_⟩
    rcases Turn.split_concat hsplit with ⟨-, rfl, -⟩ | ⟨rest, hrest, -⟩
    · rw [show event = .done id from hnow] at he
      cases he
    · exact ih.2 before now rest id hrest hnow
  | @serve past run run' event band queue report _ hq hp ih =>
    have hevents := EventQueue.events_of_dequeue? hq
    have hwaiting : ∀ id, .done id ∈ queue.events → t.Announced past run.configuration id :=
      fun id hid => ih.1 id (hevents ▸ List.mem_cons_of_mem _ hid)
    refine ⟨announced_process h ht hwaiting hp, fun before now later id hsplit hnow => ?_⟩
    rcases Turn.split_concat hsplit with ⟨rfl, rfl, -⟩ | ⟨rest, hrest, -⟩
    · refine ih.1 id ?_
      rw [hevents, show event = .done id from hnow]
      exact List.mem_cons_self
    · exact ih.2 before now rest id hrest hnow
  | @refuse past run run' event band queue err _ hq hp ih =>
    rw [process_refused h hp]
    refine ⟨fun id hid => ih.1 id ?_, ih.2⟩
    rw [EventQueue.events_of_dequeue? hq]
    exact List.mem_cons_of_mem _ hid
  | drop _ ih => exact ⟨fun id hid => (by cases hid), ih.2⟩

/-- A transition on completion is selected by the completion of its own state. The state was
complete when that was queued, in an earlier turn. It is complete still, unless a turn in between
left the state or states below it. -/
theorem timely {d : NodeDef C} (hb : Tree.build d = .ok t) (ht : t.Ordinary)
    (hc : t.Course context past run) {before later : List (Turn C)} {now : Turn C}
    (hsplit : past = before ++ now :: later) {s : Selected C}
    (hs : s ∈ t.select now.run.configuration now.run.context now.event)
    (hdone : s.transition.event = .done) :
    now.event = .done s.ref.source ∧
      t.Announced before now.run.configuration s.ref.source := by
  have h := Tree.build_wellFormed hb
  have hevent : now.event = .done s.ref.source := by
    have haccepts := (Bool.and_eq_true _ _ ▸ (mem_select hs).2.2).1
    rw [hdone] at haccepts
    cases he : now.event with
    | done id =>
      rw [he] at haccepts
      rw [eq_of_beq haccepts]
    | _ => rw [he] at haccepts; cases haccepts
  exact ⟨hevent, (hc.announced h ht).2 before now later _ hsplit hevent⟩

end Course

end Tree

/-- The rounds of a drain are turns of a course. -/
theorem Engine.Drains.course {e : Engine C} {context : C} {past : List (Turn C)} {start : Run C}
    {rounds : List Round} {result : Except EngineError DrainReport × Run C}
    (hdrain : e.Drains start rounds result) (hc : e.tree.Course context past start) :
    ∃ turns, turns.map Turn.toRound = rounds ∧
      e.tree.Course context (past ++ turns) result.2 := by
  obtain ⟨behind, run, hrounds, hends⟩ := hdrain
  have hbehind : ∃ turns, turns.map Turn.toRound = behind ∧
      e.tree.Course context (past ++ turns) run := by
    clear hends
    induction hrounds with
    | none => exact ⟨[], rfl, by rwa [List.append_nil]⟩
    | next _ hq hp _ ih =>
      obtain ⟨turns, rfl, hcourse⟩ := ih
      exact ⟨_, List.map_append, by rw [← List.append_assoc]; exact hcourse.serve hq hp⟩
  obtain ⟨turns, rfl, hcourse⟩ := hbehind
  cases hends with
  | quiescent _ => exact ⟨turns, rfl, hcourse⟩
  | failed hq hp => exact ⟨turns, rfl, hcourse.refuse hq hp⟩
  | stopped hq hp _ =>
    exact ⟨_, List.map_append, by rw [← List.append_assoc]; exact (hcourse.serve hq hp).drop⟩

/-! A state that starts over as soon as it is complete. It does so before its completion is looked
at, which then takes the chart out of a state that is not complete. -/

def restarting : NodeDef Nat where
  key := "m"
  kind := .compound "p" []
  children := [
    { key := "p", kind := .compound "a" [],
      transitions := [
        { event := .immediate, targets := ["p"], guard := some (.inState "p.z") },
        { event := .done, targets := ["out"] }],
      children := [
        { key := "a", kind := .atomic,
          transitions := [{ event := .named "go", targets := ["z"] }] },
        { key := "z", kind := .final }] },
    { key := "out", kind := .atomic }]

def restartingTree : Tree Nat where
  root := ⟨⟨["m"]⟩, .compound [⟨["m", "p"]⟩, ⟨["m", "out"]⟩] ⟨["m", "p"]⟩ [], [], [], [], []⟩
  rest := [
    ⟨⟨["m", "p"]⟩, .compound [⟨["m", "p", "a"]⟩, ⟨["m", "p", "z"]⟩] ⟨["m", "p", "a"]⟩ [], [], [], [
      .taken .immediate (some (.inState ⟨["m", "p", "z"]⟩)) [⟨["m", "p"]⟩] [],
      .taken .done none [⟨["m", "out"]⟩] []], []⟩,
    ⟨⟨["m", "p", "a"]⟩, .atomic, [], [],
      [.taken (.named "go") none [⟨["m", "p", "z"]⟩] []], []⟩,
    ⟨⟨["m", "p", "z"]⟩, .final, [], [], [], []⟩,
    ⟨⟨["m", "out"]⟩, .atomic, [], [], [], []⟩]

theorem restarting_course : ∃ before now run, restartingTree.Course 0 (before ++ [now]) run ∧
    now.event = .done ⟨["m", "p"]⟩ ∧ now.report.microsteps.map Microstep.kind =
      [.event (.done ⟨["m", "p"]⟩) ⟨⟨["m", "p"]⟩, 1⟩] ∧
    restartingTree.select now.run.configuration now.run.context now.event =
      [⟨⟨⟨["m", "p"]⟩, 1⟩, .taken .done none [⟨["m", "out"]⟩] []⟩] ∧
    restartingTree.isDone ⟨["m", "p"]⟩ now.run.configuration = false := by
  have hstart : restartingTree.Course 0 _ _ :=
    .serve (.receive .start .nextMacrostep .new rfl) rfl rfl
  have hquiet : restartingTree.Course 0 _ _ := .serve hstart rfl rfl
  have hgo : restartingTree.Course 0 _ _ :=
    .serve (.receive (.named "go" .null) .nextMacrostep hquiet rfl) rfl rfl
  have hagain : restartingTree.Course 0 _ _ := .serve (.serve hgo rfl rfl) rfl rfl
  exact ⟨_, _, _, .serve hagain rfl rfl, rfl, rfl, rfl, by decide⟩

/-- The completion that takes the chart out of the state is out of date. -/
theorem restarting_stale :
    Tree.build restarting = .ok restartingTree ∧ restartingTree.Ordinary ∧
      ∃ before now run, restartingTree.Course 0 (before ++ [now]) run ∧
        (∃ s ∈ restartingTree.select now.run.configuration now.run.context now.event,
          s.ref = ⟨⟨["m", "p"]⟩, 1⟩ ∧ s.transition.event = .done ∧
            now.report.microsteps.map Microstep.kind = [.event now.event s.ref]) ∧
        restartingTree.isDone ⟨["m", "p"]⟩ now.run.configuration = false := by
  obtain ⟨before, now, run, hcourse, hevent, hkinds, hselect, hstale⟩ := restarting_course
  refine ⟨rfl, by decide, before, now, run, hcourse, ?_, hstale⟩
  rw [hselect, hkinds, hevent]
  exact ⟨_, List.mem_singleton_self _, rfl, rfl, rfl⟩

/-- The state was complete when its completion was queued, and was left in between. -/
theorem restarting_announced :
    Tree.build restarting = .ok restartingTree ∧ restartingTree.Ordinary ∧
      ∃ before now run, restartingTree.Course 0 (before ++ [now]) run ∧
        now.event = .done ⟨["m", "p"]⟩ ∧
        restartingTree.Announced before now.run.configuration ⟨["m", "p"]⟩ := by
  have hbuild : Tree.build restarting = .ok restartingTree := rfl
  have hordinary : restartingTree.Ordinary := by decide
  obtain ⟨before, now, run, hcourse, hevent, -, hselect, -⟩ := restarting_course
  have hselected : _ ∈ restartingTree.select now.run.configuration now.run.context now.event :=
    hselect ▸ List.mem_singleton_self _
  obtain ⟨-, hannounced⟩ := Tree.Course.timely hbuild hordinary hcourse rfl hselected rfl
  exact ⟨hbuild, hordinary, before, now, run, hcourse, hevent, hannounced⟩

end Statechart
