import Statechart.Proofs.Microsteps

/-!
# Statechart.Proofs.Blocks

What happens inside an event: the blocks of actions that are carried out, each with the store that
it works on, and the events that are put into the queue on the way. The engine keeps no such record;
here it is read off beside the engine, and shown to be complete.

* `Block`: a block of actions at work. `Block.queued` are the events that it puts into the queue,
  `Block.failure?` is the failure that cuts it short.
* `Action.perform_eq_ok`: what an action emits and which context it leaves if it succeeds.
* `Tree.processBlocks`: the blocks of an event, in order.
* `Works`: blocks that lead from one store to another. Between two blocks nothing touches the
  context and the queue, so `Tree.take_works`, `Tree.stabilize_works` and their like say that the
  record leaves out no block.
* `Tree.queuedIn`, `Tree.process_queue`: all that an event puts into the queue.
-/

namespace Statechart

variable {C : Type}

/-! ## Queues -/

namespace EventQueue

/-- Puts events into their bands one after the other. -/
def enqueueAll (q : EventQueue) (waiting : List (Event × Priority)) : EventQueue :=
  waiting.foldl (fun q w => q.enqueue w.1 w.2) q

@[simp] theorem enqueueAll_nil (q : EventQueue) : q.enqueueAll [] = q := rfl

theorem enqueueAll_append (q : EventQueue) (first rest : List (Event × Priority)) :
    q.enqueueAll (first ++ rest) = (q.enqueueAll first).enqueueAll rest :=
  List.foldl_append

theorem mem_band_enqueue {q : EventQueue} {event other : Event} {band p : Priority} :
    other ∈ (q.enqueue event band).band p ↔ other ∈ q.band p ∨ other = event ∧ p = band := by
  cases band <;> cases p <;> simp [enqueue, EventQueue.band]

theorem mem_band_enqueueAll {q : EventQueue} {waiting : List (Event × Priority)} {event : Event}
    {p : Priority} :
    event ∈ (q.enqueueAll waiting).band p ↔ event ∈ q.band p ∨ (event, p) ∈ waiting := by
  induction waiting generalizing q with
  | nil => simp
  | cons w rest ih =>
    show event ∈ ((q.enqueue w.1 w.2).enqueueAll rest).band p ↔ _
    rw [ih, mem_band_enqueue, List.mem_cons, Prod.ext_iff, or_assoc]

theorem contains_done {q : EventQueue} {id : StateId} {p : Priority} :
    q.contains (.done id) p = true ↔ .done id ∈ q.band p := by
  rw [contains, List.contains_iff_exists_mem_beq]
  constructor
  · rintro ⟨event, hevent, hsame⟩
    cases event with
    | done other =>
      have hid : id = other := of_decide_eq_true hsame
      rwa [hid]
    | _ => cases hsame
  · exact fun hin => ⟨.done id, hin, decide_eq_true rfl⟩

end EventQueue

/-! ## Blocks -/

/-- A block of actions at work: its name in failures, what its actions see, and the store that it
starts with. -/
structure Block (C : Type) where
  origin : String
  data : Json
  actions : List (Action C)
  store : Store C

/-- What actions put into the queue: the events that they emit up to the first failure, and the
report of the failure. -/
def actionsQueue (origin : String) (data : Json) : List (Action C) → C → List (Event × Priority)
  | [], _ => []
  | a :: rest, context =>
    match a.perform context data with
    | .error e => [(failureEvent origin e, .currentMacrostep)]
    | .ok p => p.emitted.toList ++ actionsQueue origin data rest p.context

namespace Block

/-- The store that the block leaves. -/
def after (b : Block C) : Store C :=
  (runBlock b.origin b.data b.actions b.store).2

def failure? (b : Block C) : Option ActionError :=
  (runBlock b.origin b.data b.actions b.store).1.failure

def queued (b : Block C) : List (Event × Priority) :=
  actionsQueue b.origin b.data b.actions b.store.context

end Block

namespace Action

/-- The event that an action emits if it succeeds, with its band. -/
def emits : Action C → Option (Event × Priority)
  | .send event => some (event, .nextMacrostep)
  | .raise event => some (event, .currentMacrostep)
  | _ => none

/-- The context that an action leaves if it succeeds: what an update has made of it, and otherwise
the one that the action was given. -/
def leaves (data : Json) : Action C → C → C
  | .mutate update, context => (update context data).2
  | _, context => context

theorem perform_mutate (update : Mutation C) (context : C) (data : Json) :
    (mutate update).perform context data =
      (update context data).1.map fun _ => { context := (update context data).2 } := by
  simp only [perform]
  rcases update context data with ⟨_ | _, copy⟩ <;> rfl

/-- What an action does if it succeeds. -/
theorem perform_eq_ok {a : Action C} {context : C} {data : Json} {p : Performed C}
    (hp : a.perform context data = .ok p) :
    p.emitted = a.emits ∧ p.context = a.leaves data context := by
  cases a with
  | send event => cases hp; exact ⟨rfl, rfl⟩
  | raise event => cases hp; exact ⟨rfl, rfl⟩
  | log message =>
    simp only [perform] at hp
    cases hm : message context data with
    | error e => rw [hm] at hp; cases hp
    | ok text => rw [hm] at hp; cases hp; exact ⟨rfl, rfl⟩
  | mutate update =>
    rw [perform_mutate] at hp
    cases hu : (update context data).1 with
    | error e => rw [hu] at hp; cases hp
    | ok _ => rw [hu] at hp; cases hp; exact ⟨rfl, rfl⟩
  | run effect =>
    simp only [perform] at hp
    cases he : effect context data with
    | error e => rw [he] at hp; cases hp
    | ok _ => rw [he] at hp; cases hp; exact ⟨rfl, rfl⟩

end Action

theorem Store.accept_context (s : Store C) (p : Performed C) :
    (s.accept p).context = p.context := by
  simp only [accept]
  cases p.emitted <;> cases p.logged <;> rfl

theorem Store.accept_queue (s : Store C) (p : Performed C) :
    (s.accept p).queue = s.queue.enqueueAll p.emitted.toList := by
  simp only [accept]
  cases p.emitted <;> cases p.logged <;> rfl

theorem runBlock_queue (origin : String) (data : Json) (actions : List (Action C)) (s : Store C) :
    (runBlock origin data actions s).2.queue =
      s.queue.enqueueAll (actionsQueue origin data actions s.context) := by
  induction actions generalizing s with
  | nil => rfl
  | cons a rest ih =>
    simp only [runBlock, actionsQueue]
    cases a.perform s.context data with
    | error e => rfl
    | ok p =>
      simp only
      rw [ih, Store.accept_queue, Store.accept_context, EventQueue.enqueueAll_append]

theorem Block.after_queue (b : Block C) : b.after.queue = b.store.queue.enqueueAll b.queued :=
  runBlock_queue b.origin b.data b.actions b.store

/-- A failure is reported to the current macrostep. -/
theorem Block.failure_mem_queued {b : Block C} {e : ActionError} (h : b.failure? = some e) :
    (failureEvent b.origin e, .currentMacrostep) ∈ b.queued := by
  obtain ⟨origin, data, actions, s⟩ := b
  simp only [failure?, queued] at h ⊢
  induction actions generalizing s with
  | nil => cases h
  | cons a rest ih =>
    simp only [runBlock, actionsQueue] at h ⊢
    cases hp : a.perform s.context data with
    | error e' =>
      rw [hp] at h
      cases h
      exact List.mem_singleton_self _
    | ok p =>
      rw [hp] at h
      have hrest := ih (s.accept p) h
      rw [Store.accept_context] at hrest
      exact List.mem_append_right _ hrest

/-- The blocks work one after the other: each starts with the context and the queue that the one
before it has left. -/
inductive Works : Store C → List (Block C) → Store C → Prop where
  | nil {s s' : Store C} : s.context = s'.context → s.queue = s'.queue → Works s [] s'
  | cons {s s' : Store C} {b : Block C} {blocks : List (Block C)} :
      s.context = b.store.context → s.queue = b.store.queue → Works b.after blocks s' →
      Works s (b :: blocks) s'

namespace Works

variable {s s' s'' : Store C} {blocks blocks' : List (Block C)}

theorem refl (s : Store C) : Works s [] s :=
  .nil rfl rfl

/-- Only the context and the queue of the first store count. -/
theorem of_eq (h : Works s' blocks s'') (hc : s.context = s'.context) (hq : s.queue = s'.queue) :
    Works s blocks s'' := by
  cases h with
  | nil hc' hq' => exact .nil (hc.trans hc') (hq.trans hq')
  | cons hc' hq' h => exact .cons (hc.trans hc') (hq.trans hq') h

theorem trans (h : Works s blocks s') (h' : Works s' blocks' s'') :
    Works s (blocks ++ blocks') s'' := by
  induction h with
  | nil hc hq => exact h'.of_eq hc hq
  | cons hc hq _ ih => exact .cons hc hq (ih h')

theorem queue (h : Works s blocks s') :
    s'.queue = s.queue.enqueueAll (blocks.flatMap Block.queued) := by
  induction h with
  | nil _ hq => exact hq.symm
  | cons _ hq _ ih =>
    rw [ih, Block.after_queue, List.flatMap_cons, EventQueue.enqueueAll_append, hq]

end Works

namespace Tree

variable {t : Tree C}

/-! ## The blocks of a microstep -/

def exitBlock (t : Tree C) (data : Json) (id : StateId) (store : Store C) : Block C :=
  ⟨"exit " ++ id.text, data, ((t.node? id).map Node.exit).getD [], store⟩

def entryBlock (t : Tree C) (data : Json) (id : StateId) (store : Store C) : Block C :=
  ⟨"entry " ++ id.text, data, ((t.node? id).map Node.entry).getD [], store⟩

def leaveBlocks (t : Tree C) (data : Json) : List StateId → Run C → List (Block C)
  | [], _ => []
  | id :: rest, run =>
    t.exitBlock data id run.toStore :: t.leaveBlocks data rest (t.leave data run id)

def enterBlocks (t : Tree C) (data : Json) : List StateId → Run C → List (Block C)
  | [], _ => []
  | id :: rest, run =>
    t.entryBlock data id run.toStore :: t.enterBlocks data rest (t.enter data run id)

/-- The blocks of a microstep: those of the states left, its own, and those of the states
entered. -/
def applyBlocks (t : Tree C) (p : Plan) (actions : List (Action C)) (cause : Cause) (run : Run C) :
    List (Block C) :=
  let left := p.exited.foldl (t.leave cause.data) run
  let own : Block C := ⟨cause.origin, cause.data, actions, left.toStore⟩
  let acted : Run C :=
    { toStore := own.after, configuration := left.configuration.eraseAll p.exited }
  t.leaveBlocks cause.data p.exited run ++ own :: t.enterBlocks cause.data p.entered acted

theorem leave_works (data : Json) (ids : List StateId) (run : Run C) :
    Works run.toStore (t.leaveBlocks data ids run) (ids.foldl (t.leave data) run).toStore := by
  induction ids generalizing run with
  | nil => exact .refl _
  | cons id rest ih => exact .cons rfl rfl ((ih (t.leave data run id)).of_eq rfl rfl)

theorem enter_works (data : Json) (ids : List StateId) (run : Run C) :
    Works run.toStore (t.enterBlocks data ids run) (ids.foldl (t.enter data) run).toStore := by
  induction ids generalizing run with
  | nil => exact .refl _
  | cons id rest ih => exact .cons rfl rfl ((ih (t.enter data run id)).of_eq rfl rfl)

theorem apply_works (p : Plan) (actions : List (Action C)) (cause : Cause) (run : Run C) :
    Works run.toStore (t.applyBlocks p actions cause run)
      (t.apply p actions cause run).2.toStore := by
  let left := p.exited.foldl (t.leave cause.data) run
  let own : Block C := ⟨cause.origin, cause.data, actions, left.toStore⟩
  let acted : Run C :=
    { toStore := own.after, configuration := left.configuration.eraseAll p.exited }
  have hown : Works left.toStore (own :: t.enterBlocks cause.data p.entered acted)
      (p.entered.foldl (t.enter cause.data) acted).toStore :=
    .cons rfl rfl (enter_works cause.data p.entered acted)
  exact (leave_works cause.data p.exited run).trans hown

/-! ## The blocks of an event -/

def stabilizeBlocksFor (t : Tree C) (data : Json) : Nat → Run C → List (Block C)
  | 0, _ => []
  | fuel + 1, run =>
    match t.planStabilization run.configuration with
    | none => []
    | some (n, p) =>
      let cause := ⟨"initial " ++ n.id.text, data, .stabilization⟩
      t.applyBlocks p n.kind.initialActions cause run ++
        t.stabilizeBlocksFor data fuel (t.apply p n.kind.initialActions cause run).2

def stabilizeBlocks (t : Tree C) (data : Json) (run : Run C) : List (Block C) :=
  t.stabilizeBlocksFor data t.size run

def takeToBlocks (t : Tree C) (source : StateId) (cause : Cause) :
    List (Action C) → List StateId → Run C → List (Block C)
  | _, [], _ => []
  | actions, target :: rest, run =>
    match t.plan run.configuration source target with
    | .error _ => []
    | .ok p =>
      t.applyBlocks p actions cause run ++
        t.takeToBlocks source cause [] rest (t.apply p actions cause run).2

def takeBlocks (t : Tree C) (event : Event) (s : Selected C) (run : Run C) : List (Block C) :=
  let cause := ⟨"transition " ++ s.ref.text, event.data, .event event s.ref⟩
  match s.transition.targets with
  | [] => t.applyBlocks {} s.transition.actions cause run
  | targets => t.takeToBlocks s.ref.source cause s.transition.actions targets run

def takeAllBlocks (t : Tree C) (event : Event) : List (Selected C) → Run C → List (Block C)
  | [], _ => []
  | s :: rest, run =>
    if s.transition.isForbidden || !run.configuration.contains s.ref.source then
      t.takeAllBlocks event rest run
    else
      t.takeBlocks event s run ++
        match t.take event s run with
        | (.error _, _) => []
        | (.ok _, run) => t.takeAllBlocks event rest run

/-- The blocks of actions that processing an event carries out, in order. -/
def processBlocks (t : Tree C) (event : Event) (run : Run C) : List (Block C) :=
  match event with
  | .start =>
    if run.configuration.isInitialized then []
    else
      let cause := ⟨"initialize", .null, .initialization⟩
      t.applyBlocks { entered := [t.root.id] } [] cause run ++
        t.stabilizeBlocks .null (t.apply { entered := [t.root.id] } [] cause run).2
  | event =>
    if !run.configuration.isInitialized then []
    else
      let selected := t.select run.configuration run.context event
      t.takeAllBlocks event selected run ++
        match t.takeAll event selected run with
        | (.error _, _) => []
        | (.ok _, run) => t.stabilizeBlocks event.data run

theorem stabilizeFor_works (data : Json) (fuel : Nat) (run : Run C) :
    Works run.toStore (t.stabilizeBlocksFor data fuel run)
      (t.stabilizeFor data fuel run).2.toStore := by
  induction fuel generalizing run with
  | zero => exact .refl _
  | succ fuel ih =>
    simp only [stabilizeBlocksFor, stabilizeFor]
    cases t.planStabilization run.configuration with
    | none => exact .refl _
    | some np => exact (apply_works _ _ _ run).trans (ih _)

theorem stabilize_works (data : Json) (run : Run C) :
    Works run.toStore (t.stabilizeBlocks data run) (t.stabilize data run).2.toStore :=
  stabilizeFor_works data t.size run

theorem takeTo_works (source : StateId) (cause : Cause) (actions : List (Action C))
    (targets : List StateId) (run : Run C) :
    Works run.toStore (t.takeToBlocks source cause actions targets run)
      (t.takeTo source cause actions targets run).2.toStore := by
  induction targets generalizing actions run with
  | nil => exact .refl _
  | cons target rest ih =>
    rw [takeTo_cons, takeToBlocks]
    cases t.plan run.configuration source target with
    | error e => exact .refl _
    | ok p => exact (apply_works p actions cause run).trans (ih [] _)

theorem take_works (event : Event) (s : Selected C) (run : Run C) :
    Works run.toStore (t.takeBlocks event s run) (t.take event s run).2.toStore := by
  simp only [takeBlocks, take]
  cases s.transition.targets with
  | nil => exact apply_works _ _ _ run
  | cons target rest => exact takeTo_works _ _ _ _ run

theorem takeAll_works (event : Event) (selected : List (Selected C)) (run : Run C) :
    Works run.toStore (t.takeAllBlocks event selected run)
      (t.takeAll event selected run).2.toStore := by
  induction selected generalizing run with
  | nil => exact .refl _
  | cons s rest ih =>
    rw [takeAll_cons, takeAllBlocks]
    split
    · exact ih run
    · have htake := take_works (t := t) event s run
      generalize t.take event s run = taken at htake
      obtain ⟨result, mid⟩ := taken
      cases result with
      | error e =>
        rw [List.append_nil]
        exact htake
      | ok ms => exact htake.trans (ih mid)

/-! ## What an event puts into the queue -/

/-- The completions that are queued: those of the states that are not queued yet. -/
def doneQueue (queue : EventQueue) : List StateId → List (Event × Priority)
  | [] => []
  | id :: rest =>
    if queue.contains (.done id) .currentMacrostep then doneQueue queue rest
    else
      (.done id, .currentMacrostep) :: doneQueue (queue.enqueue (.done id) .currentMacrostep) rest

def immediateQueue (queue : EventQueue) : List (Event × Priority) :=
  if queue.contains .immediate .stabilization then [] else [(.immediate, .stabilization)]

/-- What is queued after the microsteps of an event: the states that were completed, and the trial
of transitions without event. -/
def closingQueue (t : Tree C) (report : StepReport) (c : Configuration) (queue : EventQueue) :
    List (Event × Priority) :=
  let done := doneQueue queue (t.completedBy c (report.microsteps.flatMap Microstep.entered))
  if !report.microsteps.isEmpty && !report.completed && t.hasEventless c then
    done ++ immediateQueue (queue.enqueueAll done)
  else done

/-- All that processing an event puts into the queue, in order. -/
def queuedIn (t : Tree C) (event : Event) (run : Run C) : List (Event × Priority) :=
  let acted := (t.processBlocks event run).flatMap Block.queued
  match t.process event run with
  | (.error _, _) => acted
  | (.ok report, run') =>
    acted ++ t.closingQueue report run'.configuration (run.queue.enqueueAll acted)

/-- A completion is queued for one of the states, if it does not wait already. -/
theorem mem_doneQueue {queue : EventQueue} {ids : List StateId} {w : Event × Priority}
    (hw : w ∈ doneQueue queue ids) :
    ∃ id ∈ ids, w = (.done id, .currentMacrostep) ∧ .done id ∉ queue.currentMacrostep := by
  induction ids generalizing queue with
  | nil => cases hw
  | cons id rest ih =>
    rw [doneQueue] at hw
    split at hw
    · obtain ⟨other, hother, heq, hnot⟩ := ih hw
      exact ⟨other, List.mem_cons_of_mem _ hother, heq, hnot⟩
    · rename_i hnot
      rcases List.mem_cons.1 hw with rfl | hw
      · exact ⟨id, List.mem_cons_self, rfl, fun hin => hnot (EventQueue.contains_done.2 hin)⟩
      · obtain ⟨other, hother, heq, hnot⟩ := ih hw
        refine ⟨other, List.mem_cons_of_mem _ hother, heq, fun hin => hnot ?_⟩
        exact List.mem_append_left _ hin

theorem mem_immediateQueue {queue : EventQueue} {w : Event × Priority}
    (hw : w ∈ immediateQueue queue) : w = (.immediate, .stabilization) := by
  rw [immediateQueue] at hw
  split at hw
  · cases hw
  · exact List.mem_singleton.1 hw

theorem mem_completedBy {c : Configuration} {entered : List StateId} {id : StateId} :
    id ∈ t.completedBy c entered ↔ id ≠ t.root.id ∧ t.isDone id c = true ∧
      ∃ z ∈ entered, t.isFinal z = true ∧ z ∈ c ∧ id ∈ z.ancestors := by
  simp only [completedBy, List.mem_filter, List.mem_flatMap, Bool.and_eq_true, decide_eq_true_eq,
    Configuration.contains_iff]
  constructor
  · rintro ⟨⟨z, ⟨hz, hfinal, hactive⟩, habove⟩, hroot, hdone⟩
    exact ⟨hroot, hdone, z, hz, hfinal, hactive, habove⟩
  · rintro ⟨hroot, hdone, z, hz, hfinal, hactive, habove⟩
    exact ⟨⟨z, ⟨hz, hfinal, hactive⟩, habove⟩, hroot, hdone⟩

/-- After the microsteps, the engine queues the trial of transitions without event, and completions
of states that are complete. -/
theorem mem_closingQueue {report : StepReport} {c : Configuration} {queue : EventQueue}
    {w : Event × Priority} (hw : w ∈ t.closingQueue report c queue) :
    w = (.immediate, .stabilization) ∨ ∃ id ≠ t.root.id, t.isDone id c = true ∧
      w = (.done id, .currentMacrostep) := by
  have announced : ∀ w ∈ doneQueue queue
      (t.completedBy c (report.microsteps.flatMap Microstep.entered)),
      ∃ id ≠ t.root.id, t.isDone id c = true ∧ w = (.done id, .currentMacrostep) := by
    intro w hw
    obtain ⟨id, hid, heq, -⟩ := mem_doneQueue hw
    obtain ⟨hroot, hdone, -⟩ := mem_completedBy.1 hid
    exact ⟨id, hroot, hdone, heq⟩
  simp only [closingQueue] at hw
  split at hw
  · rcases List.mem_append.1 hw with hw | hw
    · exact .inr (announced w hw)
    · exact .inl (mem_immediateQueue hw)
  · exact .inr (announced w hw)

theorem foldl_queueDone (ids : List StateId) (queue : EventQueue) :
    ids.foldl queueDone queue = queue.enqueueAll (doneQueue queue ids) := by
  induction ids generalizing queue with
  | nil => rfl
  | cons id rest ih =>
    rw [List.foldl_cons, ih, queueDone, doneQueue]
    split <;> rfl

theorem queueImmediate_eq (queue : EventQueue) :
    queueImmediate queue = queue.enqueueAll (immediateQueue queue) := by
  rw [queueImmediate, immediateQueue]
  split <;> rfl

theorem settle_queue (data : Json) (handled : Bool) (taken : List Microstep) (run : Run C) :
    (t.settle data handled taken run).2.queue = (t.stabilize data run).2.queue.enqueueAll
      (t.closingQueue (t.settle data handled taken run).1
        (t.settle data handled taken run).2.configuration (t.stabilize data run).2.queue) := by
  simp only [settle, closingQueue, foldl_queueDone, queueImmediate_eq]
  split
  · rw [EventQueue.enqueueAll_append]
  · rfl

theorem processBlocks_eq {event : Event} (he : event ≠ .start) (run : Run C) :
    t.processBlocks event run =
      if run.configuration.isInitialized then
        t.takeAllBlocks event (t.select run.configuration run.context event) run ++
          match t.takeAll event (t.select run.configuration run.context event) run with
          | (.error _, _) => []
          | (.ok _, run) => t.stabilizeBlocks event.data run
      else [] := by
  cases hinit : run.configuration.isInitialized with
  | false =>
    cases event with
    | start => exact absurd rfl he
    | _ => simp only [processBlocks, hinit]; rfl
  | true =>
    cases event with
    | start => exact absurd rfl he
    | _ => simp only [processBlocks, hinit]; rfl

/-- After the blocks that led to it, settling stabilizes and queues what it closes with. -/
theorem settle_queue_of_works {run mid : Run C} {blocks : List (Block C)} (data : Json)
    (handled : Bool) (taken : List Microstep) (h : Works run.toStore blocks mid.toStore) :
    let settled := t.settle data handled taken mid
    let acted := (blocks ++ t.stabilizeBlocks data mid).flatMap Block.queued
    settled.2.queue = run.queue.enqueueAll (acted ++
      t.closingQueue settled.1 settled.2.configuration (run.queue.enqueueAll acted)) := by
  have hall := (h.trans (stabilize_works (t := t) data mid)).queue
  simp only
  rw [settle_queue, hall, EventQueue.enqueueAll_append]

/-- What is recorded as put into the queue is all that an event puts there. -/
theorem process_queue (event : Event) (run : Run C) :
    (t.process event run).2.queue = run.queue.enqueueAll (t.queuedIn event run) := by
  by_cases he : event = .start
  · subst he
    simp only [queuedIn, process, processBlocks]
    cases run.configuration.isInitialized with
    | true => rfl
    | false => exact settle_queue_of_works _ _ _ (apply_works _ _ _ run)
  · simp only [queuedIn, process_eq he, processBlocks_eq he]
    cases run.configuration.isInitialized with
    | false => rfl
    | true =>
      have htake := takeAll_works (t := t) event
        (t.select run.configuration run.context event) run
      generalize t.takeAll event (t.select run.configuration run.context event) run = taken at htake
      obtain ⟨result, mid⟩ := taken
      cases result with
      | error e =>
        simp only [if_true, List.append_nil]
        exact htake.queue
      | ok ms => exact settle_queue_of_works _ _ _ htake

end Tree

end Statechart
