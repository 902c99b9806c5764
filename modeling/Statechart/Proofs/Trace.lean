import Statechart.Proofs.Legality
import Statechart.Proofs.Lifecycle

/-!
# Statechart.Proofs.Trace

The trace of a drain is faithful: the reported microsteps, replayed on the configuration before the
drain, give the configuration after it, and the states are told of their entries and exits exactly
as the microsteps say, in their order.

* `Replays`: microsteps as changes of a configuration. `Replays.mem_iff` tells the active states
  from what was left and entered, and not from the configurations in between.
* `Run.calls`: the entries and exits that a run has signalled.
* `Tree.Steps.traced`, `Engine.Drains.traced`: microsteps and drains.
* `Tree.Lifecycle.takesTurns`: the entries and exits of one state.
* `Engine.trace_faithful`: every run.
-/

namespace Statechart

variable {C : Type}

/-! ## Traces -/

namespace Signal

def isMessage : Signal → Bool
  | .logged _ => true
  | _ => false

/-- Is this an entry or an exit of the state? -/
def concerns (id : StateId) : Signal → Bool
  | .entered other => other = id
  | .exited other => other = id
  | .logged _ => false

end Signal

namespace Run

/-- The entries and exits of states so far, the oldest first. -/
def calls (run : Run C) : List Signal :=
  run.signals.reverse.filter (!·.isMessage)

/-- The entries and exits of one state. -/
def callsOf (run : Run C) (id : StateId) : List Signal :=
  run.calls.filter (·.concerns id)

end Run

/-- What the states are told of a microstep. -/
def Microstep.calls (m : Microstep) : List Signal :=
  m.exited.map .exited ++ m.entered.map .entered

/-- The microsteps lead from one configuration to the other. Each leaves active states and enters
inactive ones, every state once. -/
inductive Replays : Configuration → List Microstep → Configuration → Prop where
  | nil {c : Configuration} : Replays c [] c
  | cons {c c' : Configuration} {m : Microstep} {ms : List Microstep} :
      m.exited.Nodup → (∀ id ∈ m.exited, id ∈ c) → m.entered.Nodup →
      (∀ id ∈ m.entered, id ∉ c.eraseAll m.exited) →
      Replays ((c.eraseAll m.exited).insertAll m.entered) ms c' → Replays c (m :: ms) c'

theorem Replays.trans {c c' c'' : Configuration} {ms ms' : List Microstep}
    (h : Replays c ms c') (h' : Replays c' ms' c'') : Replays c (ms ++ ms') c'' := by
  induction h with
  | nil => exact h'
  | cons hexited hactive hentered hinactive _ ih =>
    exact .cons hexited hactive hentered hinactive (ih h')

/-- Do the microsteps leave the state, and not enter it again? -/
def LeftForGood (id : StateId) (ms : List Microstep) : Prop :=
  ∃ m later, m :: later <:+ ms ∧ id ∈ m.exited ∧ ∀ m' ∈ m :: later, id ∉ m'.entered

theorem not_leftForGood_nil (id : StateId) : ¬ LeftForGood id [] := by
  rintro ⟨m, later, hsuffix, -⟩
  cases List.suffix_nil.1 hsuffix

theorem leftForGood_cons {id : StateId} {m : Microstep} {ms : List Microstep} :
    LeftForGood id (m :: ms) ↔
      (id ∈ m.exited ∧ ∀ m' ∈ m :: ms, id ∉ m'.entered) ∨ LeftForGood id ms := by
  constructor
  · rintro ⟨m', later, hsuffix, hleft, hnone⟩
    rcases List.suffix_cons_iff.1 hsuffix with heq | hsuffix
    · cases heq
      exact .inl ⟨hleft, hnone⟩
    · exact .inr ⟨m', later, hsuffix, hleft, hnone⟩
  · rintro (⟨hleft, hnone⟩ | ⟨m', later, hsuffix, hleft, hnone⟩)
    · exact ⟨m, ms, List.suffix_refl _, hleft, hnone⟩
    · exact ⟨m', later, List.suffix_cons_iff.2 (.inr hsuffix), hleft, hnone⟩

/-- What was left, but not for good, was entered. -/
theorem exists_entered_of_not_leftForGood {id : StateId} {ms : List Microstep}
    (hleft : ∃ m ∈ ms, id ∈ m.exited) (hback : ¬ LeftForGood id ms) :
    ∃ m ∈ ms, id ∈ m.entered := by
  by_contra hnone
  obtain ⟨m, hm, hexited⟩ := hleft
  obtain ⟨before, later, rfl⟩ := List.append_of_mem hm
  refine hback ⟨m, later, List.suffix_append _ _, hexited, fun m' hm' hentered => hnone ?_⟩
  exact ⟨m', List.mem_append_right _ hm', hentered⟩

/-- A state is active after the microsteps if it was before, or was entered, and was not left for
good. -/
theorem Replays.mem_iff {c c' : Configuration} {ms : List Microstep} (h : Replays c ms c')
    {id : StateId} :
    id ∈ c' ↔ (id ∈ c ∨ ∃ m ∈ ms, id ∈ m.entered) ∧ ¬ LeftForGood id ms := by
  induction h with
  | nil => simp [not_leftForGood_nil]
  | @cons c c' m ms _ _ _ _ _ ih =>
    rw [ih, Configuration.mem_insertAll, Configuration.mem_eraseAll, leftForGood_cons,
      List.exists_mem_cons_iff, List.forall_mem_cons]
    by_cases hlater : ∃ m' ∈ ms, id ∈ m'.entered
    · -- It was entered later, so the first microstep does not count.
      have hnot : ¬ ∀ m' ∈ ms, id ∉ m'.entered := by simpa using hlater
      simp only [hlater, hnot, or_true, and_false, false_or]
    · by_cases hentered : id ∈ m.entered
      · simp [hentered]
      · by_cases hexited : id ∈ m.exited <;> simp [hlater, hentered, hexited]

/-- The microsteps lead from one run to the other, and are what was signalled in between. -/
structure Traced (run : Run C) (ms : List Microstep) (run' : Run C) : Prop where
  replays : Replays run.configuration ms run'.configuration
  calls : run'.calls = run.calls ++ ms.flatMap Microstep.calls

variable {run run' run'' : Run C} {ms ms' : List Microstep}

theorem Traced.refl (run : Run C) : Traced run [] run :=
  ⟨.nil, (List.append_nil _).symm⟩

theorem Traced.trans (h : Traced run ms run') (h' : Traced run' ms' run'') :
    Traced run (ms ++ ms') run'' := by
  refine ⟨h.replays.trans h'.replays, ?_⟩
  rw [h'.calls, h.calls, List.flatMap_append, List.append_assoc]

/-- A trace does not depend on what waits in the queue. -/
theorem Traced.queue (h : Traced run ms run') (queue : EventQueue) :
    Traced run ms { run' with queue } :=
  ⟨h.replays, h.calls⟩

/-! ## One microstep -/

namespace Tree

variable {t : Tree C}

/-- Messages aside, a block of actions signals nothing. -/
theorem runBlock_calls (origin : String) (data : Json) (actions : List (Action C)) (s : Store C) :
    (runBlock origin data actions s).2.signals.filter (!·.isMessage) =
      s.signals.filter (!·.isMessage) := by
  obtain ⟨messages, hm⟩ := runBlock_signals origin data actions s
  have hnone : (messages.map Signal.logged).reverse.filter (!·.isMessage) = [] := by
    refine List.filter_eq_nil_iff.2 fun x hx => ?_
    obtain ⟨message, -, rfl⟩ := List.mem_map.1 (List.mem_reverse.1 hx)
    simp [Signal.isMessage]
  rw [hm, List.filter_append, hnone, List.nil_append]

theorem leave_calls (data : Json) (run : Run C) (id : StateId) :
    (t.leave data run id).calls = run.calls ++ [.exited id] := by
  have hblock := runBlock_calls ("exit " ++ id.text) data
    (((t.node? id).map Node.exit).getD []) run.toStore
  simp only [Run.calls, List.filter_reverse] at hblock ⊢
  rw [← List.reverse_cons, ← hblock]
  rfl

theorem enter_calls (data : Json) (run : Run C) (id : StateId) :
    (t.enter data run id).calls = run.calls ++ [.entered id] := by
  have hblock := runBlock_calls ("entry " ++ id.text) data
    (((t.node? id).map Node.entry).getD []) run.toStore
  simp only [Run.calls, List.filter_reverse] at hblock ⊢
  rw [← List.reverse_cons, ← hblock]
  rfl

theorem foldl_leave_calls (data : Json) (ids : List StateId) (run : Run C) :
    (ids.foldl (t.leave data) run).calls = run.calls ++ ids.map .exited := by
  induction ids generalizing run with
  | nil => simp
  | cons id rest ih => simp [ih, leave_calls]

theorem foldl_enter_calls (data : Json) (ids : List StateId) (run : Run C) :
    (ids.foldl (t.enter data) run).calls = run.calls ++ ids.map .entered := by
  induction ids generalizing run with
  | nil => simp
  | cons id rest ih => simp [ih, enter_calls]

/-- A microstep tells the states that it leaves, then those that it enters. -/
theorem apply_calls (p : Plan) (actions : List (Action C)) (cause : Cause) (run : Run C) :
    (t.apply p actions cause run).2.calls =
      run.calls ++ (t.apply p actions cause run).1.calls := by
  let left : Run C :=
    { p.exited.foldl (t.leave cause.data) run with
      configuration := (p.exited.foldl (t.leave cause.data) run).configuration.eraseAll p.exited }
  let acted : Run C := { left with
    toStore := (runBlock cause.origin cause.data actions left.toStore).2 }
  have hleft : left.calls = run.calls ++ p.exited.map .exited := foldl_leave_calls cause.data _ run
  have hacted : acted.calls = left.calls := by
    have hblock := runBlock_calls cause.origin cause.data actions left.toStore
    simp only [Run.calls, List.filter_reverse]
    exact congrArg List.reverse hblock
  show (p.entered.foldl (t.enter cause.data) acted).calls = _
  rw [foldl_enter_calls, hacted, hleft, List.append_assoc]
  rfl

theorem apply_traced {p : Plan} (hp : p.Fits t.ids run.configuration)
    (actions : List (Action C)) (cause : Cause) :
    Traced run [(t.apply p actions cause run).1] (t.apply p actions cause run).2 := by
  refine ⟨.cons hp.exited_nodup hp.exited_active hp.entered_nodup hp.entered_inactive ?_, ?_⟩
  · rw [apply_configuration]
    exact .nil
  · rw [apply_calls, List.flatMap_singleton]

/-! ## Events and drains -/

theorem Steps.traced (h : t.WellFormed) (hsteps : t.Steps run ms run') : Traced run ms run' := by
  induction hsteps with
  | nil => exact .refl _
  | cons hp _ ih => exact (apply_traced (hp.fits h) _ _).trans ih

theorem process_traced (h : t.WellFormed) {event : Event} {report : StepReport}
    (hp : t.process event run = (.ok report, run')) : Traced run report.microsteps run' := by
  obtain ⟨mid, hsteps, hrun⟩ := process_steps h hp
  rw [hrun]
  exact (hsteps.traced h).queue _

end Tree

namespace Engine

variable {e : Engine C} {rounds : List Round} {result : Except EngineError DrainReport × Run C}

theorem Rounds.traced (h : e.tree.WellFormed) (hrounds : e.Rounds run rounds run') :
    Traced run (Round.microsteps rounds) run' := by
  induction hrounds with
  | none => exact .refl _
  | next _ _ hp _ ih =>
    rw [microsteps_concat]
    exact (ih.queue _).trans (Tree.process_traced h hp)

/-- However a drain ends, the microsteps of its rounds are its trace. -/
theorem Drains.traced (h : e.tree.WellFormed) (hdrain : e.Drains run rounds result) :
    Traced run (Round.microsteps rounds) result.2 := by
  obtain ⟨past, mid, hrounds, hends⟩ := hdrain
  have hpast := hrounds.traced h
  cases hends with
  | quiescent _ => exact hpast
  | failed _ hp =>
    rw [Tree.process_refused h hp]
    exact hpast.queue _
  | stopped _ hp _ =>
    rw [microsteps_concat]
    exact ((hpast.queue _).trans (Tree.process_traced h hp)).queue _

end Engine

/-! ## The calls of one state -/

/-- Entries and exits of a state in turn, from when it was active or not to when it is or not. -/
inductive TakesTurns (id : StateId) : Bool → List Signal → Bool → Prop where
  | nil {active : Bool} : TakesTurns id active [] active
  | entered {calls : List Signal} {active : Bool} :
      TakesTurns id true calls active → TakesTurns id false (.entered id :: calls) active
  | exited {calls : List Signal} {active : Bool} :
      TakesTurns id false calls active → TakesTurns id true (.exited id :: calls) active

/-- The last call tells whether the state is active; without a call it is as it was. -/
theorem TakesTurns.last {id : StateId} {before after : Bool} {calls : List Signal}
    (h : TakesTurns id before calls after) :
    after = true ↔
      calls.getLast?.getD (if before then .entered id else .exited id) = .entered id := by
  induction h with
  | @nil active => cases active <;> simp
  | entered _ ih => simpa [List.getLast?_cons] using ih
  | exited _ ih => simpa [List.getLast?_cons] using ih

namespace Tree

variable {t : Tree C} {c c' : Configuration} {signals : List Signal}

/-- The signals between two configurations let every state take turns. -/
theorem Lifecycle.takesTurns (hl : t.Lifecycle c signals c') (id : StateId) :
    TakesTurns id (c.contains id) (signals.filter (·.concerns id)) (c'.contains id) := by
  induction hl with
  | nil => exact .nil
  | @entered c c' other signals _ hout _ ih =>
    by_cases hother : other = id
    · subst hother
      have hbefore : c.contains other = false := Configuration.contains_eq_false.2 hout
      have hafter : (c.insert other).contains other = true := by simp
      rw [List.filter_cons_of_pos (by simp [Signal.concerns]), hbefore]
      rw [hafter] at ih
      exact .entered ih
    · have hsame : (c.insert other).contains id = c.contains id := by
        rw [Bool.eq_iff_iff]
        simp [Ne.symm hother]
      rw [List.filter_cons_of_neg (by simp [Signal.concerns, hother]), ← hsame]
      exact ih
  | @exited c c' other signals hin _ ih =>
    by_cases hother : other = id
    · subst hother
      have hbefore : c.contains other = true := Configuration.contains_iff.2 hin
      have hafter : (c.erase other).contains other = false := by simp
      rw [List.filter_cons_of_pos (by simp [Signal.concerns]), hbefore]
      rw [hafter] at ih
      exact .exited ih
    · have hsame : (c.erase other).contains id = c.contains id := by
        rw [Bool.eq_iff_iff]
        simp [Ne.symm hother]
      rw [List.filter_cons_of_neg (by simp [Signal.concerns, hother]), ← hsame]
      exact ih
  | logged message _ ih =>
    rw [List.filter_cons_of_neg (by simp [Signal.concerns])]
    exact ih

end Tree

theorem Run.callsOf_eq (run : Run C) (id : StateId) :
    run.callsOf id = run.signals.reverse.filter (·.concerns id) := by
  rw [callsOf, calls, List.filter_filter]
  refine List.filter_congr fun x _ => ?_
  cases x <;> simp [Signal.concerns, Signal.isMessage]

namespace Engine

/-- A run from the start has signalled how it came to its configuration. -/
theorem Reachable.lifecycle {e : Engine C} (h : e.tree.WellFormed) {context : C}
    {events : List Event} (hr : e.Reachable context events run) :
    e.tree.Lifecycle .empty run.signals.reverse run.configuration := by
  have hrecorded : e.tree.Recorded (.new context) run := by
    refine hr.preserves (P := fun _ run => e.tree.Recorded (.new context) run)
      (fun _ hrun => hrun) ?_ ?_ (.refl _)
    · intro events run event report run' hrun hp
      have hstep := Tree.process_recorded h event run
      rw [hp] at hstep
      exact hrun.trans hstep
    · intro events run event err run' hrun hp
      rw [Tree.process_refused h hp]
      exact hrun
  obtain ⟨signals, hs, hl⟩ := hrecorded
  have hall : run.signals.reverse = signals := by
    rw [hs, List.reverse_append, List.reverse_reverse]
    rfl
  rw [hall]
  exact hl

/-- The microsteps that a drain reports lead from the configuration before it to the configuration
after it, and the states are told of exactly these entries and exits, in their order. In a whole run
the entries and exits of a state take turns, and it is active if the last of them was an entry. -/
theorem trace_faithful {d : NodeDef C} {t : Tree C} (hb : Tree.build d = .ok t) {limits : Limits}
    {context : C} {events : List Event} (hr : Reachable ⟨t, limits⟩ context events run) :
    (∀ report run', Engine.drain ⟨t, limits⟩ run = (.ok report, run') →
      Replays run.configuration report.microsteps run'.configuration ∧
        run'.calls = run.calls ++ report.microsteps.flatMap Microstep.calls) ∧
    ∀ id, TakesTurns id false (run.callsOf id) (run.configuration.contains id) ∧
      (id ∈ run.configuration ↔ (run.callsOf id).getLast? = some (.entered id)) := by
  have h : (⟨t, limits⟩ : Engine C).tree.WellFormed := Tree.build_wellFormed hb
  refine ⟨fun report run' hd => ?_, fun id => ?_⟩
  · obtain ⟨rounds, hdrain⟩ := drain_rounds ⟨t, limits⟩ run
    rw [hd] at hdrain
    have htraced := hdrain.traced h
    rw [← hdrain.report_microsteps] at htraced
    exact ⟨htraced.replays, htraced.calls⟩
  · have hturns : TakesTurns id false (run.callsOf id) (run.configuration.contains id) := by
      rw [Run.callsOf_eq]
      exact (hr.lifecycle h).takesTurns id
    refine ⟨hturns, ?_⟩
    rw [← Configuration.contains_iff, hturns.last]
    cases (run.callsOf id).getLast? <;> simp

end Engine

/-- The started chart with two regions whose transitions cross, and their event waiting. -/
def crossingStarted : Run Nat :=
  { (crossingTree.process .start (.new 0)).2 with queue := ⟨[], [], [.named "swap" .null]⟩ }

/-- Both regions are left, only one is entered on the way to the target, and the other with the
first stabilization step. -/
theorem crossing_traced :
    Tree.build crossing = .ok crossingTree ∧
      Engine.Reachable ⟨crossingTree, {}⟩ 0 [.start] crossingStarted ∧
      ∃ report rested, Engine.drain ⟨crossingTree, {}⟩ crossingStarted = (.ok report, rested) ∧
        report.microsteps.map Microstep.exited =
          [[⟨["m", "l", "a"]⟩, ⟨["m", "l"]⟩, ⟨["m", "r", "x"]⟩, ⟨["m", "r"]⟩], [], []] ∧
        Replays crossingStarted.configuration report.microsteps rested.configuration ∧
        rested.calls =
          crossingStarted.calls ++ report.microsteps.flatMap Microstep.calls ∧
        TakesTurns ⟨["m", "l"]⟩ false (crossingStarted.callsOf ⟨["m", "l"]⟩) true := by
  have hbuild : Tree.build crossing = .ok crossingTree := rfl
  have hr : Engine.Reachable ⟨crossingTree, {}⟩ 0 [.start] crossingStarted :=
    .queue _ (.process .new rfl)
  have hrounds : Engine.Rounds ⟨crossingTree, {}⟩ crossingStarted _
      (crossingTree.process (.named "swap" .null)
        { crossingStarted with queue := .empty }).2 := .next .none rfl rfl rfl
  have hdrain := hrounds.drain_quiescent rfl
  obtain ⟨hfaithful, hturns⟩ := Engine.trace_faithful hbuild hr
  obtain ⟨hreplays, hcalls⟩ := hfaithful _ _ hdrain
  exact ⟨hbuild, hr, _, _, hdrain, rfl, hreplays, hcalls, (hturns _).1⟩

end Statechart
