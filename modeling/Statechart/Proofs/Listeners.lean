import Statechart.Proofs.Microsteps
import Statechart.Proofs.Rounds

/-!
# Statechart.Proofs.Listeners

Those who listen to a run do not influence it. A run keeps the signals that it gives, and never
looks at them: with other signals behind it, it goes the same way and adds the same signals.

* `Run.after`: a run with earlier signals.
* `Tree.process_after`, `Engine.drain_after`: events and drains commute with it.
-/

namespace Statechart

variable {C : Type}

/-- The store as if `past` had been signalled before. -/
def Store.after (past : List Signal) (s : Store C) : Store C :=
  { s with signals := s.signals ++ past }

/-- The run as if `past` had been signalled before. -/
def Run.after (past : List Signal) (run : Run C) : Run C :=
  { run with signals := run.signals ++ past }

theorem accept_after (past : List Signal) (s : Store C) (p : Performed C) :
    (s.after past).accept p = (s.accept p).after past := by
  obtain ⟨context, emitted, logged⟩ := p
  cases emitted <;> cases logged <;> rfl

theorem runBlock_after (origin : String) (data : Json) (past : List Signal)
    (actions : List (Action C)) (s : Store C) :
    runBlock origin data actions (s.after past) =
      Prod.map id (Store.after past) (runBlock origin data actions s) := by
  induction actions generalizing s with
  | nil => rfl
  | cons a rest ih =>
    have hcontext : (s.after past).context = s.context := rfl
    simp only [runBlock, hcontext]
    cases a.perform s.context data with
    | error e => rfl
    | ok p =>
      simp only [accept_after, ih]
      rfl

@[simp] theorem Run.after_toStore (past : List Signal) (run : Run C) :
    (run.after past).toStore = run.toStore.after past := rfl

@[simp] theorem Run.after_configuration (past : List Signal) (run : Run C) :
    (run.after past).configuration = run.configuration := rfl

@[simp] theorem Run.after_context (past : List Signal) (run : Run C) :
    (run.after past).context = run.context := rfl

@[simp] theorem Run.after_queue (past : List Signal) (run : Run C) :
    (run.after past).queue = run.queue := rfl

namespace Tree

variable {t : Tree C}

/-! ## Events -/

theorem leave_after (data : Json) (past : List Signal) (run : Run C) (id : StateId) :
    t.leave data (run.after past) id = (t.leave data run id).after past := by
  simp only [leave, Run.after_toStore, runBlock_after]
  rfl

theorem enter_after (data : Json) (past : List Signal) (run : Run C) (id : StateId) :
    t.enter data (run.after past) id = (t.enter data run id).after past := by
  simp only [enter, Run.after_toStore, runBlock_after]
  rfl

theorem apply_after (p : Plan) (actions : List (Action C)) (cause : Cause) (past : List Signal)
    (run : Run C) :
    t.apply p actions cause (run.after past) =
      Prod.map id (Run.after past) (t.apply p actions cause run) := by
  have hleft : p.exited.foldl (t.leave cause.data) (run.after past) =
      (p.exited.foldl (t.leave cause.data) run).after past :=
    List.foldl_hom (Run.after past) fun run id => leave_after cause.data past run id
  have hacted : ∀ (left : Run C),
      ({ left.after past with
        configuration := (left.after past).configuration.eraseAll p.exited
        toStore := (runBlock cause.origin cause.data actions (left.after past).toStore).2 } :
          Run C) =
      Run.after past { left with
        configuration := left.configuration.eraseAll p.exited
        toStore := (runBlock cause.origin cause.data actions left.toStore).2 } := by
    intro left
    simp only [Run.after_toStore, runBlock_after]
    rfl
  have hentered : ∀ acted : Run C, p.entered.foldl (t.enter cause.data) (acted.after past) =
      (p.entered.foldl (t.enter cause.data) acted).after past :=
    fun acted => List.foldl_hom (Run.after past) fun run id => enter_after cause.data past run id
  simp only [apply, hleft, hacted, hentered]
  rfl

theorem stabilizeFor_after (data : Json) (fuel : Nat) (past : List Signal) (run : Run C) :
    t.stabilizeFor data fuel (run.after past) =
      Prod.map id (Run.after past) (t.stabilizeFor data fuel run) := by
  induction fuel generalizing run with
  | zero => rfl
  | succ fuel ih =>
    simp only [stabilizeFor, Run.after_configuration]
    cases t.planStabilization run.configuration with
    | none => rfl
    | some np =>
      simp only [apply_after, Prod.map_snd, ih]
      rfl

theorem takeTo_after (source : StateId) (cause : Cause) (actions : List (Action C))
    (targets : List StateId) (past : List Signal) (run : Run C) :
    t.takeTo source cause actions targets (run.after past) =
      Prod.map id (Run.after past) (t.takeTo source cause actions targets run) := by
  induction targets generalizing run actions with
  | nil => rfl
  | cons target rest ih =>
    simp only [takeTo_cons, Run.after_configuration]
    cases t.plan run.configuration source target with
    | error e => rfl
    | ok p =>
      simp only [apply_after, Prod.map_snd, ih]
      rfl

theorem take_after (event : Event) (s : Selected C) (past : List Signal) (run : Run C) :
    t.take event s (run.after past) = Prod.map id (Run.after past) (t.take event s run) := by
  simp only [take]
  split
  · rw [apply_after]
    rfl
  · exact takeTo_after _ _ _ _ _ _

theorem takeAll_after (event : Event) (selected : List (Selected C)) (past : List Signal)
    (run : Run C) :
    t.takeAll event selected (run.after past) =
      Prod.map id (Run.after past) (t.takeAll event selected run) := by
  induction selected generalizing run with
  | nil => rfl
  | cons s rest ih =>
    rw [takeAll_cons, takeAll_cons, Run.after_configuration, take_after]
    split
    · exact ih run
    · obtain ⟨_ | ms, mid⟩ := t.take event s run
      · rfl
      · simp only [Prod.map_apply, id_eq, ih]
        rfl

theorem settle_after (data : Json) (handled : Bool) (taken : List Microstep) (past : List Signal)
    (run : Run C) :
    t.settle data handled taken (run.after past) =
      Prod.map id (Run.after past) (t.settle data handled taken run) := by
  simp only [settle, stabilize, stabilizeFor_after]
  rfl

theorem process_after (event : Event) (past : List Signal) (run : Run C) :
    t.process event (run.after past) =
      Prod.map id (Run.after past) (t.process event run) := by
  by_cases he : event = .start
  · subst he
    rw [process, process, Run.after_configuration]
    split
    · rfl
    · simp only [apply_after, Prod.map_snd, Prod.map_fst, settle_after]
      rfl
  · rw [process_eq he, process_eq he, Run.after_configuration, Run.after_context, takeAll_after]
    split
    · obtain ⟨_ | taken, mid⟩ :=
        t.takeAll event (t.select run.configuration run.context event) run
      · rfl
      · simp only [Prod.map_apply, id_eq, settle_after]
        rfl
    · rfl

end Tree

namespace Engine

/-! ## Drains -/

theorem drainFrom_after (e : Engine C) (applied : List Microstep) (count processed : Nat)
    (past : List Signal) (run : Run C) :
    e.drainFrom applied count processed (run.after past) =
      Prod.map id (Run.after past) (e.drainFrom applied count processed run) := by
  have hqueue : ∀ (run : Run C) (queue : EventQueue),
      ({ run.after past with queue } : Run C) = Run.after past { run with queue } :=
    fun _ _ => rfl
  induction applied, count, processed, run using drainFrom.induct e with
  | case1 applied count processed run hq =>
    rw [drainFrom_eq, drainFrom_eq, Run.after_queue, hq]
    rfl
  | case2 applied count processed run event band queue hq err run' hp =>
    rw [drainFrom_eq, drainFrom_eq, Run.after_queue, hq]
    simp only [hqueue, Tree.process_after, hp]
    rfl
  | case3 applied count processed run event band queue hq report run' hp count' hs
  | case4 applied count processed run event band queue hq report run' hp count' hs
  | case5 applied count processed run event band queue hq report run' hp count' fault hs =>
    simp only [count'] at hs
    rw [drainFrom_eq, drainFrom_eq, Run.after_queue, hq]
    simp only [hqueue, Tree.process_after, hp, Prod.map_apply, id_eq, hs]
    rfl
  | case6 applied count processed run event band queue hq report run' hp applied' count' hs ih =>
    simp only [count'] at hs
    rw [drainFrom_eq, drainFrom_eq, Run.after_queue, hq]
    simp only [hqueue, Tree.process_after, hp, Prod.map_apply, id_eq, hs]
    exact ih

/-- With other signals behind it, a drain goes the same way and adds the same signals. -/
theorem drain_after (e : Engine C) (past : List Signal) (run : Run C) :
    e.drain (run.after past) = Prod.map id (Run.after past) (e.drain run) :=
  drainFrom_after e [] 0 0 past run

end Engine

end Statechart
