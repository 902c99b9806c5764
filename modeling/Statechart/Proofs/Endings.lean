import Mathlib.Logic.Relation
import Statechart.Proofs.Registrations

/-!
# Statechart.Proofs.Endings

How instances come to their end. The status of an instance goes forward only, the instance ends
once, and from then on nothing that is done to it changes it. Between two calls no event waits, and
an instance that has ended has no activity registered.

* `Status.Moves`: the steps of a status.
* `Instance.Quiet`: what holds between two calls of any instance.
* `Instance.ends_once`: after any calls.
-/

namespace Statechart

variable {C : Type}

/-! ## The status -/

namespace Status

inductive Moves : Status → Status → Prop where
  | started : Moves .notStarted .active
  | abandoned : Moves .notStarted (.ended .cancelled)
  | ended (termination : Termination) : Moves .active (.ended termination)

/-- A status names its outcome. -/
theorem termination?_eq_some (s : Status) :
    (s.termination? = some .completed ↔ s.text = "completed") ∧
      (s.termination? = some .cancelled ↔ s.text = "cancelled") ∧
      ((∃ fault, s.termination? = some (.faulted fault)) ↔ s.text = "errored") := by
  cases s with
  | notStarted => simp [termination?, text]
  | active => simp [termination?, text]
  | ended termination =>
    cases termination with
    | completed => simp [termination?, text]
    | cancelled => simp [termination?, text]
    | faulted fault => simp [termination?, text]

theorem termination?_eq_none {s : Status} : s.termination? = none ↔ s.isTerminal = false := by
  cases s <;> simp [termination?, isTerminal]

end Status

namespace Instance

variable {e : Engine C} {context : C} {h : History} {i j : Instance C} {call : Call}
  {termination : Termination}

theorem Opens.status {reported : List Activity} (ho : i.Opens call reported j) :
    j.status = .active ∧ Relation.ReflTransGen Status.Moves i.status .active := by
  cases ho with
  | start hs _ =>
    rw [hs]
    exact ⟨rfl, .single .started⟩
  | send event hs =>
    rw [hs]
    exact ⟨hs, .refl⟩
  | deliver r ha =>
    rw [ha.1]
    exact ⟨ha.1, .refl⟩

/-- An instance that has an event processed has no outcome yet. -/
theorem Opens.outcome (ho : i.Opens call reported j) :
    j.outcome = i.outcome ∧ i.status.termination? = none := by
  cases ho with
  | start hs _ => exact ⟨rfl, by rw [hs]; rfl⟩
  | send event hs => exact ⟨rfl, by rw [hs]; rfl⟩
  | deliver r ha => exact ⟨rfl, by rw [ha.1]; rfl⟩

theorem drain_moves (hs : j.status = .active) :
    Relation.ReflTransGen Status.Moves .active j.drain.2.status := by
  rcases j.drain_cases with ⟨hd, -⟩ | ⟨termination, hd⟩
  · have hadopt : (j.adopt (j.engine.drain j.run).2).status = .active := hs
    rw [hd, hadopt]
  · rw [hd]
    exact .single (.ended termination)

theorem finish_moves (hs : i.status.isTerminal = false) :
    Relation.ReflTransGen Status.Moves i.status (i.finish .cancelled).status := by
  cases hi : i.status with
  | notStarted => exact .single .abandoned
  | active => exact .single (.ended .cancelled)
  | ended termination =>
    rw [hi] at hs
    cases hs

/-! ## Instances that have ended -/

/-- Nothing disturbs an instance that has ended. -/
theorem perform_of_ended (hs : i.status = .ended termination) (call : Call) :
    i.Undisturbed (i.perform call) := by
  cases call with
  | start => exact .of_eq (by simp only [perform, start, hs])
  | startUnhosted => exact .refl i
  | send event => exact .of_eq (by simp only [perform, send, hs])
  | deliver r =>
    refine .of_eq (deliver_of_not_accepts fun ha => ?_)
    cases hs.symm.trans ha.1
  | cancel =>
    have hterminal : i.requestCancel.status.isTerminal = true := by
      simp only [requestCancel, hs]
      rfl
    simp only [perform, cancel, cancelNow, if_pos hterminal]
    exact .passing i _ _ _
  | requestCancel => exact .passing i _ _ _
  | heedCancel =>
    refine .of_eq ?_
    simp only [perform, heedCancel, hs]
    have hnot : (Status.ended termination == Status.active) = false := by simp
    simp [hnot]
  | collect => exact .passing i _ _ _
  | moveTo time => exact .passing i _ _ _

theorem performAll_of_ended (hs : i.status = .ended termination) (calls : List Call) :
    i.Undisturbed (i.performAll calls) := by
  induction calls generalizing i with
  | nil => exact .refl i
  | cons call rest ih =>
    have hu := perform_of_ended hs call
    exact hu.trans (ih (hu.status.trans hs))

/-- A call moves the status forward, if at all. -/
theorem perform_moves (i : Instance C) (call : Call) :
    Relation.ReflTransGen Status.Moves i.status (i.perform call).status := by
  by_cases ho : ∃ reported j, i.Opens call reported j
  · obtain ⟨reported, j, ho⟩ := ho
    rw [ho.perform]
    exact ho.status.2.trans (drain_moves ho.status.1)
  · cases hs : i.status.isTerminal with
    | true =>
      cases hi : i.status with
      | notStarted => rw [hi] at hs; cases hs
      | active => rw [hi] at hs; cases hs
      | ended termination => rw [(perform_of_ended hi call).status, hi]
    | false =>
      rcases perform_of_not_opens fun reported j hopens => ho ⟨reported, j, hopens⟩ with
        hu | ⟨i', hu, hp⟩
      · rw [hu.status]
      · rw [← hu.status] at hs ⊢
        rw [hp]
        exact finish_moves hs

/-! ## Between two calls -/

/-- No event waits, the outcome is the one that the status tells, and no activity is registered once
the instance has ended. -/
structure Quiet (i : Instance C) : Prop where
  queue : i.run.queue = .empty
  outcome : i.outcome = i.status.termination?
  released : ∀ termination, i.status = .ended termination → i.activities.running = []

theorem quiet_finish (i : Instance C) (termination : Termination) :
    (i.finish termination).Quiet := by
  refine ⟨rfl, rfl, fun _ _ => ?_⟩
  show (i.activities.cancelBy fun _ => true).running = []
  simp [Activities.cancelBy_running]

theorem Quiet.undisturbed (hi : i.Quiet) (hu : i.Undisturbed j) : j.Quiet := by
  refine ⟨?_, ?_, fun termination hs => ?_⟩
  · rw [hu.run]
    exact hi.queue
  · rw [hu.outcome, hu.status]
    exact hi.outcome
  · rw [hu.running]
    rw [hu.status] at hs
    exact hi.released termination hs

theorem drain_quiet (hs : j.status = .active) (ho : j.outcome = none) : j.drain.2.Quiet := by
  rcases j.drain_cases with ⟨hd, hq⟩ | ⟨termination, hd⟩
  · rw [hd]
    have hadopt : (j.adopt (j.engine.drain j.run).2).status = .active := hs
    refine ⟨hq, ?_, fun termination hended => ?_⟩
    · rw [hadopt]
      exact ho
    · rw [hadopt] at hended
      cases hended
  · rw [hd]
    exact quiet_finish _ termination

theorem Reached.quiet (hr : Reached e context h i) : i.Quiet := by
  induction hr with
  | new => exact ⟨rfl, rfl, fun _ hs => Status.noConfusion hs⟩
  | opened _ ho ih =>
    obtain ⟨hsame, hnone⟩ := ho.outcome
    rw [ho.perform]
    exact drain_quiet ho.status.1 (hsame.trans (ih.outcome.trans hnone))
  | other _ ho ih =>
    rcases perform_of_not_opens ho with hu | ⟨i', hu, hp⟩
    · exact ih.undisturbed hu
    · rw [hp]
      exact quiet_finish i' .cancelled

/-- No event waits after a call, and the status only goes forward: to active or straight to
cancelled from the beginning, and from active to an end. There is an outcome exactly if the status
is terminal, and it is the one that the status names. An instance that has ended has no activity
registered, refuses to be started and to be sent events, and is not changed by anything. -/
theorem ends_once (hr : Reached e context h i) :
    i.run.queue = .empty ∧
    (∀ call, Relation.ReflTransGen Status.Moves i.status (i.perform call).status) ∧
    (i.outcome = none ↔ i.status.isTerminal = false) ∧
    ((i.outcome = some .completed ↔ i.status.text = "completed") ∧
      (i.outcome = some .cancelled ↔ i.status.text = "cancelled") ∧
      ((∃ fault, i.outcome = some (.faulted fault)) ↔ i.status.text = "errored")) ∧
    ∀ termination, i.status = .ended termination →
      i.activities.running = [] ∧
      i.start = (.error (.terminated i.status), i) ∧
      (∀ event, i.send event = (.error (.terminated i.status), i)) ∧
      ∀ calls, i.Undisturbed (i.performAll calls) := by
  have hquiet := hr.quiet
  rw [hquiet.outcome]
  refine ⟨hquiet.queue, i.perform_moves, Status.termination?_eq_none, i.status.termination?_eq_some,
    fun termination hs => ⟨hquiet.released termination hs, ?_, fun event => ?_,
      performAll_of_ended hs⟩⟩
  · simp only [start, hs]
  · simp only [send, hs]

end Instance

/-- The waiting instance after it was cancelled. -/
def waitingCancelled : Instance Nat :=
  waitingAgain.perform .cancel

/-- Both activities of the present stay are given up, and their timeout comes too late. -/
theorem waitingCancelled_ended :
    waitingCancelled.status = .ended .cancelled ∧ waitingCancelled.outcome = some .cancelled ∧
      waitingCancelled.activities.running = [] ∧
      waitingCancelled.start = (.error (.terminated (.ended .cancelled)), waitingCancelled) ∧
      waitingCancelled.Undisturbed (waitingCancelled.performAll
        [.deliver (waitingTimeout 3), .send (.named "again" .null), .cancel]) := by
  have hr : Instance.Reached ⟨waitingTree, {}⟩ 0 _ waitingCancelled :=
    .other waitingAgain_reached fun reported j hopens => by cases hopens
  obtain ⟨-, -, -, ⟨-, hcancelled, -⟩, hended⟩ := Instance.ends_once hr
  obtain ⟨hreleased, hstart, -, hcalls⟩ := hended .cancelled rfl
  exact ⟨rfl, hcancelled.2 rfl, hreleased, hstart, hcalls _⟩

end Statechart
