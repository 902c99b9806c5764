import Statechart.Proofs.Blocks
import Statechart.Proofs.Planning
import Statechart.Proofs.Rounds
import Statechart.Proofs.Selection

/-!
# Statechart.Proofs.RunToCompletion

Run to completion: no transition without event is left waiting while another event is taken from
the queue, or while an instance rests. What every event keeps is `Tree.Attentive`: either the trial
of such transitions is queued in the most urgent band, or there is nothing to try.

* `Tree.process_attentive`: an event that does not complete the chart.
* `Engine.resting_calm`: every run of drains that came to rest.
-/

namespace Statechart

variable {C : Type}

/-! ## The queue -/

namespace EventQueue

/-- An event is taken from a band when no more urgent band has one. -/
theorem dequeue?_eq_some {q r : EventQueue} {event : Event} {band : Priority}
    (h : q.dequeue? = some ((event, band), r)) :
    (band = .stabilization ∧ q.stabilization = event :: r.stabilization) ∨
      (band ≠ .stabilization ∧ q.stabilization = []) := by
  rcases q with ⟨_ | ⟨e, es⟩, _ | ⟨f, fs⟩, _ | ⟨g, gs⟩⟩ <;> cases h <;> simp

end EventQueue

namespace Tree

variable {t : Tree C} {run run' : Run C} {event : Event} {report : StepReport}

theorem immediate_mem_queueImmediate (q : EventQueue) :
    .immediate ∈ (queueImmediate q).stabilization := by
  simp only [queueImmediate]
  split
  · rename_i hcontains
    obtain ⟨e, he, hsame⟩ := List.contains_iff_exists_mem_beq.1 hcontains
    cases e with
    | immediate => exact he
    | _ => cases hsame
  · exact List.mem_append_right _ (List.mem_singleton_self _)

/-! ## Calm and attentive runs -/

/-- Is no transition without event enabled, apart from forbidden ones? -/
def Calm (t : Tree C) (run : Run C) : Prop :=
  ∀ s ∈ t.select run.configuration run.context .immediate, s.transition.isForbidden = true

/-- Will transitions without event be tried next, unless there is nothing to try? -/
def Attentive (t : Tree C) (run : Run C) : Prop :=
  .immediate ∈ run.queue.stabilization ∨ t.Calm run

theorem Attentive.enqueue (h : t.Attentive run) (event : Event) (band : Priority) :
    t.Attentive { run with queue := run.queue.enqueue event band } := by
  rcases h with hwaits | hcalm
  · exact .inl ((EventQueue.mem_band_enqueue (p := .stabilization)).2 (.inl hwaits))
  · exact .inr hcalm

/-- When an event is taken from the queue, either it is the trial of transitions without event, or
the run stays attentive. There is nothing to try unless it comes from the most urgent band. -/
theorem Attentive.dequeue (h : t.Attentive run) {band : Priority} {queue : EventQueue}
    (hq : run.queue.dequeue? = some ((event, band), queue)) :
    (event = .immediate ∨ t.Attentive { run with queue }) ∧
      (band ≠ .stabilization → t.Calm run) := by
  rcases EventQueue.dequeue?_eq_some hq with ⟨rfl, hhead⟩ | ⟨hband, hempty⟩
  · refine ⟨?_, fun hne => absurd rfl hne⟩
    rcases h with hwaits | hcalm
    · rw [hhead] at hwaits
      rcases List.mem_cons.1 hwaits with rfl | hwaits
      · exact .inl rfl
      · exact .inr (.inl hwaits)
    · exact .inr (.inr hcalm)
  · have hcalm : t.Calm run := by
      rcases h with hwaits | hcalm
      · rw [hempty] at hwaits
        cases hwaits
      · exact hcalm
    exact ⟨.inr (.inr hcalm), fun _ => hcalm⟩

theorem calm_of_not_hasEventless (h : t.hasEventless run.configuration = false) :
    t.Calm run := by
  intro s hs
  exfalso
  obtain ⟨n, hn, hfirst⟩ := mem_selectBy hs
  obtain ⟨-, htr, henabled⟩ := Node.firstBy_eq_some hfirst
  have hlistens : s.transition.event = .immediate := by
    have haccepts := (Bool.and_eq_true _ _ ▸ henabled).1
    cases he : s.transition.event with
    | immediate => rfl
    | _ => rw [he] at haccepts; cases haccepts
  have hhas : t.hasEventless run.configuration = true :=
    List.any_eq_true.2 ⟨n, hn, List.any_eq_true.2 ⟨_, htr, by simp [hlistens]⟩⟩
  rw [h] at hhas
  cases hhas

/-! ## Events -/

/-- Selected transitions that lead to no microstep are forbidden, or their source is inactive. -/
theorem takeAll_nil {selected : List (Selected C)}
    (h : t.takeAll event selected run = (.ok [], run')) :
    ∀ s ∈ selected, s.ref.source ∈ run.configuration → s.transition.isForbidden = true := by
  induction selected with
  | nil => intro s hs; cases hs
  | cons s rest ih =>
    unfold takeAll at h
    split at h
    · rename_i hskip
      intro s' hs' hactive
      rcases List.mem_cons.1 hs' with rfl | hs'
      · rw [Configuration.contains_iff.2 hactive] at hskip
        simpa using hskip
      · exact ih h s' hs' hactive
    · split at h
      · cases h
      · rename_i ms run₁ htake
        split at h
        · simp only [Prod.mk.injEq, Except.ok.injEq, List.append_eq_nil_iff] at h
          exact absurd h.1.1 (take_ne_nil htake)
        · cases h

/-- If the trial of transitions without event leads to no microstep, there was nothing to try. -/
theorem process_immediate_calm (hp : t.process .immediate run = (.ok report, run'))
    (hidle : report.microsteps = []) : t.Calm run := by
  intro s hs
  have hactive := (mem_select hs).2.1
  have hinit := Configuration.isInitialized_iff.2 ⟨_, hactive⟩
  simp only [process, hinit] at hp
  simp only [Bool.not_true, Bool.false_eq_true, if_false] at hp
  split at hp
  · cases hp
  · rename_i taken run₁ htake
    cases hp
    simp only [settle, List.append_eq_nil_iff] at hidle
    rw [hidle.1] at htake
    exact takeAll_nil htake s hs hactive

/-- What follows an event with microsteps leaves the run attentive, unless the chart is complete. -/
theorem settle_attentive (data : Json) (handled : Bool) (taken : List Microstep) (run : Run C)
    (hgo : (t.settle data handled taken run).1.completed = false)
    (hsteps : (t.settle data handled taken run).1.microsteps ≠ []) :
    t.Attentive (t.settle data handled taken run).2 := by
  cases hhas : t.hasEventless (t.settle data handled taken run).2.configuration with
  | false => exact .inr (calm_of_not_hasEventless hhas)
  | true =>
    refine .inl ?_
    simp only [settle] at hgo hsteps hhas ⊢
    rw [hgo, hhas, if_pos (by simpa using hsteps)]
    exact immediate_mem_queueImmediate _

/-- An event that leads to microsteps ends with `settle`. -/
theorem process_settles (hp : t.process event run = (.ok report, run'))
    (hsteps : report.microsteps ≠ []) :
    ∃ data handled taken mid, t.settle data handled taken mid = (report, run') := by
  unfold process at hp
  split at hp
  · split at hp
    · cases hp
      exact absurd rfl hsteps
    · cases hp
      exact ⟨_, _, _, _, rfl⟩
  · split at hp
    · cases hp
    · simp only at hp
      split at hp
      · cases hp
      · cases hp
        exact ⟨_, _, _, _, rfl⟩

/-- An event that does not complete the chart leaves the run attentive. -/
theorem process_attentive (ha : event = .immediate ∨ t.Attentive run)
    (hp : t.process event run = (.ok report, run')) (hgo : report.completed = false) :
    t.Attentive run' := by
  by_cases hidle : report.microsteps = []
  · rw [process_idle hp hidle]
    rcases ha with rfl | ha
    · exact .inr (process_immediate_calm hp hidle)
    · exact ha
  · obtain ⟨data, handled, taken, mid, hsettle⟩ := process_settles hp hidle
    have hattentive := settle_attentive (t := t) data handled taken mid
    rw [hsettle] at hattentive
    exact hattentive hgo hidle

end Tree

/-! ## Drains -/

namespace Engine

variable {e : Engine C} {context : C} {run run' : Run C} {past : List Round}

theorem Rounds.attentive (hrounds : e.Rounds run past run') (ha : e.tree.Attentive run) :
    e.tree.Attentive run' := by
  induction hrounds with
  | none => exact ha
  | next _ hq hp hgo ih =>
    exact Tree.process_attentive (ih.dequeue hq).1 hp (stop?_eq_none.1 hgo).2.1

/-- A drain that comes to rest leaves the run attentive, and no event waiting. -/
theorem drain_attentive {report : DrainReport} (ha : e.tree.Attentive run)
    (hd : e.drain run = (.ok report, run')) (hrest : report.outcome = .quiescent) :
    e.tree.Attentive run' ∧ run'.queue = .empty := by
  obtain ⟨past, hrounds, hq⟩ := drain_rest hd hrest
  exact ⟨hrounds.attentive ha, hq⟩

/-- The runs that drains lead to that all came to rest. Between the drains, any events may be put
into any bands of the queue. -/
inductive Resting (e : Engine C) (context : C) : Run C → Prop where
  | new : Resting e context (.new context)
  | enqueue {run : Run C} (event : Event) (band : Priority) :
      Resting e context run →
      Resting e context { run with queue := run.queue.enqueue event band }
  | drain {run run' : Run C} {report : DrainReport} :
      Resting e context run → e.drain run = (.ok report, run') → report.outcome = .quiescent →
      Resting e context run'

theorem Resting.attentive (hr : e.Resting context run) : e.tree.Attentive run := by
  induction hr with
  | new =>
    refine .inr fun s hs => ?_
    exact absurd (Tree.mem_select hs).2.1 (Configuration.not_mem_empty _)
  | enqueue event band _ ih => exact ih.enqueue event band
  | drain _ hd hrest ih => exact (drain_attentive ih hd hrest).1

/-- No transition without event is enabled when the next drain takes an event from another band
than the most urgent one, nor when it comes to rest. -/
theorem resting_calm (hr : e.Resting context run) :
    (∀ past mid event band queue, e.Rounds run past mid →
      mid.queue.dequeue? = some ((event, band), queue) → band ≠ .stabilization →
      ∀ s ∈ e.tree.select mid.configuration mid.context .immediate,
        s.transition.isForbidden = true) ∧
    (∀ report run', e.drain run = (.ok report, run') → report.outcome = .quiescent →
      ∀ s ∈ e.tree.select run'.configuration run'.context .immediate,
        s.transition.isForbidden = true) := by
  refine ⟨?_, ?_⟩
  · intro past mid event band queue hrounds hq hband
    exact ((hrounds.attentive hr.attentive).dequeue hq).2 hband
  · intro report run' hd hrest
    obtain ⟨ha, hq⟩ := drain_attentive hr.attentive hd hrest
    rcases ha with hwaits | hcalm
    · rw [hq] at hwaits
      cases hwaits
    · exact hcalm

end Engine

/-! A counter: each tick changes only the context, and at the second the eventless transition
fires. -/

def counting : Engine Nat where
  tree := {
    root := ⟨⟨["m"]⟩, .compound [⟨["m", "a"]⟩, ⟨["m", "b"]⟩] ⟨["m", "a"]⟩ [], [], [], [], []⟩
    rest := [
      ⟨⟨["m", "a"]⟩, .atomic, [], [], [
        .taken (.named "tick") none [] [.assign fun n _ => .ok (n + 1)],
        .taken .immediate (some (.context fun n => 2 ≤ n)) [⟨["m", "b"]⟩] []], []⟩,
      ⟨⟨["m", "b"]⟩, .atomic, [], [], [], []⟩] }

/-- The run in the first state. -/
def countingAt (ticks : Nat) (queue : EventQueue) : Run Nat where
  context := ticks
  queue
  signals := [.entered ⟨["m", "a"]⟩, .entered ⟨["m"]⟩]
  configuration := .ofList [⟨["m"]⟩, ⟨["m", "a"]⟩]

/-- No transition is enabled when the second tick is taken from the queue, nor at rest. -/
theorem counting_calm :
    ∃ resting past mid rested report, counting.Resting 0 resting ∧
      counting.Rounds resting past mid ∧
      mid.queue.dequeue? = some ((.named "tick" .null, .nextMacrostep), .empty) ∧
      (∀ s ∈ counting.tree.select mid.configuration mid.context .immediate,
        s.transition.isForbidden = true) ∧
      counting.drain resting = (.ok report, rested) ∧ report.outcome = .quiescent ∧
      rested.configuration.ids = [⟨["m"]⟩, ⟨["m", "b"]⟩] ∧
      ∀ s ∈ counting.tree.select rested.configuration rested.context .immediate,
        s.transition.isForbidden = true := by
  let tick : Event := .named "tick" .null
  have hentered : counting.Rounds { Run.new 0 with queue := ⟨[], [], [.start]⟩ } _
      (countingAt 0 ⟨[.immediate], [], []⟩) := .next .none rfl rfl rfl
  have hstarted : counting.Rounds { Run.new 0 with queue := ⟨[], [], [.start]⟩ } _
      (countingAt 0 .empty) := hentered.next rfl rfl rfl
  have hresting : counting.Resting 0 (countingAt 0 ⟨[], [], [tick, tick]⟩) :=
    (((Engine.Resting.new.enqueue .start .nextMacrostep).drain (hstarted.drain_quiescent rfl)
      rfl).enqueue tick .nextMacrostep).enqueue tick .nextMacrostep
  -- The first tick is tried in vain, the second leads on.
  have hfirst : counting.Rounds (countingAt 0 ⟨[], [], [tick, tick]⟩) _
      (countingAt 1 ⟨[.immediate], [], [tick]⟩) := .next .none rfl rfl rfl
  have htried : counting.Rounds (countingAt 0 ⟨[], [], [tick, tick]⟩) _
      (countingAt 1 ⟨[], [], [tick]⟩) := hfirst.next rfl rfl rfl
  have hsecond : counting.Rounds (countingAt 0 ⟨[], [], [tick, tick]⟩) _
      (countingAt 2 ⟨[.immediate], [], []⟩) := htried.next rfl rfl rfl
  have hdrain := (hsecond.next rfl rfl rfl).drain_quiescent rfl
  obtain ⟨hmid, hrest⟩ := Engine.resting_calm hresting
  exact ⟨_, _, _, _, _, hresting, htried, rfl, hmid _ _ _ _ _ htried rfl (by decide), hdrain, rfl,
    rfl, hrest _ _ hdrain rfl⟩

end Statechart
