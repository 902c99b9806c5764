import Statechart.Proofs.Accounting
import Statechart.Proofs.Precedence
import Statechart.Proofs.Preemption

/-!
# Statechart.Proofs.Ignoring

Events that a settled chart ignores. A forbidden transition is selected like any other, and so hides
the event from the states above it, but nothing is done for it.

* `Tree.takeAll_forbidden`, `Tree.takeAllBlocks_forbidden`: forbidden transitions do nothing.
* `Tree.forbidden_of_takeAll`: the first transition that is not forbidden is taken, since those
  before it have left no state.
* `Tree.process_ignores`: an event has no microsteps exactly if only forbidden transitions are
  selected, and then it leaves no mark.
-/

namespace Statechart

variable {C : Type}

namespace Tree

variable {t : Tree C} {run run' : Run C} {event : Event} {selected : List (Selected C)}

theorem takeAll_forbidden (hall : ∀ s ∈ selected, s.transition.isForbidden = true) :
    t.takeAll event selected run = (.ok [], run) := by
  induction selected with
  | nil => rfl
  | cons s rest ih =>
    obtain ⟨hs, hrest⟩ := List.forall_mem_cons.1 hall
    rw [takeAll_cons, hs, Bool.true_or, if_pos rfl, ih hrest]

theorem takeAllBlocks_forbidden (hall : ∀ s ∈ selected, s.transition.isForbidden = true) :
    t.takeAllBlocks event selected run = [] := by
  induction selected with
  | nil => rfl
  | cons s rest ih =>
    obtain ⟨hs, hrest⟩ := List.forall_mem_cons.1 hall
    rw [takeAllBlocks, hs, Bool.true_or, if_pos rfl, ih hrest]

/-- Transitions of active states that do nothing are forbidden. -/
theorem forbidden_of_takeAll (h : t.WellFormed) (hoffers : ∀ s ∈ selected, t.Offers s)
    (hactive : ∀ s ∈ selected, s.ref.source ∈ run.configuration)
    (htake : t.takeAll event selected run = (.ok [], run')) :
    ∀ s ∈ selected, s.transition.isForbidden = true := by
  induction selected with
  | nil => exact fun s hs => by cases hs
  | cons s rest ih =>
    obtain ⟨hs, hrest⟩ := List.forall_mem_cons.1 hoffers
    obtain ⟨hsource, hsources⟩ := List.forall_mem_cons.1 hactive
    obtain ⟨own, later, last, hturn, -, -, htaken⟩ := takeAll_turn h event hs hrest run
    have hnone : own ++ later = [] := Except.ok.inj (congrArg Prod.fst (hturn.symm.trans htake))
    -- The state is active at its turn, so the transition has microsteps unless it is forbidden.
    have hforbidden : s.transition.isForbidden = true := by
      by_contra hallowed
      exact htaken.2 ⟨by simpa using hallowed, hsource⟩ (List.append_eq_nil_iff.1 hnone).1
    rw [takeAll_cons, hforbidden, Bool.true_or, if_pos rfl] at htake
    exact List.forall_mem_cons.2 ⟨hforbidden, ih hrest hsources htake⟩

theorem stabilizeBlocks_settled (data : Json) (hc : t.unstable run.configuration = []) :
    t.stabilizeBlocks data run = [] := by
  rw [stabilizeBlocks]
  cases t.size with
  | zero => rfl
  | succ fuel => rw [stabilizeBlocksFor, planStabilization_eq_none.2 hc]

/-- A settled chart processes every event but the start, and reports no microsteps exactly if every
selected transition is forbidden, or none is selected. Such an event leaves no mark: the state of
the run is what it was, the waiting events and the calls of the listeners included, and no action is
carried out. -/
theorem process_ignores {d : NodeDef C} (hb : Tree.build d = .ok t) (he : event ≠ .start)
    (hc : t.Settled run.configuration) :
    ∃ report run', t.process event run = (.ok report, run') ∧
      report.handled = !(t.select run.configuration run.context event).isEmpty ∧
      (report.microsteps = [] ↔ ∀ s ∈ t.select run.configuration run.context event,
        s.transition.isForbidden = true) ∧
      (report.microsteps = [] →
        run' = run ∧ report.completed = false ∧ t.processBlocks event run = []) := by
  have h := build_wellFormed hb
  obtain ⟨hinit, hstable⟩ := hc
  let selected := t.select run.configuration run.context event
  have hoffers : ∀ s ∈ selected, t.Offers s := fun s hs => (mem_select hs).1
  have hactive : ∀ s ∈ selected, s.ref.source ∈ run.configuration :=
    fun s hs => (mem_select hs).2.1
  obtain ⟨taken, mid, htake, -⟩ := takeAll_steps h event hoffers run
  have hp := process_eq (t := t) he run
  rw [if_pos hinit, htake] at hp
  have hidle : (t.settle event.data (!selected.isEmpty) taken mid).1.microsteps = [] ↔
      ∀ s ∈ selected, s.transition.isForbidden = true := by
    constructor
    · intro hnone
      have htaken : taken = [] := (List.append_eq_nil_iff.1 hnone).1
      exact forbidden_of_takeAll h hoffers hactive (htaken ▸ htake)
    · intro hall
      rw [takeAll_forbidden hall] at htake
      cases htake
      simp [settle, stabilize_settled event.data hstable]
  refine ⟨_, _, hp, rfl, hidle, fun hnone => ⟨process_idle hp hnone, ?_, ?_⟩⟩
  · simp only [settle] at hnone ⊢
    rw [hnone]
    rfl
  · have hall := hidle.1 hnone
    rw [processBlocks_eq he, if_pos hinit, takeAllBlocks_forbidden hall, takeAll_forbidden hall]
    exact stabilizeBlocks_settled event.data hstable

end Tree

def nestingStarted : Run Nat :=
  (nestingTree.process .start (.new 0)).2

/-- The root and a state next to the active ones listen for the event, but the state between
swallows it. -/
theorem nesting_ignored :
    Tree.build nesting = .ok nestingTree ∧ nestingTree.Settled nestingStarted.configuration ∧
      nestingTree.root.transitions.map Transition.event = [.named "go"] ∧
      (nestingTree.select nestingStarted.configuration nestingStarted.context
        (.named "go" .null)).map (·.ref) = [⟨⟨["m", "outer"]⟩, 1⟩] ∧
      ∃ report, nestingTree.process (.named "go" .null) nestingStarted =
          (.ok report, nestingStarted) ∧
        report.handled = true ∧ report.microsteps = [] ∧ report.completed = false ∧
        nestingTree.processBlocks (.named "go" .null) nestingStarted = [] := by
  have hbuild : Tree.build nesting = .ok nestingTree := rfl
  have hsettled : nestingTree.Settled nestingStarted.configuration := ⟨rfl, rfl⟩
  have hselect : nestingTree.select nestingStarted.configuration nestingStarted.context
      (.named "go" .null) = [⟨⟨⟨["m", "outer"]⟩, 1⟩, .forbidden (.named "go")⟩] := rfl
  have hnamed : Event.named "go" .null ≠ .start := nofun
  obtain ⟨report, run', hp, hhandled, hiff, hmark⟩ :=
    Tree.process_ignores hbuild hnamed hsettled
  rw [hselect] at hhandled hiff
  have hnone := hiff.2 (List.forall_mem_singleton.2 rfl)
  obtain ⟨rfl, hcompleted, hblocks⟩ := hmark hnone
  exact ⟨hbuild, hsettled, rfl, congrArg (List.map (·.ref)) hselect, report, hp, hhandled, hnone,
    hcompleted, hblocks⟩

end Statechart
