import Statechart.Proofs.Trace

/-!
# Statechart.Proofs.Preemption

Transitions that an event selects together may get in each other's way: taking one leaves the state
that another starts from. When its turn comes, a selected transition is taken if its state is active
again or still; that it was left in between does not count.

* `Tree.takeAll_turn`: the turn of one selected transition.
* `Tree.process_preempts`: every event. A transition whose state was left is passed over, unless an
  earlier one leads to that state or to one below it.
* `returning_taken`: one does, and the transition is taken after all.
-/

namespace Statechart

variable {C : Type}

namespace Tree

variable {t : Tree C} {run run' mid : Run C} {event : Event} {s : Selected C}
  {ms ms' : List Microstep}

/-! ## The microsteps of transitions -/

theorem takeTo_microsteps {source : StateId} {cause : Cause} {actions : List (Action C)}
    {targets : List StateId} (h : t.takeTo source cause actions targets run = (.ok ms, run')) :
    ∀ m ∈ ms, m.kind = cause.kind ∧ ∀ id ∈ m.entered, ∃ target ∈ targets, target.Within id := by
  induction targets generalizing actions run ms with
  | nil => cases h; exact fun m hm => by cases hm
  | cons target rest ih =>
    rw [takeTo_cons] at h
    cases hp : t.plan run.configuration source target with
    | error e => simp only [hp] at h; cases h
    | ok p =>
      simp only [hp] at h
      generalize hrest : t.takeTo source cause [] rest (t.apply p actions cause run).2 = result at h
      obtain ⟨_ | more, last⟩ := result
      · cases h
      · cases h
        refine List.forall_mem_cons.2 ⟨⟨rfl, fun id hid => ?_⟩, fun m hm => ?_⟩
        · exact ⟨target, List.mem_cons_self, within_of_mem_entered hp hid⟩
        · obtain ⟨hkind, hentered⟩ := ih hrest m hm
          refine ⟨hkind, fun id hid => ?_⟩
          obtain ⟨other, hother, hw⟩ := hentered id hid
          exact ⟨other, List.mem_cons_of_mem _ hother, hw⟩

/-- The microsteps of a transition bear its name, and enter its targets and states above them. -/
theorem take_microsteps (h : t.take event s run = (.ok ms, run')) :
    ∀ m ∈ ms, m.kind = .event event s.ref ∧
      ∀ id ∈ m.entered, ∃ target ∈ s.transition.targets, target.Within id := by
  simp only [take] at h
  split at h
  · cases h
    refine List.forall_mem_singleton.2 ⟨rfl, fun id hid => ?_⟩
    cases hid
  · exact takeTo_microsteps h

theorem takeAll_microsteps {selected : List (Selected C)}
    (h : t.takeAll event selected run = (.ok ms, run')) :
    ∀ m ∈ ms, ∃ s ∈ selected, m.kind = .event event s.ref ∧
      ∀ id ∈ m.entered, ∃ target ∈ s.transition.targets, target.Within id := by
  induction selected generalizing run ms run' with
  | nil => cases h; exact fun m hm => by cases hm
  | cons s rest ih =>
    have later : ∀ {run ms run'}, t.takeAll event rest run = (.ok ms, run') → ∀ m ∈ ms,
        ∃ s' ∈ s :: rest, m.kind = .event event s'.ref ∧
          ∀ id ∈ m.entered, ∃ target ∈ s'.transition.targets, target.Within id := by
      intro run ms run' h m hm
      obtain ⟨s', hs', hmicrostep⟩ := ih h m hm
      exact ⟨s', List.mem_cons_of_mem _ hs', hmicrostep⟩
    rw [takeAll_cons] at h
    split at h
    · exact later h
    · split at h
      · cases h
      · rename_i own mid htake
        generalize hrest : t.takeAll event rest mid = result at h
        obtain ⟨_ | more, last⟩ := result
        · cases h
        · cases h
          refine List.forall_mem_append.2 ⟨fun m hm => ?_, later hrest⟩
          exact ⟨s, List.mem_cons_self, take_microsteps htake m hm⟩

theorem stabilizeFor_kind {data : Json} {fuel : Nat} {run : Run C} :
    ∀ m ∈ (t.stabilizeFor data fuel run).1, m.kind = .stabilization := by
  induction fuel generalizing run with
  | zero => exact fun m hm => by cases hm
  | succ fuel ih =>
    simp only [stabilizeFor]
    split
    · exact fun m hm => by cases hm
    · exact List.forall_mem_cons.2 ⟨rfl, ih⟩

/-! ## Turns -/

theorem takeAll_append {first rest : List (Selected C)}
    (hfirst : t.takeAll event first run = (.ok ms, mid))
    (hrest : t.takeAll event rest mid = (.ok ms', run')) :
    t.takeAll event (first ++ rest) run = (.ok (ms ++ ms'), run') := by
  induction first generalizing run ms with
  | nil => cases hfirst; exact hrest
  | cons s others ih =>
    rw [List.cons_append, takeAll_cons]
    rw [takeAll_cons] at hfirst
    split at hfirst
    · rename_i hskip
      rw [if_pos hskip]
      exact ih hfirst
    · rename_i hgo
      rw [if_neg hgo]
      split at hfirst
      · cases hfirst
      · rename_i own next htake
        generalize hothers : t.takeAll event others next = result at hfirst
        obtain ⟨_ | more, last⟩ := result
        · cases hfirst
        · cases hfirst
          simp only [ih hothers, Except.map, List.append_assoc]

/-- When its turn comes, a selected transition is taken if it is not forbidden and its state is
active. -/
theorem takeAll_turn (h : t.WellFormed) (event : Event) {after : List (Selected C)}
    (hs : t.Offers s) (hafter : ∀ s' ∈ after, t.Offers s') (run : Run C) :
    ∃ own later run', t.takeAll event (s :: after) run = (.ok (own ++ later), run') ∧
      (∀ m ∈ own, m.kind = .event event s.ref) ∧
      (∀ m ∈ later, ∃ s' ∈ after, m.kind = .event event s'.ref) ∧
      (own ≠ [] ↔ s.transition.isForbidden = false ∧ s.ref.source ∈ run.configuration) := by
  have hkinds : ∀ {run later run'}, t.takeAll event after run = (.ok later, run') →
      ∀ m ∈ later, ∃ s' ∈ after, m.kind = .event event s'.ref := by
    intro run later run' hlater m hm
    obtain ⟨s', hs', hkind, -⟩ := takeAll_microsteps hlater m hm
    exact ⟨s', hs', hkind⟩
  rw [takeAll_cons]
  split
  · rename_i hskip
    obtain ⟨later, run', hlater, -⟩ := takeAll_steps h event hafter run
    have hnot : ¬ (s.transition.isForbidden = false ∧ s.ref.source ∈ run.configuration) := by
      rw [Bool.or_eq_true, Bool.not_eq_true', Configuration.contains_eq_false] at hskip
      rintro ⟨hallowed, hactive⟩
      rcases hskip with hforbidden | hgone
      · rw [hallowed] at hforbidden; cases hforbidden
      · exact hgone hactive
    refine ⟨[], later, run', hlater, ?_, hkinds hlater, iff_of_false (fun hne => hne rfl) hnot⟩
    exact fun m hm => by cases hm
  · rename_i hgo
    simp only [Bool.or_eq_true, Bool.not_eq_true', not_or, Configuration.contains_eq_false,
      not_not, Bool.not_eq_true] at hgo
    obtain ⟨own, mid, htake, -⟩ := take_steps h event hs hgo.2
    obtain ⟨later, run', hlater, -⟩ := takeAll_steps h event hafter mid
    refine ⟨own, later, run', ?_, fun m hm => (take_microsteps htake m hm).1, hkinds hlater,
      iff_of_true (take_ne_nil htake) hgo⟩
    rw [htake]
    simp only [hlater, Except.map]

/-- The microsteps of an event by the turn of one selected transition: `own` are those of `s`, the
earlier ones belong to the transitions before it, the later ones to those after it, or stabilize. -/
structure InTurn (event : Event) (before : List (Selected C)) (s : Selected C)
    (after : List (Selected C)) (earlier own later : List Microstep) : Prop where
  earlier : ∀ m ∈ earlier, ∃ s' ∈ before, m.kind = .event event s'.ref
  own : ∀ m ∈ own, m.kind = .event event s.ref
  later : ∀ m ∈ later, m.kind = .stabilization ∨ ∃ s' ∈ after, m.kind = .event event s'.ref

/-- The selected transitions have their turns in order. In its turn, a transition is passed over if
it is forbidden, or if earlier ones have left its state for good. If none of them leads to that
state or to one below it, leaving the state at all is enough. -/
theorem process_preempts {d : NodeDef C} (hb : Tree.build d = .ok t)
    {before after : List (Selected C)}
    (hselect : t.select run.configuration run.context event = before ++ s :: after) :
    ∃ report run' earlier own later, t.process event run = (.ok report, run') ∧
      report.microsteps = earlier ++ own ++ later ∧
      InTurn event before s after earlier own later ∧
      (own ≠ [] ↔ s.transition.isForbidden = false ∧ ¬ LeftForGood s.ref.source earlier) ∧
      ((∀ s' ∈ before, ∀ target ∈ s'.transition.targets, ¬ target.Within s.ref.source) →
        (∃ m ∈ earlier, s.ref.source ∈ m.exited) → own = []) := by
  have h := build_wellFormed hb
  have hmem : ∀ x ∈ before ++ s :: after, t.Offers x ∧ x.ref.source ∈ run.configuration := by
    intro x hx
    obtain ⟨hoffers, hactive, -⟩ := mem_select (hselect ▸ hx)
    exact ⟨hoffers, hactive⟩
  rw [List.forall_mem_append, List.forall_mem_cons] at hmem
  obtain ⟨hbefore, ⟨hoffers, hactive⟩, hafter⟩ := hmem
  obtain ⟨earlier, mid, hearlier, hsteps⟩ :=
    takeAll_steps h event (fun x hx => (hbefore x hx).1) run
  obtain ⟨own, later, last, hturn, hown, hlater, htaken⟩ :=
    takeAll_turn h event hoffers (fun x hx => (hafter x hx).1) mid
  have hall : t.takeAll event (t.select run.configuration run.context event) run =
      (.ok (earlier ++ (own ++ later)), last) := hselect ▸ takeAll_append hearlier hturn
  have hmid : s.ref.source ∈ mid.configuration ↔ ¬ LeftForGood s.ref.source earlier := by
    rw [(hsteps.traced h).replays.mem_iff]
    exact and_iff_right (.inl hactive)
  rw [hmid] at htaken
  have hinit : run.configuration.isInitialized = true :=
    Configuration.isInitialized_iff.2 ⟨_, hactive⟩
  have hstart : event ≠ .start :=
    ne_start_of_mem_select (hselect ▸ List.mem_append_right _ List.mem_cons_self)
  have hp := process_eq (t := t) hstart run
  rw [if_pos hinit, hall] at hp
  refine ⟨_, _, earlier, own, later ++ (t.stabilize event.data last).1, hp, ?_,
    ⟨fun m hm => ?earlier, hown, ?later⟩, htaken, ?_⟩
  case earlier =>
    obtain ⟨s', hs', hkind, -⟩ := takeAll_microsteps hearlier m hm
    exact ⟨s', hs', hkind⟩
  case later =>
    refine List.forall_mem_append.2 ⟨fun m hm => .inr (hlater m hm), fun m hm => .inl ?_⟩
    exact stabilizeFor_kind m hm
  · simp [settle]
  · intro haway hleft
    by_contra hne
    obtain ⟨m, hm, hentered⟩ := exists_entered_of_not_leftForGood hleft (htaken.1 hne).2
    obtain ⟨s', hs', -, hway⟩ := takeAll_microsteps hearlier m hm
    obtain ⟨target, htarget, hw⟩ := hway _ hentered
    exact haway s' hs' target htarget hw

end Tree

/-- In `crossing` both regions answer. The first transition leaves the region of the second one,
whose state is not entered again, so the second is passed over. -/
theorem crossing_preempted :
    Tree.build crossing = .ok crossingTree ∧
      (crossingTree.select crossingStarted.configuration 0 (.named "swap" .null)).map (·.ref) =
        [⟨⟨["m", "l", "a"]⟩, 0⟩, ⟨⟨["m", "r", "x"]⟩, 0⟩] ∧
      ∃ report run' earlier later,
        crossingTree.process (.named "swap" .null) crossingStarted = (.ok report, run') ∧
        report.microsteps = earlier ++ later ∧
        (∃ m ∈ earlier, ⟨["m", "r", "x"]⟩ ∈ m.exited) ∧
        ∀ m ∈ later, m.kind = .stabilization := by
  have hbuild : Tree.build crossing = .ok crossingTree := rfl
  have hselect : crossingTree.select crossingStarted.configuration crossingStarted.context
      (.named "swap" .null) =
        [⟨⟨⟨["m", "l", "a"]⟩, 0⟩, .taken (.named "swap") none [⟨["m", "r", "y"]⟩] []⟩] ++
          ⟨⟨⟨["m", "r", "x"]⟩, 0⟩, .taken (.named "swap") none [⟨["m", "l", "b"]⟩] []⟩ :: [] := rfl
  obtain ⟨report, run', earlier, own, later, hp, hms, hturn, -, hpassed⟩ :=
    Tree.process_preempts hbuild hselect
  -- The microstep that leaves the state is not one of the second transition, so it came earlier.
  let first : Microstep := ⟨.event (.named "swap" .null) ⟨⟨["m", "l", "a"]⟩, 0⟩,
    [⟨["m", "l", "a"]⟩, ⟨["m", "l"]⟩, ⟨["m", "r", "x"]⟩, ⟨["m", "r"]⟩],
    [⟨["m", "r"]⟩, ⟨["m", "r", "y"]⟩]⟩
  have hreported : (crossingTree.process (.named "swap" .null) crossingStarted).1.map
      StepReport.microsteps = .ok (first :: [⟨.stabilization, [], [⟨["m", "l"]⟩]⟩,
        ⟨.stabilization, [], [⟨["m", "l", "a"]⟩]⟩]) := rfl
  rw [hp] at hreported
  have hfirst : first ∈ earlier ++ own ++ later := by
    rw [← hms, Except.ok.inj hreported]
    exact List.mem_cons_self
  have hearlier : first ∈ earlier := by
    rw [List.append_assoc] at hfirst
    refine (List.mem_append.1 hfirst).resolve_right fun hrest => ?_
    rcases List.mem_append.1 hrest with hown | hlater
    · exact absurd (MicrostepKind.event.inj (hturn.own first hown)).2 (by decide)
    · rcases hturn.later first hlater with hkind | ⟨s', hs', -⟩
      · cases hkind
      · cases hs'
  have hown : own = [] := hpassed (by decide) ⟨first, hearlier, by decide⟩
  refine ⟨hbuild, rfl, report, run', earlier, later, hp, by rw [hms, hown, List.append_nil],
    ⟨first, hearlier, by decide⟩, fun m hm => ?_⟩
  rcases hturn.later m hm with hkind | ⟨s', hs', -⟩
  · exact hkind
  · cases hs'

/-! Two regions that answer the same event, where the transition of the first leads to the state
that the second one starts from. -/

def returning : NodeDef Nat where
  key := "m"
  kind := .orthogonal
  children := [
    { key := "l", kind := .compound "a" [], children := [
      { key := "a", kind := .atomic,
        transitions := [{ event := .named "go", targets := ["#m.r.x"] }] }] },
    { key := "r", kind := .compound "x" [], children := [
      { key := "x", kind := .atomic,
        transitions := [{ event := .named "go", targets := ["y"] }] },
      { key := "y", kind := .atomic }] }]

def returningTree : Tree Nat where
  root := ⟨⟨["m"]⟩, .orthogonal [⟨["m", "l"]⟩, ⟨["m", "r"]⟩], [], [], [], []⟩
  rest := [
    ⟨⟨["m", "l"]⟩, .compound [⟨["m", "l", "a"]⟩] ⟨["m", "l", "a"]⟩ [], [], [], [], []⟩,
    ⟨⟨["m", "l", "a"]⟩, .atomic, [], [], [.taken (.named "go") none [⟨["m", "r", "x"]⟩] []], []⟩,
    ⟨⟨["m", "r"]⟩, .compound [⟨["m", "r", "x"]⟩, ⟨["m", "r", "y"]⟩] ⟨["m", "r", "x"]⟩ [],
      [], [], [], []⟩,
    ⟨⟨["m", "r", "x"]⟩, .atomic, [], [], [.taken (.named "go") none [⟨["m", "r", "y"]⟩] []], []⟩,
    ⟨⟨["m", "r", "y"]⟩, .atomic, [], [], [], []⟩]

def returningStarted : Run Nat :=
  (returningTree.process .start (.new 0)).2

/-- The state of the second transition was left and entered by the first, and the second is taken
from it all the same. -/
theorem returning_taken :
    Tree.build returning = .ok returningTree ∧
      Engine.Reachable ⟨returningTree, {}⟩ 0 [.start] returningStarted ∧
      (returningTree.select returningStarted.configuration returningStarted.context
          (.named "go" .null)).map (·.ref) =
        [⟨⟨["m", "l", "a"]⟩, 0⟩, ⟨⟨["m", "r", "x"]⟩, 0⟩] ∧
      ∃ report run' first second rest,
        returningTree.process (.named "go" .null) returningStarted = (.ok report, run') ∧
        report.microsteps = first :: second :: rest ∧
        first.kind = .event (.named "go" .null) ⟨⟨["m", "l", "a"]⟩, 0⟩ ∧
        ⟨["m", "r", "x"]⟩ ∈ first.exited ∧
        second.kind = .event (.named "go" .null) ⟨⟨["m", "r", "x"]⟩, 0⟩ :=
  ⟨rfl, .process .new rfl, rfl, _, _, _, _, _, rfl, rfl, rfl, by decide, rfl⟩

end Statechart
