import Statechart.Proofs.Microsteps

/-!
# Statechart.Proofs.Bare

Actions cannot steer the step they run in. They may change the context, fail, and queue events, but
which states an event leaves and enters is settled by the guards, and these are read before the
first action runs.

* `Tree.bare`: a chart without its actions.
* `Tree.select_bare`, `Tree.plan_bare`, `Tree.planStabilization_bare`, `Tree.isDone_bare`: what the
  engine reads of a chart is the same without actions.
* `Tree.process_bare`: processing an event gives the same report and configuration without actions.
* `Tree.process_eq_of_bare_eq`: so it does in any two charts that differ in their actions only.
-/

namespace Statechart

variable {C : Type}

/-! ## Charts without actions -/

def Transition.bare : Transition C → Transition C
  | .forbidden event => .forbidden event
  | .taken event guard targets _ => .taken event guard targets []

def NodeKind.bare : NodeKind C → NodeKind C
  | .atomic => .atomic
  | .final => .final
  | .compound children initial _ => .compound children initial []
  | .orthogonal children => .orthogonal children

def Node.bare (n : Node C) : Node C :=
  { n with
    kind := n.kind.bare
    entry := []
    exit := []
    transitions := n.transitions.map Transition.bare }

def Selected.bare (s : Selected C) : Selected C :=
  { s with transition := s.transition.bare }

/-- The chart without its actions on entry, on exit, of transitions and of initial children. -/
def Tree.bare (t : Tree C) : Tree C where
  root := t.root.bare
  rest := t.rest.map Node.bare

@[simp] theorem Transition.bare_targets (tr : Transition C) : tr.bare.targets = tr.targets := by
  cases tr <;> rfl

@[simp] theorem Transition.bare_isForbidden (tr : Transition C) :
    tr.bare.isForbidden = tr.isForbidden := by
  cases tr <;> rfl

theorem Transition.bare_isEnabled (tr : Transition C) :
    tr.bare.isEnabled = tr.isEnabled := by
  cases tr <;> rfl

@[simp] theorem NodeKind.bare_isFinal (kind : NodeKind C) : kind.bare.isFinal = kind.isFinal := by
  cases kind <;> rfl

namespace Tree

variable {t : Tree C}

@[simp] theorem bare_nodes (t : Tree C) : t.bare.nodes = t.nodes.map Node.bare := rfl

@[simp] theorem bare_root_id (t : Tree C) : t.bare.root.id = t.root.id := rfl

@[simp] theorem bare_ids (t : Tree C) : t.bare.ids = t.ids := by
  rw [ids, ids, bare_nodes, List.map_map]
  rfl

@[simp] theorem bare_size (t : Tree C) : t.bare.size = t.size := by
  simp [size]

theorem bare_node? (t : Tree C) (id : StateId) : t.bare.node? id = (t.node? id).map Node.bare := by
  rw [node?, node?, bare_nodes, List.find?_map]
  rfl

theorem bare_kind? (t : Tree C) (id : StateId) :
    t.bare.kind? id = (t.kind? id).map NodeKind.bare := by
  rw [kind?, kind?, bare_node?, Option.map_map, Option.map_map]
  rfl

theorem bare_isFinal (t : Tree C) (id : StateId) : t.bare.isFinal id = t.isFinal id := by
  rw [isFinal, isFinal, bare_kind?]
  cases t.kind? id <;> simp

theorem bare_active (t : Tree C) (c : Configuration) :
    t.bare.active c = (t.active c).map Node.bare := by
  rw [active, active, bare_nodes, List.filter_map]
  rfl

/-! ## Selection -/

theorem firstBy_bare {n : Node C} {test : Transition C → Bool}
    (htest : ∀ tr, test tr.bare = test tr) :
    n.bare.firstBy test = (n.firstBy test).map Selected.bare := by
  have hsame : test ∘ Transition.bare = test := funext htest
  simp only [Node.firstBy, Node.bare, List.findIdx?_map, hsame, List.getElem?_map]
  cases n.transitions.findIdx? test with
  | none => rfl
  | some i =>
    simp only
    cases n.transitions[i]? <;> rfl

theorem selectBy_bare (c : Configuration) {test : StateId → Transition C → Bool}
    (htest : ∀ source tr, test source tr.bare = test source tr) :
    t.bare.selectBy c test = (t.selectBy c test).map Selected.bare := by
  have sweep : ∀ ns : List (Node C), (ns.map Node.bare).foldr (sweepStep test) [] =
      (ns.foldr (sweepStep test) []).map Selected.bare := by
    intro ns
    induction ns with
    | nil => rfl
    | cons n rest ih =>
      have hfirst : n.bare.firstBy (test n.bare.id) = (n.firstBy (test n.id)).map Selected.bare :=
        firstBy_bare (htest n.id)
      have hbelow : ∀ selected : List (Selected C),
          (selected.map Selected.bare).any (fun s => n.bare.id.isAncestorOf s.ref.source) =
            selected.any (fun s => n.id.isAncestorOf s.ref.source) := by
        intro selected
        rw [List.any_map]
        rfl
      rw [List.map_cons, List.foldr_cons, List.foldr_cons, ih, sweepStep, sweepStep, hbelow]
      split
      · rfl
      · rw [hfirst]
        cases n.firstBy (test n.id) <;> rfl
  rw [selectBy, bare_active]
  exact sweep _

/-- The same transitions are selected, but for their actions. -/
theorem select_bare (c : Configuration) (context : C) (event : Event) :
    t.bare.select c context event = (t.select c context event).map Selected.bare :=
  selectBy_bare c fun source tr => by rw [Transition.bare_isEnabled]

/-! ## Planning -/

theorem planWithin_bare (c : Configuration) (top : StateId) (boundary : Option StateId)
    (target : StateId) :
    t.bare.planWithin c top boundary target = t.planWithin c top boundary target := by
  have hbranch : t.bare.activeBranch c = t.activeBranch c := by
    funext id
    rw [activeBranch, activeBranch, descendants, descendants, bare_ids]
  have hroots : t.bare.exitRoots c top boundary target = t.exitRoots c top boundary target := by
    rw [exitRoots, exitRoots, bare_kind?]
    cases t.kind? top with
    | none => rfl
    | some kind => cases kind <;> rfl
  rw [planWithin, planWithin, hbranch, hroots]

theorem plan_bare (c : Configuration) (source target : StateId) :
    t.bare.plan c source target = t.plan c source target := by
  simp only [plan, planWithin_bare, bare_root_id]

theorem planStabilization_bare (c : Configuration) :
    t.bare.planStabilization c = (t.planStabilization c).map fun np => (np.1.bare, np.2) := by
  have hlacks : (fun n : Node C => lacksChildren n.kind c) ∘ Node.bare =
      fun n => lacksChildren n.kind c := by
    funext n
    show lacksChildren n.kind.bare c = lacksChildren n.kind c
    cases n.kind <;> rfl
  have hunstable : t.bare.unstable c = (t.unstable c).map Node.bare := by
    rw [unstable, unstable, bare_active, List.filter_map, hlacks]
  rw [planStabilization, planStabilization, hunstable]
  cases t.unstable c with
  | nil => rfl
  | cons n rest =>
    have hmissing : missingChildren n.bare.kind c = missingChildren n.kind c := by
      show missingChildren n.kind.bare c = missingChildren n.kind c
      cases n.kind <;> rfl
    simp only [List.map_cons, Option.map_some, hmissing]

theorem isDone_bare (id : StateId) (c : Configuration) : t.bare.isDone id c = t.isDone id c := by
  have hcomplete : ∀ (done : List StateId) (n : Node C),
      t.bare.isComplete c done n.bare.kind = t.isComplete c done n.kind := by
    intro done n
    show t.bare.isComplete c done n.kind.bare = t.isComplete c done n.kind
    cases n.kind with
    | compound children initial actions => simp only [NodeKind.bare, isComplete, bare_isFinal]
    | _ => rfl
  have hdone : t.bare.doneStates c = t.doneStates c := by
    rw [doneStates, doneStates, bare_nodes, List.foldr_map]
    simp only [hcomplete]
    rfl
  rw [isDone, isDone, hdone]

/-! ## Microsteps

Two runs in the same configuration may differ in everything that actions change. -/

/-- A result with nothing of its run but the configuration. -/
def course {α : Type} (result : α × Run C) : α × Configuration :=
  (result.1, result.2.configuration)

/-- Results with the same course have the same value and the same configuration. -/
theorem exists_of_course_eq {α : Type} {result result' : α × Run C}
    (h : course result = course result') : ∃ a mid mid', result = (a, mid) ∧ result' = (a, mid') ∧
      mid.configuration = mid'.configuration :=
  ⟨result.1, result.2, result'.2, rfl, Prod.ext (congrArg Prod.fst h).symm rfl,
    congrArg Prod.snd h⟩

theorem course_eq {α : Type} {result result' : α × Run C} :
    course result = course result' ↔
      result.1 = result'.1 ∧ result.2.configuration = result'.2.configuration := by
  simp [course]

variable {run run' : Run C}

theorem apply_course (t' : Tree C) (p : Plan) (actions actions' : List (Action C)) (cause : Cause)
    (hc : run.configuration = run'.configuration) :
    course (t.apply p actions cause run) = course (t'.apply p actions' cause run') :=
  course_eq.2 ⟨rfl, by rw [apply_configuration, apply_configuration, hc]⟩

theorem stabilizeFor_bare (data : Json) (fuel : Nat)
    (hc : run.configuration = run'.configuration) :
    course (t.stabilizeFor data fuel run) = course (t.bare.stabilizeFor data fuel run') := by
  induction fuel generalizing run run' with
  | zero => exact course_eq.2 ⟨rfl, hc⟩
  | succ fuel ih =>
    simp only [stabilizeFor, ← hc, planStabilization_bare]
    cases t.planStabilization run.configuration with
    | none => exact course_eq.2 ⟨rfl, hc⟩
    | some np =>
      obtain ⟨n, p⟩ := np
      obtain ⟨hm, hnext⟩ := course_eq.1 (apply_course (t := t) t.bare p n.kind.initialActions
        n.bare.kind.initialActions ⟨"initial " ++ n.id.text, data, .stabilization⟩ hc)
      obtain ⟨hmore, hlast⟩ := course_eq.1 (ih hnext)
      exact course_eq.2 ⟨congrArg₂ List.cons hm hmore, hlast⟩

theorem takeTo_bare (source : StateId) (cause : Cause) (actions actions' : List (Action C))
    (targets : List StateId) (hc : run.configuration = run'.configuration) :
    course (t.takeTo source cause actions targets run) =
      course (t.bare.takeTo source cause actions' targets run') := by
  induction targets generalizing run run' actions actions' with
  | nil => exact course_eq.2 ⟨rfl, hc⟩
  | cons target rest ih =>
    simp only [takeTo_cons, ← hc, plan_bare]
    cases t.plan run.configuration source target with
    | error e => exact course_eq.2 ⟨rfl, hc⟩
    | ok p =>
      obtain ⟨hm, hnext⟩ := course_eq.1 (apply_course (t := t) t.bare p actions actions' cause hc)
      obtain ⟨hms, hlast⟩ := course_eq.1 (ih [] [] hnext)
      refine course_eq.2 ⟨?_, hlast⟩
      simp only [hm, hms]

theorem take_bare (event : Event) (s : Selected C)
    (hc : run.configuration = run'.configuration) :
    course (t.take event s run) = course (t.bare.take event s.bare run') := by
  simp only [take, Selected.bare, Transition.bare_targets]
  split
  · obtain ⟨hm, hnext⟩ := course_eq.1 (apply_course (t := t) t.bare {} s.transition.actions
      s.transition.bare.actions ⟨"transition " ++ s.ref.text, event.data, .event event s.ref⟩ hc)
    refine course_eq.2 ⟨?_, hnext⟩
    simp only [hm]
  · exact takeTo_bare _ _ _ _ _ hc

theorem takeAll_bare (event : Event) (selected : List (Selected C))
    (hc : run.configuration = run'.configuration) :
    course (t.takeAll event selected run) =
      course (t.bare.takeAll event (selected.map Selected.bare) run') := by
  induction selected generalizing run run' with
  | nil => exact course_eq.2 ⟨rfl, hc⟩
  | cons s rest ih =>
    have hskip : (s.bare.transition.isForbidden || !run'.configuration.contains s.bare.ref.source) =
        (s.transition.isForbidden || !run.configuration.contains s.ref.source) := by
      rw [← hc]
      exact congrArg (· || _) s.transition.bare_isForbidden
    rw [List.map_cons, takeAll_cons, takeAll_cons, hskip]
    split
    · exact ih hc
    · obtain ⟨taken, mid, mid', hrun, hrun', hmid⟩ :=
        exists_of_course_eq (take_bare (t := t) event s hc)
      rw [hrun, hrun']
      cases taken with
      | error e => exact course_eq.2 ⟨rfl, hmid⟩
      | ok ms =>
        obtain ⟨hms, hlast⟩ := course_eq.1 (ih hmid)
        refine course_eq.2 ⟨?_, hlast⟩
        simp only [hms]

theorem settle_bare (data : Json) (handled : Bool) (taken : List Microstep)
    (hc : run.configuration = run'.configuration) :
    course (t.settle data handled taken run) =
      course (t.bare.settle data handled taken run') := by
  obtain ⟨hmore, hlast⟩ := course_eq.1 (stabilizeFor_bare (t := t) data t.size hc)
  refine course_eq.2 ⟨?_, ?_⟩
  · simp only [settle, stabilize, isCompleted, bare_size, bare_root_id, isDone_bare, hmore, hlast]
  · simp only [settle, stabilize, bare_size, hlast]

/-! ## Events -/

/-- Without its actions, a chart takes the same microsteps. -/
theorem process_bare (event : Event) (hc : run.configuration = run'.configuration)
    (hx : run.context = run'.context) :
    course (t.process event run) = course (t.bare.process event run') := by
  by_cases he : event = .start
  · subst he
    simp only [process, ← hc]
    split
    · exact course_eq.2 ⟨rfl, hc⟩
    · let cause : Cause := ⟨"initialize", .null, .initialization⟩
      obtain ⟨-, hmid⟩ :=
        course_eq.1 (apply_course (t := t) t.bare { entered := [t.root.id] } [] [] cause hc)
      obtain ⟨hreport, hlast⟩ := course_eq.1 (settle_bare (t := t) .null true
        [(t.apply { entered := [t.root.id] } [] cause run).1] hmid)
      refine course_eq.2 ⟨?_, hlast⟩
      simp only [bare_root_id]
      exact congrArg Except.ok hreport
  · rw [process_eq he, process_eq he, ← hc, ← hx, select_bare, List.isEmpty_map]
    split
    · obtain ⟨taken, mid, mid', hrun, hrun', hmid⟩ := exists_of_course_eq (takeAll_bare (t := t)
        event (t.select run.configuration run.context event) hc)
      rw [hrun, hrun']
      cases taken with
      | error e => exact course_eq.2 ⟨rfl, hmid⟩
      | ok ms =>
        obtain ⟨hreport, hlast⟩ := course_eq.1 (settle_bare (t := t) event.data
          (!(t.select run.configuration run.context event).isEmpty) ms hmid)
        refine course_eq.2 ⟨?_, hlast⟩
        exact congrArg Except.ok hreport
    · exact course_eq.2 ⟨rfl, hc⟩

/-- Two charts that differ in their actions only give the same report on an event: the same
microsteps, the event handled or not, the chart completed or not, or the same error. They reach the
same configuration. The actions may differ in any way and fail in one chart or in both; whatever
they queue, signal and change in the context has no part in it. -/
theorem process_eq_of_bare_eq {t' : Tree C} (hbare : t.bare = t'.bare) (event : Event)
    (hc : run.configuration = run'.configuration) (hx : run.context = run'.context) :
    (t.process event run).1 = (t'.process event run').1 ∧
      (t.process event run).2.configuration = (t'.process event run').2.configuration := by
  have hleft : course (t.process event run) = course (t.bare.process event run') :=
    process_bare event hc hx
  have hright : course (t'.process event run') = course (t'.bare.process event run') :=
    process_bare event rfl rfl
  rw [← hbare] at hright
  exact course_eq.1 (hleft.trans hright.symm)

end Tree

/-! Two regions that react to one event. The guard of the second reads what actions of the first may
change. -/

def meddling (actions : List (Action Nat)) : NodeDef Nat where
  key := "m"
  kind := .orthogonal
  children := [
    { key := "l", kind := .compound "a" actions, children := [
      { key := "a", kind := .atomic, exit := actions,
        transitions := [{ event := .named "go", targets := ["b"], actions }] },
      { key := "b", kind := .atomic, entry := actions }] },
    { key := "r", kind := .compound "x" actions, children := [
      { key := "x", kind := .atomic,
        transitions := [
          { event := .named "go", targets := ["y"], guard := some (.context (· == 0)), actions }] },
      { key := "y", kind := .final }] }]

def meddlingTree (actions : List (Action Nat)) : Tree Nat where
  root := ⟨⟨["m"]⟩, .orthogonal [⟨["m", "l"]⟩, ⟨["m", "r"]⟩], [], [], [], []⟩
  rest := [
    ⟨⟨["m", "l"]⟩, .compound [⟨["m", "l", "a"]⟩, ⟨["m", "l", "b"]⟩] ⟨["m", "l", "a"]⟩ actions,
      [], [], [], []⟩,
    ⟨⟨["m", "l", "a"]⟩, .atomic, [], actions,
      [.taken (.named "go") none [⟨["m", "l", "b"]⟩] actions], []⟩,
    ⟨⟨["m", "l", "b"]⟩, .atomic, actions, [], [], []⟩,
    ⟨⟨["m", "r"]⟩, .compound [⟨["m", "r", "x"]⟩, ⟨["m", "r", "y"]⟩] ⟨["m", "r", "x"]⟩ actions,
      [], [], [], []⟩,
    ⟨⟨["m", "r", "x"]⟩, .atomic, [], [],
      [.taken (.named "go") (some (.context (· == 0))) [⟨["m", "r", "y"]⟩] actions], []⟩,
    ⟨⟨["m", "r", "y"]⟩, .final, [], [], [], []⟩]

/-- Changes the context, and then fails. -/
def spoiling : List (Action Nat) :=
  [.assign fun n _ => .ok (n + 1), .run fun _ _ => .error ⟨"spoiled"⟩]

def meddlingStarted : Run Nat :=
  { configuration := .ofList [⟨["m"]⟩, ⟨["m", "l"]⟩, ⟨["m", "l", "a"]⟩, ⟨["m", "r"]⟩,
      ⟨["m", "r", "x"]⟩]
    context := 0 }

/-- The second region goes on although every block of actions fails, and although its guard does not
hold any more when it does. -/
theorem meddling_same :
    let spoiled := (meddlingTree spoiling).process (.named "go" .null) meddlingStarted
    let plain := (meddlingTree []).process (.named "go" .null) meddlingStarted
    Tree.build (meddling spoiling) = .ok (meddlingTree spoiling) ∧
      Tree.build (meddling []) = .ok (meddlingTree []) ∧
      (meddlingTree spoiling).bare = (meddlingTree []).bare ∧
      spoiled.2.context = 4 ∧ plain.2.context = 0 ∧
      spoiled.1 = plain.1 ∧ spoiled.2.configuration = plain.2.configuration ∧
      spoiled.2.configuration =
        .ofList [⟨["m"]⟩, ⟨["m", "l"]⟩, ⟨["m", "l", "b"]⟩, ⟨["m", "r"]⟩, ⟨["m", "r", "y"]⟩] := by
  have hbare : (meddlingTree spoiling).bare = (meddlingTree []).bare := rfl
  have hc : meddlingStarted.configuration = meddlingStarted.configuration := rfl
  have hx : meddlingStarted.context = meddlingStarted.context := rfl
  obtain ⟨hreport, hconfiguration⟩ := Tree.process_eq_of_bare_eq hbare (.named "go" .null) hc hx
  refine ⟨rfl, rfl, hbare, rfl, rfl, hreport, hconfiguration, hconfiguration.trans ?_⟩
  decide

end Statechart
