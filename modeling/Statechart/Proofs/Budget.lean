import Mathlib.Algebra.Order.BigOperators.Group.List
import Mathlib.Algebra.Order.Ring.Nat
import Statechart.Proofs.Building
import Statechart.Proofs.Microsteps
import Statechart.Proofs.Rounds

/-!
# Statechart.Proofs.Budget

What a drain may cost. The limit on microsteps is looked at after every event, so a drain passes it
by no more than the microsteps of one event, and these are bounded by the chart alone: every state
offers at most one transition, which is taken to each of its targets, and stabilization enters
inactive states.

* `Tree.stepBound`: a bound on the microsteps of one event.
* `Tree.process_length`: processing an event keeps to it.
* `Engine.Drains.limit_iff`: a drain fails with the limit if its rounds go beyond it.
* `Engine.drain_bounded`: every drain.
-/

namespace Statechart

variable {C : Type}

/-- The microsteps that it takes to go to all targets. Without targets it takes one, too. -/
def Transition.width (tr : Transition C) : Nat :=
  max 1 tr.targets.length

/-- The width of the widest transition of the state. -/
def Node.width (n : Node C) : Nat :=
  (n.transitions.map Transition.width).foldr max 0

/-- A bound on the microsteps of one event. -/
def Tree.stepBound (t : Tree C) : Nat :=
  t.size + (t.nodes.map Node.width).sum

theorem Node.width_le {n : Node C} {tr : Transition C} (h : tr ∈ n.transitions) :
    tr.width ≤ n.width := by
  have hle : ∀ ws : List Nat, ∀ w ∈ ws, w ≤ ws.foldr max 0 := by
    intro ws
    induction ws with
    | nil => intro w hw; cases hw
    | cons w' rest ih =>
      intro w hw
      rw [List.foldr_cons]
      rcases List.mem_cons.1 hw with rfl | hw
      · exact Nat.le_max_left _ _
      · exact (ih w hw).trans (Nat.le_max_right _ _)
  exact hle _ _ (List.mem_map_of_mem h)

/-! ## One event -/

namespace Tree

variable {t : Tree C} {run run' : Run C} {ms : List Microstep}

theorem takeTo_length {source : StateId} {cause : Cause} {actions : List (Action C)}
    {targets : List StateId} (h : t.takeTo source cause actions targets run = (.ok ms, run')) :
    ms.length = targets.length := by
  induction targets generalizing actions run ms with
  | nil => cases h; rfl
  | cons target rest ih =>
    simp only [takeTo] at h
    split at h
    · cases h
    · split at h
      · rename_i hrest
        cases h
        simp [ih hrest]
      · cases h

theorem take_length {event : Event} {s : Selected C} (h : t.take event s run = (.ok ms, run')) :
    ms.length = s.transition.width := by
  simp only [take] at h
  split at h
  · rename_i htargets
    cases h
    simp [Transition.width, htargets]
  · rename_i hne
    have hpos : 0 < s.transition.targets.length := List.length_pos_iff.2 hne
    rw [takeTo_length h, Transition.width]
    omega

theorem takeAll_length {event : Event} {selected : List (Selected C)}
    (h : t.takeAll event selected run = (.ok ms, run')) :
    ms.length ≤ (selected.map (·.transition.width)).sum := by
  induction selected generalizing run ms with
  | nil => cases h; simp
  | cons s rest ih =>
    rw [List.map_cons, List.sum_cons]
    simp only [takeAll] at h
    split at h
    · have := ih h
      omega
    · split at h
      · cases h
      · rename_i ms₁ run₁ htake
        have htaken := take_length htake
        split at h
        · rename_i ms₂ run₂ hrest
          cases h
          have := ih hrest
          rw [List.length_append]
          omega
        · cases h

/-- Every active state offers at most one transition. -/
theorem selectBy_width (c : Configuration) (test : StateId → Transition C → Bool) :
    ((t.selectBy c test).map (·.transition.width)).sum ≤ (t.nodes.map Node.width).sum := by
  have sweep : ∀ ns : List (Node C),
      ((ns.foldr (sweepStep test) []).map (·.transition.width)).sum ≤ (ns.map Node.width).sum := by
    intro ns
    induction ns with
    | nil => exact Nat.le_refl 0
    | cons n rest ih =>
      simp only [List.foldr_cons, List.map_cons, List.sum_cons, sweepStep]
      split
      · omega
      · split
        · rename_i s hs
          have hwidth := Node.width_le (Node.firstBy_eq_some hs).2.1
          rw [List.map_cons, List.sum_cons]
          omega
        · omega
  exact (sweep _).trans ((List.filter_sublist.map _).sum_le_sum fun _ _ => Nat.zero_le _)

theorem stabilizeFor_length (h : t.WellFormed) (data : Json) (fuel : Nat) (run : Run C) :
    (t.stabilizeFor data fuel run).1.length ≤ (t.inactive run.configuration).length := by
  induction fuel generalizing run with
  | zero => exact Nat.zero_le _
  | succ fuel ih =>
    simp only [stabilizeFor]
    split
    · exact Nat.zero_le _
    · rename_i n p hp
      have hless := inactive_lt h hp
      have hrest := ih (t.apply p n.kind.initialActions
        ⟨"initial " ++ n.id.text, data, .stabilization⟩ run).2
      rw [apply_configuration] at hrest
      rw [List.length_cons]
      omega

theorem inactive_le (c : Configuration) : (t.inactive c).length ≤ t.size := by
  have hle := List.length_filter_le (fun id => !c.contains id) t.ids
  rwa [ids, List.length_map] at hle

/-- There is a state that is active once the root is. -/
theorem inactive_root_lt : (t.inactive (Configuration.empty.insert t.root.id)).length < t.size := by
  have hlt : (t.inactive (Configuration.empty.insert t.root.id)).length < t.ids.length :=
    List.length_filter_lt_length_iff_exists.2 ⟨t.root.id, root_mem_ids, by simp⟩
  rwa [ids, List.length_map] at hlt

theorem settle_length (h : t.WellFormed) (data : Json) (handled : Bool) (taken : List Microstep)
    (run : Run C) :
    (t.settle data handled taken run).1.microsteps.length ≤
      taken.length + (t.inactive run.configuration).length := by
  have hmore := stabilizeFor_length h data t.size run
  show (taken ++ (t.stabilize data run).1).length ≤ _
  rw [List.length_append]
  exact Nat.add_le_add_left hmore _

/-- The microsteps of one event are bounded by the chart alone. -/
theorem process_length (h : t.WellFormed) {event : Event} {report : StepReport}
    (hp : t.process event run = (.ok report, run')) :
    report.microsteps.length ≤ t.stepBound := by
  by_cases he : event = .start
  · subst he
    simp only [process] at hp
    split at hp
    · cases hp
      exact Nat.zero_le _
    · rename_i hinit
      have hc := Configuration.eq_empty_of_not_initialized hinit
      cases hp
      let started :=
        t.apply { entered := [t.root.id] } [] ⟨"initialize", .null, .initialization⟩ run
      have hstarted : started.2.configuration = Configuration.empty.insert t.root.id := by
        rw [apply_configuration, hc]
        rfl
      have hroot := inactive_root_lt (t := t)
      have hsettle := settle_length h .null true [started.1] started.2
      rw [hstarted, List.length_singleton] at hsettle
      rw [stepBound]
      exact hsettle.trans (by omega)
  · rw [process_eq he] at hp
    split at hp
    · split at hp
      · cases hp
      · rename_i taken mid htake
        cases hp
        have htaken := (takeAll_length htake).trans (selectBy_width _ _)
        have hmore := (settle_length h event.data
          (!(t.select run.configuration run.context event).isEmpty) taken mid)
        have hle := inactive_le (t := t) mid.configuration
        rw [stepBound]
        omega
    · cases hp

/-- The only events that are refused are those that come before the start. -/
theorem process_error (h : t.WellFormed) {event : Event} {err : EngineError}
    (hp : t.process event run = (.error err, run')) : err = .notInitialized event.name := by
  rcases process_cases h event run with ⟨-, -, hok⟩ | ⟨-, -, herr⟩ | ⟨_, _, _, _, -, -, hok⟩
  · rw [hok] at hp; cases hp
  · rw [herr] at hp; cases hp; rfl
  · rw [hok] at hp; cases hp

end Tree

/-! ## Drains -/

namespace Engine

variable {e : Engine C} {run run' : Run C} {rounds : List Round}
  {result : Except EngineError DrainReport × Run C}

/-- A drain goes on only within the limit. -/
theorem Rounds.within (hrounds : e.Rounds run rounds run') :
    (Round.microsteps rounds).length ≤ e.limits.maxMicrosteps := by
  cases hrounds with
  | none => exact Nat.zero_le _
  | next _ _ _ hs =>
    rw [microsteps_concat, List.length_append]
    exact le_of_stop?_eq_none hs

/-- A drain passes the limit by no more than the microsteps of one event. -/
theorem Drains.length_le (h : e.tree.WellFormed) (hdrain : e.Drains run rounds result) :
    (Round.microsteps rounds).length ≤ e.limits.maxMicrosteps + e.tree.stepBound := by
  obtain ⟨past, mid, hrounds, hends⟩ := hdrain
  have hpast := hrounds.within
  cases hends with
  | quiescent _ => omega
  | failed _ _ => omega
  | stopped _ hp _ =>
    have hlast := Tree.process_length h hp
    rw [microsteps_concat, List.length_append]
    simp only
    omega

/-- A drain fails with the limit if its rounds go beyond it. -/
theorem Drains.limit_iff (h : e.tree.WellFormed) (hdrain : e.Drains run rounds result)
    (limit : Nat) :
    result.1 = .error (.microstepLimit limit) ↔
      limit = e.limits.maxMicrosteps ∧
        e.limits.maxMicrosteps < (Round.microsteps rounds).length := by
  obtain ⟨past, mid, hrounds, hends⟩ := hdrain
  have hpast := hrounds.within
  cases hends with
  | quiescent _ =>
    constructor
    · intro hlimit
      cases hlimit
    · rintro ⟨-, hlt⟩
      omega
  | failed _ hp =>
    cases Tree.process_error h hp
    constructor
    · intro hlimit
      cases hlimit
    · rintro ⟨-, hlt⟩
      omega
  | @stopped _ _ _ _ _ stop _ _ hs =>
    rw [microsteps_concat, List.length_append, ← stop?_eq_limit, hs]
    cases stop with
    | limit => simp [verdict, eq_comm]
    | completed => simp [verdict]
    | faulted fault => simp [verdict]

theorem Drains.length_of_ok (h : e.tree.WellFormed) (hdrain : e.Drains run rounds result)
    {report : DrainReport} (hok : result.1 = .ok report) :
    report.microsteps.length ≤ e.limits.maxMicrosteps := by
  obtain ⟨outcome, run'⟩ := result
  cases hok
  rw [hdrain.report_microsteps]
  refine Nat.not_lt.1 fun hlt => ?_
  cases (hdrain.limit_iff h _).2 ⟨rfl, hlt⟩

/-- The count of microsteps goes up only, so it is beyond a limit after some rounds if it is after
all. -/
theorem lt_microsteps_iff {limit : Nat} :
    (∃ done, done <+: rounds ∧ limit < (Round.microsteps done).length) ↔
      limit < (Round.microsteps rounds).length := by
  constructor
  · rintro ⟨done, ⟨later, rfl⟩, hlt⟩
    rw [Round.microsteps, List.flatMap_append, List.length_append]
    exact Nat.lt_add_right _ hlt
  · intro hlt
    exact ⟨rounds, List.prefix_refl _, hlt⟩

/-- A drain that does not fail takes all events from the queue, and so does one that fails with the
limit. -/
theorem Drains.queue_empty (h : e.tree.WellFormed) (hdrain : e.Drains run rounds result)
    (hended : (∃ report, result.1 = .ok report) ∨
      ∃ limit, result.1 = .error (.microstepLimit limit)) : result.2.queue = .empty := by
  obtain ⟨past, mid, -, hends⟩ := hdrain
  cases hends with
  | quiescent hq => exact EventQueue.eq_empty_of_dequeue? hq
  | failed _ hp =>
    cases Tree.process_error h hp
    rcases hended with ⟨report, hok⟩ | ⟨limit, hlimit⟩
    · cases hok
    · cases hlimit
  | stopped _ _ _ => rfl

/-- Every drain comes to an end, and so does the stabilization in each of its rounds. It reports no
more microsteps than the limit allows, and fails with the limit exactly if it goes beyond it in some
round, by then by no more than the microsteps that the chart allows for one event. If it does not
fail, and if it fails with the limit, no event is left waiting. -/
theorem drain_bounded {d : NodeDef C} {t : Tree C} (hb : Tree.build d = .ok t) (limits : Limits)
    (run : Run C) :
    (∀ data mid, t.unstable (t.stabilize data mid).2.configuration = []) ∧
    ∃ rounds, Drains ⟨t, limits⟩ run rounds (Engine.drain ⟨t, limits⟩ run) ∧
      (∀ report, (Engine.drain ⟨t, limits⟩ run).1 = .ok report →
        report.microsteps.length ≤ limits.maxMicrosteps) ∧
      (∀ limit, (Engine.drain ⟨t, limits⟩ run).1 = .error (.microstepLimit limit) ↔
        limit = limits.maxMicrosteps ∧
          ∃ done, done <+: rounds ∧ limits.maxMicrosteps < (Round.microsteps done).length) ∧
      (Round.microsteps rounds).length ≤ limits.maxMicrosteps + t.stepBound ∧
      ((∃ report, (Engine.drain ⟨t, limits⟩ run).1 = .ok report) ∨
          (∃ limit, (Engine.drain ⟨t, limits⟩ run).1 = .error (.microstepLimit limit)) →
        (Engine.drain ⟨t, limits⟩ run).2.queue = .empty) := by
  have h : (⟨t, limits⟩ : Engine C).tree.WellFormed := Tree.build_wellFormed hb
  obtain ⟨rounds, hdrain⟩ := drain_rounds ⟨t, limits⟩ run
  refine ⟨Tree.unstable_stabilize h, rounds, hdrain, fun report hok => hdrain.length_of_ok h hok,
    fun limit => ?_, hdrain.length_le h, hdrain.queue_empty h⟩
  rw [lt_microsteps_iff]
  exact hdrain.limit_iff h limit

end Engine

/-! Two states that lead to each other without any event. -/

def circling : NodeDef Nat where
  key := "m"
  kind := .compound "a" []
  children := [
    { key := "a", kind := .atomic, transitions := [{ event := .immediate, targets := ["b"] }] },
    { key := "b", kind := .atomic, transitions := [{ event := .immediate, targets := ["a"] }] }]

def circlingTree : Tree Nat where
  root := ⟨⟨["m"]⟩, .compound [⟨["m", "a"]⟩, ⟨["m", "b"]⟩] ⟨["m", "a"]⟩ [], [], [], [], []⟩
  rest := [
    ⟨⟨["m", "a"]⟩, .atomic, [], [], [.taken .immediate none [⟨["m", "b"]⟩] []], []⟩,
    ⟨⟨["m", "b"]⟩, .atomic, [], [], [.taken .immediate none [⟨["m", "a"]⟩] []], []⟩]

def circlingStart : Run Nat :=
  { Run.new 0 with queue := ⟨[], [], [.start, .named "late" .null]⟩ }

/-- The third round goes beyond a limit of three, and the event that waits is dropped. -/
theorem circling_bounded :
    Tree.build circling = .ok circlingTree ∧
      (Engine.drain ⟨circlingTree, { maxMicrosteps := 3 }⟩ circlingStart).1 =
        .error (.microstepLimit 3) ∧
      circlingTree.stepBound = 5 ∧
      ∃ rounds, Engine.Drains ⟨circlingTree, { maxMicrosteps := 3 }⟩ circlingStart rounds
          (Engine.drain ⟨circlingTree, { maxMicrosteps := 3 }⟩ circlingStart) ∧
        (∃ done, done <+: rounds ∧ 3 < (Round.microsteps done).length) ∧
        (Round.microsteps rounds).length ≤ 3 + 5 ∧
        (Engine.drain ⟨circlingTree, { maxMicrosteps := 3 }⟩ circlingStart).2.queue = .empty := by
  have hbuild : Tree.build circling = .ok circlingTree := rfl
  have hstarted : Engine.Rounds ⟨circlingTree, { maxMicrosteps := 3 }⟩ circlingStart _
      (circlingTree.process .start
        { circlingStart with queue := ⟨[], [], [.named "late" .null]⟩ }).2 :=
    .next .none rfl rfl rfl
  have hfailed := congrArg Prod.fst ((hstarted.next rfl rfl rfl).drain_stopped rfl rfl rfl)
  obtain ⟨-, rounds, hdrain, -, hlimit, hbound, hempty⟩ :=
    Engine.drain_bounded hbuild { maxMicrosteps := 3 } circlingStart
  exact ⟨hbuild, hfailed, rfl, rounds, hdrain, ((hlimit 3).1 hfailed).2, hbound,
    hempty (.inr ⟨3, hfailed⟩)⟩

end Statechart
