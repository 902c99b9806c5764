import Statechart.Proofs.Building
import Statechart.Proofs.Planning
import Statechart.Proofs.Selection

/-!
# Statechart.Proofs.Precedence

Which transitions an event selects, said without the sweep that finds them: the first one that
answers at an active state, if none answers at an active state below it. The sweep meets a state
after all states below it, since these come later in document order.

* `Transition.Answers`, `Tree.Prevails`: what is selected.
* `Tree.exists_sweep`: wherever something is offered, something is selected there or below.
* `Tree.mem_sweep`: the sweep takes what is offered with nothing offered below.
* `Tree.select_exact`: every configuration and event.
-/

namespace Statechart

variable {C : Type}

/-! ## What a state offers -/

/-- A transition answers an event that it listens for, if its guard holds. A forbidden transition
has no guard. -/
structure Transition.Answers (tr : Transition C) (source : StateId) (c : Configuration)
    (context : C) (event : Event) : Prop where
  listens : tr.event.accepts source event = true
  guard : ∀ g, tr.guard? = some g → g.evaluate c context event.data = true

theorem Transition.isEnabled_iff {tr : Transition C} {source : StateId} {c : Configuration}
    {context : C} {event : Event} :
    tr.isEnabled source c context event = true ↔ tr.Answers source c context event := by
  rw [isEnabled, Bool.and_eq_true]
  constructor
  · rintro ⟨hlistens, hguard⟩
    refine ⟨hlistens, fun g hg => ?_⟩
    rwa [hg] at hguard
  · rintro ⟨hlistens, hguard⟩
    refine ⟨hlistens, ?_⟩
    cases hg : tr.guard? with
    | none => rfl
    | some g => exact hguard g hg

/-- A state offers the first of its transitions that passes the test. -/
theorem Node.firstBy_iff {n : Node C} {test : Transition C → Bool} {s : Selected C} :
    n.firstBy test = some s ↔ n.id = s.ref.source ∧
      n.transitions[s.ref.index]? = some s.transition ∧ test s.transition = true ∧
      ∀ j < s.ref.index, ∀ tr, n.transitions[j]? = some tr → test tr = false := by
  simp only [firstBy]
  constructor
  · intro h
    split at h
    · cases h
    · rename_i i hi
      obtain ⟨tr, htr, rfl⟩ := Option.map_eq_some_iff.1 h
      obtain ⟨hlt, htest, hbefore⟩ := List.findIdx?_eq_some_iff_getElem.1 hi
      obtain ⟨_, hget⟩ := List.getElem?_eq_some_iff.1 htr
      refine ⟨rfl, htr, hget ▸ htest, fun j hj other hother => ?_⟩
      obtain ⟨_, hget'⟩ := List.getElem?_eq_some_iff.1 hother
      rw [← hget', ← Bool.not_eq_true]
      exact hbefore j hj
  · rintro ⟨hid, htr, htest, hbefore⟩
    obtain ⟨hlt, hget⟩ := List.getElem?_eq_some_iff.1 htr
    have hfirst : n.transitions.findIdx? test = some s.ref.index := by
      refine List.findIdx?_eq_some_iff_getElem.2 ⟨hlt, hget ▸ htest, fun j hj => ?_⟩
      rw [hbefore j hj _ (List.getElem?_eq_getElem (Nat.lt_trans hj hlt))]
      exact Bool.false_ne_true
    simp only [hfirst, htr, Option.map_some, hid]

namespace Tree

/-! ## The sweep -/

section Sweep

variable {test : StateId → Transition C → Bool} {n : Node C} {ns : List (Node C)} {s : Selected C}

/-- Where a state offers something, something is selected at the state or below it. -/
theorem exists_sweep (hn : n ∈ ns) (hoffer : n.firstBy (test n.id) ≠ none) :
    ∃ s ∈ ns.foldr (sweepStep test) [], s.ref.source.Within n.id := by
  induction ns with
  | nil => cases hn
  | cons m rest ih =>
    rcases List.mem_cons.1 hn with rfl | hn
    · by_cases hnone : ∀ below ∈ rest.foldr (sweepStep test) [],
          n.id.isAncestorOf below.ref.source = false
      · obtain ⟨s, hs⟩ := Option.ne_none_iff_exists'.1 hoffer
        refine ⟨s, mem_sweepStep.2 (.inr ⟨hnone, hs⟩), ?_⟩
        rw [(Node.firstBy_eq_some hs).1]
        exact .refl _
      · obtain ⟨below, hbelow, habove⟩ : ∃ below ∈ rest.foldr (sweepStep test) [],
            n.id.isAncestorOf below.ref.source = true := by simpa using hnone
        exact ⟨below, mem_sweepStep.2 (.inl hbelow), StateId.within_of_isAncestorOf habove⟩
    · obtain ⟨s, hs, hw⟩ := ih hn
      exact ⟨s, mem_sweepStep.2 (.inl hs), hw⟩

/-- If states stand before those below them, the sweep takes what is offered where nothing is
offered below. -/
theorem mem_sweep (hordered : ns.Pairwise fun n m => m.id.isAncestorOf n.id = false) :
    s ∈ ns.foldr (sweepStep test) [] ↔ ∃ n ∈ ns, n.firstBy (test n.id) = some s ∧
      ∀ m ∈ ns, n.id.isAncestorOf m.id = true → m.firstBy (test m.id) = none := by
  induction ns with
  | nil => simp
  | cons n rest ih =>
    obtain ⟨hfirst, hrest⟩ := List.pairwise_cons.1 hordered
    have hself : n.id.isAncestorOf n.id = false := by
      rw [← Bool.not_eq_true]
      exact fun h => StateId.ne_of_isAncestorOf h rfl
    -- What is selected behind the state tells what is offered there.
    have hbelow : (∀ below ∈ rest.foldr (sweepStep test) [],
          n.id.isAncestorOf below.ref.source = false) ↔
        ∀ m ∈ rest, n.id.isAncestorOf m.id = true → m.firstBy (test m.id) = none := by
      constructor
      · intro hnone m hm habove
        by_contra hoffer
        obtain ⟨below, hmem, hw⟩ := exists_sweep hm hoffer
        have hanc := StateId.isAncestorOf_of_within habove hw
        rw [hnone below hmem] at hanc
        cases hanc
      · intro hnone below hmem
        obtain ⟨m, hm, hoffer⟩ := exists_of_mem_sweep hmem
        rw [(Node.firstBy_eq_some hoffer).1, ← Bool.not_eq_true]
        intro habove
        rw [hnone m hm habove] at hoffer
        cases hoffer
    rw [List.foldr_cons, mem_sweepStep, ih hrest, hbelow]
    constructor
    · rintro (⟨m, hm, hoffer, hnone⟩ | ⟨hnone, hoffer⟩)
      · refine ⟨m, List.mem_cons_of_mem _ hm, hoffer, List.forall_mem_cons.2 ⟨?_, hnone⟩⟩
        rw [hfirst m hm]
        exact fun habove => Bool.noConfusion habove
      · refine ⟨n, List.mem_cons_self, hoffer, List.forall_mem_cons.2 ⟨?_, hnone⟩⟩
        rw [hself]
        exact fun habove => Bool.noConfusion habove
    · rintro ⟨m, hm, hoffer, hnone⟩
      have hbehind := (List.forall_mem_cons.1 hnone).2
      rcases List.mem_cons.1 hm with rfl | hm
      · exact .inr ⟨hbehind, hoffer⟩
      · exact .inl ⟨m, hm, hoffer, hbehind⟩

/-- The sweep keeps the order of the states. -/
theorem sweep_sublist (test : StateId → Transition C → Bool) (ns : List (Node C)) :
    ((ns.foldr (sweepStep test) []).map (·.ref.source)).Sublist (ns.map Node.id) := by
  induction ns with
  | nil => exact .slnil
  | cons n rest ih =>
    rw [List.foldr_cons, List.map_cons, sweepStep]
    split
    · exact ih.cons _
    · split
      · rename_i s hs
        rw [List.map_cons, (Node.firstBy_eq_some hs).1]
        exact ih.cons_cons _
      · exact ih.cons _

end Sweep

/-! ## Selection -/

/-- A transition prevails if it is the first one to answer at its state, the state is active, and no
transition answers at an active state below. -/
structure Prevails (t : Tree C) (c : Configuration) (context : C) (event : Event)
    (s : Selected C) : Prop where
  active : s.ref.source ∈ c
  answers : s.transition.Answers s.ref.source c context event
  first : ∃ n ∈ t.nodes, n.id = s.ref.source ∧
    n.transitions[s.ref.index]? = some s.transition ∧
      ∀ j < s.ref.index, ∀ tr, n.transitions[j]? = some tr → ¬ tr.Answers n.id c context event
  deepest : ∀ m ∈ t.nodes, m.id ∈ c → s.ref.source.isAncestorOf m.id = true →
    ∀ tr ∈ m.transitions, ¬ tr.Answers m.id c context event

variable {t : Tree C} {c : Configuration} {context : C} {event : Event} {s : Selected C}

/-- What is offered at an active state is selected if nothing is offered at an active state
below. -/
theorem mem_selectBy_iff (h : t.WellFormed) {test : StateId → Transition C → Bool} :
    s ∈ t.selectBy c test ↔ ∃ n ∈ t.active c, n.firstBy (test n.id) = some s ∧
      ∀ m ∈ t.active c, n.id.isAncestorOf m.id = true → m.firstBy (test m.id) = none :=
  mem_sweep (h.ordered.filter _)

theorem mem_select_iff (h : t.WellFormed) :
    s ∈ t.select c context event ↔ t.Prevails c context event s := by
  rw [select, mem_selectBy_iff h]
  simp only [Node.firstBy_iff, Node.firstBy_eq_none, ← Bool.not_eq_true, Transition.isEnabled_iff,
    mem_active]
  constructor
  · rintro ⟨n, ⟨hn, hactive⟩, ⟨hid, htr, hanswers, hfirst⟩, hdeepest⟩
    rw [hid] at hactive hanswers hdeepest
    exact ⟨hactive, hanswers, ⟨n, hn, hid, htr, hfirst⟩, fun m hm hmc => hdeepest m ⟨hm, hmc⟩⟩
  · rintro ⟨hactive, hanswers, ⟨n, hn, hid, htr, hfirst⟩, hdeepest⟩
    rw [← hid] at hactive hanswers hdeepest
    exact ⟨n, ⟨hn, hactive⟩, ⟨hid, htr, hanswers, hfirst⟩, fun m hm => hdeepest m hm.1 hm.2⟩

/-- The states of the selected transitions stand in document order. -/
theorem select_sublist (t : Tree C) (c : Configuration) (context : C) (event : Event) :
    ((t.select c context event).map (·.ref.source)).Sublist t.ids :=
  (sweep_sublist _ _).trans (List.filter_sublist.map _)

theorem select_nodup (h : t.WellFormed) :
    ((t.select c context event).map (·.ref.source)).Nodup :=
  (select_sublist t c context event).nodup h.ids_nodup

/-- No state of a selected transition is above another. -/
theorem select_apart (h : t.WellFormed) {s' : Selected C} (hs : s ∈ t.select c context event)
    (hs' : s' ∈ t.select c context event) :
    s.ref.source.isAncestorOf s'.ref.source = false := by
  have hs := (mem_select_iff h).1 hs
  have hs' := (mem_select_iff h).1 hs'
  obtain ⟨n, hn, hid, htr, -⟩ := hs'.first
  rw [← Bool.not_eq_true]
  intro habove
  refine hs.deepest n hn (hid ▸ hs'.active) (hid ▸ habove) _ (List.mem_of_getElem? htr) ?_
  rw [hid]
  exact hs'.answers

/-- In every configuration, exactly the transitions that prevail are selected. They stand in
document order, each state has at most one of them, and none of their states is above another. -/
theorem select_exact {d : NodeDef C} (hb : Tree.build d = .ok t) (c : Configuration) (context : C)
    (event : Event) :
    (∀ s, s ∈ t.select c context event ↔ t.Prevails c context event s) ∧
      ((t.select c context event).map (·.ref.source)).Sublist t.ids ∧
      ((t.select c context event).map (·.ref.source)).Nodup ∧
      ∀ s ∈ t.select c context event, ∀ s' ∈ t.select c context event,
        s.ref.source.isAncestorOf s'.ref.source = false := by
  have h := Tree.build_wellFormed hb
  exact ⟨fun s => mem_select_iff h, select_sublist t c context event, select_nodup h,
    fun s hs s' hs' => select_apart h hs hs'⟩

end Tree

/-! States within each other that all listen to one event. The middle one asks for a state that is
never active next to it, and then swallows the event. -/

def nesting : NodeDef Nat where
  key := "m"
  kind := .compound "outer" []
  transitions := [{ event := .named "go", targets := ["away"] }]
  children := [
    { key := "outer", kind := .compound "inner" [],
      transitions := [
        { event := .named "go", targets := ["away"], guard := some (.inState "away") },
        { event := .named "go", forbidden := true }],
      children := [
        { key := "inner", kind := .atomic,
          transitions := [
            { event := .named "go", targets := ["inner"], guard := some (.context (0 < ·)) }] }] },
    { key := "away", kind := .atomic,
      transitions := [{ event := .named "go", targets := ["outer"] }] }]

def nestingTree : Tree Nat where
  root := ⟨⟨["m"]⟩, .compound [⟨["m", "outer"]⟩, ⟨["m", "away"]⟩] ⟨["m", "outer"]⟩ [], [], [],
    [.taken (.named "go") none [⟨["m", "away"]⟩] []], []⟩
  rest := [
    ⟨⟨["m", "outer"]⟩, .compound [⟨["m", "outer", "inner"]⟩] ⟨["m", "outer", "inner"]⟩ [], [], [],
      [.taken (.named "go") (some (.inState ⟨["m", "away"]⟩)) [⟨["m", "away"]⟩] [],
        .forbidden (.named "go")], []⟩,
    ⟨⟨["m", "outer", "inner"]⟩, .atomic, [], [],
      [.taken (.named "go") (some (.context (0 < ·))) [⟨["m", "outer", "inner"]⟩] []], []⟩,
    ⟨⟨["m", "away"]⟩, .atomic, [], [], [.taken (.named "go") none [⟨["m", "outer"]⟩] []], []⟩]

/-- The innermost state does not answer, and the one around it swallows the event. -/
theorem nesting_exact :
    Tree.build nesting = .ok nestingTree ∧
      nestingTree.Prevails (.ofList [⟨["m"]⟩, ⟨["m", "outer"]⟩, ⟨["m", "outer", "inner"]⟩]) 0
        (.named "go" .null) ⟨⟨⟨["m", "outer"]⟩, 1⟩, .forbidden (.named "go")⟩ := by
  have hbuild : Tree.build nesting = .ok nestingTree := rfl
  have hselected : nestingTree.select
      (.ofList [⟨["m"]⟩, ⟨["m", "outer"]⟩, ⟨["m", "outer", "inner"]⟩]) 0 (.named "go" .null) =
        [⟨⟨⟨["m", "outer"]⟩, 1⟩, .forbidden (.named "go")⟩] := rfl
  obtain ⟨hexact, -⟩ := Tree.select_exact hbuild
    (.ofList [⟨["m"]⟩, ⟨["m", "outer"]⟩, ⟨["m", "outer", "inner"]⟩]) 0 (.named "go" .null)
  refine ⟨hbuild, (hexact _).1 ?_⟩
  rw [hselected]
  exact List.mem_singleton_self _

end Statechart
