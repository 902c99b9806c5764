import Mathlib.Data.List.Sort
import Mathlib.Data.String.Basic
import Statechart.Proofs.Precedence

/-!
# Statechart.Proofs.Prospects

The names of the events that would be taken, which are found by a selection that leaves guards
aside. Such a selection may settle on another transition than the event does, further inside, so the
two selections are compared at the states where one of them ends.

* `Tree.mem_nextEvents`: the names, by the selection that leaves guards aside.
* `Tree.mem_select_of_forbidden`: a forbidden transition has no guard, so if it is found with guards
  aside it is selected.
* `Tree.selectBy_congr`: tests that agree on the active states select the same.
* `Tree.nextEvents_exact`: no event that is taken is missing, and none is named for nothing.
-/

namespace Statechart

variable {C : Type}

theorem EventPattern.accepts_named {p : EventPattern} {source : StateId} {name : String}
    {data : Json} : p.accepts source (.named name data) = true ↔ p = .named name := by
  cases p <;> simp [accepts]

theorem EventPattern.name?_eq_some {p : EventPattern} {name : String} :
    p.name? = some name ↔ p = .named name := by
  cases p <;> simp [name?]

namespace Tree

/-- Does a transition listen for events of this name? -/
def listens (name : String) (source : StateId) (tr : Transition C) : Bool :=
  tr.event.accepts source (.named name .null)

theorem listens_iff {name : String} {source : StateId} {tr : Transition C} :
    listens name source tr = true ↔ tr.event = .named name :=
  EventPattern.accepts_named

/-- With this context and these data, every guard holds that an active state puts on an event of
this name. -/
def GuardsHold (t : Tree C) (c : Configuration) (context : C) (name : String) (data : Json) :
    Prop :=
  ∀ n ∈ t.nodes, n.id ∈ c → ∀ tr ∈ n.transitions, tr.event = .named name →
    ∀ g, tr.guard? = some g → g.evaluate c context data = true

variable {t : Tree C} {c : Configuration} {context : C} {name : String} {data : Json}
  {s : Selected C}

/-! ## The names -/

theorem mem_nextEvents :
    name ∈ t.nextEvents c ↔
      ∃ s ∈ t.selectBy c (listens name), s.transition.isForbidden = false := by
  have htake : t.wouldTake c name = true ↔
      ∃ s ∈ t.selectBy c (listens name), s.transition.isForbidden = false := by
    show (t.selectBy c (listens name)).any (fun s => !s.transition.isForbidden) = true ↔ _
    simp
  rw [nextEvents, List.mem_mergeSort, List.mem_filter, htake, and_iff_right_iff_imp]
  rintro ⟨s, hs, -⟩
  -- What would take the event stands at an active state, so its name is collected.
  obtain ⟨n, hn, hoffer⟩ := mem_selectBy hs
  obtain ⟨-, htr, hlistens⟩ := Node.firstBy_eq_some hoffer
  exact List.mem_eraseDups.2 (List.mem_flatMap.2 ⟨n, hn, List.mem_filterMap.2
    ⟨s.transition, htr, EventPattern.name?_eq_some.2 (listens_iff.1 hlistens)⟩⟩)

theorem nextEvents_sorted (t : Tree C) (c : Configuration) :
    (t.nextEvents c).Pairwise (· ≤ ·) :=
  List.pairwise_mergeSort' _ _

theorem nextEvents_nodup (t : Tree C) (c : Configuration) : (t.nextEvents c).Nodup :=
  (List.mergeSort_perm _ _).nodup_iff.2 ((eraseDups_nodup _).filter _)

/-! ## Selections with and without guards -/

theorem isEnabled_named {tr : Transition C} {source : StateId} :
    tr.isEnabled source c context (.named name data) = true ↔ tr.event = .named name ∧
      ∀ g, tr.guard? = some g → g.evaluate c context data = true := by
  rw [Transition.isEnabled_iff]
  constructor
  · rintro ⟨hlistens, hguard⟩
    exact ⟨EventPattern.accepts_named.1 hlistens, hguard⟩
  · rintro ⟨hlistens, hguard⟩
    exact ⟨EventPattern.accepts_named.2 hlistens, hguard⟩

/-- A forbidden transition that comes first with guards aside comes first with guards. -/
theorem firstBy_of_forbidden {n : Node C} (hs : n.firstBy (listens name n.id) = some s)
    (hforbidden : s.transition.isForbidden = true) :
    n.firstBy (fun tr => tr.isEnabled n.id c context (.named name data)) = some s := by
  obtain ⟨hid, htr, hlistens, hbefore⟩ := Node.firstBy_iff.1 hs
  refine Node.firstBy_iff.2 ⟨hid, htr, isEnabled_named.2 ⟨listens_iff.1 hlistens, ?_⟩, ?_⟩
  · intro g hg
    cases hcase : s.transition with
    | forbidden event => rw [hcase] at hg; cases hg
    | taken event guard targets actions => rw [hcase] at hforbidden; cases hforbidden
  · intro j hj tr hget
    have hnot := hbefore j hj tr hget
    rw [← Bool.not_eq_true, listens_iff] at hnot
    rw [← Bool.not_eq_true, isEnabled_named]
    exact fun henabled => hnot henabled.1

theorem mem_select_of_forbidden (h : t.WellFormed) (hs : s ∈ t.selectBy c (listens name))
    (hforbidden : s.transition.isForbidden = true) :
    s ∈ t.select c context (.named name data) := by
  obtain ⟨n, hn, hoffer, hnone⟩ := (mem_selectBy_iff h).1 hs
  refine (mem_selectBy_iff h).2 ⟨n, hn, firstBy_of_forbidden hoffer hforbidden, ?_⟩
  intro m hm habove
  refine Node.firstBy_eq_none.2 fun tr htr => ?_
  have hnot := Node.firstBy_eq_none.1 (hnone m hm habove) tr htr
  rw [← Bool.not_eq_true, listens_iff] at hnot
  rw [← Bool.not_eq_true, isEnabled_named]
  exact fun henabled => hnot henabled.1

theorem firstBy_congr {n : Node C} {test test' : Transition C → Bool}
    (hsame : ∀ tr ∈ n.transitions, test tr = test' tr) : n.firstBy test = n.firstBy test' := by
  have hindex : ∀ trs ⊆ n.transitions, trs.findIdx? test = trs.findIdx? test' := by
    intro trs hsub
    induction trs with
    | nil => rfl
    | cons tr rest ih =>
      obtain ⟨htr, hrest⟩ := List.cons_subset.1 hsub
      rw [List.findIdx?_cons, List.findIdx?_cons, hsame tr htr, ih hrest]
  simp only [Node.firstBy, hindex _ (List.Subset.refl _)]

theorem selectBy_congr {test test' : StateId → Transition C → Bool}
    (hsame : ∀ n ∈ t.active c, ∀ tr ∈ n.transitions, test n.id tr = test' n.id tr) :
    t.selectBy c test = t.selectBy c test' := by
  refine List.foldr_ext _ _ _ fun n hn selected => ?_
  rw [sweepStep, sweepStep, firstBy_congr (hsame n hn)]

theorem select_eq_of_guardsHold (hguards : t.GuardsHold c context name data) :
    t.select c context (.named name data) = t.selectBy c (listens name) := by
  refine selectBy_congr fun n hn tr htr => Bool.eq_iff_iff.2 ?_
  obtain ⟨hmem, hactive⟩ := mem_active.1 hn
  rw [isEnabled_named, listens_iff]
  exact and_iff_left_of_imp (hguards n hmem hactive tr htr)

/-! ## Events that are taken -/

/-- Two selected transitions are the same if the state of one lies within the state of the
other. -/
theorem eq_of_mem_select (h : t.WellFormed) {event : Event} {s s' : Selected C}
    (hs : s ∈ t.select c context event) (hs' : s' ∈ t.select c context event)
    (hw : s'.ref.source.Within s.ref.source) : s' = s := by
  refine List.inj_on_of_nodup_map (select_nodup h) hs' hs
    ((StateId.within_iff.1 hw).resolve_right ?_)
  rw [select_apart h hs hs']
  exact Bool.false_ne_true

theorem mem_nextEvents_of_select (h : t.WellFormed)
    (hs : s ∈ t.select c context (.named name data)) (hallowed : s.transition.isForbidden = false) :
    name ∈ t.nextEvents c := by
  obtain ⟨n, hn, hoffer⟩ := mem_selectBy hs
  obtain ⟨hid, htr, henabled⟩ := Node.firstBy_eq_some hoffer
  have hlistens : n.firstBy (listens name n.id) ≠ none := by
    intro hnone
    rw [Node.firstBy_eq_none] at hnone
    have hnot := hnone _ htr
    rw [← Bool.not_eq_true, listens_iff] at hnot
    exact hnot (isEnabled_named.1 henabled).1
  obtain ⟨found, hfound, hw⟩ :
      ∃ s ∈ t.selectBy c (listens name), s.ref.source.Within n.id := exists_sweep hn hlistens
  refine mem_nextEvents.2 ⟨found, hfound, ?_⟩
  by_contra hforbidden
  rw [Bool.not_eq_false] at hforbidden
  -- If what is found with guards aside is forbidden, it is selected, so it is what is taken.
  have hsame := eq_of_mem_select h hs (mem_select_of_forbidden h hfound hforbidden) (hid ▸ hw)
  rw [hsame, hallowed] at hforbidden
  cases hforbidden

/-- An event that selects a transition which is not forbidden is named. If all guards on an event
hold at the active states, it is named only if it selects such a transition. The names are sorted
and distinct. -/
theorem nextEvents_exact {d : NodeDef C} (hb : Tree.build d = .ok t) (c : Configuration) :
    (∀ context name data, (∃ s ∈ t.select c context (.named name data),
        s.transition.isForbidden = false) → name ∈ t.nextEvents c) ∧
      (∀ context name data, t.GuardsHold c context name data → name ∈ t.nextEvents c →
        ∃ s ∈ t.select c context (.named name data), s.transition.isForbidden = false) ∧
      (t.nextEvents c).Pairwise (· ≤ ·) ∧ (t.nextEvents c).Nodup := by
  refine ⟨?_, ?_, nextEvents_sorted t c, nextEvents_nodup t c⟩
  · rintro context name data ⟨s, hs, hallowed⟩
    exact mem_nextEvents_of_select (build_wellFormed hb) hs hallowed
  · intro context name data hguards hname
    rw [select_eq_of_guardsHold hguards]
    exact mem_nextEvents.1 hname

end Tree

/-- In `nesting`, the event is named because of the innermost state, and taken there if its guard
holds. If it does not hold, the state around it swallows the event. -/
theorem nesting_prospects :
    Tree.build nesting = .ok nestingTree ∧
      "go" ∈ nestingTree.nextEvents
        (.ofList [⟨["m"]⟩, ⟨["m", "outer"]⟩, ⟨["m", "outer", "inner"]⟩]) ∧
      (nestingTree.select (.ofList [⟨["m"]⟩, ⟨["m", "outer"]⟩, ⟨["m", "outer", "inner"]⟩]) 0
        (.named "go" .null)).map (·.transition.isForbidden) = [true] := by
  have hbuild : Tree.build nesting = .ok nestingTree := rfl
  obtain ⟨hnamed, -⟩ := Tree.nextEvents_exact hbuild
    (.ofList [⟨["m"]⟩, ⟨["m", "outer"]⟩, ⟨["m", "outer", "inner"]⟩])
  exact ⟨hbuild, hnamed 1 "go" .null ⟨_, List.mem_singleton_self _, rfl⟩, rfl⟩

end Statechart
