import Statechart.Engine.Select

/-!
# Statechart.Proofs.Selection

Where selected transitions come from: each is a transition of an active state and passes the test
of the selection. None is selected only if no transition of an active state passes.
-/

namespace Statechart

variable {C : Type}

theorem eraseDups_nodup {α : Type} [DecidableEq α] (xs : List α) : xs.eraseDups.Nodup := by
  induction hn : xs.length using Nat.strongRecOn generalizing xs with
  | ind k ih =>
    cases xs with
    | nil => exact .nil
    | cons x rest =>
      rw [List.eraseDups_cons, List.nodup_cons]
      refine ⟨by simp [List.mem_eraseDups], ih _ ?_ _ rfl⟩
      have hle := List.length_filter_le (fun y => !y == x) rest
      rw [List.length_cons] at hn
      omega

theorem Transition.not_forbidden_of_targets {tr : Transition C} (h : tr.targets ≠ []) :
    tr.isForbidden = false := by
  cases tr with
  | forbidden event => exact absurd rfl h
  | taken event guard targets actions => rfl

theorem Node.firstBy_eq_some {n : Node C} {test : Transition C → Bool} {s : Selected C}
    (h : n.firstBy test = some s) :
    s.ref.source = n.id ∧ s.transition ∈ n.transitions ∧ test s.transition = true := by
  simp only [firstBy] at h
  split at h
  · cases h
  · rename_i i hi
    obtain ⟨tr, htr, rfl⟩ := Option.map_eq_some_iff.1 h
    obtain ⟨hlt, hget⟩ := List.getElem?_eq_some_iff.1 htr
    have htest := (List.findIdx?_eq_some_iff_getElem.1 hi).2.1
    exact ⟨rfl, hget ▸ List.getElem_mem hlt, by rw [← hget]; exact htest⟩

theorem Node.firstBy_eq_none {n : Node C} {test : Transition C → Bool} :
    n.firstBy test = none ↔ ∀ tr ∈ n.transitions, test tr = false := by
  simp only [firstBy]
  split
  · rename_i hnone
    exact iff_of_true rfl (List.findIdx?_eq_none_iff.1 hnone)
  · rename_i i hi
    obtain ⟨hlt, htest, -⟩ := List.findIdx?_eq_some_iff_getElem.1 hi
    rw [List.getElem?_eq_getElem hlt]
    refine iff_of_false (fun hsome => by cases hsome) fun hall => ?_
    rw [hall _ (List.getElem_mem hlt)] at htest
    cases htest

namespace Tree

/-- Is this a transition of a state of the chart? -/
def Offers (t : Tree C) (s : Selected C) : Prop :=
  ∃ n ∈ t.nodes, s.ref.source = n.id ∧ s.transition ∈ n.transitions

theorem mem_sweepStep {test : StateId → Transition C → Bool} {n : Node C} {s : Selected C}
    {selected : List (Selected C)} :
    s ∈ sweepStep test n selected ↔ s ∈ selected ∨
      (∀ below ∈ selected, n.id.isAncestorOf below.ref.source = false) ∧
        n.firstBy (test n.id) = some s := by
  simp only [sweepStep]
  split
  · rename_i hbelow
    obtain ⟨below, hmem, habove⟩ := List.any_eq_true.1 hbelow
    refine (or_iff_left ?_).symm
    rintro ⟨hnone, -⟩
    rw [hnone below hmem] at habove
    cases habove
  · rename_i hbelow
    have hnone : ∀ below ∈ selected, n.id.isAncestorOf below.ref.source = false := by
      simpa using hbelow
    split
    · rename_i offered hoffered
      rw [hoffered, Option.some.injEq, List.mem_cons, or_comm, and_iff_right hnone, eq_comm]
    · rename_i hoffered
      simp [hoffered]

theorem exists_of_mem_sweep {test : StateId → Transition C → Bool} {ns : List (Node C)}
    {s : Selected C} (hs : s ∈ ns.foldr (sweepStep test) []) :
    ∃ n ∈ ns, n.firstBy (test n.id) = some s := by
  induction ns with
  | nil => cases hs
  | cons n rest ih =>
    rcases mem_sweepStep.1 hs with hs | ⟨-, hs⟩
    · obtain ⟨m, hm, hsm⟩ := ih hs
      exact ⟨m, List.mem_cons_of_mem _ hm, hsm⟩
    · exact ⟨n, List.mem_cons_self, hs⟩

theorem mem_selectBy {t : Tree C} {c : Configuration} {test : StateId → Transition C → Bool}
    {s : Selected C} (h : s ∈ t.selectBy c test) :
    ∃ n ∈ t.active c, n.firstBy (test n.id) = some s :=
  exists_of_mem_sweep h

theorem selectBy_eq_nil {t : Tree C} {c : Configuration} {test : StateId → Transition C → Bool} :
    t.selectBy c test = [] ↔ ∀ n ∈ t.active c, ∀ tr ∈ n.transitions, test n.id tr = false := by
  rw [selectBy]
  induction t.active c with
  | nil => simp
  | cons n rest ih =>
    rw [List.foldr_cons, List.forall_mem_cons, ← ih, ← Node.firstBy_eq_none]
    generalize rest.foldr (sweepStep test) [] = selected
    simp only [sweepStep]
    split
    · rename_i hbelow
      obtain ⟨s, hs, -⟩ := List.any_eq_true.1 hbelow
      have hne := List.ne_nil_of_mem hs
      exact iff_of_false hne fun hnil => hne hnil.2
    · cases n.firstBy (test n.id) <;> simp

/-- A selected transition stands at an active state, and is enabled. -/
theorem mem_select {t : Tree C} {c : Configuration} {context : C} {event : Event} {s : Selected C}
    (h : s ∈ t.select c context event) :
    t.Offers s ∧ s.ref.source ∈ c ∧
      s.transition.isEnabled s.ref.source c context event = true := by
  obtain ⟨n, hn, hfirst⟩ := mem_selectBy h
  obtain ⟨hsource, htr, henabled⟩ := Node.firstBy_eq_some hfirst
  obtain ⟨hnode, hactive⟩ := List.mem_filter.1 hn
  rw [hsource]
  exact ⟨⟨n, hnode, hsource, htr⟩, Configuration.contains_iff.1 hactive, henabled⟩

/-- The start is no event that transitions listen for. -/
theorem ne_start_of_mem_select {t : Tree C} {c : Configuration} {context : C} {event : Event}
    {s : Selected C} (hs : s ∈ t.select c context event) : event ≠ .start := by
  rintro rfl
  have henabled := (mem_select hs).2.2
  simp only [Transition.isEnabled, Bool.and_eq_true] at henabled
  cases hevent : s.transition.event <;> rw [hevent] at henabled <;> cases henabled.1

end Tree

end Statechart
