import Statechart.Proofs.Bare
import Statechart.Proofs.Extent
import Statechart.Proofs.Stabilization

/-!
# Statechart.Proofs.Independence

Transitions that do not get in each other's way. A step is planned from what is active below the
state that it stays inside, and changes nothing else. So steps that stay inside states of which none
is within another can be taken in any order.

* `Tree.Reach`: what lies below the state that the step of a transition stays inside.
* `Tree.planWithin_congr`, `Tree.plan_congr`: a plan looks at nothing outside.
* `Tree.takeAll_reach`: a run of such transitions, with a description of its end that does not
  mention their order.
* `Tree.takeAll_independent`: every order.
-/

namespace Statechart

variable {C : Type}

/-- The microstep that takes a transition as planned. -/
def Selected.microstep (s : Selected C) (event : Event) (p : Plan) : Microstep :=
  ⟨.event event s.ref, p.exited, p.entered⟩

namespace Tree

variable {t : Tree C} {c c' : Configuration} {event : Event} {s s' : Selected C}

/-! ## What a plan looks at -/

section Step

variable {top : Node C} {boundary : Option StateId} {target : StateId}

theorem activeBranch_congr {top : StateId} (hsame : ∀ id, id.Within top → (id ∈ c ↔ id ∈ c')) :
    t.activeBranch c top = t.activeBranch c' top := by
  rw [activeBranch, activeBranch]
  refine congrArg List.reverse (List.filter_congr fun id hid => ?_)
  rw [Bool.eq_iff_iff, Configuration.contains_iff, Configuration.contains_iff]
  refine hsame id ?_
  rcases List.mem_cons.1 hid with rfl | hid
  · exact .refl _
  · exact StateId.within_of_isAncestorOf (mem_descendants.1 hid).2

theorem exitRoots_congr (h : t.WellFormed) (hn : top ∈ t.nodes)
    (hsame : ∀ id, top.id.isAncestorOf id = true → (id ∈ c ↔ id ∈ c')) :
    t.exitRoots c top.id boundary target = t.exitRoots c' top.id boundary target := by
  have hkind := h.kind?_id hn
  cases hk : top.kind with
  | atomic => rw [hk] at hkind; simp only [exitRoots, hkind]
  | final => rw [hk] at hkind; simp only [exitRoots, hkind]
  | orthogonal children => rw [hk] at hkind; simp only [exitRoots, hkind]
  | compound children initial actions =>
    rw [hk] at hkind
    have hactive : children.filter c.contains = children.filter c'.contains := by
      refine List.filter_congr fun x hx => ?_
      have hparent := (h.child_mem hn (by rw [hk]; exact hx)).2
      rw [Bool.eq_iff_iff, Configuration.contains_iff, Configuration.contains_iff]
      exact hsame x (StateId.isAncestorOf_of_parent? hparent)
    simp only [exitRoots, hkind, hactive]

/-- A step is planned from what is active below the state that it stays inside. -/
theorem planWithin_congr (h : t.WellFormed) (hs : t.StepsInside top boundary target)
    (hsame : ∀ id, top.id.isAncestorOf id = true → (id ∈ c ↔ id ∈ c')) :
    t.planWithin c top.id boundary target = t.planWithin c' top.id boundary target := by
  have hexited : (t.planWithin c top.id boundary target).exited =
      (t.planWithin c' top.id boundary target).exited := by
    show (t.exitRoots c top.id boundary target).flatMap (t.activeBranch c) =
      (t.exitRoots c' top.id boundary target).flatMap (t.activeBranch c')
    rw [← exitRoots_congr h hs.mem hsame, List.flatMap_def, List.flatMap_def]
    refine congrArg List.flatten (List.map_congr_left fun r hr => ?_)
    refine activeBranch_congr fun id hid => ?_
    have hbelow := StateId.isAncestorOf_of_parent? (exitRoots_child h hs r hr)
    exact hsame id (StateId.isAncestorOf_of_within hbelow hid)
  have hentered : (t.planWithin c top.id boundary target).entered =
      (t.planWithin c' top.id boundary target).entered := by
    rw [planWithin_entered, planWithin_entered, hexited]
    refine List.filter_congr fun id hid => ?_
    have hbelow := ((mem_way h hs).1 hid).2
    rw [Bool.eq_iff_iff, Bool.not_eq_true', Bool.not_eq_true', Configuration.contains_eq_false,
      Configuration.contains_eq_false, Configuration.mem_eraseAll, Configuration.mem_eraseAll,
      hsame id hbelow]
  exact congrArg₂ Plan.mk hexited hentered

end Step

/-! ## What a transition may touch -/

/-- What lies below a state that a step of the transition stays inside. -/
def Reach (t : Tree C) (s : Selected C) (id : StateId) : Prop :=
  ∃ target ∈ s.transition.targets, ∃ top, t.StaysInside s.ref.source target top ∧
    top.id.isAncestorOf id = true

/-- The states that the steps of the transitions stay inside are different, and none is above
another. -/
def Independent (t : Tree C) (s s' : Selected C) : Prop :=
  ∀ target ∈ s.transition.targets, ∀ target' ∈ s'.transition.targets, ∀ top top',
    t.StaysInside s.ref.source target top → t.StaysInside s'.ref.source target' top' →
      ¬ top.id.Within top'.id ∧ ¬ top'.id.Within top.id

theorem Independent.symm (hi : t.Independent s s') : t.Independent s' s :=
  fun target htarget target' htarget' top top' hin hin' =>
    (hi target' htarget' target htarget top' top hin' hin).symm

theorem Independent.not_reach (hi : t.Independent s s') {id : StateId} (hid : t.Reach s' id) :
    ¬ t.Reach s id := by
  rintro ⟨target, htarget, top, hin, habove⟩
  obtain ⟨target', htarget', top', hin', habove'⟩ := hid
  obtain ⟨hnot, hnot'⟩ := hi target htarget target' htarget' top top' hin hin'
  rcases (StateId.within_of_isAncestorOf habove).total (StateId.within_of_isAncestorOf habove')
    with hw | hw
  · exact hnot hw
  · exact hnot' hw

section Reach

variable {target : StateId} {p : Plan}

/-- Every step of a transition stays inside some state. -/
theorem Offers.staysInside (h : t.WellFormed) (hs : t.Offers s)
    (htarget : target ∈ s.transition.targets) : ∃ top, t.StaysInside s.ref.source target top := by
  obtain ⟨hmem, hroot⟩ := hs.target_mem h htarget
  exact exists_staysInside h hs.source_mem hmem hroot

/-- The steps of a transition are planned from what is active in its reach. -/
theorem plan_congr (h : t.WellFormed) (hs : t.Offers s) (htarget : target ∈ s.transition.targets)
    (hsame : ∀ id, t.Reach s id → (id ∈ c ↔ id ∈ c')) :
    t.plan c s.ref.source target = t.plan c' s.ref.source target := by
  obtain ⟨hmem, hroot⟩ := hs.target_mem h htarget
  obtain ⟨top, hin⟩ := hs.staysInside h htarget
  obtain ⟨boundary, hinside, hplan, -⟩ := hin.planned h hmem hroot
  rw [hplan, hplan, planWithin_congr h hinside]
  exact fun id hid => hsame id ⟨target, htarget, top, hin, hid⟩

/-- A step of a transition leaves and enters only what is in its reach. -/
theorem reach_of_plan (h : t.WellFormed) (hs : t.Offers s) (htarget : target ∈ s.transition.targets)
    (hp : t.plan c s.ref.source target = .ok p) {id : StateId}
    (hid : id ∈ p.exited ∨ id ∈ p.entered) : t.Reach s id := by
  obtain ⟨hmem, hroot⟩ := hs.target_mem h htarget
  obtain ⟨top, hin⟩ := hs.staysInside h htarget
  obtain ⟨boundary, hinside, hplan, -⟩ := hin.planned h hmem hroot
  rw [hplan] at hp
  obtain rfl := Except.ok.inj hp
  refine ⟨target, htarget, top, hin, ?_⟩
  rcases hid with hid | hid
  · exact isAncestorOf_of_mem_exited h hinside hid
  · exact ((mem_way h hinside).1 (List.mem_filter.1 hid).1).2

/-- The source of an independent transition is out of reach. -/
theorem Independent.not_reach_source (h : t.WellFormed) (hi : t.Independent s s')
    (hs' : t.Offers s') (htarget : target ∈ s'.transition.targets) :
    ¬ t.Reach s s'.ref.source := by
  obtain ⟨top, hin⟩ := hs'.staysInside h htarget
  rcases hin with ⟨hn, ⟨hroot, rfl⟩ | ⟨hroot, hlca⟩⟩
  · rintro ⟨-, -, other, ⟨hother, -⟩, habove⟩
    rw [hroot] at habove
    exact h.not_isAncestorOf_root (id_mem_ids hother) habove
  · have habove := (StateId.mem_ancestors.1 (StateId.lca_eq_some hlca).1).2
    exact hi.not_reach ⟨target, htarget, top, ⟨hn, .inr ⟨hroot, hlca⟩⟩, habove⟩

end Reach

/-! ## Runs of independent transitions -/

/-- A transition of the chart to one target, and its plan in this configuration. -/
def Single (t : Tree C) (c : Configuration) (s : Selected C) (p : Plan) : Prop :=
  t.Offers s ∧ ∃ target, s.transition.targets = [target] ∧ t.plan c s.ref.source target = .ok p

theorem Single.reach (h : t.WellFormed) {p : Plan} (hs : t.Single c s p) {id : StateId}
    (hid : id ∈ p.exited ∨ id ∈ p.entered) : t.Reach s id := by
  obtain ⟨hoffers, target, htargets, hp⟩ := hs
  exact reach_of_plan h hoffers (by simp [htargets]) hp hid

theorem Single.congr (h : t.WellFormed) {p : Plan} (hs : t.Single c s p)
    (hsame : ∀ id, t.Reach s id → (id ∈ c ↔ id ∈ c')) : t.Single c' s p := by
  obtain ⟨hoffers, target, htargets, hp⟩ := hs
  have htarget : target ∈ s.transition.targets := by simp [htargets]
  exact ⟨hoffers, target, htargets, (plan_congr h hoffers htarget hsame).symm.trans hp⟩

theorem exists_single (h : t.WellFormed) (hs : t.Offers s)
    (hone : s.transition.targets.length = 1) : ∃ p, t.Single c s p := by
  obtain ⟨target, htargets⟩ := List.length_eq_one_iff.1 hone
  have htarget : target ∈ s.transition.targets := by simp [htargets]
  obtain ⟨hmem, hroot⟩ := hs.target_mem h htarget
  obtain ⟨p, hp⟩ := exists_plan h c hs.source_mem hmem hroot
  exact ⟨p, hs, target, htargets, hp⟩

/-- A transition to one target is taken as planned. -/
theorem Single.takeAll {run : Run C} {p : Plan} (hs : t.Single run.configuration s p)
    (hactive : s.ref.source ∈ run.configuration) (event : Event) (rest : List (Selected C)) :
    ∃ mid, mid.configuration = p.applyTo run.configuration ∧
      t.takeAll event (s :: rest) run =
        ((t.takeAll event rest mid).1.map (s.microstep event p :: ·),
          (t.takeAll event rest mid).2) := by
  obtain ⟨-, target, htargets, hp⟩ := hs
  let cause : Cause := ⟨"transition " ++ s.ref.text, event.data, .event event s.ref⟩
  have htargeted : s.transition.targets ≠ [] := by simp [htargets]
  have hallowed := Transition.not_forbidden_of_targets htargeted
  have htake : t.take event s run =
      (.ok [s.microstep event p], (t.apply p s.transition.actions cause run).2) := by
    simp only [take, htargets, takeTo, hp]
    rfl
  refine ⟨(t.apply p s.transition.actions cause run).2, apply_configuration _ _ _ _, ?_⟩
  rw [takeAll_cons, hallowed, Configuration.contains_iff.2 hactive, if_neg (by simp), htake]
  rfl

/-- Independent transitions are all taken, as planned where they are the first. In the end, what one
of them has entered is active, and what was active and none has left. -/
theorem takeAll_reach (h : t.WellFormed) (event : Event) {plans : Selected C → Plan}
    {order : List (Selected C)} (hapart : order.Pairwise t.Independent) {run : Run C}
    (hs : ∀ s ∈ order, t.Single run.configuration s (plans s))
    (hactive : ∀ s ∈ order, s.ref.source ∈ run.configuration) :
    ∃ last,
      t.takeAll event order run = (.ok (order.map fun s => s.microstep event (plans s)), last) ∧
      ∀ id, id ∈ last.configuration ↔ (∃ s ∈ order, id ∈ (plans s).entered) ∨
        id ∈ run.configuration ∧ ∀ s ∈ order, id ∉ (plans s).exited := by
  induction order generalizing run with
  | nil => exact ⟨run, rfl, fun id => by simp⟩
  | cons s rest ih =>
    obtain ⟨hfirst, hrest⟩ := List.forall_mem_cons.1 hs
    obtain ⟨hsource, hsources⟩ := List.forall_mem_cons.1 hactive
    obtain ⟨hothers, hapart⟩ := List.pairwise_cons.1 hapart
    obtain ⟨mid, hmid, htake⟩ := hfirst.takeAll hsource event rest
    -- The step leaves everything as it was that is out of its reach.
    have hframe : ∀ id, ¬ t.Reach s id → (id ∈ run.configuration ↔ id ∈ mid.configuration) := by
      intro id hout
      have hstays : id ∉ (plans s).exited := fun hid => hout (hfirst.reach h (.inl hid))
      have hnew : id ∉ (plans s).entered := fun hid => hout (hfirst.reach h (.inr hid))
      rw [hmid, Plan.mem_applyTo]
      tauto
    have hsingle : ∀ s' ∈ rest, t.Single mid.configuration s' (plans s') := by
      intro s' hs'
      exact (hrest s' hs').congr h fun id hid => hframe id ((hothers s' hs').not_reach hid)
    have hstill : ∀ s' ∈ rest, s'.ref.source ∈ mid.configuration := by
      intro s' hs'
      obtain ⟨hoffers, target, htargets, -⟩ := hrest s' hs'
      have htarget : target ∈ s'.transition.targets := by simp [htargets]
      have hout := (hothers s' hs').not_reach_source h hoffers htarget
      exact (hframe _ hout).1 (hsources s' hs')
    obtain ⟨last, hlast, hmem⟩ := ih hapart hsingle hstill
    refine ⟨last, ?_, fun id => ?_⟩
    · rw [htake, hlast]
      rfl
    · have hkept : id ∈ (plans s).entered → ∀ s' ∈ rest, id ∉ (plans s').exited := by
        intro hid s' hs' hexited
        exact (hothers s' hs').not_reach ((hrest s' hs').reach h (.inl hexited))
          (hfirst.reach h (.inr hid))
      rw [hmem, hmid, Plan.mem_applyTo, List.exists_mem_cons_iff, List.forall_mem_cons]
      generalize (∀ s' ∈ rest, id ∉ (plans s').exited) = kept at hkept ⊢
      generalize (∃ s' ∈ rest, id ∈ (plans s').entered) = entered
      tauto

/-- Transitions of active states to one target each, that stay inside states of which none is within
another, can be taken in any order: the same states are left and entered for each of them, namely
those that are planned where it is the first, and the same states are active in the end, both before
stabilization and after it. -/
theorem takeAll_independent {d : NodeDef C} (hb : Tree.build d = .ok t) (event : Event)
    {run : Run C} {selected : List (Selected C)}
    (hs : ∀ s ∈ selected, t.Offers s ∧ s.ref.source ∈ run.configuration ∧
      s.transition.targets.length = 1)
    (hapart : selected.Pairwise t.Independent) :
    ∃ (plans : Selected C → Plan) (c c' : Configuration),
      (∀ s ∈ selected, ∀ target ∈ s.transition.targets,
        t.plan run.configuration s.ref.source target = .ok (plans s)) ∧
      ∀ order, order.Perm selected → ∃ last,
        t.takeAll event order run = (.ok (order.map fun s => s.microstep event (plans s)), last) ∧
        last.configuration = c ∧ ∀ data, (t.stabilize data last).2.configuration = c' := by
  have h := build_wellFormed hb
  have : Nonempty Plan := ⟨{}⟩
  choose! plans hplans using fun s hsel =>
    exists_single (c := run.configuration) h (hs s hsel).1 (hs s hsel).2.2
  have hrun : ∀ order, order.Perm selected → ∃ last, t.takeAll event order run =
        (.ok (order.map fun s => s.microstep event (plans s)), last) ∧
      ∀ id, id ∈ last.configuration ↔ (∃ s ∈ selected, id ∈ (plans s).entered) ∨
        id ∈ run.configuration ∧ ∀ s ∈ selected, id ∉ (plans s).exited := by
    intro order hperm
    obtain ⟨last, hlast, hmem⟩ := takeAll_reach h event
      ((hperm.pairwise_iff Independent.symm).2 hapart)
      (fun s hsel => hplans s (hperm.mem_iff.1 hsel))
      (fun s hsel => (hs s (hperm.mem_iff.1 hsel)).2.1)
    simp only [hperm.mem_iff] at hmem
    exact ⟨last, hlast, hmem⟩
  obtain ⟨first, -, hfirst⟩ := hrun selected (.refl _)
  refine ⟨plans, first.configuration, (t.stabilize .null first).2.configuration, ?_, ?_⟩
  · intro s hsel target htarget
    obtain ⟨-, target', htargets, hp⟩ := hplans s hsel
    rw [htargets, List.mem_singleton] at htarget
    rwa [htarget]
  · intro order hperm
    obtain ⟨last, hlast, hmem⟩ := hrun order hperm
    have hsame : last.configuration = first.configuration :=
      Configuration.eq_of_mem_iff fun id => (hmem id).trans (hfirst id).symm
    refine ⟨last, hlast, hsame, fun data => ?_⟩
    have hsettles := stabilize_stabilizes (t := t) data last
    rw [hsame] at hsettles
    exact hsettles.unique h (unstable_stabilize h data last) (stabilize_stabilizes .null first)
      (unstable_stabilize h .null first)

end Tree

/-- Each region of `meddling` has a transition that stays inside it. Both orders leave the same
states behind. -/
theorem meddling_independent :
    Tree.build (meddling []) = .ok (meddlingTree []) ∧
      ∃ left right first last,
        (meddlingTree []).select meddlingStarted.configuration meddlingStarted.context
          (.named "go" .null) = [left, right] ∧ (meddlingTree []).Independent left right ∧
        (meddlingTree []).takeAll (.named "go" .null) [left, right] meddlingStarted =
          (.ok [⟨.event (.named "go" .null) left.ref, [⟨["m", "l", "a"]⟩], [⟨["m", "l", "b"]⟩]⟩,
            ⟨.event (.named "go" .null) right.ref, [⟨["m", "r", "x"]⟩], [⟨["m", "r", "y"]⟩]⟩],
            first) ∧
        (meddlingTree []).takeAll (.named "go" .null) [right, left] meddlingStarted =
          (.ok [⟨.event (.named "go" .null) right.ref, [⟨["m", "r", "x"]⟩], [⟨["m", "r", "y"]⟩]⟩,
            ⟨.event (.named "go" .null) left.ref, [⟨["m", "l", "a"]⟩], [⟨["m", "l", "b"]⟩]⟩],
            last) ∧
        last.configuration = first.configuration := by
  have hbuild : Tree.build (meddling []) = .ok (meddlingTree []) := rfl
  let left : Selected Nat :=
    ⟨⟨⟨["m", "l", "a"]⟩, 0⟩, .taken (.named "go") none [⟨["m", "l", "b"]⟩] []⟩
  let right : Selected Nat := ⟨⟨⟨["m", "r", "x"]⟩, 0⟩,
    .taken (.named "go") (some (.context (· == 0))) [⟨["m", "r", "y"]⟩] []⟩
  have hselect : (meddlingTree []).select meddlingStarted.configuration meddlingStarted.context
      (.named "go" .null) = [left, right] := rfl
  have hindependent : (meddlingTree []).Independent left right := by
    intro target htarget target' htarget' top top' hin hin'
    obtain rfl := List.mem_singleton.1 htarget
    obtain rfl := List.mem_singleton.1 htarget'
    obtain ⟨-, ⟨hroot, -⟩ | ⟨-, hlca⟩⟩ := hin
    · exact absurd hroot (by decide)
    · obtain ⟨-, ⟨hroot, -⟩ | ⟨-, hlca'⟩⟩ := hin'
      · exact absurd hroot (by decide)
      · have htop : ⟨["m", "l"]⟩ = top.id := Option.some.inj hlca
        have htop' : ⟨["m", "r"]⟩ = top'.id := Option.some.inj hlca'
        rw [← htop, ← htop']
        decide
  have hs : ∀ s ∈ [left, right], (meddlingTree []).Offers s ∧
      s.ref.source ∈ meddlingStarted.configuration ∧ s.transition.targets.length = 1 := by
    intro s hs
    obtain ⟨hoffers, hactive, -⟩ := Tree.mem_select (hselect ▸ hs)
    refine ⟨hoffers, hactive, ?_⟩
    rcases List.mem_pair.1 hs with rfl | rfl <;> rfl
  obtain ⟨plans, c, c', hplans, horders⟩ := Tree.takeAll_independent hbuild (.named "go" .null) hs
    (List.pairwise_pair.2 hindependent)
  obtain ⟨first, hfirst, hc, -⟩ := horders [left, right] (.refl _)
  obtain ⟨last, hlast, hc', -⟩ := horders [right, left] (.swap _ _ _)
  have hleft : plans left = ⟨[⟨["m", "l", "a"]⟩], [⟨["m", "l", "b"]⟩]⟩ :=
    Except.ok.inj (hplans left (by simp) _ List.mem_cons_self).symm
  have hright : plans right = ⟨[⟨["m", "r", "x"]⟩], [⟨["m", "r", "y"]⟩]⟩ :=
    Except.ok.inj (hplans right (by simp) _ List.mem_cons_self).symm
  simp only [List.map_cons, List.map_nil, Selected.microstep, hleft, hright] at hfirst hlast
  exact ⟨hbuild, left, right, first, last, hselect, hindependent, hfirst, hlast, hc'.trans hc.symm⟩

end Statechart
