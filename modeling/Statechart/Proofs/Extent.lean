import Statechart.Proofs.Legality

/-!
# Statechart.Proofs.Extent

How far a planned step reaches. In a legal configuration a step leaves everything below the state it
stays inside, or, inside an orthogonal state, the regions that take part, innermost first, and
enters the whole way to its target, outermost first. Nothing else changes.

* `Tree.StaysInside`, `Tree.TakesPart`: the state that a step stays inside, and the regions of that
  state on the sides of the source and of the target.
* `Tree.mem_exited_orthogonal`: what is left inside an orthogonal state.
* `Tree.exited_innermost`, `Tree.entered_eq_way`, `Tree.way_outermost`: the order, and the way.
* `Tree.mem_applyTo_outside`: nothing changes outside.
* `Tree.plan_exact`: all of it, for every planned step.
* `Tree.exists_staysInside`, `Tree.StaysInside.planned`: the same frame in every configuration.
-/

namespace Statechart

variable {C : Type}

namespace Tree

variable {t : Tree C} {c : Configuration}

/-- The state that a step from `source` to `target` stays inside: the root for a step of the root,
the nearest common ancestor otherwise. -/
def StaysInside (t : Tree C) (source target : StateId) (top : Node C) : Prop :=
  top ∈ t.nodes ∧
    (source = t.root.id ∧ top = t.root ∨ source ≠ t.root.id ∧ source.lca target = some top.id)

/-- Is the target or the source, unless that is the root, within this region? -/
def TakesPart (t : Tree C) (source target region : StateId) : Prop :=
  target.Within region ∨ source ≠ t.root.id ∧ source.Within region

/-- A step from `source` to `target` that stays inside `top`, in full. -/
structure Passage (t : Tree C) (c : Configuration) (source target : StateId) (top : Node C)
    (p : Plan) : Prop where
  kind : (∃ children initial actions, top.kind = .compound children initial actions) ∨
    ∃ children, top.kind = .orthogonal children
  compound : ∀ children initial actions, top.kind = .compound children initial actions →
    ∀ id, id ∈ p.exited ↔ id ∈ c ∧ top.id.isAncestorOf id = true
  orthogonal : ∀ children, top.kind = .orthogonal children →
    ∀ id, id ∈ p.exited ↔ id ∈ c ∧ ∃ r ∈ children, t.TakesPart source target r ∧ id.Within r
  once : p.exited.Nodup
  innermost : p.exited.Pairwise fun a b => a.isAncestorOf b = false
  way : ∀ id, id ∈ p.entered ↔ target.Within id ∧ top.id.isAncestorOf id = true
  outermost : p.entered.Pairwise fun a b => a.isAncestorOf b = true
  top_stays : top.id ∉ p.exited ∧ top.id ∉ p.entered
  outside : ∀ id, top.id.isAncestorOf id = false → (id ∈ p.applyTo c ↔ id ∈ c)
  beside : ∀ children, top.kind = .orthogonal children →
    ∀ r ∈ children, ¬ t.TakesPart source target r →
      ∀ id, id.Within r → (id ∈ p.applyTo c ↔ id ∈ c)
  arrives : target ∈ p.applyTo c ∧ ∀ a ∈ target.ancestors, a ∈ p.applyTo c

/-! ## Orders -/

/-- An active branch is left from the inside out. -/
theorem activeBranch_innermost (h : t.WellFormed) (top : StateId) :
    (t.activeBranch c top).Pairwise fun a b => a.isAncestorOf b = false := by
  have hids : t.ids.Pairwise fun a b => b.isAncestorOf a = false := List.pairwise_map.2 h.ordered
  rw [activeBranch, List.pairwise_reverse]
  refine List.Pairwise.filter _ (List.pairwise_cons.2 ⟨fun id hid => ?_, hids.filter _⟩)
  rw [← Bool.not_eq_true]
  exact fun habove => StateId.not_within_of_isAncestorOf habove
    (StateId.within_of_isAncestorOf (mem_descendants.1 hid).2)

theorem way_outermost {top target : StateId} :
    (way top target).Pairwise fun a b => a.isAncestorOf b = true := by
  refine List.pairwise_append.2 ⟨List.pairwise_reverse.2 ?_, List.pairwise_singleton _ _, ?_⟩
  · exact target.ancestors_pairwise.sublist (List.takeWhile_sublist _)
  · intro a ha b hb
    have hanc := (List.takeWhile_sublist _).subset (List.mem_reverse.1 ha)
    rw [List.mem_singleton.1 hb]
    exact (StateId.mem_ancestors.1 hanc).2

section Step

variable {top : Node C} {boundary : Option StateId} {source target : StateId}

/-- Different branches that a step leaves have nothing above one another. -/
theorem exited_innermost (h : t.WellFormed) (hs : t.StepsInside top boundary target) :
    (t.planWithin c top.id boundary target).exited.Pairwise
      fun a b => a.isAncestorOf b = false := by
  refine List.pairwise_flatMap.2 ⟨fun r _ => activeBranch_innermost h r, ?_⟩
  have hroots := exitRoots_child (c := c) h hs
  refine List.Pairwise.imp_of_mem ?_ (exitRoots_nodup (c := c) h hs)
  intro r r' hr hr' hne a ha b hb
  rw [← Bool.not_eq_true]
  intro habove
  have hbr := (StateId.within_of_isAncestorOf habove).trans (mem_activeBranch ha).2
  exact hne
    (StateId.eq_of_within_siblings (hroots r hr) (hroots r' hr') hbr (mem_activeBranch hb).2)

/-! ## What is left and what is entered -/

theorem parent?_of_region (h : t.WellFormed) (htop : top ∈ t.nodes) {children : List StateId}
    (hk : top.kind = .orthogonal children) {r : StateId} (hr : r ∈ children) :
    r.parent? = some top.id :=
  (h.child_mem htop (by rw [hk]; exact hr)).2

/-- Inside an orthogonal state, the regions of the source and of the target are left. -/
theorem mem_exited_orthogonal (h : t.WellFormed) (hc : t.Coherent c)
    (hs : t.StepsInside top boundary target) {children : List StateId}
    (hk : top.kind = .orthogonal children) {id : StateId} :
    id ∈ (t.planWithin c top.id boundary target).exited ↔
      id ∈ c ∧ ∃ r ∈ children, (r ∈ boundary ∨ target.Within r) ∧ id.Within r := by
  constructor
  · intro hid
    obtain ⟨hidc, r, hr, hw⟩ := mem_exited hid
    have hparent := exitRoots_child h hs r hr
    have hrc := hc.above hidc hw (StateId.keys_ne_nil_of_parent? hparent)
    have hmem := (h.mem_children hs.mem).2 ⟨hc.known r hrc, hparent⟩
    rw [hk] at hmem
    exact ⟨hidc, r, hmem, (mem_exitRoots_orthogonal h hs.mem hk hparent).1 hr, hw⟩
  · rintro ⟨hidc, r, hr, hside, hw⟩
    have hroot : r ∈ t.exitRoots c top.id boundary target :=
      (mem_exitRoots_orthogonal h hs.mem hk (parent?_of_region h hs.mem hk hr)).2 hside
    exact List.mem_flatMap.2 ⟨r, hroot, mem_activeBranch_of (hc.known id hidc) hidc hw⟩

/-- The whole way to the target is entered: what was active of it has been left. -/
theorem entered_eq_way (h : t.WellFormed) (hc : t.Coherent c)
    (hs : t.StepsInside top boundary target) (hboundary : ∀ b ∈ boundary, b ∈ c) :
    (t.planWithin c top.id boundary target).entered = way top.id target := by
  rw [planWithin_entered, List.filter_eq_self]
  intro id hid
  obtain ⟨hw, hbelow⟩ := (mem_way h hs).1 hid
  obtain ⟨b, hparent, hwithin⟩ := StateId.exists_branch (h.keys_ne_nil (id_mem_ids hs.mem)) hbelow
  rw [Bool.not_eq_true', Configuration.contains_eq_false, Configuration.mem_eraseAll]
  rintro ⟨hidc, hstay⟩
  exact hstay (mem_exited_of h hc hs (fun _ _ _ _ => hboundary) hidc hparent hwithin
    (.inr (hw.trans hwithin)))

/-- Nothing changes but below the state that a step stays inside. -/
theorem mem_applyTo_outside (h : t.WellFormed) (hs : t.StepsInside top boundary target)
    {id : StateId} (hout : top.id.isAncestorOf id = false) :
    id ∈ (t.planWithin c top.id boundary target).applyTo c ↔ id ∈ c := by
  have hstays : id ∉ (t.planWithin c top.id boundary target).exited := fun hid =>
    Bool.false_ne_true (hout.symm.trans (isAncestorOf_of_mem_exited h hs hid))
  simp [mem_applyTo_planWithin h hs, hout, hstays]

/-- The state that a step stays inside has children. -/
theorem StepsInside.branching (h : t.WellFormed) (hs : t.StepsInside top boundary target) :
    (∃ children initial actions, top.kind = .compound children initial actions) ∨
      ∃ children, top.kind = .orthogonal children := by
  obtain ⟨b, hparent, hwithin⟩ :=
    StateId.exists_branch (h.keys_ne_nil (id_mem_ids hs.mem)) hs.target_below
  have hid : b ∈ t.ids := way_mem_ids h hs
    ((mem_way h hs).2 ⟨hwithin, StateId.isAncestorOf_of_parent? hparent⟩)
  have hchild := (h.mem_children hs.mem).2 ⟨hid, hparent⟩
  cases hk : top.kind with
  | atomic => rw [hk] at hchild; cases hchild
  | final => rw [hk] at hchild; cases hchild
  | compound children initial actions => exact .inl ⟨children, initial, actions, rfl⟩
  | orthogonal children => exact .inr ⟨children, rfl⟩

/-! ## The whole step -/

theorem planWithin_passage (h : t.WellFormed) (hc : t.Coherent c)
    (hs : t.StepsInside top boundary target) (htop : top.id ∈ c) (hboundary : ∀ b ∈ boundary, b ∈ c)
    (hside : ∀ r : StateId, r.parent? = some top.id →
      (r ∈ boundary ↔ source ≠ t.root.id ∧ source.Within r)) :
    t.Passage c source target top (t.planWithin c top.id boundary target) := by
  have hentered := entered_eq_way h hc hs hboundary
  have hmem : ∀ {id : StateId}, id ∈ (t.planWithin c top.id boundary target).applyTo c ↔ _ :=
    mem_applyTo_planWithin h hs
  have hcoherent := planWithin_coherent h hc hs htop fun _ _ _ _ => hboundary
  have hregions : ∀ children, top.kind = .orthogonal children →
      ∀ id, id ∈ (t.planWithin c top.id boundary target).exited ↔
        id ∈ c ∧ ∃ r ∈ children, t.TakesPart source target r ∧ id.Within r := by
    intro children hk id
    have hparts : ∀ r ∈ children, (r ∈ boundary ∨ target.Within r ↔
        t.TakesPart source target r) := fun r hr => by
      rw [hside r (parent?_of_region h hs.mem hk hr), TakesPart, or_comm]
    rw [mem_exited_orthogonal h hc hs hk]
    constructor
    · rintro ⟨hid, r, hr, hpart, hw⟩
      exact ⟨hid, r, hr, (hparts r hr).1 hpart, hw⟩
    · rintro ⟨hid, r, hr, hpart, hw⟩
      exact ⟨hid, r, hr, (hparts r hr).2 hpart, hw⟩
  have harrives : target ∈ (t.planWithin c top.id boundary target).applyTo c :=
    hmem.2 (.inl ⟨.refl _, hs.target_below⟩)
  refine ⟨hs.branching h, fun _ _ _ hk _ => mem_exited_compound h hc hs hboundary hk, hregions,
    exited_nodup h hs, exited_innermost h hs, fun id => ?way, ?outermost, ⟨?left, ?entered⟩,
    fun id hout => mem_applyTo_outside h hs hout,
    fun children hk r hr hnot id hw => ?beside, harrives, hcoherent.closed target harrives⟩
  case way => rw [hentered, mem_way h hs]
  case outermost => rw [hentered]; exact way_outermost
  case left => exact fun hid => StateId.ne_of_isAncestorOf (isAncestorOf_of_mem_exited h hs hid) rfl
  case entered =>
    rw [hentered, mem_way h hs]
    exact fun hid => StateId.ne_of_isAncestorOf hid.2 rfl
  case beside =>
    have hoff : ¬ target.Within id := fun hti => hnot (.inl (hti.trans hw))
    have hstays : id ∉ (t.planWithin c top.id boundary target).exited := by
      rw [hregions children hk]
      rintro ⟨-, r', hr', hpart, hw'⟩
      have hsame := StateId.eq_of_within_siblings (parent?_of_region h hs.mem hk hr)
        (parent?_of_region h hs.mem hk hr') hw hw'
      exact hnot (hsame ▸ hpart)
    simp [hmem, hoff, hstays]

end Step

theorem exists_staysInside (h : t.WellFormed) {source target : StateId} (hsource : source ∈ t.ids)
    (htarget : target ∈ t.ids) (hroot : target ≠ t.root.id) :
    ∃ top, t.StaysInside source target top := by
  by_cases hsroot : source = t.root.id
  · exact ⟨t.root, List.mem_cons_self, .inl ⟨hsroot, rfl⟩⟩
  · obtain ⟨top, htop, -, hlca, -⟩ := exists_lca h hsource hsroot htarget hroot
    exact ⟨top, htop, .inr ⟨hsroot, hlca⟩⟩

/-- How a step is planned that stays inside this state, whatever the configuration. -/
theorem StaysInside.planned (h : t.WellFormed) {source target : StateId} {top : Node C}
    (hin : t.StaysInside source target top) (htarget : target ∈ t.ids)
    (hroot : target ≠ t.root.id) :
    ∃ boundary, t.StepsInside top boundary target ∧
      (∀ c, t.plan c source target = .ok (t.planWithin c top.id boundary target)) ∧
      ((boundary = none ∧ top = t.root ∧ source = t.root.id) ∨
        ∃ b, boundary = some b ∧ source.Within b) := by
  rcases hin with ⟨hn, ⟨rfl, rfl⟩ | ⟨-, hlca⟩⟩
  · obtain ⟨hs, hplan⟩ := plan_root h htarget hroot
    exact ⟨none, hs, hplan, .inl ⟨rfl, rfl, rfl⟩⟩
  · obtain ⟨hne, habove⟩ := StateId.mem_ancestors.1 (StateId.lca_eq_some hlca).1
    obtain ⟨b, hb⟩ := StateId.exists_oneBeneath hne habove
    obtain ⟨hs, hplan⟩ := plan_below hn hlca hb htarget
    exact ⟨some b, hs, hplan, .inr ⟨b, rfl, (StateId.oneBeneath_eq_some hb).2⟩⟩

/-- A step from an active source to a target other than the root is planned, stays inside their
nearest common ancestor, and leaves and enters exactly what is on its way. -/
theorem plan_exact {d : NodeDef C} (hb : Tree.build d = .ok t) (hlegal : t.Legal c)
    {source target : StateId} (hsource : source ∈ c) (htarget : target ∈ t.ids)
    (hroot : target ≠ t.root.id) :
    ∃ top p, t.StaysInside source target top ∧ t.plan c source target = .ok p ∧
      t.Passage c source target top p := by
  have h := build_wellFormed hb
  have hc := hlegal.coherent h
  by_cases hsroot : source = t.root.id
  · subst hsroot
    obtain ⟨hs, hplan⟩ := plan_root h htarget hroot
    obtain ⟨htop, hboundary⟩ := hc.frame_active hs hsource (.inl ⟨rfl, rfl, rfl⟩)
    refine ⟨t.root, _, ⟨List.mem_cons_self, .inl ⟨rfl, rfl⟩⟩, hplan c,
      planWithin_passage h hc hs htop hboundary fun r _ => ?_⟩
    simp
  · obtain ⟨top, hn, b, hlca, hbeneath⟩ :=
      exists_lca h (hc.known source hsource) hsroot htarget hroot
    obtain ⟨hs, hplan⟩ := plan_below hn hlca hbeneath htarget
    obtain ⟨htop, hboundary⟩ := hc.frame_active hs hsource
      (.inr ⟨b, rfl, (StateId.oneBeneath_eq_some hbeneath).2⟩)
    refine ⟨top, _, ⟨hn, .inr ⟨hsroot, hlca⟩⟩, hplan c,
      planWithin_passage h hc hs htop hboundary fun r hparent => ?_⟩
    rw [← hbeneath, Option.mem_def, StateId.oneBeneath_iff]
    simp [hparent, hsroot]

end Tree

def crossingInitial : Configuration :=
  (crossingTree.process .start (.new 0)).2.configuration

/-- From one region of `crossing` into the other, both are left, and the second is entered. -/
theorem crossing_planned :
    Tree.build crossing = .ok crossingTree ∧ crossingTree.Legal crossingInitial ∧
      crossingTree.plan crossingInitial ⟨["m", "l", "a"]⟩ ⟨["m", "r", "y"]⟩ =
        .ok { exited := [⟨["m", "l", "a"]⟩, ⟨["m", "l"]⟩, ⟨["m", "r", "x"]⟩, ⟨["m", "r"]⟩]
              entered := [⟨["m", "r"]⟩, ⟨["m", "r", "y"]⟩] } ∧
      ∃ top p, crossingTree.StaysInside ⟨["m", "l", "a"]⟩ ⟨["m", "r", "y"]⟩ top ∧
        crossingTree.plan crossingInitial ⟨["m", "l", "a"]⟩ ⟨["m", "r", "y"]⟩ = .ok p ∧
        crossingTree.Passage crossingInitial ⟨["m", "l", "a"]⟩ ⟨["m", "r", "y"]⟩ top p := by
  have hbuild : Tree.build crossing = .ok crossingTree := rfl
  have hlegal : crossingTree.Legal crossingInitial := by decide
  exact ⟨hbuild, hlegal, rfl,
    Tree.plan_exact hbuild hlegal (by decide) (by decide) (by decide)⟩

end Statechart
