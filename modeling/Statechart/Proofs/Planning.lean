import Statechart.Engine.Plan
import Statechart.Proofs.Shape

/-!
# Statechart.Proofs.Planning

What a planned step leaves and enters. The tops of the branches that a step leaves are children of
the state it stays inside, so they are disjoint.

* `Plan.applyTo`: the configuration after a step.
* `Plan.Fits`: only active states are left, only inactive ones are entered, each once.
* `Tree.plan_frame`, `Tree.plan_eq_ok`, `Tree.exists_plan`: what a step to a target is, and that
  there is one.
* `Tree.plan_fits`, `Tree.planStabilization_fits`: planned steps fit.
-/

namespace Statechart

variable {C : Type}

/-! ## Configurations -/

namespace Configuration

theorem not_mem_empty (id : StateId) : id ∉ empty := List.not_mem_nil

@[simp] theorem contains_eq_false {c : Configuration} {id : StateId} :
    c.contains id = false ↔ id ∉ c := by
  rw [← contains_iff, Bool.not_eq_true]

theorem mem_insertAll {c : Configuration} {ids : List StateId} {z : StateId} :
    z ∈ c.insertAll ids ↔ z ∈ ids ∨ z ∈ c := by
  induction ids generalizing c with
  | nil => simp [insertAll]
  | cons x rest ih =>
    show z ∈ (c.insert x).insertAll rest ↔ _
    rw [ih, mem_insert, List.mem_cons]
    constructor
    · rintro (h | h | h) <;> simp [h]
    · rintro ((h | h) | h) <;> simp [h]

theorem mem_eraseAll {c : Configuration} {ids : List StateId} {z : StateId} :
    z ∈ c.eraseAll ids ↔ z ∈ c ∧ z ∉ ids := by
  induction ids generalizing c with
  | nil => simp [eraseAll]
  | cons x rest ih =>
    show z ∈ (c.erase x).eraseAll rest ↔ _
    rw [ih, mem_erase, List.mem_cons, and_assoc, not_or]

theorem isInitialized_iff {c : Configuration} : c.isInitialized = true ↔ ∃ id, id ∈ c := by
  obtain ⟨ids, sorted⟩ := c
  cases ids with
  | nil => exact iff_of_false (fun h => by cases h) (fun ⟨id, hid⟩ => not_mem_empty id hid)
  | cons x rest => exact iff_of_true rfl ⟨x, List.mem_cons_self⟩

theorem eq_empty_of_not_initialized {c : Configuration} (h : ¬ c.isInitialized = true) :
    c = empty := by
  obtain ⟨ids, sorted⟩ := c
  cases ids with
  | nil => rfl
  | cons x rest => exact absurd rfl h

end Configuration

namespace Plan

/-- The configuration after a step. -/
def applyTo (p : Plan) (c : Configuration) : Configuration :=
  (c.eraseAll p.exited).insertAll p.entered

theorem mem_applyTo {p : Plan} {c : Configuration} {z : StateId} :
    z ∈ p.applyTo c ↔ z ∈ p.entered ∨ z ∈ c ∧ z ∉ p.exited := by
  rw [applyTo, Configuration.mem_insertAll, Configuration.mem_eraseAll]

/-- Does a step leave only active states of the chart and enter only inactive ones, each once? -/
structure Fits (known : List StateId) (c : Configuration) (p : Plan) : Prop where
  exited_nodup : p.exited.Nodup
  exited_active : ∀ id ∈ p.exited, id ∈ c
  entered_nodup : p.entered.Nodup
  entered_known : ∀ id ∈ p.entered, id ∈ known
  entered_inactive : ∀ id ∈ p.entered, id ∉ c.eraseAll p.exited

end Plan

/-! ## Branches -/

namespace Tree

variable {t : Tree C} {c : Configuration}

theorem mem_descendants {top id : StateId} :
    id ∈ t.descendants top ↔ id ∈ t.ids ∧ top.isAncestorOf id = true := List.mem_filter

theorem mem_activeBranch {top id : StateId} (h : id ∈ t.activeBranch c top) :
    id ∈ c ∧ id.Within top := by
  rw [activeBranch, List.mem_reverse, List.mem_filter, List.mem_cons, mem_descendants] at h
  obtain ⟨rfl | ⟨-, hanc⟩, hc⟩ := h
  · exact ⟨by simpa using hc, .refl _⟩
  · exact ⟨by simpa using hc, StateId.within_of_isAncestorOf hanc⟩

theorem mem_activeBranch_of {top id : StateId} (hid : id ∈ t.ids) (hc : id ∈ c)
    (hw : id.Within top) : id ∈ t.activeBranch c top := by
  rw [activeBranch, List.mem_reverse, List.mem_filter, List.mem_cons, mem_descendants]
  refine ⟨?_, by simpa using hc⟩
  rcases StateId.within_iff.1 hw with rfl | hanc
  · exact .inl rfl
  · exact .inr ⟨hid, hanc⟩

theorem activeBranch_nodup (h : t.WellFormed) (top : StateId) :
    (t.activeBranch c top).Nodup := by
  rw [activeBranch, List.nodup_reverse]
  refine List.Nodup.filter _ (List.nodup_cons.2 ⟨?_, h.ids_nodup.filter _⟩)
  intro hmem
  exact StateId.ne_of_isAncestorOf (mem_descendants.1 hmem).2 rfl

/-! ## The branches that a step leaves -/

/-- A step inside `top`: it goes towards a state below `top`, from the branch of `boundary`. -/
structure StepsInside (t : Tree C) (top : Node C) (boundary : Option StateId) (target : StateId) :
    Prop where
  mem : top ∈ t.nodes
  boundary_parent : ∀ b ∈ boundary, b.parent? = some top.id
  target_mem : target ∈ t.ids
  target_below : top.id.isAncestorOf target = true

variable {top : Node C} {boundary : Option StateId} {target : StateId}

theorem exitRoots_child (h : t.WellFormed) (hs : t.StepsInside top boundary target) :
    ∀ r ∈ t.exitRoots c top.id boundary target, r.parent? = some top.id := by
  intro r hr
  have hown : ∀ b ∈ boundary.toList, b.parent? = some top.id :=
    fun b hb => hs.boundary_parent b (Option.mem_toList.1 hb)
  have hkind := h.kind?_id hs.mem
  cases hk : top.kind with
  | atomic => rw [hk] at hkind; exact hown r (by simpa [exitRoots, hkind] using hr)
  | final => rw [hk] at hkind; exact hown r (by simpa [exitRoots, hkind] using hr)
  | compound children initial actions =>
    rw [hk] at hkind
    simp only [exitRoots, hkind] at hr
    split at hr
    · rcases List.mem_append.1 hr with hr | hr
      · exact hown r hr
      · refine (h.child_mem hs.mem ?_).2
        rw [hk]
        exact (List.mem_filter.1 hr).1
    · exact hown r hr
  | orthogonal children =>
    rw [hk] at hkind
    simp only [exitRoots, hkind] at hr
    rcases List.mem_append.1 hr with hr | hr
    · exact hown r hr
    · have hbeneath := (List.mem_filter.1 hr).1
      exact (StateId.oneBeneath_eq_some (Option.mem_toList.1 hbeneath)).1

/-- The branch of the source is left. -/
theorem mem_exitRoots_of_boundary {b : StateId} (hb : b ∈ boundary) :
    b ∈ t.exitRoots c top.id boundary target := by
  cases hb
  simp only [exitRoots, Option.isNone_some, Bool.false_eq_true, if_false]
  split <;> simp

/-- Inside an orthogonal state, the regions of the source and of the target are left. -/
theorem mem_exitRoots_orthogonal (h : t.WellFormed) (htop : top ∈ t.nodes)
    {children : List StateId} (hk : top.kind = .orthogonal children) {r : StateId}
    (hr : r.parent? = some top.id) :
    r ∈ t.exitRoots c top.id boundary target ↔ r ∈ boundary ∨ target.Within r := by
  have hkind := h.kind?_id htop
  rw [hk] at hkind
  have hbeneath : r ∈ (target.oneBeneath top.id).toList ↔ target.Within r := by
    rw [Option.mem_toList, StateId.oneBeneath_iff]
    exact and_iff_right hr
  simp only [exitRoots, hkind, List.mem_append, List.mem_filter, hbeneath]
  by_cases hb : boundary = some r <;> simp [hb]

theorem exitRoots_nodup (h : t.WellFormed) (hs : t.StepsInside top boundary target) :
    (t.exitRoots c top.id boundary target).Nodup := by
  have hkind := h.kind?_id hs.mem
  have hown : boundary.toList.Nodup := by cases boundary <;> simp
  cases hk : top.kind with
  | atomic => rw [hk] at hkind; simpa [exitRoots, hkind] using hown
  | final => rw [hk] at hkind; simpa [exitRoots, hkind] using hown
  | compound children initial actions =>
    rw [hk] at hkind
    have hchildren : children.Nodup := by
      have hnodup := h.children_nodup hs.mem
      rwa [hk] at hnodup
    cases boundary with
    | none => simpa [exitRoots, hkind] using hchildren.filter _
    | some b => simp [exitRoots, hkind]
  | orthogonal children =>
    rw [hk] at hkind
    simp only [exitRoots, hkind]
    refine List.nodup_append.2 ⟨hown, List.Nodup.filter _ ?_, ?_⟩
    · cases target.oneBeneath top.id <;> simp
    · intro a ha b hb hab
      subst hab
      simpa [ha] using (List.mem_filter.1 hb).2

theorem mem_exited {id : StateId} (h : id ∈ (t.planWithin c top.id boundary target).exited) :
    id ∈ c ∧ ∃ r ∈ t.exitRoots c top.id boundary target, id.Within r := by
  obtain ⟨r, hr, hid⟩ := List.mem_flatMap.1 h
  obtain ⟨hc, hw⟩ := mem_activeBranch hid
  exact ⟨hc, r, hr, hw⟩

theorem exited_nodup (h : t.WellFormed) (hs : t.StepsInside top boundary target) :
    (t.planWithin c top.id boundary target).exited.Nodup := by
  refine List.nodup_flatMap.2 ⟨fun r _ => activeBranch_nodup h r, ?_⟩
  have hroots := exitRoots_child (c := c) h hs
  refine List.Pairwise.imp_of_mem ?_ (exitRoots_nodup (c := c) h hs)
  intro r r' hr hr' hne
  show List.Disjoint (t.activeBranch c r) (t.activeBranch c r')
  intro id hid hid'
  exact hne (StateId.eq_of_within_siblings (hroots r hr) (hroots r' hr') (mem_activeBranch hid).2
    (mem_activeBranch hid').2)

/-! ## The way to the target -/

/-- The states on the way from below `top` to `target`, outermost first. -/
def way (top target : StateId) : List StateId :=
  (target.ancestorsUntil top).reverse ++ [target]

theorem planWithin_entered :
    (t.planWithin c top.id boundary target).entered = (way top.id target).filter
      (!(c.eraseAll (t.planWithin c top.id boundary target).exited).contains ·) := rfl

theorem mem_way (h : t.WellFormed) (hs : t.StepsInside top boundary target) {id : StateId} :
    id ∈ way top.id target ↔ target.Within id ∧ top.id.isAncestorOf id = true := by
  have htop : top.id ∈ target.ancestors :=
    StateId.mem_ancestors.2 ⟨h.keys_ne_nil (id_mem_ids hs.mem), hs.target_below⟩
  rw [way, List.mem_append, List.mem_reverse, StateId.mem_ancestorsUntil htop, List.mem_singleton,
    StateId.within_iff]
  constructor
  · rintro (⟨hid, hanc⟩ | rfl)
    · exact ⟨.inr hid, hanc⟩
    · exact ⟨.inl rfl, hs.target_below⟩
  · rintro ⟨rfl | hid, hanc⟩
    · exact .inr rfl
    · exact .inl ⟨hid, hanc⟩

theorem within_of_mem_way {top id : StateId} (hid : id ∈ way top target) : target.Within id := by
  rcases List.mem_append.1 hid with hid | hid
  · have hanc := (List.takeWhile_sublist _).subset (List.mem_reverse.1 hid)
    exact StateId.within_of_isAncestorOf (StateId.mem_ancestors.1 hanc).2
  · rw [List.mem_singleton.1 hid]
    exact .refl _

theorem way_nodup (top target : StateId) : (way top target).Nodup := by
  refine List.nodup_append.2 ⟨List.nodup_reverse.2 ?_, List.nodup_singleton _, ?_⟩
  · exact target.ancestors_nodup.sublist (List.takeWhile_sublist _)
  · intro a ha b hb hab
    rw [List.mem_singleton.1 hb] at hab
    have hanc := (List.takeWhile_sublist _).subset (List.mem_reverse.1 ha)
    exact StateId.ne_of_isAncestorOf (StateId.mem_ancestors.1 hanc).2 hab

theorem way_mem_ids (h : t.WellFormed) (hs : t.StepsInside top boundary target) {id : StateId}
    (hid : id ∈ way top.id target) : id ∈ t.ids := by
  obtain ⟨hw, hanc⟩ := (mem_way h hs).1 hid
  rcases StateId.within_iff.1 hw with rfl | hid
  · exact hs.target_mem
  · refine h.ancestors_mem hs.target_mem (StateId.mem_ancestors.2 ⟨?_, hid⟩)
    intro hnil
    simp [StateId.isAncestorOf, hnil] at hanc

theorem planWithin_fits (h : t.WellFormed) (hs : t.StepsInside top boundary target) :
    (t.planWithin c top.id boundary target).Fits t.ids c where
  exited_nodup := exited_nodup h hs
  exited_active _ hid := (mem_exited hid).1
  entered_nodup := (way_nodup _ _).filter _
  entered_known _ hid := way_mem_ids h hs (List.mem_filter.1 hid).1
  entered_inactive id hid := by
    have hout := (List.mem_filter.1 hid).2
    rwa [Bool.not_eq_true', Configuration.contains_eq_false] at hout

/-- The configuration after a step inside `top`. -/
theorem mem_applyTo_planWithin (h : t.WellFormed) (hs : t.StepsInside top boundary target)
    {id : StateId} :
    id ∈ (t.planWithin c top.id boundary target).applyTo c ↔
      (target.Within id ∧ top.id.isAncestorOf id = true) ∨
        id ∈ c ∧ id ∉ (t.planWithin c top.id boundary target).exited := by
  rw [Plan.mem_applyTo, planWithin_entered, List.mem_filter, mem_way h hs]
  constructor
  · rintro (⟨hw, -⟩ | hc)
    · exact .inl hw
    · exact .inr hc
  · rintro (hw | hc)
    · by_cases hrem : id ∈ c.eraseAll (t.planWithin c top.id boundary target).exited
      · exact .inr (Configuration.mem_eraseAll.1 hrem)
      · exact .inl ⟨hw, by simpa using hrem⟩
    · exact .inr hc

/-! ## Planned steps -/

/-- A step between two states below a common ancestor stays inside the nearest one. -/
theorem plan_below (hn : top ∈ t.nodes) {source b : StateId}
    (hlca : source.lca target = some top.id) (hb : source.oneBeneath top.id = some b)
    (htarget : target ∈ t.ids) :
    t.StepsInside top (some b) target ∧
      ∀ c, t.plan c source target = .ok (t.planWithin c top.id (some b) target) := by
  have hbelow := (StateId.mem_ancestors.1 (StateId.lca_eq_some hlca).2).2
  refine ⟨⟨hn, ?_, htarget, hbelow⟩, fun c => ?_⟩
  · intro b' hb'
    cases hb'
    exact (StateId.oneBeneath_eq_some hb).1
  · simp only [plan, hlca, hb]

/-- A step of the root stays inside the root. -/
theorem plan_root (h : t.WellFormed) (htarget : target ∈ t.ids) (hroot : target ≠ t.root.id) :
    t.StepsInside t.root none target ∧
      ∀ c, t.plan c t.root.id target = .ok (t.planWithin c t.root.id none target) := by
  have hlca : t.root.id.lca target = none := by
    rw [StateId.lca, h.root_ancestors, List.find?_nil]
  refine ⟨⟨List.mem_cons_self, ?_, htarget, h.root_isAncestorOf htarget hroot⟩, fun c => ?_⟩
  · intro b hb
    cases hb
  · simp only [plan, hlca, if_true]

/-- Two states other than the root have a common ancestor, which is a state, and the first lies
within a child of it. -/
theorem exists_lca (h : t.WellFormed) {source : StateId} (hsource : source ∈ t.ids)
    (hsroot : source ≠ t.root.id) (htarget : target ∈ t.ids) (hroot : target ≠ t.root.id) :
    ∃ top ∈ t.nodes, ∃ b, source.lca target = some top.id ∧
      source.oneBeneath top.id = some b := by
  have above : ∀ {id : StateId}, id ∈ t.ids → id ≠ t.root.id → t.root.id ∈ id.ancestors :=
    fun hid hne => StateId.mem_ancestors.2 ⟨h.root_keys, h.root_isAncestorOf hid hne⟩
  obtain ⟨l, hlca⟩ := StateId.exists_lca (above hsource hsroot) (above htarget hroot)
  obtain ⟨hl, hlt⟩ := StateId.lca_eq_some hlca
  obtain ⟨top, htop, rfl⟩ := mem_ids.1 (h.ancestors_mem htarget hlt)
  obtain ⟨hne, habove⟩ := StateId.mem_ancestors.1 hl
  obtain ⟨b, hb⟩ := StateId.exists_oneBeneath hne habove
  exact ⟨top, htop, b, hlca, hb⟩

/-- What a step stays inside, and on which side the source is, does not depend on the configuration,
and depends on the target only through its nearest common ancestor with the source. It stays inside
the source if that is the root, and inside a state strictly above the source otherwise. -/
theorem plan_frame (h : t.WellFormed) {source : StateId} (hsource : source ∈ t.ids)
    (htarget : target ∈ t.ids) (hroot : target ≠ t.root.id) :
    ∃ top boundary,
      (∀ other ∈ t.ids, other ≠ t.root.id → source.lca other = source.lca target →
        t.StepsInside top boundary other ∧
          ∀ c, t.plan c source other = .ok (t.planWithin c top.id boundary other)) ∧
      ((boundary = none ∧ top = t.root ∧ source = t.root.id) ∨
        ∃ b, boundary = some b ∧ source.Within b) := by
  by_cases hsroot : source = t.root.id
  · subst hsroot
    exact ⟨t.root, none, fun other hother hne _ => plan_root h hother hne, .inl ⟨rfl, rfl, rfl⟩⟩
  · obtain ⟨top, htop, b, hlca, hb⟩ := exists_lca h hsource hsroot htarget hroot
    refine ⟨top, some b, fun other hother _ hsame => ?_,
      .inr ⟨b, rfl, (StateId.oneBeneath_eq_some hb).2⟩⟩
    exact plan_below htop (hsame.trans hlca) hb hother

theorem plan_eq_ok (h : t.WellFormed) {source : StateId} {p : Plan} (hsource : source ∈ t.ids)
    (htarget : target ∈ t.ids) (hroot : target ≠ t.root.id) (hp : t.plan c source target = .ok p) :
    ∃ top boundary, t.StepsInside top boundary target ∧
      p = t.planWithin c top.id boundary target ∧
      ((boundary = none ∧ top = t.root ∧ source = t.root.id) ∨
        ∃ b, boundary = some b ∧ source.Within b) := by
  obtain ⟨top, boundary, hframe, hsides⟩ := plan_frame h hsource htarget hroot
  obtain ⟨hinside, hplan⟩ := hframe target htarget hroot rfl
  rw [hplan] at hp
  exact ⟨top, boundary, hinside, (Except.ok.inj hp).symm, hsides⟩

theorem exists_plan (h : t.WellFormed) (c : Configuration) {source target : StateId}
    (hsource : source ∈ t.ids) (htarget : target ∈ t.ids) (hroot : target ≠ t.root.id) :
    ∃ p, t.plan c source target = .ok p := by
  obtain ⟨top, boundary, hframe, -⟩ := plan_frame h hsource htarget hroot
  obtain ⟨-, hplan⟩ := hframe target htarget hroot rfl
  exact ⟨_, hplan c⟩

theorem plan_fits (h : t.WellFormed) {source : StateId} {p : Plan} (hsource : source ∈ t.ids)
    (htarget : target ∈ t.ids) (hroot : target ≠ t.root.id) (hp : t.plan c source target = .ok p) :
    p.Fits t.ids c := by
  obtain ⟨top, boundary, hs, rfl, -⟩ := plan_eq_ok h hsource htarget hroot hp
  exact planWithin_fits h hs

/-- A planned step enters its target and states above it. -/
theorem within_of_mem_entered {source id : StateId} {p : Plan}
    (hp : t.plan c source target = .ok p) (hid : id ∈ p.entered) : target.Within id := by
  have way_only : ∀ {above : StateId} {boundary : Option StateId},
      id ∈ (t.planWithin c above boundary target).entered → target.Within id :=
    fun hid => within_of_mem_way (List.mem_filter.1 hid).1
  rw [plan] at hp
  split at hp
  · split at hp
    · cases hp
      exact way_only hid
    · cases hp
  · split at hp
    · cases hp
      exact way_only hid
    · cases hp

/-! ## Stabilization -/

theorem mem_active {n : Node C} : n ∈ t.active c ↔ n ∈ t.nodes ∧ n.id ∈ c := by
  rw [active, List.mem_filter, Configuration.contains_iff]

theorem mem_unstable {n : Node C} :
    n ∈ t.unstable c ↔ (n ∈ t.nodes ∧ n.id ∈ c) ∧ lacksChildren n.kind c = true := by
  rw [unstable, List.mem_filter, mem_active]

theorem planStabilization_eq_some {n : Node C} {p : Plan}
    (hp : t.planStabilization c = some (n, p)) :
    n ∈ t.unstable c ∧ p = { entered := missingChildren n.kind c } := by
  simp only [planStabilization] at hp
  split at hp
  · cases hp
  · rename_i m rest hun
    cases hp
    exact ⟨by rw [hun]; exact List.mem_cons_self, rfl⟩

theorem planStabilization_eq_none : t.planStabilization c = none ↔ t.unstable c = [] := by
  simp only [planStabilization]
  split
  · rename_i hun; simp [hun]
  · rename_i hun; simp [hun]

/-- A state that lacks children is given children that are inactive. -/
theorem mem_missingChildren (h : t.WellFormed) {n : Node C} (hn : n ∈ t.nodes)
    (hlacks : lacksChildren n.kind c = true) {id : StateId}
    (hid : id ∈ missingChildren n.kind c) : id ∈ n.kind.children ∧ id ∉ c := by
  have hproper := h.proper hn
  cases hk : n.kind with
  | atomic => rw [hk] at hid; cases hid
  | final => rw [hk] at hid; cases hid
  | compound children initial actions =>
    rw [hk] at hid hlacks hproper
    have hid : id = initial := List.mem_singleton.1 hid
    have hnone : ∀ x ∈ children, x ∉ c := by simpa [lacksChildren] using hlacks
    rw [hid]
    exact ⟨hproper, hnone initial hproper⟩
  | orthogonal children =>
    rw [hk] at hid
    obtain ⟨hchild, hinactive⟩ := List.mem_filter.1 hid
    exact ⟨hchild, by simpa using hinactive⟩

theorem missingChildren_ne_nil {n : Node C} (hn : n ∈ t.unstable c) :
    missingChildren n.kind c ≠ [] := by
  have hlacks := (mem_unstable.1 hn).2
  cases hk : n.kind with
  | atomic => rw [hk] at hlacks; cases hlacks
  | final => rw [hk] at hlacks; cases hlacks
  | compound children initial actions => exact List.cons_ne_nil _ _
  | orthogonal children =>
    rw [hk] at hlacks
    obtain ⟨x, hx, hinactive⟩ : ∃ x ∈ children, x ∉ c := by simpa [lacksChildren] using hlacks
    exact List.ne_nil_of_mem (List.mem_filter.2 ⟨hx, by simpa using hinactive⟩)

theorem missingChildren_nodup (h : t.WellFormed) {n : Node C} (hn : n ∈ t.nodes) :
    (missingChildren n.kind c).Nodup := by
  have hchildren := h.children_nodup hn
  cases hk : n.kind with
  | atomic => exact .nil
  | final => exact .nil
  | compound children initial actions => exact List.nodup_singleton _
  | orthogonal children => rw [hk] at hchildren; exact hchildren.filter _

theorem planStabilization_fits (h : t.WellFormed) {n : Node C} {p : Plan}
    (hp : t.planStabilization c = some (n, p)) : p.Fits t.ids c := by
  obtain ⟨hn, rfl⟩ := planStabilization_eq_some hp
  obtain ⟨⟨hmem, -⟩, hlacks⟩ := mem_unstable.1 hn
  refine ⟨.nil, fun id hid => (List.not_mem_nil hid).elim, missingChildren_nodup h hmem, ?_, ?_⟩
  · exact fun id hid => (h.child_mem hmem (mem_missingChildren h hmem hlacks hid).1).1
  · exact fun id hid => (mem_missingChildren h hmem hlacks hid).2

end Tree

end Statechart
