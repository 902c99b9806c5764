import Statechart.Proofs.Extent
import Statechart.Proofs.Forks

/-!
# Statechart.Proofs.Arrivals

Where a transition to several targets arrives. Every step is planned from the source, so a later one
may leave what an earlier one has entered. A target that was left is entered again only if
stabilization comes to it, from what is active above it by initial children and regions alone.

* `Tree.Leaves`, `Tree.Passes`: what a step leaves and what it leads through, told from the chart.
  `Tree.mem_exited_iff` and `Tree.Kept.step` say that plans do so.
* `Tree.Apart.not_leaves`: a step from outside leaves nothing in another region.
* `Tree.ActiveAfter`, `Tree.mem_takeTo`: what is active behind the last step.
* `Tree.unopposed_of_activeAfter`: where the targets can be active together, nothing that is active
  gets in the way to one of them.
* `Tree.process_reaches`: which targets are active in the end.
* `spreading_missed`: a transition of the root that misses its first target.
-/

namespace Statechart

variable {C : Type}

namespace Tree

variable {t : Tree C} {c c' : Configuration} {source target id : StateId}

/-! ## What a step leaves and leads through -/

/-- Does a step from `source` to `target` that stays inside `top` leave the branch of this child of
`top`? -/
def LeavesBranch (t : Tree C) (source target : StateId) (top : Node C) (branch : StateId) : Prop :=
  match top.kind with
  | .orthogonal _ => t.TakesPart source target branch
  | _ => source = t.root.id ∨ source.Within branch

/-- Does a step from `source` to `target` leave this state, if it is active? -/
def Leaves (t : Tree C) (source target id : StateId) : Prop :=
  ∃ top branch, t.StaysInside source target top ∧ branch.parent? = some top.id ∧
    id.Within branch ∧ t.LeavesBranch source target top branch

/-- Is this state on the way of a step from `source` to `target`? -/
def Passes (t : Tree C) (source target id : StateId) : Prop :=
  target.Within id ∧ ∃ top, t.StaysInside source target top ∧ top.id.isAncestorOf id = true

theorem StaysInside.unique (h : t.WellFormed) {top top' : Node C}
    (hin : t.StaysInside source target top) (hin' : t.StaysInside source target top') :
    top = top' := by
  obtain ⟨hn, ⟨hroot, rfl⟩ | ⟨hroot, hlca⟩⟩ := hin
  · obtain ⟨-, ⟨-, rfl⟩ | ⟨hroot', -⟩⟩ := hin'
    · rfl
    · exact absurd hroot hroot'
  · obtain ⟨hn', ⟨hroot', -⟩ | ⟨-, hlca'⟩⟩ := hin'
    · exact absurd hroot' hroot
    · exact h.eq_of_id hn hn' (Option.some.inj (hlca.symm.trans hlca'))

theorem leaves_iff (h : t.WellFormed) {top : Node C} (hin : t.StaysInside source target top)
    {branch : StateId} (hparent : branch.parent? = some top.id) (hw : id.Within branch) :
    t.Leaves source target id ↔ t.LeavesBranch source target top branch := by
  constructor
  · rintro ⟨top', branch', hin', hparent', hw', hleaves⟩
    obtain rfl := hin.unique h hin'
    obtain rfl := StateId.eq_of_within_siblings hparent hparent' hw hw'
    exact hleaves
  · exact fun hleaves => ⟨top, branch, hin, hparent, hw, hleaves⟩

section Step

variable {top : Node C} {boundary : Option StateId}

/-- The child on the source's side is the one that holds the source. A step of the root has none. -/
theorem StepsInside.mem_boundary (h : t.WellFormed) (hs : t.StepsInside top boundary target)
    (hsides : (boundary = none ∧ top = t.root ∧ source = t.root.id) ∨
      ∃ b, boundary = some b ∧ source.Within b)
    {r : StateId} (hparent : r.parent? = some top.id) :
    r ∈ boundary ↔ source ≠ t.root.id ∧ source.Within r := by
  rcases hsides with ⟨rfl, -, rfl⟩ | ⟨b, rfl, hw⟩
  · simp
  · have hbparent := hs.boundary_parent b rfl
    have hroot : source ≠ t.root.id := by
      rintro rfl
      exact h.not_isAncestorOf_root (id_mem_ids hs.mem)
        (StateId.isAncestorOf_of_within (StateId.isAncestorOf_of_parent? hbparent) hw)
    constructor
    · intro hr
      cases hr
      exact ⟨hroot, hw⟩
    · rintro ⟨-, hr⟩
      rw [StateId.eq_of_within_siblings hparent hbparent hr hw]
      rfl

/-- The tops of the branches that are left. The root leaves its active children. -/
theorem mem_exitRoots_iff (h : t.WellFormed) (hs : t.StepsInside top boundary target)
    (hsides : (boundary = none ∧ top = t.root ∧ source = t.root.id) ∨
      ∃ b, boundary = some b ∧ source.Within b)
    {r : StateId} (hparent : r.parent? = some top.id)
    (hactive : source = t.root.id → r ∈ c ∧ r ∈ t.ids) :
    r ∈ t.exitRoots c top.id boundary target ↔ t.LeavesBranch source target top r := by
  have hkind := h.kind?_id hs.mem
  have hside := hs.mem_boundary h hsides hparent
  rcases hs.branching h with ⟨children, initial, actions, hk⟩ | ⟨children, hk⟩
  · simp only [LeavesBranch, hk]
    rw [hk] at hkind
    rcases hsides with ⟨rfl, -, hroot⟩ | ⟨b, rfl, hsource⟩
    · obtain ⟨hrc, hmem⟩ := hactive hroot
      have hchild := (h.mem_children hs.mem).2 ⟨hmem, hparent⟩
      rw [hk] at hchild
      exact iff_of_true (by simpa [exitRoots, hkind] using ⟨hchild, hrc⟩) (.inl hroot)
    · have hown : r ∈ t.exitRoots c top.id (some b) target ↔ r ∈ some b := by
        simp [exitRoots, hkind, eq_comm]
      have hroot : source ≠ t.root.id :=
        ((hs.mem_boundary h (.inr ⟨b, rfl, hsource⟩) (hs.boundary_parent b rfl)).1 rfl).1
      rw [hown, hside, and_iff_right hroot, or_iff_right hroot]
  · simp only [LeavesBranch, hk, TakesPart]
    rw [mem_exitRoots_orthogonal h hs.mem hk hparent, hside, or_comm]

/-- A step leaves the active states of these branches. If it is one of the root, there must be none
below inactive children of the root. -/
theorem mem_exited_iff (h : t.WellFormed) (hin : t.StaysInside source target top)
    (hs : t.StepsInside top boundary target)
    (hsides : (boundary = none ∧ top = t.root ∧ source = t.root.id) ∨
      ∃ b, boundary = some b ∧ source.Within b)
    (hknown : ∀ z ∈ c, z ∈ t.ids) (hrooted : source = t.root.id → t.Coherent c) (hid : id ∈ c) :
    id ∈ (t.planWithin c top.id boundary target).exited ↔ t.Leaves source target id := by
  have hbranch : ∀ r : StateId, r.parent? = some top.id → id.Within r →
      (r ∈ t.exitRoots c top.id boundary target ↔ t.LeavesBranch source target top r) := by
    intro r hparent hw
    refine mem_exitRoots_iff h hs hsides hparent fun hroot => ?_
    have hrc := (hrooted hroot).above hid hw (StateId.keys_ne_nil_of_parent? hparent)
    exact ⟨hrc, hknown r hrc⟩
  constructor
  · intro hexit
    obtain ⟨-, r, hr, hw⟩ := mem_exited hexit
    have hparent := exitRoots_child h hs r hr
    exact ⟨top, r, hin, hparent, hw, (hbranch r hparent hw).1 hr⟩
  · rintro ⟨top', r, hin', hparent, hw, hleaves⟩
    obtain rfl := hin.unique h hin'
    exact List.mem_flatMap.2
      ⟨r, (hbranch r hparent hw).2 hleaves, mem_activeBranch_of (hknown id hid) hid hw⟩

end Step

/-- What is kept along the steps from a source: only states of the chart are active, and steps of
the root keep the configuration coherent. -/
structure Kept (t : Tree C) (source : StateId) (c : Configuration) : Prop where
  known : ∀ id ∈ c, id ∈ t.ids
  rooted : source = t.root.id → t.Coherent c

/-- What is active after a step was on its way, or was active and is not left. -/
theorem Kept.step (h : t.WellFormed) (hc : t.Kept source c) (hsource : source ∈ t.ids)
    (htarget : target ∈ t.ids) (hroot : target ≠ t.root.id) {p : Plan}
    (hp : t.plan c source target = .ok p) :
    t.Kept source (p.applyTo c) ∧ ∀ id, id ∈ p.applyTo c ↔
      t.Passes source target id ∨ id ∈ c ∧ ¬ t.Leaves source target id := by
  obtain ⟨top, hin⟩ := exists_staysInside h hsource htarget hroot
  obtain ⟨boundary, hs, hplan, hsides⟩ := hin.planned h htarget hroot
  rw [hplan] at hp
  obtain rfl := Except.ok.inj hp
  refine ⟨⟨fun id hid => ?known, fun hsroot => ?rooted⟩, fun id => ?mem⟩
  case known =>
    rcases Plan.mem_applyTo.1 hid with hnew | ⟨hold, -⟩
    · exact (planWithin_fits h hs).entered_known id hnew
    · exact hc.known id hold
  case rooted =>
    have hcoherent := hc.rooted hsroot
    obtain ⟨htop, hboundary⟩ := hcoherent.frame_active hs (hsroot ▸ hcoherent.root) hsides
    exact planWithin_coherent h hcoherent hs htop fun _ _ _ _ => hboundary
  case mem =>
    have hpasses : t.Passes source target id ↔
        target.Within id ∧ top.id.isAncestorOf id = true := by
      constructor
      · rintro ⟨hw, top', hin', habove⟩
        obtain rfl := hin.unique h hin'
        exact ⟨hw, habove⟩
      · exact fun ⟨hw, habove⟩ => ⟨hw, top, hin, habove⟩
    rw [mem_applyTo_planWithin h hs, hpasses]
    refine or_congr_right (and_congr_right fun hid => not_congr ?_)
    exact mem_exited_iff h hin hs hsides hc.known hc.rooted hid

/-- A step inside a compound state leaves only the source's branch of it, and so nothing in another
region of an orthogonal state that has the source neither within it nor above it. -/
theorem Apart.not_leaves (h : t.WellFormed) {x y : StateId} (ha : t.Apart source x y)
    {top : Node C} (hin : t.StaysInside source y top) {children : List StateId}
    {initial : StateId} {actions : List (Action C)}
    (hk : top.kind = .compound children initial actions) (hbeside : ¬ x.Within source) :
    ¬ t.Leaves source y x := by
  obtain ⟨n, hn, regions, hkn, hsource, r, hr, r', hr', -, hx, hy⟩ := ha
  have hregion : ∀ {s z : StateId}, s ∈ regions → z.Within s → n.id.isAncestorOf z = true := by
    intro s z hs hz
    have hparent := (h.child_mem hn (by rw [hkn]; exact hs)).2
    exact StateId.isAncestorOf_of_within (StateId.isAncestorOf_of_parent? hparent) hz
  have hxn := StateId.within_of_isAncestorOf (hregion hr hx)
  have hyn := StateId.within_of_isAncestorOf (hregion hr' hy)
  have hroot : source ≠ t.root.id := by
    rintro rfl
    exact hbeside (hxn.trans (h.within_root (id_mem_ids hn)))
  rintro ⟨top', b, hin', hparent, hxb, hleaves⟩
  obtain rfl := hin.unique h hin'
  simp only [LeavesBranch, hk] at hleaves
  have hsb := hleaves.resolve_left hroot
  have hlca := (hin.2.resolve_left fun hsroot => hroot hsroot.1).2
  -- The branch would hold the orthogonal state, so it would be a nearer common ancestor.
  have hnb : n.id.Within b := (hxb.total hxn).resolve_left fun hbn => hsource (hsb.trans hbn)
  have hbs : b.isAncestorOf source = true := by
    refine StateId.isAncestorOf_iff.2 ⟨hsb, ?_⟩
    rintro rfl
    exact hbeside hxb
  have hby : b.isAncestorOf y = true := by
    refine StateId.isAncestorOf_iff.2 ⟨hyn.trans hnb, ?_⟩
    rintro rfl
    exact StateId.not_within_of_isAncestorOf (hregion hr' hy) hnb
  have hne := StateId.keys_ne_nil_of_parent? hparent
  have hnearer := StateId.within_of_lca hlca (StateId.mem_ancestors.2 ⟨hne, hbs⟩)
    (StateId.mem_ancestors.2 ⟨hne, hby⟩)
  exact StateId.not_within_of_isAncestorOf (StateId.isAncestorOf_of_parent? hparent) hnearer

/-! ## Steps to several targets -/

/-- Is the state active once a transition has gone to these targets? It was active or is on the way
of one of the steps, and no later step leaves it. -/
def ActiveAfter (t : Tree C) (c : Configuration) (source : StateId) (targets : List StateId)
    (id : StateId) : Prop :=
  (id ∈ c ∧ ∀ x ∈ targets, ¬ t.Leaves source x id) ∨
    ∃ before x after, targets = before ++ x :: after ∧ t.Passes source x id ∧
      ∀ y ∈ after, ¬ t.Leaves source y id

theorem activeAfter_cons {rest : List StateId}
    (hstep : id ∈ c' ↔ t.Passes source target id ∨ id ∈ c ∧ ¬ t.Leaves source target id) :
    t.ActiveAfter c source (target :: rest) id ↔ t.ActiveAfter c' source rest id := by
  constructor
  · rintro (⟨hid, hstays⟩ | ⟨before, x, after, hsplit, hpasses, hstays⟩)
    · obtain ⟨hfirst, hrest⟩ := List.forall_mem_cons.1 hstays
      exact .inl ⟨hstep.2 (.inr ⟨hid, hfirst⟩), hrest⟩
    · cases before with
      | nil =>
        obtain ⟨rfl, rfl⟩ := List.cons_eq_cons.1 hsplit
        exact .inl ⟨hstep.2 (.inl hpasses), hstays⟩
      | cons first before =>
        obtain ⟨rfl, rfl⟩ := List.cons_eq_cons.1 hsplit
        exact .inr ⟨before, x, after, rfl, hpasses, hstays⟩
  · rintro (⟨hid, hstays⟩ | ⟨before, x, after, rfl, hpasses, hstays⟩)
    · rcases hstep.1 hid with hpasses | ⟨hold, hfirst⟩
      · exact .inr ⟨[], target, rest, rfl, hpasses, hstays⟩
      · exact .inl ⟨hold, List.forall_mem_cons.2 ⟨hfirst, hstays⟩⟩
    · exact .inr ⟨target :: before, x, after, rfl, hpasses, hstays⟩

theorem ActiveAfter.concat {targets : List StateId} {last : StateId}
    (ha : t.ActiveAfter c source targets id) (hstays : ¬ t.Leaves source last id) :
    t.ActiveAfter c source (targets ++ [last]) id := by
  rcases ha with ⟨hid, hall⟩ | ⟨before, x, after, rfl, hpasses, hall⟩
  · exact .inl ⟨hid, List.forall_mem_append.2 ⟨hall, List.forall_mem_singleton.2 hstays⟩⟩
  · exact .inr ⟨before, x, after ++ [last], by simp, hpasses,
      List.forall_mem_append.2 ⟨hall, List.forall_mem_singleton.2 hstays⟩⟩

/-- A state that is on the way of every step that leaves it stays active. -/
theorem activeAfter_of_passes {before after : List StateId} (hpasses : t.Passes source target id)
    (hafter : ∀ y ∈ after, t.Leaves source y id → t.Passes source y id) :
    t.ActiveAfter c source (before ++ target :: after) id := by
  induction after using List.reverseRecOn with
  | nil => exact .inr ⟨before, target, [], rfl, hpasses, fun y hy => by cases hy⟩
  | append_singleton others last ih =>
    obtain ⟨hothers, hlast⟩ := List.forall_mem_append.1 hafter
    by_cases hleaves : t.Leaves source last id
    · have hentered := List.forall_mem_singleton.1 hlast hleaves
      exact .inr ⟨before ++ target :: others, last, [], by simp, hentered,
        fun y hy => by cases hy⟩
    · have hconcat := (ih hothers).concat hleaves
      rwa [List.append_assoc] at hconcat

theorem passes_target (h : t.WellFormed) (hsource : source ∈ t.ids) (htarget : target ∈ t.ids)
    (hroot : target ≠ t.root.id) : t.Passes source target target := by
  obtain ⟨top, hin⟩ := exists_staysInside h hsource htarget hroot
  obtain ⟨boundary, hs, -⟩ := hin.planned h htarget hroot
  exact ⟨.refl _, top, hin, hs.target_below⟩

theorem Leaves.passes (hl : t.Leaves source target id) (hw : target.Within id) :
    t.Passes source target id := by
  obtain ⟨top, branch, hin, hparent, hbranch, -⟩ := hl
  exact ⟨hw, top, hin,
    StateId.isAncestorOf_of_within (StateId.isAncestorOf_of_parent? hparent) hbranch⟩

theorem mem_takeTo (h : t.WellFormed) (hsource : source ∈ t.ids) {cause : Cause}
    {targets : List StateId} (htargets : ∀ x ∈ targets, x ∈ t.ids ∧ x ≠ t.root.id)
    {actions : List (Action C)} {run : Run C} (hc : t.Kept source run.configuration) :
    id ∈ (t.takeTo source cause actions targets run).2.configuration ↔
      t.ActiveAfter run.configuration source targets id := by
  induction targets generalizing actions run with
  | nil =>
    show id ∈ run.configuration ↔ _
    simp [ActiveAfter]
  | cons target rest ih =>
    obtain ⟨⟨hmem, hroot⟩, hrest⟩ := List.forall_mem_cons.1 htargets
    obtain ⟨p, hp⟩ := exists_plan h run.configuration hsource hmem hroot
    obtain ⟨hkept, hstep⟩ := hc.step h hsource hmem hroot hp
    rw [← apply_configuration p actions cause run] at hkept hstep
    rw [takeTo_cons, hp, activeAfter_cons (hstep id), ← ih hrest hkept]

/-! ## Stabilization on the way to a target -/

/-- Does stabilization enter this state along with its parent? -/
def IsDefault (t : Tree C) (id : StateId) : Prop :=
  ∃ n ∈ t.nodes, (∃ children actions, n.kind = .compound children id actions) ∨
    ∃ children, n.kind = .orthogonal children ∧ id ∈ children

theorem Awaited.isDefault (ha : t.Awaited c id) : t.IsDefault id := by
  obtain ⟨n, hn, -, hid⟩ := ha
  refine ⟨n, hn, ?_⟩
  cases hk : n.kind with
  | atomic => rw [hk] at hid; cases hid
  | final => rw [hk] at hid; cases hid
  | compound children initial actions =>
    rw [hk] at hid
    rw [List.mem_singleton.1 hid]
    exact .inl ⟨children, actions, rfl⟩
  | orthogonal children =>
    rw [hk] at hid
    exact .inr ⟨children, rfl, (List.mem_filter.1 hid).1⟩

/-- What has been filled in hangs by defaults below what was active. -/
theorem Fills.exists_default (hf : t.Fills c c') (hne : id.keys ≠ []) (hid : id ∈ c') :
    ∃ p ∈ c, id.Within p ∧ ∀ w, id.Within w → p.isAncestorOf w = true → t.IsDefault w := by
  induction id, hne using StateId.byParent with
  | root k =>
    rcases hf.added _ hid with hidc | ⟨-, q, -, hparent⟩
    · exact ⟨_, hidc, .refl _, fun w hw habove =>
        absurd hw (StateId.not_within_of_isAncestorOf habove)⟩
    · rw [StateId.parent?_root] at hparent
      cases hparent
  | child q k hq ih =>
    rcases hf.added _ hid with hidc | ⟨hawaited, q', hqc, hparent⟩
    · exact ⟨_, hidc, .refl _, fun w hw habove =>
        absurd hw (StateId.not_within_of_isAncestorOf habove)⟩
    · rw [StateId.parent?_child hq] at hparent
      cases hparent
      obtain ⟨p, hpc, hw, hdefaults⟩ := ih hqc
      refine ⟨p, hpc, StateId.within_child.2 (.inr hw), fun w hww habove => ?_⟩
      rcases StateId.within_child.1 hww with rfl | hqw
      · exact hawaited.isDefault
      · exact hdefaults w hqw habove

/-- Every active child of a compound state on the way to the target is on the way, too. -/
def Unopposed (t : Tree C) (c : Configuration) (target : StateId) : Prop :=
  ∀ n ∈ t.nodes, ∀ children initial actions, n.kind = .compound children initial actions →
    ∀ w ∈ children, target.Within w → ∀ z ∈ children, z ∈ c → z = w

theorem IsDefault.parent?_ne_none (h : t.WellFormed) (hd : t.IsDefault id) :
    id.parent? ≠ none := by
  obtain ⟨n, hn, ⟨children, actions, hk⟩ | ⟨children, hk, hchild⟩⟩ := hd
  · have hproper := h.proper hn
    rw [hk] at hproper
    have hparent := (h.child_mem hn (by rw [hk]; exact hproper)).2
    simp [hparent]
  · have hparent := (h.child_mem hn (by rw [hk]; exact hchild)).2
    simp [hparent]

/-- A default on the way to a state is awaited, if it is not active and nothing opposes it. -/
theorem IsDefault.awaited (h : t.WellFormed) (hd : t.IsDefault id) (hout : id ∉ c)
    (hfree : t.Unopposed c target) (hid : target.Within id) : t.Awaited c id := by
  obtain ⟨n, hn, ⟨children, actions, hk⟩ | ⟨children, hk, hchild⟩⟩ := hd
  · have hproper := h.proper hn
    rw [hk] at hproper
    refine ⟨n, hn, ?_, by rw [hk]; exact List.mem_singleton_self id⟩
    rw [hk]
    have hnone : ∀ x ∈ children, x ∉ c := by
      intro x hx hxc
      rw [hfree n hn children id actions hk id hproper hid x hx hxc] at hxc
      exact hout hxc
    simpa [lacksChildren] using hnone
  · refine ⟨n, hn, ?_, ?_⟩
    · rw [hk]
      simpa [lacksChildren] using ⟨id, hchild, hout⟩
    · rw [hk]
      exact List.mem_filter.2 ⟨hchild, by simpa using hout⟩

/-- Below an active state, defaults are filled in on an unopposed way. -/
theorem Fills.mem_of_default (h : t.WellFormed) (hf : t.Fills c c') (hstable : t.unstable c' = [])
    (hfree : t.Unopposed c target) {p : StateId} (hp : p ∈ c)
    (hdefaults : ∀ w, target.Within w → p.isAncestorOf w = true → t.IsDefault w)
    (hne : id.keys ≠ []) (hid : target.Within id) (hidp : id.Within p) : id ∈ c' := by
  induction id, hne using StateId.byParent with
  | root k =>
    rcases StateId.within_iff.1 hidp with rfl | habove
    · exact hf.kept _ hp
    · exact absurd (StateId.parent?_root k) ((hdefaults _ hid habove).parent?_ne_none h)
  | child q k hq ih =>
    have hparent := StateId.parent?_child (k := k) hq
    rcases StateId.within_iff.1 hidp with rfl | habove
    · exact hf.kept _ hp
    · by_cases hidc : q.child k ∈ c
      · exact hf.kept _ hidc
      · have hqk := StateId.within_of_isAncestorOf (StateId.isAncestorOf_of_parent? hparent)
        have htq := hid.trans hqk
        have hqc := ih htq (StateId.within_parent hparent habove)
        have hawaited := (hdefaults _ hid habove).awaited h hidc hfree hid
        exact hawaited.active h hf hstable hparent hqc

/-- If the targets can be active together, nothing active behind the last step opposes one of
them. -/
theorem unopposed_of_activeAfter (h : t.WellFormed) (hlegal : t.Legal c) (hsource : source ∈ c)
    {targets : List StateId} (htarget : target ∈ targets) (hmem : target ∈ t.ids)
    (hroot : target ≠ t.root.id) (hjoint : ∃ joint, t.Legal joint ∧ ∀ x ∈ targets, x ∈ joint)
    (hc' : ∀ id ∈ c', t.ActiveAfter c source targets id) : t.Unopposed c' target := by
  intro n hn children initial actions hk w hw htw z hz hzc
  have hparent : ∀ {x : StateId}, x ∈ children → x.parent? = some n.id :=
    fun hx => (h.child_mem hn (by rw [hk]; exact hx)).2
  have hwne := StateId.keys_ne_nil_of_parent? (hparent hw)
  have hzne := StateId.keys_ne_nil_of_parent? (hparent hz)
  rcases hc' z hzc with ⟨hzold, hstays⟩ | ⟨before, x, after, rfl, ⟨hxz, -⟩, -⟩
  · have hc := hlegal.coherent h
    obtain ⟨top, hin⟩ := exists_staysInside h (hc.known source hsource) hmem hroot
    obtain ⟨boundary, hs, -, hsides⟩ := hin.planned h hmem hroot
    obtain ⟨htop, hboundary⟩ := hc.frame_active hs hsource hsides
    by_cases htopw : top.id.Within w
    · exact hc.exclusive n hn children initial actions hk z hz w hw hzold
        (hc.above htop htopw hwne)
    · -- The step comes from above, so it leaves what was active beside the way.
      have hwtop := (htw.total (StateId.within_of_isAncestorOf hs.target_below)).resolve_right htopw
      have hbelow : top.id.isAncestorOf w = true := by
        rcases StateId.within_iff.1 hwtop with rfl | habove
        · exact absurd (.refl _) htopw
        · exact habove
      have hleft := mem_exited_beside h hc hs (fun _ _ _ _ => hboundary) hn hk hw hz htw hbelow
        hzold
      exact absurd ((mem_exited_iff h hin hs hsides hc.known (fun _ => hc) hzold).1 hleft)
        (hstays target htarget)
  · obtain ⟨joint, hlegal', hall⟩ := hjoint
    have hc := hlegal'.coherent h
    have hx : x ∈ joint := hall x (by simp)
    exact hc.exclusive n hn children initial actions hk z hz w hw (hc.above hx hxz hzne)
      (hc.above (hall target htarget) htw hwne)

/-! ## Events that select one transition -/

/-- In a fork no step to a later target leaves an earlier one. -/
theorem Forks.not_leaves (h : t.WellFormed) {source : StateId} {before after : List StateId}
    (hforks : t.Forks source (before ++ target :: after)) (hsource : source ∈ t.ids)
    (hafter : ∀ later ∈ after, later ∈ t.ids ∧ later ≠ t.root.id)
    (hbeside : ¬ target.Within source)
    (hcompound : ∀ top, t.StaysInside source target top →
      ∃ children initial actions, top.kind = .compound children initial actions) :
    ∀ later ∈ after, ¬ t.Leaves source later target := by
  intro later hin
  have hapart : t.Apart source target later :=
    (List.pairwise_cons.1 (List.pairwise_append.1 hforks).2.1).1 later hin
  obtain ⟨hmem, hroot⟩ := hafter later hin
  obtain ⟨top, hstays⟩ := exists_staysInside h hsource hmem hroot
  have hsame : t.StaysInside source target top := by
    rw [StaysInside, ← hapart.lca_eq h]
    exact hstays
  obtain ⟨children, initial, actions, hk⟩ := hcompound top hsame
  exact hapart.not_leaves h hstays hk hbeside

/-- An event that selects a single transition, whose targets can be active together, makes a target
active exactly if something on the way to it is active behind the last step, and stabilization goes
on from there by defaults. So a target is reached for certain if every step to a later one that
leaves it leads to a state below it. This is so for targets in different regions of orthogonal
states that have the source neither within them nor above them, if the steps stay inside a compound
state. -/
theorem process_reaches {d : NodeDef C} (hb : Tree.build d = .ok t) {event : Event} {run : Run C}
    {s : Selected C} {before after : List StateId} (hlegal : t.Legal run.configuration)
    (hselect : t.select run.configuration run.context event = [s])
    (hsplit : s.transition.targets = before ++ target :: after)
    (hjoint : ∃ c, t.Legal c ∧ ∀ x ∈ s.transition.targets, x ∈ c) :
    ∃ report run', t.process event run = (.ok report, run') ∧
      (target ∈ run'.configuration ↔
        ∃ p, t.ActiveAfter run.configuration s.ref.source s.transition.targets p ∧
          target.Within p ∧
            ∀ id, target.Within id → p.isAncestorOf id = true → t.IsDefault id) ∧
      ((∀ later ∈ after, t.Leaves s.ref.source later target → later.Within target) →
        target ∈ run'.configuration) ∧
      (t.Forks s.ref.source s.transition.targets → ¬ target.Within s.ref.source →
        (∀ top, t.StaysInside s.ref.source target top →
          ∃ children initial actions, top.kind = .compound children initial actions) →
        target ∈ run'.configuration) := by
  have h := build_wellFormed hb
  obtain ⟨hoffers, hactive, -⟩ :=
    mem_select (show s ∈ t.select run.configuration run.context event by simp [hselect])
  have htargets : ∀ x ∈ s.transition.targets, x ∈ t.ids ∧ x ≠ t.root.id :=
    fun x hx => hoffers.target_mem h hx
  have htarget : target ∈ s.transition.targets := by simp [hsplit]
  have hne := List.ne_nil_of_mem htarget
  obtain ⟨hmem, hroot⟩ := htargets target htarget
  obtain ⟨taken, mid, htake, -⟩ := take_steps h event hoffers hactive
  have hmid : ∀ id, id ∈ mid.configuration ↔
      t.ActiveAfter run.configuration s.ref.source s.transition.targets id := by
    intro id
    have hend : mid = (t.take event s run).2 := by rw [htake]
    rw [hend]
    simp only [take]
    exact mem_takeTo h hoffers.source_mem htargets
      ⟨hlegal.known, fun _ => hlegal.coherent h⟩
  have hf : t.Fills mid.configuration (t.stabilize event.data mid).2.configuration :=
    (stabilize_stabilizes event.data mid).fills h (.refl t _)
  have hlast : (∀ later ∈ after, t.Leaves s.ref.source later target → later.Within target) →
      target ∈ (t.stabilize event.data mid).2.configuration := by
    intro hlater
    refine hf.kept _ ((hmid target).2 ?_)
    rw [hsplit]
    exact activeAfter_of_passes (passes_target h hoffers.source_mem hmem hroot)
      fun later hin hleaves => hleaves.passes (hlater later hin hleaves)
  refine ⟨_, _, process_one hselect hne htake, ⟨fun hin => ?_, ?_⟩, hlast, ?_⟩
  · obtain ⟨p, hp, hw, hdefaults⟩ := hf.exists_default (h.keys_ne_nil hmem) hin
    exact ⟨p, (hmid p).1 hp, hw, hdefaults⟩
  · rintro ⟨p, hp, hw, hdefaults⟩
    have hfree : t.Unopposed mid.configuration target :=
      unopposed_of_activeAfter h hlegal hactive htarget hmem hroot hjoint fun id => (hmid id).1
    exact hf.mem_of_default h (unstable_stabilize h event.data mid) hfree ((hmid p).2 hp) hdefaults
      (h.keys_ne_nil hmem) (.refl _) hw
  · intro hforks hbeside hcompound
    have hafter : ∀ later ∈ after, later ∈ t.ids ∧ later ≠ t.root.id :=
      fun later hin => htargets later (by simp [hsplit, hin])
    refine hlast fun later hin hleaves => absurd hleaves ?_
    exact (hsplit ▸ hforks).not_leaves h hoffers.source_mem hafter hbeside hcompound later hin

end Tree

/-- In `forking`, the second step from outside leaves nothing that the first one has entered. -/
theorem forking_reached :
    Tree.build forking = .ok forkingTree ∧ forkingTree.Legal forkingStarted.configuration ∧
      (∃ s, forkingTree.select forkingStarted.configuration forkingStarted.context
          (.named "split" .null) = [s] ∧
        s.transition.targets = [⟨["m", "pair", "l", "work"]⟩, ⟨["m", "pair", "r"]⟩]) ∧
      (∃ c, forkingTree.Legal c ∧ ⟨["m", "pair", "l", "work"]⟩ ∈ c ∧ ⟨["m", "pair", "r"]⟩ ∈ c) ∧
      ¬ forkingTree.Leaves ⟨["m", "idle"]⟩ ⟨["m", "pair", "r"]⟩ ⟨["m", "pair", "l", "work"]⟩ ∧
      ∃ report run', forkingTree.process (.named "split" .null) forkingStarted =
          (.ok report, run') ∧
        ⟨["m", "pair", "l", "work"]⟩ ∈ run'.configuration := by
  have hbuild : Tree.build forking = .ok forkingTree := rfl
  have hlegal : forkingTree.Legal forkingStarted.configuration := by decide
  let s : Selected Nat := ⟨⟨⟨["m", "idle"]⟩, 0⟩,
    .taken (.named "split") none [⟨["m", "pair", "l", "work"]⟩, ⟨["m", "pair", "r"]⟩] []⟩
  have hselect : forkingTree.select forkingStarted.configuration forkingStarted.context
      (.named "split" .null) = [s] := rfl
  have hjoint : ∃ c, forkingTree.Legal c ∧ ∀ x ∈ s.transition.targets, x ∈ c :=
    ⟨forkingSplit.configuration, by decide, by decide⟩
  have hin : forkingTree.StaysInside ⟨["m", "idle"]⟩ ⟨["m", "pair", "r"]⟩ forkingTree.root :=
    ⟨List.mem_cons_self, .inr ⟨by decide, rfl⟩⟩
  have hstays :
      ¬ forkingTree.Leaves ⟨["m", "idle"]⟩ ⟨["m", "pair", "r"]⟩ ⟨["m", "pair", "l", "work"]⟩ := by
    have hparent : StateId.parent? ⟨["m", "pair"]⟩ = some ⟨["m"]⟩ := rfl
    rw [Tree.leaves_iff (Tree.build_wellFormed hbuild) hin hparent (by decide)]
    show ¬ (_ ∨ _)
    decide
  have hsplit : s.transition.targets =
      [] ++ ⟨["m", "pair", "l", "work"]⟩ :: [⟨["m", "pair", "r"]⟩] := rfl
  obtain ⟨report, run', hprocess, -, hreached, -⟩ :=
    Tree.process_reaches hbuild hlegal hselect hsplit hjoint
  have hactive : ⟨["m", "pair", "l", "work"]⟩ ∈ run'.configuration := by
    refine hreached fun later hlater hleaves => ?_
    rw [List.mem_singleton.1 hlater] at hleaves
    exact absurd hleaves hstays
  obtain ⟨c, hc, hall⟩ := hjoint
  exact ⟨hbuild, hlegal, ⟨s, hselect, rfl⟩, ⟨c, hc, hall _ (by decide), hall _ (by decide)⟩, hstays,
    report, run', hprocess, hactive⟩

/-! A chart whose root leads into both regions of a state. -/

def spreading : NodeDef Nat where
  key := "m"
  kind := .compound "idle" []
  transitions := [{ event := .named "split", targets := ["pair.l.b", "pair.r.y"] }]
  children := [
    { key := "idle", kind := .atomic },
    { key := "pair", kind := .orthogonal, children := [
      { key := "l", kind := .compound "a" [], children := [
        { key := "a", kind := .atomic }, { key := "b", kind := .atomic }] },
      { key := "r", kind := .compound "x" [], children := [
        { key := "x", kind := .atomic }, { key := "y", kind := .atomic }] }] }]

def spreadingTree : Tree Nat where
  root := ⟨⟨["m"]⟩, .compound [⟨["m", "idle"]⟩, ⟨["m", "pair"]⟩] ⟨["m", "idle"]⟩ [], [], [],
    [.taken (.named "split") none [⟨["m", "pair", "l", "b"]⟩, ⟨["m", "pair", "r", "y"]⟩] []], []⟩
  rest := [
    ⟨⟨["m", "idle"]⟩, .atomic, [], [], [], []⟩,
    ⟨⟨["m", "pair"]⟩, .orthogonal [⟨["m", "pair", "l"]⟩, ⟨["m", "pair", "r"]⟩], [], [], [], []⟩,
    ⟨⟨["m", "pair", "l"]⟩, .compound [⟨["m", "pair", "l", "a"]⟩, ⟨["m", "pair", "l", "b"]⟩]
      ⟨["m", "pair", "l", "a"]⟩ [], [], [], [], []⟩,
    ⟨⟨["m", "pair", "l", "a"]⟩, .atomic, [], [], [], []⟩,
    ⟨⟨["m", "pair", "l", "b"]⟩, .atomic, [], [], [], []⟩,
    ⟨⟨["m", "pair", "r"]⟩, .compound [⟨["m", "pair", "r", "x"]⟩, ⟨["m", "pair", "r", "y"]⟩]
      ⟨["m", "pair", "r", "x"]⟩ [], [], [], [], []⟩,
    ⟨⟨["m", "pair", "r", "x"]⟩, .atomic, [], [], [], []⟩,
    ⟨⟨["m", "pair", "r", "y"]⟩, .atomic, [], [], [], []⟩]

def spreadingStarted : Run Nat :=
  (spreadingTree.process .start (.new 0)).2

/-- The second step leaves all that the first one has entered, and stabilization gives the first
region its initial child instead of the target. -/
theorem spreading_missed :
    Tree.build spreading = .ok spreadingTree ∧
      spreadingTree.Legal spreadingStarted.configuration ∧
      (∃ s, spreadingTree.select spreadingStarted.configuration spreadingStarted.context
          (.named "split" .null) = [s] ∧
        s.transition.targets = [⟨["m", "pair", "l", "b"]⟩, ⟨["m", "pair", "r", "y"]⟩]) ∧
      (∃ c, spreadingTree.Legal c ∧ ⟨["m", "pair", "l", "b"]⟩ ∈ c ∧
        ⟨["m", "pair", "r", "y"]⟩ ∈ c) ∧
      ∃ report run', spreadingTree.process (.named "split" .null) spreadingStarted =
          (.ok report, run') ∧
        run'.configuration.ids = [⟨["m"]⟩, ⟨["m", "pair"]⟩, ⟨["m", "pair", "l"]⟩,
          ⟨["m", "pair", "l", "a"]⟩, ⟨["m", "pair", "r"]⟩, ⟨["m", "pair", "r", "y"]⟩] ∧
        ⟨["m", "pair", "l", "b"]⟩ ∉ run'.configuration := by
  let both : Configuration := .ofList [⟨["m"]⟩, ⟨["m", "pair"]⟩, ⟨["m", "pair", "l"]⟩,
    ⟨["m", "pair", "l", "b"]⟩, ⟨["m", "pair", "r"]⟩, ⟨["m", "pair", "r", "y"]⟩]
  have hboth : spreadingTree.Legal both := by decide
  exact ⟨rfl, by decide, ⟨_, rfl, rfl⟩, ⟨both, hboth, by decide, by decide⟩, _, _, rfl, rfl,
    by decide⟩

end Statechart
