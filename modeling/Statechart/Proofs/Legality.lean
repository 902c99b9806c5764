import Statechart.Proofs.Building
import Statechart.Proofs.Microsteps
import Statechart.Proofs.Rounds

/-!
# Statechart.Proofs.Legality

Configurations of running charts are legal: every active compound state has exactly one active
child, and every active orthogonal state has all its children active.

This does not hold between the microsteps of an event, since transitions are taken one after the
other and children are filled in at the end. What every microstep keeps is `Tree.Coherent`, where a
compound state has at most one active child; stabilization makes a coherent configuration legal.

* `Tree.Legal`, `Tree.Coherent`, and `Tree.legal_of_stable` between them. Legality is decidable.
* `Tree.planWithin_coherent_of`, `Tree.planWithin_coherent`: the step of a transition.
* `Engine.reachable_legal`: every run, for charts without transitions to several targets.
-/

namespace Statechart

variable {C : Type}

/-- One child of a compound state is active, and every child of an orthogonal state. -/
def NodeKind.Populated (c : Configuration) : NodeKind C → Prop
  | .compound children _ _ => ∃ x ∈ children, x ∈ c ∧ ∀ y ∈ children, y ∈ c → y = x
  | .orthogonal children => ∀ x ∈ children, x ∈ c
  | .atomic => True
  | .final => True

instance (c : Configuration) (kind : NodeKind C) : Decidable (kind.Populated c) :=
  match kind with
  | .compound children _ _ =>
    inferInstanceAs (Decidable (∃ x ∈ children, x ∈ c ∧ ∀ y ∈ children, y ∈ c → y = x))
  | .orthogonal children => inferInstanceAs (Decidable (∀ x ∈ children, x ∈ c))
  | .atomic => inferInstanceAs (Decidable True)
  | .final => inferInstanceAs (Decidable True)

namespace Tree

/-- The active states are states of the chart, with the root and all ancestors, one child for a
compound state and all children for an orthogonal state. -/
structure Legal (t : Tree C) (c : Configuration) : Prop where
  known : ∀ id ∈ c, id ∈ t.ids
  root : t.root.id ∈ c
  closed : ∀ id ∈ c, ∀ a ∈ id.ancestors, a ∈ c
  compound : ∀ n ∈ t.nodes, n.id ∈ c → ∀ children initial actions,
    n.kind = .compound children initial actions → ∃! x, x ∈ children ∧ x ∈ c
  orthogonal : ∀ n ∈ t.nodes, n.id ∈ c → ∀ children, n.kind = .orthogonal children →
    ∀ x ∈ children, x ∈ c

theorem legal_iff {t : Tree C} {c : Configuration} :
    t.Legal c ↔ (∀ id ∈ c.ids, id ∈ t.ids) ∧ t.root.id ∈ c ∧
      (∀ id ∈ c.ids, ∀ a ∈ id.ancestors, a ∈ c) ∧
      ∀ n ∈ t.nodes, n.id ∈ c → n.kind.Populated c := by
  constructor
  · intro h
    refine ⟨h.known, h.root, h.closed, fun n hn hactive => ?_⟩
    cases hk : n.kind with
    | atomic => trivial
    | final => trivial
    | compound children initial actions =>
      obtain ⟨x, ⟨hx, hxc⟩, hunique⟩ := h.compound n hn hactive children initial actions hk
      exact ⟨x, hx, hxc, fun y hy hyc => hunique y ⟨hy, hyc⟩⟩
    | orthogonal children => exact h.orthogonal n hn hactive children hk
  · rintro ⟨hknown, hroot, hclosed, hpopulated⟩
    refine ⟨hknown, hroot, hclosed, ?_, ?_⟩
    · intro n hn hactive children initial actions hk
      have hone := hpopulated n hn hactive
      rw [hk] at hone
      obtain ⟨x, hx, hxc, hunique⟩ := hone
      exact ⟨x, ⟨hx, hxc⟩, fun y hy => hunique y hy.1 hy.2⟩
    · intro n hn hactive children hk
      have hall := hpopulated n hn hactive
      rw [hk] at hall
      exact hall

instance (t : Tree C) (c : Configuration) : Decidable (t.Legal c) :=
  decidable_of_iff _ legal_iff.symm

/-- What a legal configuration keeps while an event is processed: a compound state has no two
active children. -/
structure Coherent (t : Tree C) (c : Configuration) : Prop where
  known : ∀ id ∈ c, id ∈ t.ids
  root : t.root.id ∈ c
  closed : ∀ id ∈ c, ∀ a ∈ id.ancestors, a ∈ c
  exclusive : ∀ n ∈ t.nodes, ∀ children initial actions,
    n.kind = .compound children initial actions →
      ∀ x ∈ children, ∀ y ∈ children, x ∈ c → y ∈ c → x = y

/-- No transition of the chart has several targets. -/
def SingleTarget (t : Tree C) : Prop :=
  ∀ n ∈ t.nodes, ∀ tr ∈ n.transitions, tr.targets.length ≤ 1

instance (t : Tree C) : Decidable t.SingleTarget :=
  inferInstanceAs (Decidable (∀ n ∈ t.nodes, ∀ tr ∈ n.transitions, tr.targets.length ≤ 1))

variable {t : Tree C} {c : Configuration}

/-- What is above an active state is active. -/
theorem Coherent.above (hc : t.Coherent c) {id a : StateId} (hid : id ∈ c) (hw : id.Within a)
    (ha : a.keys ≠ []) : a ∈ c := by
  rcases StateId.within_iff.1 hw with rfl | hanc
  · exact hid
  · exact hc.closed id hid a (StateId.mem_ancestors.2 ⟨ha, hanc⟩)

theorem lacksChildren_of_stable (hstable : t.unstable c = []) {n : Node C} (hn : n ∈ t.nodes)
    (hactive : n.id ∈ c) : lacksChildren n.kind c = false := by
  by_contra hlacks
  have hmem := mem_unstable.2 ⟨⟨hn, hactive⟩, by simpa using hlacks⟩
  rw [hstable] at hmem
  cases hmem

theorem legal_of_stable (hc : t.Coherent c) (hstable : t.unstable c = []) : t.Legal c := by
  refine ⟨hc.known, hc.root, hc.closed, ?_, ?_⟩
  · intro n hn hactive children initial actions hk
    have hlacks := lacksChildren_of_stable hstable hn hactive
    rw [hk] at hlacks
    obtain ⟨x, hx, hxc⟩ : ∃ x ∈ children, x ∈ c := by simpa [lacksChildren] using hlacks
    refine ⟨x, ⟨hx, hxc⟩, ?_⟩
    rintro y ⟨hy, hyc⟩
    exact hc.exclusive n hn children initial actions hk y hy x hx hyc hxc
  · intro n hn hactive children hk
    have hlacks := lacksChildren_of_stable hstable hn hactive
    rw [hk] at hlacks
    simpa [lacksChildren] using hlacks

theorem Legal.stable (hc : t.Legal c) : t.unstable c = [] := by
  refine List.eq_nil_iff_forall_not_mem.2 fun n hn => ?_
  obtain ⟨⟨hmem, hactive⟩, hlacks⟩ := mem_unstable.1 hn
  cases hk : n.kind with
  | atomic => rw [hk] at hlacks; cases hlacks
  | final => rw [hk] at hlacks; cases hlacks
  | compound children initial actions =>
    rw [hk] at hlacks
    obtain ⟨x, ⟨hx, hxc⟩, -⟩ := hc.compound n hmem hactive children initial actions hk
    have hnone : ∀ x ∈ children, x ∉ c := by simpa [lacksChildren] using hlacks
    exact hnone x hx hxc
  | orthogonal children =>
    rw [hk] at hlacks
    obtain ⟨x, hx, hxc⟩ : ∃ x ∈ children, x ∉ c := by simpa [lacksChildren] using hlacks
    exact hxc (hc.orthogonal n hmem hactive children hk x hx)

theorem Legal.coherent (h : t.WellFormed) (hc : t.Legal c) : t.Coherent c := by
  refine ⟨hc.known, hc.root, hc.closed, ?_⟩
  intro n hn children initial actions hk x hx y hy hxc hyc
  have hparent : x.parent? = some n.id := (h.child_mem hn (by rw [hk]; exact hx)).2
  have habove : n.id ∈ x.ancestors := StateId.mem_ancestors.2
    ⟨h.keys_ne_nil (id_mem_ids hn), StateId.isAncestorOf_of_parent? hparent⟩
  have hactive : n.id ∈ c := hc.closed x hxc n.id habove
  exact (hc.compound n hn hactive children initial actions hk).unique ⟨hx, hxc⟩ ⟨hy, hyc⟩

/-! ## The step of a transition -/

section Step

variable {top : Node C} {boundary : Option StateId} {target : StateId}

/-- An active state below `top` is left if `top` is compound, or if it lies in the branch of the
target. -/
theorem mem_exited_of (h : t.WellFormed) (hc : t.Coherent c)
    (hs : t.StepsInside top boundary target)
    (hboundary : ∀ children initial actions, top.kind = .compound children initial actions →
      ∀ b ∈ boundary, b ∈ c) {y b : StateId}
    (hy : y ∈ c) (hb : b.parent? = some top.id) (hyb : y.Within b)
    (hside : (∃ children initial actions, top.kind = .compound children initial actions) ∨
      target.Within b) :
    y ∈ (t.planWithin c top.id boundary target).exited := by
  have hkind := h.kind?_id hs.mem
  have hbc : b ∈ c := hc.above hy hyb (StateId.keys_ne_nil_of_parent? hb)
  have hchild : b ∈ top.kind.children := (h.mem_children hs.mem).2 ⟨hc.known b hbc, hb⟩
  have hroot : b ∈ t.exitRoots c top.id boundary target := by
    cases hk : top.kind with
    | atomic => rw [hk] at hchild; cases hchild
    | final => rw [hk] at hchild; cases hchild
    | compound children initial actions =>
      rw [hk] at hkind
      have hchild : b ∈ children := by rw [hk] at hchild; exact hchild
      cases boundary with
      | none => simpa [exitRoots, hkind] using ⟨hchild, hbc⟩
      | some b' =>
        have hb' : b' ∈ c := hboundary children initial actions hk b' rfl
        have hchild' : b' ∈ children := by
          have := (h.mem_children hs.mem).2 ⟨hc.known b' hb', hs.boundary_parent b' rfl⟩
          rwa [hk] at this
        have hsame :=
          hc.exclusive top hs.mem children initial actions hk b hchild b' hchild' hbc hb'
        exact mem_exitRoots_of_boundary (hsame ▸ rfl)
    | orthogonal children =>
      have htarget : target.Within b := by
        rcases hside with ⟨_, _, _, hcompound⟩ | htarget
        · rw [hk] at hcompound; cases hcompound
        · exact htarget
      exact (mem_exitRoots_orthogonal h hs.mem hk hb).2 (.inr htarget)
  exact List.mem_flatMap.2 ⟨b, hroot, mem_activeBranch_of (hc.known y hy) hy hyb⟩

theorem isAncestorOf_of_mem_exited (h : t.WellFormed) (hs : t.StepsInside top boundary target)
    {id : StateId} (hid : id ∈ (t.planWithin c top.id boundary target).exited) :
    top.id.isAncestorOf id = true := by
  obtain ⟨-, r, hr, hw⟩ := mem_exited hid
  have hbelow := StateId.isAncestorOf_of_parent? (exitRoots_child h hs r hr)
  exact StateId.isAncestorOf_of_within hbelow hw

/-- Inside a compound state, everything below it is left. -/
theorem mem_exited_compound (h : t.WellFormed) (hc : t.Coherent c)
    (hs : t.StepsInside top boundary target) (hboundary : ∀ b ∈ boundary, b ∈ c)
    {children : List StateId} {initial : StateId} {actions : List (Action C)}
    (hk : top.kind = .compound children initial actions) {id : StateId} :
    id ∈ (t.planWithin c top.id boundary target).exited ↔
      id ∈ c ∧ top.id.isAncestorOf id = true := by
  constructor
  · exact fun hid => ⟨(mem_exited hid).1, isAncestorOf_of_mem_exited h hs hid⟩
  · rintro ⟨hid, hbelow⟩
    obtain ⟨b, hparent, hwithin⟩ :=
      StateId.exists_branch (h.keys_ne_nil (id_mem_ids hs.mem)) hbelow
    exact mem_exited_of h hc hs (fun _ _ _ _ => hboundary) hid hparent hwithin
      (.inl ⟨children, initial, actions, hk⟩)

theorem root_not_mem_exited (h : t.WellFormed) (hs : t.StepsInside top boundary target) :
    t.root.id ∉ (t.planWithin c top.id boundary target).exited := fun hexit =>
  h.not_isAncestorOf_root (id_mem_ids hs.mem) (isAncestorOf_of_mem_exited h hs hexit)

/-- If the source is active, so are the state that the step stays inside, and its child on the side
of the source. -/
theorem Coherent.frame_active (hc : t.Coherent c) (hs : t.StepsInside top boundary target)
    {source : StateId} (hsource : source ∈ c)
    (hsides : (boundary = none ∧ top = t.root ∧ source = t.root.id) ∨
      ∃ b, boundary = some b ∧ source.Within b) : top.id ∈ c ∧ ∀ b ∈ boundary, b ∈ c := by
  rcases hsides with ⟨rfl, rfl, -⟩ | ⟨b, rfl, hw⟩
  · exact ⟨hc.root, fun b hb => by cases hb⟩
  · have hparent := hs.boundary_parent b rfl
    obtain ⟨hkeys, k, rfl⟩ := StateId.parent?_eq_some.1 hparent
    have hb := hc.above hsource hw (StateId.child_ne_nil _ _)
    refine ⟨hc.above hb (StateId.within_of_isAncestorOf
      (StateId.isAncestorOf_of_parent? hparent)) hkeys, ?_⟩
    intro b' hb'
    cases hb'
    exact hb

/-- A step keeps a configuration coherent if every active sibling of a state on the way to the
target lies on the way, too, or is left. -/
theorem planWithin_coherent_of (h : t.WellFormed) (hc : t.Coherent c)
    (hs : t.StepsInside top boundary target) (htop : top.id ∈ c)
    (hdriven : ∀ n ∈ t.nodes, ∀ children initial actions,
      n.kind = .compound children initial actions → ∀ x ∈ children, ∀ y ∈ children,
        target.Within x → top.id.isAncestorOf x = true → y ∈ c →
          x = y ∨ y ∈ (t.planWithin c top.id boundary target).exited) :
    t.Coherent ((t.planWithin c top.id boundary target).applyTo c) := by
  have hmem : ∀ {id : StateId}, id ∈ (t.planWithin c top.id boundary target).applyTo c ↔ _ :=
    mem_applyTo_planWithin h hs
  refine ⟨?_, ?_, ?_, ?_⟩
  · intro id hid
    rcases hmem.1 hid with hway | ⟨hidc, -⟩
    · exact way_mem_ids h hs ((mem_way h hs).2 hway)
    · exact hc.known id hidc
  · exact hmem.2 (.inr ⟨hc.root, root_not_mem_exited h hs⟩)
  · intro id hid a ha
    obtain ⟨hne, hanc⟩ := StateId.mem_ancestors.1 ha
    rcases hmem.1 hid with ⟨hw, hbelow⟩ | ⟨hidc, hstay⟩
    · -- On the way to the target, what is not below `top` was active and stays so.
      have hta := StateId.within_of_isAncestorOf (StateId.isAncestorOf_of_within hanc hw)
      by_cases hatop : top.id.Within a
      · refine hmem.2 (.inr ⟨hc.above htop hatop hne, fun hexit => ?_⟩)
        exact StateId.not_within_of_isAncestorOf (isAncestorOf_of_mem_exited h hs hexit) hatop
      · refine hmem.2 (.inl ⟨hta, ?_⟩)
        have htotal := hta.total (StateId.within_of_isAncestorOf hs.target_below)
        rcases StateId.within_iff.1 (htotal.resolve_right hatop) with rfl | hanc'
        · exact absurd (.refl _) hatop
        · exact hanc'
    · refine hmem.2 (.inr ⟨hc.closed id hidc a ha, fun hexit => hstay ?_⟩)
      obtain ⟨-, r, hr, hw⟩ := mem_exited hexit
      have hin := (StateId.within_of_isAncestorOf hanc).trans hw
      exact List.mem_flatMap.2 ⟨r, hr, mem_activeBranch_of (hc.known id hidc) hidc hin⟩
  · intro n hn children initial actions hk
    have hparent : ∀ z ∈ children, z.parent? = some n.id :=
      fun z hz => (h.child_mem hn (by rw [hk]; exact hz)).2
    have driven := hdriven n hn children initial actions hk
    intro x hx y hy hxc hyc
    rcases hmem.1 hxc with ⟨hxw, hxb⟩ | ⟨hxc, hxs⟩
    · rcases hmem.1 hyc with ⟨hyw, -⟩ | ⟨hyc, hys⟩
      · exact StateId.eq_of_within_siblings (hparent x hx) (hparent y hy) hxw hyw
      · exact (driven x hx y hy hxw hxb hyc).resolve_right hys
    · rcases hmem.1 hyc with ⟨hyw, hyb⟩ | ⟨hyc, -⟩
      · exact ((driven y hy x hx hyw hyb hxc).resolve_right hxs).symm
      · exact hc.exclusive n hn children initial actions hk x hx y hy hxc hyc

/-- The active siblings of a state on the way to the target are left. -/
theorem mem_exited_beside (h : t.WellFormed) (hc : t.Coherent c)
    (hs : t.StepsInside top boundary target)
    (hboundary : ∀ children initial actions, top.kind = .compound children initial actions →
      ∀ b ∈ boundary, b ∈ c) {n : Node C} (hn : n ∈ t.nodes) {children : List StateId}
    {initial : StateId} {actions : List (Action C)}
    (hk : n.kind = .compound children initial actions) {x y : StateId} (hx : x ∈ children)
    (hy : y ∈ children) (hw : target.Within x) (hbelow : top.id.isAncestorOf x = true)
    (hyc : y ∈ c) : y ∈ (t.planWithin c top.id boundary target).exited := by
  have hparent : ∀ z ∈ children, z.parent? = some n.id :=
    fun z hz => (h.child_mem hn (by rw [hk]; exact hz)).2
  have hntop : n.id.Within top.id := StateId.within_parent (hparent x hx) hbelow
  have hyn := StateId.isAncestorOf_of_parent? (hparent y hy)
  rcases StateId.within_iff.1 hntop with hsame | hbelow'
  · have hntop := h.eq_of_id hn hs.mem hsame
    subst hntop
    exact mem_exited_of h hc hs hboundary hyc (hparent y hy) (.refl y)
      (.inl ⟨children, initial, actions, hk⟩)
  · obtain ⟨b, hbp, hbw⟩ := StateId.exists_branch (h.keys_ne_nil (id_mem_ids hs.mem)) hbelow'
    have hxn := StateId.within_of_isAncestorOf (StateId.isAncestorOf_of_parent? (hparent x hx))
    exact mem_exited_of h hc hs hboundary hyc hbp
      ((StateId.within_of_isAncestorOf hyn).trans hbw) (.inr ((hw.trans hxn).trans hbw))

/-- The step of a transition whose source is active keeps a configuration coherent. Inside a state
that is not compound, the source may have been left. -/
theorem planWithin_coherent (h : t.WellFormed) (hc : t.Coherent c)
    (hs : t.StepsInside top boundary target) (htop : top.id ∈ c)
    (hboundary : ∀ children initial actions, top.kind = .compound children initial actions →
      ∀ b ∈ boundary, b ∈ c) :
    t.Coherent ((t.planWithin c top.id boundary target).applyTo c) := by
  refine planWithin_coherent_of h hc hs htop ?_
  intro n hn children initial actions hk x hx y hy hw hbelow hyc
  exact .inr (mem_exited_beside h hc hs hboundary hn hk hx hy hw hbelow hyc)

end Step

/-! ## Microsteps and events -/

theorem coherent_root (h : t.WellFormed) : t.Coherent (Configuration.empty.insert t.root.id) := by
  have hmem : ∀ {id : StateId}, id ∈ Configuration.empty.insert t.root.id → id = t.root.id :=
    fun hid => (Configuration.mem_insert.1 hid).resolve_right (Configuration.not_mem_empty _)
  refine ⟨?_, Configuration.mem_insert.2 (.inl rfl), ?_, ?_⟩
  · intro id hid
    rw [hmem hid]
    exact root_mem_ids
  · intro id hid a ha
    rw [hmem hid, h.root_ancestors] at ha
    cases ha
  · intro n hn children initial actions hk x hx y hy hxc hyc
    rw [hmem hxc, hmem hyc]

/-- Is this a child that its parent lacks? -/
def Awaited (t : Tree C) (c : Configuration) (id : StateId) : Prop :=
  ∃ n ∈ t.nodes, lacksChildren n.kind c = true ∧ id ∈ missingChildren n.kind c

/-- If a compound state lacks children, it has no active child, and lacks the initial one only. -/
theorem Awaited.compound (h : t.WellFormed) {id : StateId} (ha : t.Awaited c id) {n : Node C}
    (hn : n ∈ t.nodes) {children : List StateId} {initial : StateId} {actions : List (Action C)}
    (hk : n.kind = .compound children initial actions) (hid : id ∈ children) :
    id = initial ∧ ∀ x ∈ children, x ∉ c := by
  obtain ⟨m, hm, hlacks, hmissing⟩ := ha
  have hparent := (h.child_mem hn (by rw [hk]; exact hid)).2
  have hparent' := (h.child_mem hm (mem_missingChildren h hm hlacks hmissing).1).2
  have hmn := h.eq_of_id hm hn (Option.some.inj (hparent'.symm.trans hparent))
  subst hmn
  rw [hk] at hlacks hmissing
  exact ⟨List.mem_singleton.1 hmissing, by simpa [lacksChildren] using hlacks⟩

/-- Giving an active state the children it lacks keeps a configuration coherent. -/
theorem stabilization_coherent (h : t.WellFormed) (hc : t.Coherent c) {n : Node C} {p : Plan}
    (hp : t.planStabilization c = some (n, p)) : t.Coherent (p.applyTo c) := by
  obtain ⟨hn, rfl⟩ := planStabilization_eq_some hp
  obtain ⟨⟨hmem, hactive⟩, hlacks⟩ := mem_unstable.1 hn
  have hin : ∀ {id : StateId}, id ∈ Plan.applyTo { entered := missingChildren n.kind c } c ↔
      id ∈ missingChildren n.kind c ∨ id ∈ c := by
    intro id
    simp [Plan.mem_applyTo]
  have hchild : ∀ {id : StateId}, id ∈ missingChildren n.kind c →
      id ∈ t.ids ∧ id.parent? = some n.id :=
    fun hid => h.child_mem hmem (mem_missingChildren h hmem hlacks hid).1
  refine ⟨?_, hin.2 (.inr hc.root), ?_, ?_⟩
  · intro id hid
    rcases hin.1 hid with hnew | hold
    · exact (hchild hnew).1
    · exact hc.known id hold
  · intro id hid a ha
    refine hin.2 (.inr ?_)
    rcases hin.1 hid with hnew | hold
    · obtain ⟨hne, hanc⟩ := StateId.mem_ancestors.1 ha
      exact hc.above hactive (StateId.within_parent (hchild hnew).2 hanc) hne
    · exact hc.closed id hold a ha
  · intro m hm children initial actions hk x hx y hy hxc hyc
    have entered : ∀ z ∈ children, z ∈ missingChildren n.kind c →
        z = initial ∧ ∀ w ∈ children, w ∉ c :=
      fun z hz hnew => Awaited.compound h ⟨n, hmem, hlacks, hnew⟩ hm hk hz
    rcases hin.1 hxc with hxnew | hxold
    · obtain ⟨hxi, hnone⟩ := entered x hx hxnew
      rcases hin.1 hyc with hynew | hyold
      · rw [hxi, (entered y hy hynew).1]
      · exact absurd hyold (hnone y hy)
    · rcases hin.1 hyc with hynew | hyold
      · exact absurd hxold ((entered y hy hynew).2 x hx)
      · exact hc.exclusive m hm children initial actions hk x hx y hy hxold hyold

theorem Planned.coherent (h : t.WellFormed) (hs : t.SingleTarget) (hc : t.Coherent c) {p : Plan}
    (hp : t.Planned c p) : t.Coherent (p.applyTo c) := by
  cases hp with
  | initialization hempty =>
    subst hempty
    exact absurd hc.root (Configuration.not_mem_empty _)
  | targetless => exact hc
  | @transition n tr target p hn htr htarget hactive hplan =>
    have hsource := hactive (hs n hn tr htr)
    obtain ⟨hmem, hne⟩ := h.targets n hn tr htr target htarget
    obtain ⟨top, boundary, hinside, rfl, hcases⟩ := plan_eq_ok h (id_mem_ids hn) hmem hne hplan
    obtain ⟨htop, hboundary⟩ := hc.frame_active hinside hsource hcases
    exact planWithin_coherent h hc hinside htop fun _ _ _ _ => hboundary
  | stabilization hplan => exact stabilization_coherent h hc hplan

/-- No step leaves the root. -/
theorem Planned.root_not_mem_exited (h : t.WellFormed) {p : Plan} (hp : t.Planned c p) :
    t.root.id ∉ p.exited := by
  cases hp with
  | initialization _ => exact List.not_mem_nil
  | targetless => exact List.not_mem_nil
  | @transition n tr target p hn htr htarget _ hplan =>
    obtain ⟨hmem, hne⟩ := h.targets n hn tr htr target htarget
    obtain ⟨top, boundary, hs, rfl, -⟩ := plan_eq_ok h (id_mem_ids hn) hmem hne hplan
    exact Tree.root_not_mem_exited h hs
  | stabilization hplan =>
    obtain ⟨-, rfl⟩ := planStabilization_eq_some hplan
    exact List.not_mem_nil

theorem Steps.root_mem (h : t.WellFormed) {run run' : Run C} {ms : List Microstep}
    (hsteps : t.Steps run ms run') (hroot : t.root.id ∈ run.configuration) :
    t.root.id ∈ run'.configuration := by
  induction hsteps with
  | nil => exact hroot
  | cons hp _ ih =>
    refine ih ?_
    rw [apply_configuration, Plan.mem_applyTo]
    exact .inr ⟨hroot, hp.root_not_mem_exited h⟩

theorem Steps.coherent (h : t.WellFormed) (hs : t.SingleTarget) {run run' : Run C}
    {ms : List Microstep} (hsteps : t.Steps run ms run') (hc : t.Coherent run.configuration) :
    t.Coherent run'.configuration := by
  induction hsteps with
  | nil => exact hc
  | cons hp _ ih =>
    refine ih ?_
    rw [apply_configuration]
    exact hp.coherent h hs hc

/-- What follows an event makes a coherent configuration legal. -/
theorem settle_legal (h : t.WellFormed) (hs : t.SingleTarget) (data : Json) (handled : Bool)
    (taken : List Microstep) {run : Run C} (hc : t.Coherent run.configuration) :
    t.Legal (t.settle data handled taken run).2.configuration :=
  legal_of_stable ((stabilize_steps data run).coherent h hs hc) (unstable_stabilize h data run)

/-- The configuration of a run in which these events were processed: empty before the start, and
legal from then on. -/
def LegalAfter (t : Tree C) (events : List Event) (c : Configuration) : Prop :=
  (.start ∉ events → c = .empty) ∧ (.start ∈ events → t.Legal c)

theorem LegalAfter.initialized_iff {events : List Event} {run : Run C}
    (hrun : t.LegalAfter events run.configuration) :
    run.configuration.isInitialized = true ↔ .start ∈ events := by
  constructor
  · intro hinit
    by_contra hnot
    obtain ⟨id, hid⟩ := Configuration.isInitialized_iff.1 hinit
    rw [hrun.1 hnot] at hid
    exact Configuration.not_mem_empty id hid
  · intro hstart
    exact Configuration.isInitialized_iff.2 ⟨_, (hrun.2 hstart).root⟩

theorem LegalAfter.process (h : t.WellFormed) (hs : t.SingleTarget) {events : List Event}
    {run run' : Run C} {event : Event} {report : StepReport}
    (hrun : t.LegalAfter events run.configuration)
    (hp : t.process event run = (.ok report, run')) :
    t.LegalAfter (events ++ [event]) run'.configuration := by
  have hinit := hrun.initialized_iff
  suffices hnow : .start ∈ events ++ [event] ∧ t.Legal run'.configuration from
    ⟨fun hnot => absurd hnow.1 hnot, fun _ => hnow.2⟩
  rcases process_cases h event run with ⟨rfl, hi, hstay⟩ | ⟨-, -, herr⟩ |
    ⟨data, handled, taken, mid, hsteps, hfirst, hok⟩
  · rw [hstay] at hp
    cases hp
    exact ⟨by simp, hrun.2 (hinit.1 hi)⟩
  · rw [herr] at hp
    cases hp
  · rw [hok] at hp
    cases hp
    cases hi : run.configuration.isInitialized with
    | true =>
      have hstart := hinit.1 hi
      have hmid := hsteps.coherent h hs ((hrun.2 hstart).coherent h)
      exact ⟨List.mem_append_left _ hstart, settle_legal h hs data handled taken hmid⟩
    | false =>
      obtain ⟨rfl, -, hmid⟩ := hfirst hi
      refine ⟨by simp, settle_legal h hs data handled taken ?_⟩
      rw [hmid]
      exact coherent_root h

end Tree

namespace Engine

/-- In a chart whose transitions have one target at most, every run is at every time either not
started, or in a legal configuration where no active state lacks children. -/
theorem reachable_legal {d : NodeDef C} {t : Tree C} (hb : Tree.build d = .ok t)
    (hs : t.SingleTarget) {limits : Limits} {context : C} {events : List Event} {run : Run C}
    (hr : Reachable ⟨t, limits⟩ context events run) :
    (.start ∉ events → run.configuration = .empty) ∧
      (.start ∈ events → t.Legal run.configuration ∧ t.unstable run.configuration = []) := by
  have h := Tree.build_wellFormed hb
  have hlegal : t.LegalAfter events run.configuration := by
    refine hr.preserves (P := fun events run => t.LegalAfter events run.configuration)
      (fun queue hrun => hrun) (fun hrun hp => hrun.process h hs hp) ?_ ?_
    · intro events run event err run' hrun hp
      rw [Tree.process_refused h hp]
      exact hrun
    · exact ⟨fun _ => rfl, fun hin => by cases hin⟩
  exact ⟨hlegal.1, fun hin => ⟨hlegal.2 hin, (hlegal.2 hin).stable⟩⟩

end Engine

/-! Two regions with transitions into each other. Taking one leaves the region of the other and
its own, which is entered anew only when the configuration is stabilized. -/

def crossing : NodeDef Nat where
  key := "m"
  kind := .orthogonal
  children := [
    { key := "l", kind := .compound "a" [], children := [
      { key := "a", kind := .atomic,
        transitions := [{ event := .named "swap", targets := ["#m.r.y"] }] },
      { key := "b", kind := .atomic }] },
    { key := "r", kind := .compound "x" [], children := [
      { key := "x", kind := .atomic,
        transitions := [{ event := .named "swap", targets := ["#m.l.b"] }] },
      { key := "y", kind := .atomic }] }]

def crossingTree : Tree Nat where
  root := ⟨⟨["m"]⟩, .orthogonal [⟨["m", "l"]⟩, ⟨["m", "r"]⟩], [], [], [], []⟩
  rest := [
    ⟨⟨["m", "l"]⟩, .compound [⟨["m", "l", "a"]⟩, ⟨["m", "l", "b"]⟩] ⟨["m", "l", "a"]⟩ [],
      [], [], [], []⟩,
    ⟨⟨["m", "l", "a"]⟩, .atomic, [], [], [.taken (.named "swap") none [⟨["m", "r", "y"]⟩] []], []⟩,
    ⟨⟨["m", "l", "b"]⟩, .atomic, [], [], [], []⟩,
    ⟨⟨["m", "r"]⟩, .compound [⟨["m", "r", "x"]⟩, ⟨["m", "r", "y"]⟩] ⟨["m", "r", "x"]⟩ [],
      [], [], [], []⟩,
    ⟨⟨["m", "r", "x"]⟩, .atomic, [], [], [.taken (.named "swap") none [⟨["m", "l", "b"]⟩] []], []⟩,
    ⟨⟨["m", "r", "y"]⟩, .atomic, [], [], [], []⟩]

def crossingSwapped : Run Nat :=
  (crossingTree.process (.named "swap" .null) (crossingTree.process .start (.new 0)).2).2

theorem crossing_legal :
    Tree.build crossing = .ok crossingTree ∧ crossingTree.SingleTarget ∧
      Engine.Reachable ⟨crossingTree, {}⟩ 0 [.start, .named "swap" .null] crossingSwapped ∧
      crossingTree.Legal crossingSwapped.configuration ∧
      crossingTree.unstable crossingSwapped.configuration = [] := by
  have hbuild : Tree.build crossing = .ok crossingTree := rfl
  have hsingle : crossingTree.SingleTarget := by decide
  have hr : Engine.Reachable ⟨crossingTree, {}⟩ 0 [.start, .named "swap" .null] crossingSwapped :=
    .process (.process .new rfl) rfl
  obtain ⟨hlegal, hstable⟩ := (Engine.reachable_legal hbuild hsingle hr).2 List.mem_cons_self
  exact ⟨hbuild, hsingle, hr, hlegal, hstable⟩

end Statechart
