import Mathlib.Data.List.Nodup
import Statechart.Proofs.Ids
import Statechart.Tree.Build

/-!
# Statechart.Proofs.Shape

The shape of built trees. `Forest` describes how states stand in document order: a state, the
states below it, then its next sibling. `Tree.WellFormed` collects what building a tree checks.

Later proofs use the shape through the facts about `Tree.WellFormed` at the end: identifiers are
unique, ancestors of states are states, and the children of a state are the states whose parent it
is. `Tree.WellFormed.byChildren` is induction from children to parents.
-/

namespace Statechart

variable {C : Type}

/-- What the place of a state in the tree depends on. -/
def Node.outline (n : Node C) : StateId × NodeKind C := (n.id, n.kind)

/-- The ids of the services of a state. -/
def Node.serviceIds (n : Node C) : List String := n.services.map Service.id

/-- The initial child is a child, and an orthogonal state has children. -/
def NodeKind.Proper : NodeKind C → Prop
  | .compound children initial _ => initial ∈ children
  | .orthogonal children => children ≠ []
  | .atomic => True
  | .final => True

/-- The states below `parent` in document order, its children being `roots`. -/
inductive Forest : StateId → List StateId → List (StateId × NodeKind C) → Prop where
  | nil {parent : StateId} : Forest parent [] []
  | cons {parent : StateId} {key : String} {kind : NodeKind C} {siblings : List StateId}
      {below others : List (StateId × NodeKind C)} :
      isKey key = true → kind.Proper → parent.child key ∉ siblings →
      Forest (parent.child key) kind.children below → Forest parent siblings others →
      Forest parent (parent.child key :: siblings) ((parent.child key, kind) :: below ++ others)

/-- What building a tree checks. -/
structure Tree.WellFormed (t : Tree C) : Prop where
  rootKey : ∃ key, isKey key = true ∧ t.root.id = .root key
  rootKind : t.root.kind.Proper
  forest : Forest t.root.id t.root.kind.children (t.rest.map Node.outline)
  targets : ∀ n ∈ t.nodes, ∀ tr ∈ n.transitions, ∀ target ∈ tr.targets,
    target ∈ t.ids ∧ target ≠ t.root.id
  services : (t.nodes.flatMap Node.serviceIds).Nodup

/-! ## Forests -/

namespace Forest

variable {parent : StateId} {roots : List StateId} {os : List (StateId × NodeKind C)}

theorem roots_child (h : Forest parent roots os) :
    ∀ r ∈ roots, (∃ k, r = parent.child k) ∧ r ∈ os.map Prod.fst := by
  induction h with
  | nil => simp
  | @cons parent key kind siblings below others _ _ _ _ _ _ ih =>
    intro r hr
    rcases List.mem_cons.1 hr with rfl | hr
    · exact ⟨⟨key, rfl⟩, by simp⟩
    · obtain ⟨hk, hmem⟩ := ih r hr
      refine ⟨hk, ?_⟩
      rw [List.map_append]
      exact List.mem_append_right _ hmem

/-- The roots stand in order. -/
theorem roots_sublist (h : Forest parent roots os) : roots.Sublist (os.map Prod.fst) := by
  induction h with
  | nil => exact .slnil
  | @cons parent key kind siblings below others _ _ _ _ _ _ ih =>
    rw [List.map_append, List.map_cons]
    exact (ih.trans (List.sublist_append_right _ _)).cons_cons _

theorem roots_nodup (h : Forest parent roots os) : roots.Nodup := by
  induction h with
  | nil => exact .nil
  | cons _ _ hfresh _ _ _ ih => exact List.nodup_cons.2 ⟨hfresh, ih⟩

theorem within_root (h : Forest parent roots os) : ∀ o ∈ os, ∃ r ∈ roots, o.1.Within r := by
  induction h with
  | nil => simp
  | @cons parent key kind siblings below others _ _ _ hbelow _ ihBelow ih =>
    intro o ho
    rcases List.mem_append.1 ho with ho | ho
    · refine ⟨parent.child key, List.mem_cons_self, ?_⟩
      rcases List.mem_cons.1 ho with rfl | ho
      · exact .refl _
      · obtain ⟨r, hr, hor⟩ := ihBelow o ho
        obtain ⟨⟨k, rfl⟩, -⟩ := hbelow.roots_child r hr
        exact hor.trans (StateId.within_child.2 (.inr (.refl _)))
    · obtain ⟨r, hr, hor⟩ := ih o ho
      exact ⟨r, List.mem_cons_of_mem _ hr, hor⟩

theorem below_parent (h : Forest parent roots os) :
    ∀ o ∈ os, parent.isAncestorOf o.1 = true := by
  intro o ho
  obtain ⟨r, hr, hor⟩ := h.within_root o ho
  obtain ⟨⟨k, rfl⟩, -⟩ := h.roots_child r hr
  exact StateId.isAncestorOf_of_within (StateId.isAncestorOf_child.2 (.refl _)) hor

/-- What is laid out after a branch lies beside it. -/
theorem beside {key : String} (h : Forest parent roots os) (hp : parent.keys ≠ [])
    (hfresh : parent.child key ∉ roots) : ∀ o ∈ os, ¬ o.1.Within (parent.child key) := by
  intro o ho htop
  obtain ⟨r, hr, hor⟩ := h.within_root o ho
  obtain ⟨⟨k, rfl⟩, -⟩ := h.roots_child r hr
  have hsame := StateId.eq_of_within_siblings (StateId.parent?_child hp)
    (StateId.parent?_child hp) htop hor
  exact hfresh (hsame ▸ hr)

/-- A branch and what is below its top lie within the top. -/
theorem within_top {key : String} {kind : NodeKind C} {below : List (StateId × NodeKind C)}
    (h : Forest (parent.child key) kind.children below) :
    ∀ o ∈ (parent.child key, kind) :: below, o.1.Within (parent.child key) := by
  intro o ho
  rcases List.mem_cons.1 ho with rfl | ho
  · exact .refl _
  · exact StateId.within_of_isAncestorOf (h.below_parent o ho)

theorem ids_nodup (h : Forest parent roots os) (hp : parent.keys ≠ []) :
    (os.map Prod.fst).Nodup := by
  induction h with
  | nil => exact .nil
  | @cons parent key kind siblings below others _ _ hfresh hbelow hothers ihBelow ih =>
    rw [List.map_append, List.map_cons, List.nodup_append]
    refine ⟨List.nodup_cons.2 ⟨?_, ihBelow (StateId.child_ne_nil parent key)⟩, ih hp, ?_⟩
    · intro hmem
      obtain ⟨o, ho, heq⟩ := List.mem_map.1 hmem
      exact StateId.ne_of_isAncestorOf (hbelow.below_parent o ho) heq.symm
    · intro x hx y hy hxy
      subst hxy
      obtain ⟨o, ho, rfl⟩ := List.mem_map.1 hy
      obtain ⟨o', ho', heq⟩ := List.mem_map.1 (List.map_cons ▸ hx)
      exact hothers.beside hp hfresh o ho (heq ▸ hbelow.within_top o' ho')

theorem nodup_cons (h : Forest parent roots os) (hp : parent.keys ≠ []) :
    (parent :: os.map Prod.fst).Nodup := by
  refine List.nodup_cons.2 ⟨fun hmem => ?_, h.ids_nodup hp⟩
  obtain ⟨o, ho, heq⟩ := List.mem_map.1 hmem
  exact StateId.ne_of_isAncestorOf (h.below_parent o ho) heq.symm

/-- What lies within the top of a branch does not lie within what is laid out after the branch. -/
theorem apart {key : String} (h : Forest parent roots os) (hp : parent.keys ≠ [])
    (hfresh : parent.child key ∉ roots) {x : StateId} (hx : x.Within (parent.child key)) :
    ∀ o ∈ os, ¬ x.Within o.1 := by
  intro o ho hxo
  have hout := h.beside hp hfresh o ho
  -- Two states above the same state lie on one way, so the later one would be above the top.
  rcases hxo.total hx with hw | hw
  · exact hout hw
  · rcases StateId.within_iff.1 hw with heq | hanc
    · exact hout (heq ▸ .refl _)
    · exact StateId.not_within_of_isAncestorOf (h.below_parent o ho)
        (StateId.within_parent (StateId.parent?_child hp) hanc)

/-- A state is laid out before what is below it. -/
theorem ordered (h : Forest parent roots os) (hp : parent.keys ≠ []) :
    os.Pairwise fun a b => b.1.isAncestorOf a.1 = false := by
  induction h with
  | nil => exact .nil
  | @cons parent key kind siblings below others _ _ hfresh hbelow hothers ihBelow ih =>
    refine List.pairwise_append.2 ⟨List.pairwise_cons.2 ⟨fun o ho => ?_,
      ihBelow (StateId.child_ne_nil parent key)⟩, ih hp, fun o ho o' ho' => ?_⟩
    · rw [← Bool.not_eq_true]
      exact fun habove => StateId.not_within_of_isAncestorOf (hbelow.below_parent o ho)
        (StateId.within_of_isAncestorOf habove)
    · rw [← Bool.not_eq_true]
      exact fun habove => hothers.apart hp hfresh (hbelow.within_top o ho) o' ho'
        (StateId.within_of_isAncestorOf habove)

theorem parent_mem (h : Forest parent roots os) :
    ∀ o ∈ os, o.1 ∈ roots ∨ ∃ p ∈ os, o.1 ∈ p.2.children := by
  induction h with
  | nil => simp
  | @cons parent key kind siblings below others _ _ _ _ _ ihBelow ih =>
    intro o ho
    rcases List.mem_append.1 ho with ho | ho
    · rcases List.mem_cons.1 ho with rfl | ho
      · exact .inl List.mem_cons_self
      · rcases ihBelow o ho with hroot | ⟨p, hp, hop⟩
        · exact .inr ⟨(parent.child key, kind), by simp, hroot⟩
        · exact .inr ⟨p, List.mem_append_left _ (List.mem_cons_of_mem _ hp), hop⟩
    · rcases ih o ho with hroot | ⟨p, hp, hop⟩
      · exact .inl (List.mem_cons_of_mem _ hroot)
      · exact .inr ⟨p, List.mem_append_right _ hp, hop⟩

/-- The forest of the children of a state stands right behind it, and nothing else lies within the
state. -/
theorem exists_branch (h : Forest parent roots os) (hp : parent.keys ≠ []) :
    ∀ p ∈ os, p.2.Proper ∧ ∃ before below after, os = before ++ p :: (below ++ after) ∧
      Forest p.1 p.2.children below ∧ ∀ o ∈ before ++ after, ¬ o.1.Within p.1 := by
  induction h with
  | nil => simp
  | @cons parent key kind siblings below others _ hproper hfresh hbelow hothers ihBelow ih =>
    intro p hmem
    rcases List.mem_append.1 hmem with hmem | hmem
    · rcases List.mem_cons.1 hmem with rfl | hmem
      · exact ⟨hproper, [], below, others, rfl, hbelow, hothers.beside hp hfresh⟩
      · obtain ⟨hproper, before, mid, after, hsplit, hf, hout⟩ :=
          ihBelow (StateId.child_ne_nil parent key) p hmem
        refine ⟨hproper, (parent.child key, kind) :: before, mid, after ++ others, by simp [hsplit],
          hf, ?_⟩
        have hanc := hbelow.below_parent p hmem
        intro o ho
        rw [List.cons_append, ← List.append_assoc, List.mem_cons, List.mem_append] at ho
        rcases ho with rfl | ho | ho
        · exact StateId.not_within_of_isAncestorOf hanc
        · exact hout o ho
        · exact fun hw => hothers.beside hp hfresh o ho
            (hw.trans (StateId.within_of_isAncestorOf hanc))
    · obtain ⟨hproper, before, mid, after, hsplit, hf, hout⟩ := ih hp p hmem
      refine ⟨hproper, (parent.child key, kind) :: below ++ before, mid, after, by simp [hsplit],
        hf, ?_⟩
      intro o ho
      rw [List.append_assoc, List.mem_append] at ho
      rcases ho with ho | ho
      · exact hothers.apart hp hfresh (hbelow.within_top o ho) p hmem
      · exact hout o ho

end Forest

/-! ## Well-formed trees -/

namespace Tree

variable {t : Tree C}

theorem mem_ids {id : StateId} : id ∈ t.ids ↔ ∃ n ∈ t.nodes, n.id = id := List.mem_map

theorem id_mem_ids {n : Node C} (hn : n ∈ t.nodes) : n.id ∈ t.ids := mem_ids.2 ⟨n, hn, rfl⟩

theorem root_mem_ids : t.root.id ∈ t.ids := id_mem_ids List.mem_cons_self

namespace WellFormed

theorem root_keys (h : t.WellFormed) : t.root.id.keys ≠ [] := by
  obtain ⟨key, -, hkey⟩ := h.rootKey
  simp [hkey, StateId.root]

theorem root_ancestors (h : t.WellFormed) : t.root.id.ancestors = [] := by
  obtain ⟨key, -, hkey⟩ := h.rootKey
  rw [hkey, StateId.ancestors_root]

theorem root_parent (h : t.WellFormed) : t.root.id.parent? = none := by
  obtain ⟨key, -, hkey⟩ := h.rootKey
  rw [hkey, StateId.parent?_root]

theorem ids_eq : t.ids = t.root.id :: (t.rest.map Node.outline).map Prod.fst := by
  simp [ids, nodes, Node.outline, Function.comp_def]

theorem ids_nodup (h : t.WellFormed) : t.ids.Nodup := by
  rw [ids_eq]
  exact h.forest.nodup_cons h.root_keys

/-- A state stands before what is below it. -/
theorem ordered (h : t.WellFormed) :
    t.nodes.Pairwise fun n m => m.id.isAncestorOf n.id = false := by
  refine List.pairwise_cons.2 ⟨fun n hn => ?_, ?_⟩
  · rw [← Bool.not_eq_true]
    intro habove
    have hbelow := h.forest.below_parent _ (List.mem_map_of_mem hn)
    exact StateId.not_within_of_isAncestorOf hbelow (StateId.within_of_isAncestorOf habove)
  · exact List.pairwise_map.1 (h.forest.ordered h.root_keys)

theorem eq_of_id (h : t.WellFormed) {n m : Node C} (hn : n ∈ t.nodes) (hm : m ∈ t.nodes)
    (he : n.id = m.id) : n = m :=
  List.inj_on_of_nodup_map h.ids_nodup hn hm he

theorem node?_id (h : t.WellFormed) {n : Node C} (hn : n ∈ t.nodes) : t.node? n.id = some n := by
  cases hf : t.node? n.id with
  | none => exact absurd (List.find?_eq_none.1 hf n hn) (by simp)
  | some m =>
    have hid : m.id = n.id := by simpa using List.find?_some hf
    rw [h.eq_of_id (List.mem_of_find?_eq_some hf) hn hid]

theorem kind?_id (h : t.WellFormed) {n : Node C} (hn : n ∈ t.nodes) :
    t.kind? n.id = some n.kind := by
  rw [kind?, h.node?_id hn, Option.map_some]

theorem root_isAncestorOf (h : t.WellFormed) {id : StateId} (hid : id ∈ t.ids)
    (hne : id ≠ t.root.id) : t.root.id.isAncestorOf id = true := by
  rw [ids_eq, List.mem_cons] at hid
  obtain ⟨o, ho, rfl⟩ := List.mem_map.1 (hid.resolve_left hne)
  exact h.forest.below_parent o ho

theorem within_root (h : t.WellFormed) {id : StateId} (hid : id ∈ t.ids) :
    id.Within t.root.id := by
  by_cases hne : id = t.root.id
  · rw [hne]; exact .refl _
  · exact StateId.within_of_isAncestorOf (h.root_isAncestorOf hid hne)

theorem keys_ne_nil (h : t.WellFormed) {id : StateId} (hid : id ∈ t.ids) : id.keys ≠ [] := by
  intro hnil
  have hpre : t.root.id.keys <+: id.keys := h.within_root hid
  rw [hnil, List.prefix_nil] at hpre
  exact h.root_keys hpre

/-- No state is above the root. -/
theorem not_isAncestorOf_root (h : t.WellFormed) {id : StateId} (hid : id ∈ t.ids) :
    ¬ id.isAncestorOf t.root.id = true := by
  intro habove
  have hmem := StateId.mem_ancestors.2 ⟨h.keys_ne_nil hid, habove⟩
  rw [h.root_ancestors] at hmem
  cases hmem

/-- Below every state stands the forest of its children. -/
theorem node_forest (h : t.WellFormed) {n : Node C} (hn : n ∈ t.nodes) :
    n.kind.Proper ∧ ∃ below : List (StateId × NodeKind C),
      Forest n.id n.kind.children below ∧ ∀ o ∈ below, o.1 ∈ t.ids := by
  have hrest : ∀ o ∈ t.rest.map Node.outline, o.1 ∈ t.ids := by
    intro o ho
    rw [ids_eq]
    exact List.mem_cons_of_mem _ (List.mem_map.2 ⟨o, ho, rfl⟩)
  rcases List.mem_cons.1 hn with rfl | hn
  · exact ⟨h.rootKind, _, h.forest, hrest⟩
  · obtain ⟨hp, before, below, after, hsplit, hf, -⟩ :=
      h.forest.exists_branch h.root_keys _ (List.mem_map.2 ⟨n, hn, rfl⟩)
    exact ⟨hp, below, hf, fun o ho => hrest o (by simp [hsplit, ho])⟩

/-- The states below a state stand right behind it. -/
theorem exists_branch (h : t.WellFormed) {n : Node C} (hn : n ∈ t.nodes) :
    ∃ before below after, t.nodes.map Node.outline = before ++ n.outline :: (below ++ after) ∧
      Forest n.id n.kind.children below ∧
      t.descendants n.id = below.map Prod.fst := by
  obtain ⟨before, below, after, hsplit, hf, hout⟩ : ∃ before below after,
      t.nodes.map Node.outline = before ++ n.outline :: (below ++ after) ∧
        Forest n.id n.kind.children below ∧ ∀ o ∈ before ++ after, ¬ o.1.Within n.id := by
    rcases List.mem_cons.1 hn with rfl | hn
    · exact ⟨[], _, [], by simp [nodes], h.forest, nofun⟩
    · obtain ⟨-, before, below, after, hsplit, hf, hout⟩ :=
        h.forest.exists_branch h.root_keys _ (List.mem_map.2 ⟨n, hn, rfl⟩)
      refine ⟨t.root.outline :: before, below, after, by simp [nodes, hsplit], hf, ?_⟩
      exact List.forall_mem_cons.2 ⟨StateId.not_within_of_isAncestorOf
        (h.forest.below_parent _ (List.mem_map.2 ⟨n, hn, rfl⟩)), hout⟩
  refine ⟨before, below, after, hsplit, hf, ?_⟩
  have hids : t.ids = (t.nodes.map Node.outline).map Prod.fst := by
    simp [ids, Node.outline, Function.comp_def]
  have hapart : ∀ os ⊆ before ++ after, (os.map Prod.fst).filter n.id.isAncestorOf = [] := by
    intro os hos
    refine List.filter_eq_nil_iff.2 fun id hid habove => ?_
    obtain ⟨o, ho, rfl⟩ := List.mem_map.1 hid
    exact hout o (hos ho) (StateId.within_of_isAncestorOf habove)
  have hbelow : (below.map Prod.fst).filter n.id.isAncestorOf = below.map Prod.fst := by
    refine List.filter_eq_self.2 fun id hid => ?_
    obtain ⟨o, ho, rfl⟩ := List.mem_map.1 hid
    exact hf.below_parent o ho
  have hself : n.id.isAncestorOf n.id = false := by
    rw [← Bool.not_eq_true]
    exact fun habove => StateId.ne_of_isAncestorOf habove rfl
  rw [descendants, hids, hsplit, List.map_append, List.map_cons, List.map_append,
    List.filter_append, List.filter_cons, List.filter_append, hbelow, hapart before (by simp),
    hapart after (by simp)]
  simp [Node.outline, hself]

theorem proper (h : t.WellFormed) {n : Node C} (hn : n ∈ t.nodes) : n.kind.Proper :=
  (h.node_forest hn).1

theorem children_nodup (h : t.WellFormed) {n : Node C} (hn : n ∈ t.nodes) :
    n.kind.children.Nodup := by
  obtain ⟨-, below, hf, -⟩ := h.node_forest hn
  exact hf.roots_nodup

/-- A state other than the root is a child of a state. -/
theorem exists_parent (h : t.WellFormed) {id : StateId} (hid : id ∈ t.ids)
    (hne : id ≠ t.root.id) : ∃ n ∈ t.nodes, id ∈ n.kind.children := by
  rw [ids_eq, List.mem_cons] at hid
  obtain ⟨o, ho, rfl⟩ := List.mem_map.1 (hid.resolve_left hne)
  rcases h.forest.parent_mem o ho with hroot | ⟨p, hp, hop⟩
  · exact ⟨t.root, List.mem_cons_self, hroot⟩
  · obtain ⟨n, hn, rfl⟩ := List.mem_map.1 hp
    exact ⟨n, List.mem_cons_of_mem _ hn, hop⟩

theorem child_mem (h : t.WellFormed) {n : Node C} (hn : n ∈ t.nodes) {x : StateId}
    (hx : x ∈ n.kind.children) : x ∈ t.ids ∧ x.parent? = some n.id := by
  obtain ⟨-, below, hf, hbelow⟩ := h.node_forest hn
  obtain ⟨⟨k, rfl⟩, hmem⟩ := hf.roots_child x hx
  obtain ⟨o, ho, heq⟩ := List.mem_map.1 hmem
  exact ⟨heq ▸ hbelow o ho, StateId.parent?_child (h.keys_ne_nil (id_mem_ids hn))⟩

/-- The children of a state are the states whose parent it is. -/
theorem mem_children (h : t.WellFormed) {n : Node C} (hn : n ∈ t.nodes) {x : StateId} :
    x ∈ n.kind.children ↔ x ∈ t.ids ∧ x.parent? = some n.id := by
  constructor
  · exact h.child_mem hn
  · rintro ⟨hx, hp⟩
    have hne : x ≠ t.root.id := by
      rintro rfl
      rw [h.root_parent] at hp
      cases hp
    obtain ⟨m, hm, hxm⟩ := h.exists_parent hx hne
    have hmp := (h.child_mem hm hxm).2
    rw [hp] at hmp
    rw [h.eq_of_id hn hm (Option.some.inj hmp)]
    exact hxm

theorem parent_mem (h : t.WellFormed) {id p : StateId} (hid : id ∈ t.ids)
    (hp : id.parent? = some p) : p ∈ t.ids := by
  have hne : id ≠ t.root.id := by
    rintro rfl
    rw [h.root_parent] at hp
    cases hp
  obtain ⟨n, hn, hx⟩ := h.exists_parent hid hne
  have hnp := (h.child_mem hn hx).2
  rw [hp] at hnp
  rw [Option.some.inj hnp]
  exact id_mem_ids hn

/-- Ancestors of states are states. -/
theorem ancestors_mem (h : t.WellFormed) {id a : StateId} (hid : id ∈ t.ids)
    (ha : a ∈ id.ancestors) : a ∈ t.ids := by
  have hne := h.keys_ne_nil hid
  induction id, hne using StateId.byParent with
  | root k => rw [StateId.ancestors_root] at ha; cases ha
  | child p k hp ih =>
    have hpid := h.parent_mem hid (StateId.parent?_child hp)
    rw [StateId.ancestors_child hp] at ha
    rcases List.mem_cons.1 ha with rfl | ha
    · exact hpid
    · exact ih hpid ha

/-- The children of a state stand behind it. -/
theorem child_behind (h : t.WellFormed) {before rest : List (Node C)} {n : Node C}
    (hsplit : t.nodes = before ++ n :: rest) {x : StateId} (hx : x ∈ n.kind.children) :
    ∃ m ∈ rest, m.id = x := by
  have hn : n ∈ t.nodes := by simp [hsplit]
  obtain ⟨hid, hparent⟩ := h.child_mem hn hx
  have habove := StateId.isAncestorOf_of_parent? hparent
  obtain ⟨m, hm, rfl⟩ := mem_ids.1 hid
  refine ⟨m, ?_, rfl⟩
  have hordered := h.ordered
  rw [hsplit] at hm hordered
  rcases List.mem_append.1 hm with hfront | hm
  · rw [(List.pairwise_append.1 hordered).2.2 m hfront n List.mem_cons_self] at habove
    cases habove
  · rcases List.mem_cons.1 hm with rfl | hm
    · exact absurd rfl (StateId.ne_of_isAncestorOf habove)
    · exact hm

/-- What passes from the children of a state to the state holds of all states. -/
theorem byChildren (h : t.WellFormed) {motive : Node C → Prop}
    (step : ∀ n ∈ t.nodes, (∀ m ∈ t.nodes, m.id ∈ n.kind.children → motive m) → motive n) :
    ∀ n ∈ t.nodes, motive n := by
  have behind : ∀ before rest, t.nodes = before ++ rest → ∀ n ∈ rest, motive n := by
    intro before rest
    induction rest generalizing before with
    | nil => exact fun _ n hn => by cases hn
    | cons n rest ih =>
      intro hsplit
      have hrest := ih (before ++ [n]) (by rw [hsplit, List.append_assoc]; rfl)
      refine List.forall_mem_cons.2 ⟨step n (by simp [hsplit]) fun m hm hchild => ?_, hrest⟩
      obtain ⟨m', hm', hsame⟩ := h.child_behind hsplit hchild
      rw [← h.eq_of_id (by simp [hsplit, hm']) hm hsame]
      exact hrest m' hm'
  exact behind [] t.nodes rfl

end WellFormed

end Tree

end Statechart
