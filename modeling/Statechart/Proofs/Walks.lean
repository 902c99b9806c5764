import Mathlib.Data.List.Forall2
import Statechart.Proofs.Allocation

/-!
# Statechart.Proofs.Walks

Walks through the arena of a definition. Places and identifiers name the same states, so each walk
along the links is compared with what the identifiers tell, step by step, and its result carried
over.

* `Arena.Shows`: the arena of a tree.
* `Arena.Shows.parents_related`: the walk up passes the ancestors.
* `Arena.Shows.walkDown_forest`: the walk down passes a forest from its roots on the stack.
* `Arena.Mirrors`, `Arena.Stores`, `Arena.Navigates`: what an arena agrees with, holds, and is good
  for.
* `Arena.build_consistent`: built arenas are all of this.
-/

namespace Statechart

variable {C : Type}

/-! ## Places of identifiers -/

section

variable {ids : List StateId} (hnodup : ids.Nodup)
include hnodup

theorem standsAt_biUnique : Relator.BiUnique (StandsAt ids) :=
  ⟨fun _ _ _ hp hq => hp.inj hnodup hq, fun _ _ _ hx hy => hx.unique hy⟩

theorem places_unique {ps qs : List Nat} {xs : List StateId}
    (hp : List.Forall₂ (StandsAt ids) ps xs) (hq : List.Forall₂ (StandsAt ids) qs xs) : ps = qs :=
  List.left_unique_forall₂' (standsAt_biUnique hnodup).1 hp hq

theorem mem_related {ps : List Nat} {xs : List StateId} {p : Nat} {x : StateId}
    (h : List.Forall₂ (StandsAt ids) ps xs) (hx : StandsAt ids p x) : p ∈ ps ↔ x ∈ xs :=
  List.rel_mem (standsAt_biUnique hnodup) hx h

theorem found_iff {found : Option Nat} {id : Option StateId}
    (h : Option.Rel (StandsAt ids) found id) (p : Nat) :
    found = some p ↔ ∃ x, StandsAt ids p x ∧ id = some x := by
  cases h with
  | none => simp
  | @some q x hq =>
    rw [Option.some_inj]
    constructor
    · rintro rfl
      exact ⟨x, hq, rfl⟩
    · rintro ⟨y, hp, hxy⟩
      exact hq.inj hnodup (Option.some.inj hxy ▸ hp)

end

theorem sublist_related {α β : Type} {r : α → β → Prop} {xs : List α} {ys ys' : List β}
    (hsub : ys'.Sublist ys) (h : List.Forall₂ r xs ys) :
    ∃ xs', xs'.Sublist xs ∧ List.Forall₂ r xs' ys' := by
  induction hsub generalizing xs with
  | slnil => exact ⟨[], List.nil_sublist _, .nil⟩
  | cons y _ ih =>
    cases h with
    | cons _ h =>
      obtain ⟨xs', hsub, h'⟩ := ih h
      exact ⟨xs', hsub.cons _, h'⟩
  | cons_cons y _ ih =>
    cases h with
    | cons hxy h =>
      obtain ⟨xs', hsub, h'⟩ := ih h
      exact ⟨_ :: xs', hsub.cons_cons _, .cons hxy h'⟩

/-- Neighbours stand at neighbouring places. -/
theorem standsAt_range (front xs rest : List StateId) :
    List.Forall₂ (StandsAt (front ++ (xs ++ rest))) (List.range' front.length xs.length) xs := by
  induction xs generalizing front with
  | nil => exact .nil
  | cons x xs ih =>
    have hrest := ih (front ++ [x])
    rw [List.length_append, List.length_singleton, List.append_assoc] at hrest
    exact .cons (.at_length front x _) hrest

theorem StandsAt.lt_fuel {slots : List (Slot C)} {p fuel : Nat} {x : StateId}
    (h : StandsAt (slots.map Slot.id) p x) (hfuel : slots.length < fuel) : p < fuel := by
  have hlt := h.lt_length
  rw [List.length_map] at hlt
  omega

/-! ## Arenas of trees -/

/-- The arena of a built tree. -/
structure Arena.Shows (a : Arena C) (t : Tree C) : Prop where
  linked : Linked a.slots a.index
  slots : List.Forall₂ (Slot.Shows a.ids) a.slots t.nodes
  wellFormed : t.WellFormed

namespace Arena

variable {a : Arena C} {t : Tree C} {i j : Nat} {x y : StateId}

namespace Shows

theorem ids_eq (h : a.Shows t) : a.ids = t.ids := by
  rw [ids, Tree.ids, ← List.forall₂_eq_eq_eq, List.forall₂_map_left_iff,
    List.forall₂_map_right_iff]
  exact h.slots.imp fun _ _ hs => hs.id

theorem nodup (h : a.Shows t) : a.ids.Nodup :=
  h.ids_eq ▸ h.wellFormed.ids_nodup

/-- The slot at a place shows the state with the identifier. -/
theorem exists_slot (h : a.Shows t) (hx : StandsAt a.ids i x) :
    ∃ s n, a.slots[i]? = some s ∧ n ∈ t.nodes ∧ s.Shows a.ids n ∧ n.id = x := by
  rw [StandsAt, ids, List.getElem?_map, Option.map_eq_some_iff] at hx
  obtain ⟨s, hs, rfl⟩ := hx
  obtain ⟨hi, rfl⟩ := List.getElem?_eq_some_iff.1 hs
  have hlt : i < t.nodes.length := h.slots.length_eq ▸ hi
  have hshows := h.slots.get hi hlt
  exact ⟨_, _, hs, List.getElem_mem hlt, hshows, hshows.id.symm⟩

theorem children_related (h : a.Shows t) {n : Node C} (hn : n ∈ t.nodes)
    (hi : StandsAt a.ids i n.id) :
    List.Forall₂ (StandsAt a.ids) (a.children i) n.kind.children := by
  obtain ⟨s, m, hs, hm, hshows, hid⟩ := h.exists_slot hi
  obtain rfl := h.wellFormed.eq_of_id hm hn hid
  rw [children, hs, Option.map_some, Option.getD_some]
  exact hshows.kind.children

/-! ## Up -/

/-- The walk up ends at the root: it has passed the ancestors. -/
theorem parents_related (h : a.Shows t) {fuel : Nat} (hfuel : i < fuel)
    (hx : StandsAt a.ids i x) :
    ∃ up, a.parents fuel i = some up ∧ List.Forall₂ (StandsAt a.ids) up x.ancestors := by
  induction fuel generalizing i x with
  | zero => cases hfuel
  | succ fuel ih =>
    have hrel := parent?_related h.linked hx
    rw [parents]
    cases hparent : x.parent? with
    | none =>
      rw [hparent] at hrel
      generalize a.parent? i = place at hrel ⊢
      cases hrel
      rw [StateId.ancestors_of_parent?_none hparent]
      exact ⟨[], rfl, .nil⟩
    | some p =>
      rw [hparent] at hrel
      generalize a.parent? i = place at hrel ⊢
      cases hrel with
      | some hp =>
        obtain ⟨up, hup, hrelated⟩ := ih (by omega) hp.2
        rw [StateId.ancestors_of_parent? hparent]
        exact ⟨_, congrArg (Option.map _) hup, .cons hp.2 hrelated⟩

theorem lca_related (h : a.Shows t) {fuel : Nat} (hi : i < fuel) (hj : j < fuel)
    (hx : StandsAt a.ids i x) (hy : StandsAt a.ids j y) :
    ∃ found, a.lca fuel i j = some found ∧ Option.Rel (StandsAt a.ids) found (x.lca y) := by
  obtain ⟨one, hone, hones⟩ := h.parents_related hi hx
  obtain ⟨other, hother, hothers⟩ := h.parents_related hj hy
  rw [lca, hone, hother]
  refine ⟨_, rfl, find?_related hones fun p z hz => ?_⟩
  rw [Bool.eq_iff_iff, List.contains_iff_mem, List.contains_iff_mem]
  exact mem_related h.nodup hothers hz

theorem oneBeneath_related (h : a.Shows t) {fuel : Nat} (hfuel : j < fuel)
    (hx : StandsAt a.ids i x) (hy : StandsAt a.ids j y) :
    ∃ found, a.oneBeneath fuel j i = some found ∧
      Option.Rel (StandsAt a.ids) found (y.oneBeneath x) := by
  obtain ⟨up, hup, hrelated⟩ := h.parents_related hfuel hy
  rw [oneBeneath, hup]
  refine ⟨_, rfl, find?_related (.cons hy hrelated) fun p z hz => ?_⟩
  have hrel := parent?_related h.linked hz
  generalize a.parent? p = place at hrel ⊢
  generalize z.parent? = above at hrel ⊢
  cases hrel with
  | none => rfl
  | some hp =>
    rw [Bool.eq_iff_iff, beq_iff_eq, beq_iff_eq, Option.some_inj, Option.some_inj]
    exact ⟨fun hsame => hp.2.unique (hsame ▸ hx), fun hsame => hp.2.inj h.nodup (hsame ▸ hx)⟩

/-! ## Down -/

theorem walkDown_cons (a : Arena C) (fuel place : Nat) (rest passed : List Nat) :
    a.walkDown (fuel + 1) (place :: rest).reverse passed =
      a.walkDown fuel (a.children place ++ rest).reverse (passed ++ [place]) := by
  rw [walkDown, List.getLast?_reverse, List.head?_cons, List.dropLast_reverse, List.tail_cons,
    List.reverse_append]

/-- From the roots of a forest on the stack, the walk passes the forest, and goes on with what else
is on the stack. -/
theorem walkDown_forest (h : a.Shows t) {parent : StateId} {roots : List StateId}
    {os : List (StateId × NodeKind C)} (hf : Forest parent roots os)
    (hos : ∀ o ∈ os, ∃ n ∈ t.nodes, n.outline = o) {places : List Nat}
    (hplaces : List.Forall₂ (StandsAt a.ids) places roots) :
    ∃ out, List.Forall₂ (StandsAt a.ids) out (os.map Prod.fst) ∧
      ∀ fuel rest passed, a.walkDown (fuel + os.length) (places ++ rest).reverse passed =
        a.walkDown fuel rest.reverse (passed ++ out) := by
  induction hf generalizing places with
  | nil =>
    cases hplaces
    exact ⟨[], .nil, fun fuel rest passed => by simp⟩
  | @cons parent key kind siblings below others _ _ _ _ _ ihBelow ih =>
    cases hplaces with
    | @cons place _ places _ hplace hplaces =>
      obtain ⟨n, hn, houtline⟩ := hos (parent.child key, kind) (by simp)
      obtain ⟨hid, hkind⟩ : n.id = parent.child key ∧ n.kind = kind := by
        simpa [Node.outline] using houtline
      have hchildren := h.children_related hn (hid ▸ hplace)
      rw [hkind] at hchildren
      obtain ⟨out, hout, hwalk⟩ := ihBelow (fun o ho => hos o (by simp [ho])) hchildren
      obtain ⟨out', hout', hwalk'⟩ := ih (fun o ho => hos o (by simp [ho])) hplaces
      refine ⟨place :: out ++ out', ?_, fun fuel rest passed => ?_⟩
      · rw [List.map_append, List.map_cons]
        exact List.rel_append (.cons hplace hout) hout'
      have hfuel : fuel + ((parent.child key, kind) :: below ++ others).length =
          fuel + others.length + below.length + 1 := by
        rw [List.length_append, List.length_cons]
        omega
      calc a.walkDown _ (place :: places ++ rest).reverse passed
        _ = a.walkDown (fuel + others.length + below.length)
              (a.children place ++ (places ++ rest)).reverse (passed ++ [place]) := by
            rw [hfuel, List.cons_append, walkDown_cons]
        _ = a.walkDown (fuel + others.length) (places ++ rest).reverse (passed ++ [place] ++ out) :=
            hwalk _ _ _
        _ = a.walkDown fuel rest.reverse (passed ++ [place] ++ out ++ out') := hwalk' _ _ _
        _ = a.walkDown fuel rest.reverse (passed ++ (place :: out ++ out')) := by simp

/-- The walk down ends when it has passed the states below, which stand right behind. -/
theorem descendants_related (h : a.Shows t) {fuel : Nat} (hfuel : a.slots.length < fuel)
    (hx : StandsAt a.ids i x) :
    a.descendants fuel i = some (List.range' (i + 1) (t.descendants x).length) ∧
      List.Forall₂ (StandsAt a.ids) (List.range' (i + 1) (t.descendants x).length)
        (t.descendants x) := by
  obtain ⟨s, n, hs, hn, hshows, rfl⟩ := h.exists_slot hx
  obtain ⟨before, below, after, hsplit, hf, hdescendants⟩ := h.wellFormed.exists_branch hn
  have hids : a.ids =
      (before.map Prod.fst ++ [n.id]) ++ (below.map Prod.fst ++ after.map Prod.fst) := by
    have := congrArg (List.map Prod.fst) hsplit
    rw [h.ids_eq]
    simpa [Tree.ids, Node.outline, Function.comp_def] using this
  have hplace : i = before.length := by
    refine hx.inj h.nodup ?_
    rw [hids, List.append_assoc]
    simpa using StandsAt.at_length (before.map Prod.fst) n.id
      (below.map Prod.fst ++ after.map Prod.fst)
  have hrange := standsAt_range (before.map Prod.fst ++ [n.id]) (below.map Prod.fst)
    (after.map Prod.fst)
  rw [← hids, ← hdescendants, List.length_append, List.length_map, List.length_singleton,
    ← hplace] at hrange
  refine ⟨?_, hrange⟩
  have hos : ∀ o ∈ below, ∃ m ∈ t.nodes, m.outline = o := by
    intro o ho
    exact List.mem_map.1 (hsplit ▸ by simp [ho])
  obtain ⟨out, hout, hwalk⟩ := h.walkDown_forest hf hos (h.children_related hn hx)
  rw [← hdescendants] at hout
  obtain rfl := places_unique h.nodup hout hrange
  have hlength : below.length < fuel := by
    have hsize := congrArg List.length hids
    simp [ids] at hsize
    omega
  obtain ⟨k, rfl⟩ : ∃ k, fuel = k + 1 + below.length := ⟨fuel - 1 - below.length, by omega⟩
  have hend := hwalk (k + 1) [] []
  rwa [List.append_nil] at hend

theorem standsAt_id {s : Slot C} (hs : a.slots[i]? = some s) : StandsAt a.ids i s.id := by
  rw [StandsAt, ids, List.getElem?_map, hs, Option.map_some]

theorem root_standsAt (h : a.Shows t) : StandsAt a.ids 0 t.root.id := by
  rw [StandsAt, h.ids_eq]
  rfl

theorem exists_standsAt (h : a.Shows t) {id : StateId} (hid : id ∈ t.ids) :
    ∃ k, StandsAt a.ids k id :=
  List.mem_iff_getElem?.1 (h.ids_eq ▸ hid)

theorem mem_children (h : a.Shows t) (hx : StandsAt a.ids i x) (hy : StandsAt a.ids j y) :
    j ∈ a.children i ↔ y.parent? = some x := by
  obtain ⟨s, n, -, hn, -, rfl⟩ := h.exists_slot hx
  rw [mem_related h.nodup (h.children_related hn hx) hy, h.wellFormed.mem_children hn]
  exact and_iff_right (h.ids_eq ▸ hy.mem)

/-- The first place is that of the root. -/
theorem parent?_eq_none (h : a.Shows t) (hx : StandsAt a.ids i x) : x.parent? = none ↔ i = 0 := by
  constructor
  · intro hnone
    by_cases hx' : x = t.root.id
    · exact (hx' ▸ hx).inj h.nodup h.root_standsAt
    · obtain ⟨n, hn, hchild⟩ := h.wellFormed.exists_parent (h.ids_eq ▸ hx.mem) hx'
      rw [(h.wellFormed.child_mem hn hchild).2] at hnone
      cases hnone
  · rintro rfl
    rw [hx.unique h.root_standsAt]
    exact h.wellFormed.root_parent

end Shows

/-! ## Agreement -/

/-- The walks of an arena come to what the functions on the tree and on identifiers come to. -/
structure Mirrors (a : Arena C) (t : Tree C) (fuel : Nat) : Prop where
  slots : List.Forall₂ (Slot.Shows a.ids) a.slots t.nodes
  indexOf : ∀ id, a.indexOf id = t.index? id
  parents : ∀ i x, StandsAt a.ids i x →
    ∃ up, a.parents fuel i = some up ∧ List.Forall₂ (StandsAt a.ids) up x.ancestors
  descendants : ∀ i x, StandsAt a.ids i x →
    ∃ down, a.descendants fuel i = some down ∧
      List.Forall₂ (StandsAt a.ids) down (t.descendants x)
  lca : ∀ i j x y, StandsAt a.ids i x → StandsAt a.ids j y →
    ∃ found, a.lca fuel i j = some found ∧ Option.Rel (StandsAt a.ids) found (x.lca y)
  oneBeneath : ∀ i j x y, StandsAt a.ids i x → StandsAt a.ids j y →
    ∃ found, a.oneBeneath fuel j i = some found ∧
      Option.Rel (StandsAt a.ids) found (y.oneBeneath x)

/-- The states of a definition in an arena: in pre-order, with the children in order of declaration,
and with links that fit the identifiers. -/
structure Stores (a : Arena C) (d : NodeDef C) : Prop where
  preorder : List.Forall₂ (fun declared s => s.id = declared.1 ∧
      List.Forall₂ (StandsAt a.ids) s.kind.children
        (declared.2.children.map fun child => declared.1.child child.key))
    (d.placed none) a.slots
  places : ∀ (i : Nat) (s : Slot C), a.slots[i]? = some s → s.index = i
  root : ∀ (i : Nat) (s : Slot C), a.slots[i]? = some s → (s.parent = none ↔ i = 0)
  parents : ∀ (i : Nat) (s : Slot C) (p : Nat), a.slots[i]? = some s → s.parent = some p →
    p < i ∧ ∃ above, a.slots[p]? = some above ∧ i ∈ above.kind.children ∧
      s.id = above.id.child s.id.key
  children : ∀ (i : Nat) (s : Slot C), a.slots[i]? = some s →
    s.kind.children.Pairwise (· < ·) ∧ ∀ c ∈ s.kind.children, a.parent? c = some i
  indexOf : ∀ id i, a.indexOf id = some i ↔ StandsAt a.ids i id

/-- What the walks from two places, with these identifiers, come to. -/
structure Navigates (a : Arena C) (fuel i j : Nat) (x y : StateId) : Prop where
  parents : ∃ up, a.parents fuel j = some up ∧ (i ∈ up ↔ x.isAncestorOf y = true)
  /-- The places below are next to each other, right behind the place. -/
  descendants : ∃ n, a.descendants fuel i = some (List.range' (i + 1) n) ∧
    (j ∈ List.range' (i + 1) n ↔ x.isAncestorOf y = true)
  lca_comm : a.lca fuel i j = a.lca fuel j i
  lca : ∃ found, a.lca fuel i j = some found ∧ (found = none ↔ i = 0 ∨ j = 0) ∧
    ∀ k, found = some k ↔ ∃ z, StandsAt a.ids k z ∧
      (z.isAncestorOf x = true ∧ z.isAncestorOf y = true) ∧
      ∀ w ∈ a.ids, w.isAncestorOf x = true → w.isAncestorOf y = true → w ≠ z → w.depth < z.depth
  oneBeneath : ∃ found, a.oneBeneath fuel j i = some found ∧
    (found.isSome = true ↔ x.isAncestorOf y = true) ∧
    ∀ k, found = some k ↔ k ∈ a.children i ∧
      ∃ z, StandsAt a.ids k z ∧ (y = z ∨ z.isAncestorOf y = true)

namespace Shows

theorem indexOf_eq (h : a.Shows t) (id : StateId) : a.indexOf id = t.index? id := by
  refine Option.ext fun k => ?_
  rw [indexOf_eq_some h.linked h.nodup, Tree.index?, ← h.ids_eq, List.findIdx?_eq_some_iff_getElem]
  constructor
  · intro hk
    obtain ⟨hlt, heq⟩ := List.getElem?_eq_some_iff.1 hk
    refine ⟨hlt, by simpa using heq, fun j hj hsame => ?_⟩
    have hj' : StandsAt a.ids j id := by
      rw [StandsAt, List.getElem?_eq_getElem (by omega), of_decide_eq_true hsame]
    have := hj'.inj h.nodup hk
    omega
  · rintro ⟨hlt, heq, -⟩
    rw [StandsAt, List.getElem?_eq_getElem hlt, of_decide_eq_true heq]

theorem mirrors (h : a.Shows t) {fuel : Nat} (hfuel : a.slots.length < fuel) :
    a.Mirrors t fuel := by
  constructor
  · exact h.slots
  · exact h.indexOf_eq
  · exact fun i x hx => h.parents_related (hx.lt_fuel hfuel) hx
  · exact fun i x hx => ⟨_, h.descendants_related hfuel hx⟩
  · exact fun i j x y hx hy => h.lca_related (hx.lt_fuel hfuel) (hy.lt_fuel hfuel) hx hy
  · exact fun i j x y hx hy => h.oneBeneath_related (hy.lt_fuel hfuel) hx hy

theorem mem_ancestors (h : a.Shows t) (hx : StandsAt a.ids i x) :
    x ∈ y.ancestors ↔ x.isAncestorOf y = true := by
  rw [StateId.mem_ancestors]
  exact and_iff_right (h.linked.keys_ne_nil hx.mem)

/-- The root is the only state that no state is above. -/
theorem ancestors_eq_nil (h : a.Shows t) (hx : StandsAt a.ids i x) : x.ancestors = [] ↔ i = 0 := by
  rw [← h.parent?_eq_none hx]
  refine ⟨fun hnil => ?_, StateId.ancestors_of_parent?_none⟩
  cases hparent : x.parent? with
  | none => rfl
  | some p => rw [StateId.ancestors_of_parent? hparent] at hnil; cases hnil

theorem parents_navigate (h : a.Shows t) {fuel : Nat} (hfuel : j < fuel)
    (hx : StandsAt a.ids i x) (hy : StandsAt a.ids j y) :
    ∃ up, a.parents fuel j = some up ∧ (i ∈ up ↔ x.isAncestorOf y = true) := by
  obtain ⟨up, hup, hrelated⟩ := h.parents_related hfuel hy
  exact ⟨up, hup, (mem_related h.nodup hrelated hx).trans (h.mem_ancestors hx)⟩

theorem descendants_navigate (h : a.Shows t) {fuel : Nat} (hfuel : a.slots.length < fuel)
    (hx : StandsAt a.ids i x) (hy : StandsAt a.ids j y) :
    ∃ n, a.descendants fuel i = some (List.range' (i + 1) n) ∧
      (j ∈ List.range' (i + 1) n ↔ x.isAncestorOf y = true) := by
  obtain ⟨hdown, hrelated⟩ := h.descendants_related hfuel hx
  refine ⟨_, hdown, (mem_related h.nodup hrelated hy).trans ?_⟩
  rw [Tree.descendants, List.mem_filter]
  exact and_iff_right (h.ids_eq ▸ hy.mem)

theorem lca_eq_none (h : a.Shows t) (hx : StandsAt a.ids i x) (hy : StandsAt a.ids j y) :
    x.lca y = none ↔ i = 0 ∨ j = 0 := by
  constructor
  · intro hnone
    by_contra hboth
    have habove : ∀ {k z}, StandsAt a.ids k z → k ≠ 0 → t.root.id ∈ z.ancestors := by
      intro k z hz hk
      refine (h.mem_ancestors h.root_standsAt).2
        (h.wellFormed.root_isAncestorOf (h.ids_eq ▸ hz.mem) ?_)
      rintro rfl
      exact hk (hz.inj h.nodup h.root_standsAt)
    obtain ⟨l, hl⟩ := StateId.exists_lca (habove hx fun hi => hboth (.inl hi))
      (habove hy fun hj => hboth (.inr hj))
    rw [hnone] at hl
    cases hl
  · intro hroot
    refine Option.eq_none_iff_forall_ne_some.2 fun l hl => ?_
    obtain ⟨hlx, hly⟩ := StateId.lca_eq_some hl
    rcases hroot with hi | hj
    · rw [(h.ancestors_eq_nil hx).2 hi] at hlx
      cases hlx
    · rw [(h.ancestors_eq_nil hy).2 hj] at hly
      cases hly

theorem lca_navigates (h : a.Shows t) {fuel : Nat} (hi : i < fuel) (hj : j < fuel)
    (hx : StandsAt a.ids i x) (hy : StandsAt a.ids j y) :
    ∃ found, a.lca fuel i j = some found ∧ (found = none ↔ i = 0 ∨ j = 0) ∧
      ∀ k, found = some k ↔ ∃ z, StandsAt a.ids k z ∧
        (z.isAncestorOf x = true ∧ z.isAncestorOf y = true) ∧
        ∀ w ∈ a.ids, w.isAncestorOf x = true → w.isAncestorOf y = true → w ≠ z →
          w.depth < z.depth := by
  obtain ⟨found, hfound, hrel⟩ := h.lca_related hi hj hx hy
  refine ⟨found, hfound, ?_, fun k => (found_iff h.nodup hrel k).trans ?_⟩
  · rw [← h.lca_eq_none hx hy]
    generalize x.lca y = id at hrel
    cases hrel <;> simp
  · refine exists_congr fun z => and_congr_right fun hz => ?_
    rw [StateId.lca_iff, h.mem_ancestors hz, h.mem_ancestors hz]
    refine and_congr_right fun _ => forall_congr' fun w => ?_
    constructor
    · intro hdeepest hw hwx hwy
      obtain ⟨l, hl⟩ := h.exists_standsAt (h.ids_eq ▸ hw)
      exact hdeepest ((h.mem_ancestors hl).2 hwx) ((h.mem_ancestors hl).2 hwy)
    · intro hdeepest hwx hwy
      have hw := h.wellFormed.ancestors_mem (h.ids_eq ▸ hx.mem) hwx
      exact hdeepest (h.ids_eq ▸ hw) (StateId.mem_ancestors.1 hwx).2 (StateId.mem_ancestors.1 hwy).2

theorem lca_swap (h : a.Shows t) {fuel : Nat} (hi : i < fuel) (hj : j < fuel)
    (hx : StandsAt a.ids i x) (hy : StandsAt a.ids j y) : a.lca fuel i j = a.lca fuel j i := by
  obtain ⟨found, hfound, hrel⟩ := h.lca_related hi hj hx hy
  obtain ⟨found', hfound', hrel'⟩ := h.lca_related hj hi hy hx
  rw [StateId.lca_comm] at hrel'
  rw [hfound, hfound']
  refine congrArg some (Option.ext fun k => ?_)
  rw [found_iff h.nodup hrel, found_iff h.nodup hrel']

theorem oneBeneath_navigates (h : a.Shows t) {fuel : Nat} (hfuel : j < fuel)
    (hx : StandsAt a.ids i x) (hy : StandsAt a.ids j y) :
    ∃ found, a.oneBeneath fuel j i = some found ∧
      (found.isSome = true ↔ x.isAncestorOf y = true) ∧
      ∀ k, found = some k ↔ k ∈ a.children i ∧
        ∃ z, StandsAt a.ids k z ∧ (y = z ∨ z.isAncestorOf y = true) := by
  obtain ⟨found, hfound, hrel⟩ := h.oneBeneath_related hfuel hx hy
  refine ⟨found, hfound, ?_, fun k => (found_iff h.nodup hrel k).trans ?_⟩
  · have hsome : found.isSome = true ↔ ∃ z, y.oneBeneath x = some z := by
      generalize y.oneBeneath x = id at hrel
      cases hrel <;> simp
    rw [hsome]
    constructor
    · rintro ⟨z, hz⟩
      obtain ⟨hparent, hwithin⟩ := StateId.oneBeneath_eq_some hz
      exact StateId.isAncestorOf_of_within (StateId.isAncestorOf_of_parent? hparent) hwithin
    · exact StateId.exists_oneBeneath (h.linked.keys_ne_nil hx.mem)
  · rw [← exists_and_left]
    refine exists_congr fun z => ?_
    rw [StateId.oneBeneath_iff, StateId.within_iff]
    constructor
    · rintro ⟨hz, hparent, hwithin⟩
      exact ⟨(h.mem_children hx hz).2 hparent, hz, hwithin⟩
    · rintro ⟨hchild, hz, hwithin⟩
      exact ⟨hz, (h.mem_children hx hz).1 hchild, hwithin⟩

theorem navigates (h : a.Shows t) {fuel : Nat} (hfuel : a.slots.length < fuel)
    (hx : StandsAt a.ids i x) (hy : StandsAt a.ids j y) : a.Navigates fuel i j x y where
  parents := h.parents_navigate (hy.lt_fuel hfuel) hx hy
  descendants := h.descendants_navigate hfuel hx hy
  lca_comm := h.lca_swap (hx.lt_fuel hfuel) (hy.lt_fuel hfuel) hx hy
  lca := h.lca_navigates (hx.lt_fuel hfuel) (hy.lt_fuel hfuel) hx hy
  oneBeneath := h.oneBeneath_navigates (hy.lt_fuel hfuel) hx hy

theorem slot_parent (h : a.Shows t) {s : Slot C} (hs : a.slots[i]? = some s) :
    Option.Rel (fun p y => p < i ∧ StandsAt a.ids p y) s.parent s.id.parent? := by
  have hrel := parent?_related h.linked (standsAt_id hs)
  rwa [parent?, hs, Option.bind_some] at hrel

/-- The children stand behind each other. -/
theorem children_pairwise (h : a.Shows t) (hx : StandsAt a.ids i x) :
    (a.children i).Pairwise (· < ·) := by
  obtain ⟨s, n, -, hn, -, rfl⟩ := h.exists_slot hx
  obtain ⟨before, below, after, -, hf, hdescendants⟩ := h.wellFormed.exists_branch hn
  obtain ⟨-, hrange⟩ := h.descendants_related (Nat.lt_succ_self _) hx
  obtain ⟨places, hsub, hplaces⟩ := sublist_related (hdescendants ▸ hf.roots_sublist) hrange
  rw [places_unique h.nodup (h.children_related hn hx) hplaces]
  exact (List.pairwise_lt_range' 1).sublist hsub

/-- The parent of a slot stands before it, and has it among its children. -/
theorem exists_above (h : a.Shows t) {s : Slot C} {p : Nat} (hs : a.slots[i]? = some s)
    (hp : s.parent = some p) :
    p < i ∧ ∃ above, a.slots[p]? = some above ∧ i ∈ above.kind.children ∧
      s.id = above.id.child s.id.key := by
  have hrel := h.slot_parent hs
  rw [hp] at hrel
  cases hparent : s.id.parent? with
  | none => rw [hparent] at hrel; cases hrel
  | some y =>
    rw [hparent] at hrel
    cases hrel with
    | some hy =>
      obtain ⟨above, n, habove, -, hshows, rfl⟩ := h.exists_slot hy.2
      have hchild := (h.mem_children hy.2 (standsAt_id hs)).2 hparent
      rw [children, habove, Option.map_some, Option.getD_some] at hchild
      obtain ⟨-, key, hkey⟩ := StateId.parent?_eq_some.1 hparent
      exact ⟨hy.1, above, habove, hchild, by rw [hkey, StateId.key_child, hshows.id]⟩

/-- The links to the children lead back. -/
theorem parent?_of_mem_children (h : a.Shows t) (hx : StandsAt a.ids i x) {c : Nat}
    (hc : c ∈ a.children i) : a.parent? c = some i := by
  obtain ⟨s, n, -, hn, -, rfl⟩ := h.exists_slot hx
  have hrelated := h.children_related hn hx
  obtain ⟨k, hk, rfl⟩ := List.getElem_of_mem hc
  have hz := hrelated.get hk (hrelated.length_eq ▸ hk)
  have hrel := parent?_related h.linked hz
  rw [(h.wellFormed.child_mem hn (List.get_mem _ _)).2] at hrel
  generalize a.parent? _ = place at hrel ⊢
  cases hrel with
  | some hp => rw [hp.2.inj h.nodup hx]

theorem stores (h : a.Shows t) {d : NodeDef C} (hb : Tree.build d = .ok t) : a.Stores d where
  preorder := by
    have hsound : d.WellFormed := (Tree.build_vets d).exists_ok.1 ⟨t, hb⟩
    have hbuilt := (List.forall₂_and_left _ _).2 ⟨hsound.states, Tree.build_built hb⟩
    refine (forall₂_trans hbuilt h.slots.flip).imp ?_
    rintro ⟨own, declared⟩ s ⟨n, ⟨hsound, hbuilt⟩, hshows⟩
    have hfit := hsound.children
    refine ⟨hshows.id.trans hbuilt.id, ?_⟩
    rw [← (NodeDef.builtKind_eq_ok ?_ hbuilt.kind).2]
    · exact hshows.kind.children
    · simp only [NodeDef.ChildrenFit] at hfit
      cases hkind : declared.kind <;> simpa [hkind] using hfit
  places := h.linked.places
  root i s hs := by
    have hrel := h.slot_parent hs
    rw [← h.parent?_eq_none (standsAt_id hs)]
    generalize s.id.parent? = above at hrel ⊢
    generalize s.parent = place at hrel ⊢
    cases hrel <;> simp
  parents i s p hs hp := h.exists_above hs hp
  children i s hs := by
    have hi := standsAt_id hs
    have hchildren : a.children i = s.kind.children := by
      rw [children, hs, Option.map_some, Option.getD_some]
    rw [← hchildren]
    exact ⟨h.children_pairwise hi, fun c hc => h.parent?_of_mem_children hi hc⟩
  indexOf _ _ := indexOf_eq_some h.linked h.nodup

end Shows

/-- Arenas are refused as trees are. In the arena of a definition, places, links, the index and
identifiers agree: its slots are the states in pre-order, and all walks along its links end, and
come to what the identifiers tell and the tree of the definition shows. -/
theorem build_consistent (d : NodeDef C) :
    (∀ e, build d = .error e ↔ Tree.build d = .error e) ∧
      ∀ a, build d = .ok a → a.Stores d ∧ ∃ t, Tree.build d = .ok t ∧
        ∀ fuel, a.slots.length < fuel → a.Mirrors t fuel ∧
          ∀ i j x y, StandsAt a.ids i x → StandsAt a.ids j y → a.Navigates fuel i j x y := by
  have halike := build_alike d
  generalize hbuild : build d = arena at halike ⊢
  generalize htree : Tree.build d = tree at halike ⊢
  cases halike with
  | error => exact ⟨fun e => by simp, nofun⟩
  | @ok a t hshows =>
    refine ⟨fun e => by simp, fun a' ha => ?_⟩
    cases ha
    have h : a.Shows t := ⟨hshows.1, hshows.2, Tree.build_wellFormed htree⟩
    exact ⟨h.stores htree, t, rfl, fun fuel hfuel => ⟨h.mirrors hfuel, fun i j x y hx hy =>
      h.navigates hfuel hx hy⟩⟩

end Arena

/-! A state with regions beside one with children. -/

def branching : NodeDef Nat where
  key := "s"
  kind := .compound "a" []
  children := [
    { key := "a", kind := .compound "a1" [], children := [
      { key := "a1", kind := .atomic,
        transitions := [{ event := .named "next", targets := ["a2"] }] },
      { key := "a2", kind := .atomic }] },
    { key := "b", kind := .orthogonal, children := [
      { key := "r1", kind := .compound "x" [], children := [{ key := "x", kind := .atomic }] },
      { key := "r2", kind := .atomic }] },
    { key := "done", kind := .final }]

def branchingArena : Arena Nat where
  slots := [
    ⟨⟨["s"]⟩, 0, none, [], [], [], [], .compound [1, 4, 8] 1 []⟩,
    ⟨⟨["s", "a"]⟩, 1, some 0, [], [], [], [], .compound [2, 3] 2 []⟩,
    ⟨⟨["s", "a", "a1"]⟩, 2, some 1, [], [], [.taken 2 (.named "next") none [3] []], [], .atomic⟩,
    ⟨⟨["s", "a", "a2"]⟩, 3, some 1, [], [], [], [], .atomic⟩,
    ⟨⟨["s", "b"]⟩, 4, some 0, [], [], [], [], .orthogonal [5, 7]⟩,
    ⟨⟨["s", "b", "r1"]⟩, 5, some 4, [], [], [], [], .compound [6] 6 []⟩,
    ⟨⟨["s", "b", "r1", "x"]⟩, 6, some 5, [], [], [], [], .atomic⟩,
    ⟨⟨["s", "b", "r2"]⟩, 7, some 4, [], [], [], [], .atomic⟩,
    ⟨⟨["s", "done"]⟩, 8, some 0, [], [], [], [], .final⟩]
  index := [(⟨["s", "done"]⟩, 8), (⟨["s", "b", "r2"]⟩, 7), (⟨["s", "b", "r1", "x"]⟩, 6),
    (⟨["s", "b", "r1"]⟩, 5), (⟨["s", "b"]⟩, 4), (⟨["s", "a", "a2"]⟩, 3), (⟨["s", "a", "a1"]⟩, 2),
    (⟨["s", "a"]⟩, 1), (⟨["s"]⟩, 0)]

/-- From `s.b` down to its regions, and from `s.b.r1.x` up to the root. -/
theorem branching_walked :
    Arena.build branching = .ok branchingArena ∧ branchingArena.Stores branching ∧
      branchingArena.slots.length < 10 ∧
      StandsAt branchingArena.ids 4 ⟨["s", "b"]⟩ ∧
      StandsAt branchingArena.ids 6 ⟨["s", "b", "r1", "x"]⟩ ∧
      branchingArena.Navigates 10 4 6 ⟨["s", "b"]⟩ ⟨["s", "b", "r1", "x"]⟩ ∧
      branchingArena.descendants 10 4 = some [5, 6, 7] ∧
      branchingArena.parents 10 6 = some [5, 4, 0] ∧
      branchingArena.lca 10 4 6 = some (some 0) ∧
      branchingArena.oneBeneath 10 6 4 = some (some 5) := by
  have hbuild : Arena.build branching = .ok branchingArena := rfl
  obtain ⟨hstores, t, -, hwalks⟩ := (Arena.build_consistent branching).2 branchingArena hbuild
  exact ⟨hbuild, hstores, by decide, rfl, rfl, (hwalks 10 (by decide)).2 4 6 _ _ rfl rfl,
    rfl, rfl, rfl, rfl⟩

end Statechart
