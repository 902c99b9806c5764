import Mathlib.Data.List.Induction
import Mathlib.Data.List.Nodup
import Statechart.StateId

/-!
# Statechart.Proofs.Ids

Identifiers as a tree order. A state lies within another if its keys start with the keys of the
other; strictly above is the same without equality.

* `StateId.Within`, `isAncestorOf_iff`: the order behind `isAncestorOf`.
* `ancestors_child`, `mem_ancestors`: the ancestors, by recursion on the way from the root.
* `eq_of_within_siblings`: the branches below two siblings are disjoint.
* `oneBeneath_iff`, `lca_iff`, `mem_ancestorsUntil`: what transitions are planned with.
-/

namespace Statechart
namespace StateId

theorem eq_of_keys {a b : StateId} (h : a.keys = b.keys) : a = b := by
  cases a; cases b; simpa using h

@[simp] theorem child_keys (p : StateId) (k : String) : (p.child k).keys = p.keys ++ [k] := rfl

theorem key_child (p : StateId) (key : String) : (p.child key).key = key := by
  simp [StateId.key]

theorem child_ne_nil (p : StateId) (k : String) : (p.child k).keys ≠ [] := by simp

theorem child_inj {p q : StateId} {k l : String} : p.child k = q.child l ↔ p = q ∧ k = l := by
  constructor
  · intro h
    have hk : p.keys ++ [k] = q.keys ++ [l] := congrArg keys h
    obtain ⟨hp, hl⟩ := List.append_inj' hk rfl
    exact ⟨eq_of_keys hp, by simpa using hl⟩
  · rintro ⟨rfl, rfl⟩; rfl

/-! ## The order -/

/-- Is the state `top` itself, or one below it? -/
def Within (id top : StateId) : Prop :=
  top.keys <+: id.keys

instance (id top : StateId) : Decidable (id.Within top) :=
  inferInstanceAs (Decidable (top.keys <+: id.keys))

theorem Within.refl (id : StateId) : id.Within id := List.prefix_refl _

theorem Within.trans {a b c : StateId} (hab : a.Within b) (hbc : b.Within c) : a.Within c :=
  List.IsPrefix.trans hbc hab

theorem Within.antisymm {a b : StateId} (hab : a.Within b) (hba : b.Within a) : a = b :=
  eq_of_keys (hba.eq_of_length (Nat.le_antisymm hba.length_le hab.length_le))

/-- Two states above the same state lie on one way. -/
theorem Within.total {id a b : StateId} (ha : id.Within a) (hb : id.Within b) :
    a.Within b ∨ b.Within a := by
  rcases List.prefix_or_prefix_of_prefix ha hb with h | h
  · exact .inr h
  · exact .inl h

theorem isAncestorOf_iff {a b : StateId} : a.isAncestorOf b = true ↔ b.Within a ∧ a ≠ b := by
  simp only [isAncestorOf, Bool.and_eq_true, decide_eq_true_eq, List.isPrefixOf_iff_prefix]
  constructor
  · rintro ⟨hlt, hpre⟩
    exact ⟨hpre, fun h => by rw [h] at hlt; omega⟩
  · rintro ⟨hpre, hne⟩
    have hlen : a.keys.length ≠ b.keys.length := fun h => hne (eq_of_keys (hpre.eq_of_length h))
    have hle := hpre.length_le
    exact ⟨by omega, hpre⟩

theorem within_of_isAncestorOf {a b : StateId} (h : a.isAncestorOf b = true) : b.Within a :=
  (isAncestorOf_iff.1 h).1

theorem ne_of_isAncestorOf {a b : StateId} (h : a.isAncestorOf b = true) : a ≠ b :=
  (isAncestorOf_iff.1 h).2

theorem within_iff {id top : StateId} : id.Within top ↔ id = top ∨ top.isAncestorOf id = true := by
  rw [isAncestorOf_iff]
  constructor
  · intro h
    by_cases he : top = id
    · exact .inl he.symm
    · exact .inr ⟨h, he⟩
  · rintro (rfl | h)
    · exact .refl _
    · exact h.1

/-- Nothing lies within a state below it. -/
theorem not_within_of_isAncestorOf {a b : StateId} (h : a.isAncestorOf b = true) : ¬ a.Within b :=
  fun hab => ne_of_isAncestorOf h (hab.antisymm (within_of_isAncestorOf h))

theorem isAncestorOf_of_within {a b c : StateId} (hab : a.isAncestorOf b = true)
    (hbc : c.Within b) : a.isAncestorOf c = true := by
  refine isAncestorOf_iff.2 ⟨hbc.trans (within_of_isAncestorOf hab), ?_⟩
  rintro rfl
  exact not_within_of_isAncestorOf hab hbc

theorem depth_lt {a b : StateId} (ha : a.keys ≠ []) (h : a.isAncestorOf b = true) :
    a.depth < b.depth := by
  have hpos := List.length_pos_iff.2 ha
  simp only [isAncestorOf, Bool.and_eq_true, decide_eq_true_eq] at h
  simp only [depth]
  omega

theorem within_child {p a : StateId} {k : String} :
    (p.child k).Within a ↔ a = p.child k ∨ p.Within a := by
  show a.keys <+: p.keys ++ [k] ↔ _
  rw [List.prefix_concat_iff]
  constructor
  · rintro (h | h)
    · exact .inl (eq_of_keys h)
    · exact .inr h
  · rintro (h | h)
    · exact .inl (congrArg keys h)
    · exact .inr h

theorem isAncestorOf_child {p a : StateId} {k : String} :
    a.isAncestorOf (p.child k) = true ↔ p.Within a := by
  rw [isAncestorOf_iff, within_child]
  constructor
  · rintro ⟨h | h, hne⟩
    · exact absurd h hne
    · exact h
  · intro h
    refine ⟨.inr h, ?_⟩
    rintro rfl
    have hle := h.length_le
    simp only [child_keys, List.length_append, List.length_singleton] at hle
    omega

/-! ## Parents -/

theorem parent?_child {p : StateId} {k : String} (h : p.keys ≠ []) :
    (p.child k).parent? = some p := by
  have hlen : 0 < p.keys.length := List.length_pos_iff.2 h
  have hnot : ¬ (p.keys ++ [k]).length ≤ 1 := by simp; omega
  simp only [parent?, child_keys, if_neg hnot, List.dropLast_concat]

theorem parent?_root (k : String) : (root k).parent? = none := rfl

theorem parent?_eq_some {id p : StateId} :
    id.parent? = some p ↔ p.keys ≠ [] ∧ ∃ k, id = p.child k := by
  constructor
  · intro h
    simp only [parent?] at h
    split at h
    · cases h
    · rename_i hlen
      cases h
      have hne : id.keys ≠ [] := by intro h; simp [h] at hlen
      refine ⟨?_, id.keys.getLast hne, eq_of_keys (List.dropLast_concat_getLast hne).symm⟩
      intro h
      have := congrArg List.length h
      simp at this
      omega
  · rintro ⟨hp, k, rfl⟩
    exact parent?_child hp

theorem keys_ne_nil_of_parent? {id p : StateId} (h : id.parent? = some p) : id.keys ≠ [] := by
  obtain ⟨-, k, rfl⟩ := parent?_eq_some.1 h
  exact child_ne_nil p k

theorem isAncestorOf_of_parent? {id p : StateId} (h : id.parent? = some p) :
    p.isAncestorOf id = true := by
  obtain ⟨-, k, rfl⟩ := parent?_eq_some.1 h
  exact isAncestorOf_child.2 (.refl p)

/-- What is strictly above a state is its parent, or above the parent. -/
theorem within_parent {id p a : StateId} (h : id.parent? = some p)
    (ha : a.isAncestorOf id = true) : p.Within a := by
  obtain ⟨-, k, rfl⟩ := parent?_eq_some.1 h
  exact isAncestorOf_child.1 ha

/-- The branches below two siblings are disjoint. -/
theorem eq_of_within_siblings {id p x y : StateId} (hx : x.parent? = some p)
    (hy : y.parent? = some p) (hix : id.Within x) (hiy : id.Within y) : x = y := by
  have below : ∀ {a b : StateId}, a.parent? = some p → b.parent? = some p → a.Within b → a = b := by
    intro a b ha hb hab
    rcases within_iff.1 hab with rfl | hanc
    · rfl
    · exact absurd (within_parent ha hanc) (not_within_of_isAncestorOf (isAncestorOf_of_parent? hb))
  rcases hix.total hiy with h | h
  · exact below hx hy h
  · exact (below hy hx h).symm

/-! ## Ancestors -/

/-- Every identifier with a key is reached from a root by going to children. -/
@[elab_as_elim]
theorem byParent {motive : (id : StateId) → id.keys ≠ [] → Prop}
    (root : ∀ k, motive (root k) (by simp [StateId.root]))
    (child : ∀ p k (hp : p.keys ≠ []), motive p hp → motive (p.child k) (child_ne_nil p k))
    (id : StateId) (h : id.keys ≠ []) : motive id h := by
  obtain ⟨keys⟩ := id
  induction keys using List.reverseRecOn with
  | nil => exact absurd rfl h
  | append_singleton keys k ih =>
    by_cases hk : keys = []
    · subst hk; exact root k
    · exact child ⟨keys⟩ k hk (ih hk)

theorem ancestors_root (k : String) : (root k).ancestors = [] := rfl

theorem ancestors_child {p : StateId} {k : String} (h : p.keys ≠ []) :
    (p.child k).ancestors = p :: p.ancestors := by
  obtain ⟨n, hn⟩ : ∃ n, p.keys.length = n + 1 := Nat.exists_eq_succ_of_ne_zero (by simpa using h)
  have hdepth : (p.child k).depth = n + 1 := by simp [depth, hn]
  have hdepth' : p.depth = n := by simp [depth, hn]
  have hown : (⟨(p.child k).keys.take (n + 1)⟩ : StateId) = p := by
    apply eq_of_keys
    simp [← hn]
  have habove : ∀ m ∈ List.range n,
      (⟨(p.child k).keys.take (m + 1)⟩ : StateId) = ⟨p.keys.take (m + 1)⟩ := by
    intro m hm
    have hlt := List.mem_range.1 hm
    simp only [child_keys, mk.injEq]
    rw [List.take_append_of_le_length (by omega)]
  simp only [ancestors, hdepth, hdepth', List.range_succ, List.map_append, List.map_cons,
    List.map_nil, List.reverse_append, List.reverse_cons, List.reverse_nil, List.nil_append,
    List.singleton_append, hown, List.map_congr_left habove]

theorem ancestors_of_parent?_none {id : StateId} (h : id.parent? = none) : id.ancestors = [] := by
  have hlen : id.keys.length ≤ 1 := by
    by_contra hlen
    simp [parent?, hlen] at h
  have hdepth : id.depth = 0 := by
    simp only [depth]
    omega
  rw [ancestors, hdepth]
  rfl

theorem ancestors_of_parent? {id p : StateId} (h : id.parent? = some p) :
    id.ancestors = p :: p.ancestors := by
  obtain ⟨hp, k, rfl⟩ := parent?_eq_some.1 h
  exact ancestors_child hp

theorem mem_ancestors {id a : StateId} :
    a ∈ id.ancestors ↔ a.keys ≠ [] ∧ a.isAncestorOf id = true := by
  by_cases hne : id.keys = []
  · have hnone : ¬ a.isAncestorOf id = true := by simp [isAncestorOf, hne]
    simp [ancestors, depth, hne, hnone]
  · induction id, hne using byParent with
    | root k =>
      rw [ancestors_root]
      constructor
      · intro h; cases h
      · rintro ⟨ha, h⟩
        have hlt : a.keys.length < 1 := by
          simp only [isAncestorOf, Bool.and_eq_true, decide_eq_true_eq] at h
          exact h.1
        exact absurd (List.length_pos_iff.2 ha) (by omega)
    | child p k hp ih =>
      rw [ancestors_child hp, List.mem_cons, ih, isAncestorOf_child, within_iff]
      constructor
      · rintro (rfl | ⟨ha, h⟩)
        · exact ⟨hp, .inl rfl⟩
        · exact ⟨ha, .inr h⟩
      · rintro ⟨ha, rfl | h⟩
        · exact .inl rfl
        · exact .inr ⟨ha, h⟩

/-- The ancestors, nearest first. -/
theorem ancestors_pairwise (id : StateId) :
    id.ancestors.Pairwise fun a b => b.isAncestorOf a = true := by
  by_cases hne : id.keys = []
  · simp [ancestors, depth, hne]
  · induction id, hne using byParent with
    | root k => simp [ancestors_root]
    | child p k hp ih =>
      rw [ancestors_child hp, List.pairwise_cons]
      exact ⟨fun a ha => (mem_ancestors.1 ha).2, ih⟩

theorem ancestors_nodup (id : StateId) : id.ancestors.Nodup :=
  id.ancestors_pairwise.imp fun h => (ne_of_isAncestorOf h).symm

/-! ## What transitions are planned with -/

theorem oneBeneath_eq_some {id above x : StateId} (h : id.oneBeneath above = some x) :
    x.parent? = some above ∧ id.Within x := by
  have hp := List.find?_some h
  have hx := List.mem_of_find?_eq_some h
  refine ⟨by simpa using hp, ?_⟩
  rcases List.mem_cons.1 hx with rfl | hx
  · exact .refl _
  · exact within_of_isAncestorOf (mem_ancestors.1 hx).2

theorem exists_oneBeneath {id above : StateId} (hne : above.keys ≠ [])
    (h : above.isAncestorOf id = true) : ∃ x, id.oneBeneath above = some x := by
  have hid : id.keys ≠ [] := by
    intro hid
    simp [isAncestorOf, hid] at h
  have hfound : ∃ x ∈ id :: id.ancestors, x.parent? = some above := by
    induction id, hid using byParent with
    | root k =>
      have hmem := mem_ancestors.2 ⟨hne, h⟩
      rw [ancestors_root] at hmem
      cases hmem
    | child p k hp ih =>
      rcases within_iff.1 (isAncestorOf_child.1 h) with rfl | hanc
      · exact ⟨p.child k, List.mem_cons_self, parent?_child hp⟩
      · obtain ⟨x, hx, hxp⟩ := ih hanc
        rw [ancestors_child hp]
        exact ⟨x, List.mem_cons_of_mem _ hx, hxp⟩
  obtain ⟨x, hx, hxp⟩ := hfound
  have hsome : ((id :: id.ancestors).find? (·.parent? == some above)).isSome := by
    rw [List.find?_isSome]
    exact ⟨x, hx, by simp [hxp]⟩
  exact Option.isSome_iff_exists.1 hsome

/-- A state below another lies within one of its children. -/
theorem exists_branch {id above : StateId} (hne : above.keys ≠ [])
    (h : above.isAncestorOf id = true) : ∃ x : StateId, x.parent? = some above ∧ id.Within x := by
  obtain ⟨x, hx⟩ := exists_oneBeneath hne h
  exact ⟨x, oneBeneath_eq_some hx⟩

theorem oneBeneath_iff {id above x : StateId} :
    id.oneBeneath above = some x ↔ x.parent? = some above ∧ id.Within x := by
  constructor
  · exact oneBeneath_eq_some
  · rintro ⟨hparent, hwithin⟩
    have habove := isAncestorOf_of_within (isAncestorOf_of_parent? hparent) hwithin
    obtain ⟨y, hy⟩ := exists_oneBeneath (parent?_eq_some.1 hparent).1 habove
    obtain ⟨hyparent, hywithin⟩ := oneBeneath_eq_some hy
    rw [hy, eq_of_within_siblings hyparent hparent hywithin hwithin]

theorem lca_eq_some {a b l : StateId} (h : a.lca b = some l) : l ∈ a.ancestors ∧ l ∈ b.ancestors :=
  ⟨List.mem_of_find?_eq_some h, by simpa using List.find?_some h⟩

/-- No common ancestor is nearer. -/
theorem within_of_lca {a b l x : StateId} (h : a.lca b = some l) (ha : x ∈ a.ancestors)
    (hb : x ∈ b.ancestors) : l.Within x := by
  obtain ⟨-, nearer, further, hsplit, hnone⟩ := List.find?_eq_some_iff_append.1 h
  have hordered := a.ancestors_pairwise
  rw [hsplit] at ha hordered
  rcases List.mem_append.1 ha with hx | hx
  · have hnot := hnone x hx
    simp [hb] at hnot
  · rcases List.mem_cons.1 hx with rfl | hx
    · exact .refl _
    · have hafter := (List.pairwise_append.1 hordered).2.1
      exact within_of_isAncestorOf ((List.pairwise_cons.1 hafter).1 x hx)

theorem exists_lca {a b x : StateId} (ha : x ∈ a.ancestors) (hb : x ∈ b.ancestors) :
    ∃ l, a.lca b = some l := by
  have hsome : (a.ancestors.find? (b.ancestors.contains ·)).isSome := by
    rw [List.find?_isSome]
    exact ⟨x, ha, by simpa using hb⟩
  exact Option.isSome_iff_exists.1 hsome

/-- The deepest state strictly above both. -/
theorem lca_iff {a b l : StateId} :
    a.lca b = some l ↔ (l ∈ a.ancestors ∧ l ∈ b.ancestors) ∧
      ∀ x, x ∈ a.ancestors → x ∈ b.ancestors → x ≠ l → x.depth < l.depth := by
  have hdeepest : ∀ {m}, a.lca b = some m →
      ∀ x, x ∈ a.ancestors → x ∈ b.ancestors → x ≠ m → x.depth < m.depth := by
    intro m hm x ha hb hne
    have hwithin := (within_iff.1 (within_of_lca hm ha hb)).resolve_left (Ne.symm hne)
    exact depth_lt (mem_ancestors.1 ha).1 hwithin
  constructor
  · exact fun h => ⟨lca_eq_some h, hdeepest h⟩
  · rintro ⟨⟨ha, hb⟩, hl⟩
    obtain ⟨m, hm⟩ := exists_lca ha hb
    by_cases hne : l = m
    · rw [hm, hne]
    · obtain ⟨hma, hmb⟩ := lca_eq_some hm
      have hlt := hl m hma hmb (Ne.symm hne)
      have hgt := hdeepest hm l ha hb hne
      omega

theorem lca_comm (a b : StateId) : a.lca b = b.lca a := by
  refine Option.ext fun l => ?_
  rw [lca_iff, lca_iff]
  exact ⟨fun ⟨⟨ha, hb⟩, hl⟩ => ⟨⟨hb, ha⟩, fun x hxb hxa => hl x hxa hxb⟩,
    fun ⟨⟨hb, ha⟩, hl⟩ => ⟨⟨ha, hb⟩, fun x hxa hxb => hl x hxb hxa⟩⟩

theorem mem_ancestorsUntil {id stop x : StateId} (h : stop ∈ id.ancestors) :
    x ∈ id.ancestorsUntil stop ↔ x.isAncestorOf id = true ∧ stop.isAncestorOf x = true := by
  have hid : id.keys ≠ [] := by
    intro hid
    simp [ancestors, depth, hid] at h
  induction id, hid using byParent with
  | root k => rw [ancestors_root] at h; cases h
  | child p k hp ih =>
    rw [ancestors_child hp, List.mem_cons] at h
    simp only [ancestorsUntil, ancestors_child hp, isAncestorOf_child]
    by_cases hps : p = stop
    · subst hps
      simp only [List.takeWhile_cons, ne_eq, not_true_eq_false, decide_false, Bool.false_eq_true,
        if_false, List.not_mem_nil, false_iff, not_and]
      exact fun hx hpx => not_within_of_isAncestorOf hpx hx
    · have hstop : stop ∈ p.ancestors := h.resolve_left (Ne.symm hps)
      have ih := ih hstop
      simp only [ancestorsUntil] at ih
      simp only [List.takeWhile_cons, ne_eq, hps, not_false_eq_true, decide_true, if_true,
        List.mem_cons, ih, within_iff]
      constructor
      · rintro (rfl | ⟨hx, hsx⟩)
        · exact ⟨.inl rfl, (mem_ancestors.1 hstop).2⟩
        · exact ⟨.inr hx, hsx⟩
      · rintro ⟨rfl | hx, hsx⟩
        · exact .inl rfl
        · exact .inr ⟨hx, hsx⟩

end StateId
end Statechart
