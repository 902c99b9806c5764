import Statechart.Proofs.Shape

/-!
# Statechart.Proofs.Building

Built trees are well-formed. Laying out a definition gives a forest with distinct service ids, and
resolving the transitions keeps it and finds every target among the states below the root.
-/

namespace Statechart

variable {C : Type}

/-- A result that a chain of steps arrived at came through its first step. -/
theorem bind_eq_ok {ε α β : Type} {x : Except ε α} {f : α → Except ε β} {b : β}
    (h : x >>= f = .ok b) : ∃ a, x = .ok a ∧ f a = .ok b := by
  cases x with
  | error e => cases h
  | ok a => exact ⟨a, rfl, h⟩

theorem refuseIf_eq_ok {condition : Bool} {flaw : Flaw} {u : Unit}
    (h : refuseIf condition flaw = .ok u) : condition = false := by
  cases condition with
  | false => rfl
  | true => cases h

/-! ## Laying out a definition -/

theorem firstRepeated?_eq_none {seen keys : List String} (h : firstRepeated? seen keys = none) :
    keys.Nodup ∧ ∀ k ∈ keys, k ∉ seen := by
  induction keys generalizing seen with
  | nil => simp
  | cons k rest ih =>
    simp only [firstRepeated?] at h
    split at h
    · cases h
    · rename_i hk
      obtain ⟨hnodup, hseen⟩ := ih h
      have hk : k ∉ seen := by simpa using hk
      refine ⟨List.nodup_cons.2 ⟨fun hmem => hseen k hmem List.mem_cons_self, hnodup⟩, ?_⟩
      intro l hl
      rcases List.mem_cons.1 hl with rfl | hl
      · exact hk
      · exact fun hs => hseen l hl (List.mem_cons_of_mem _ hs)

theorem nameServices_eq_ok {id : StateId} {used used' : List String} {place : Nat}
    {defs : List ServiceDef} {services : List Service}
    (h : nameServices id used place defs = .ok (services, used')) :
    used' = (services.map Service.id).reverse ++ used ∧ (used.Nodup → used'.Nodup) := by
  induction defs generalizing used place services with
  | nil => cases h; exact ⟨rfl, fun hn => hn⟩
  | cons s rest ih =>
    simp only [nameServices] at h
    obtain ⟨u, hfresh, h⟩ := bind_eq_ok h
    obtain ⟨⟨others, last⟩, hrest, h⟩ := bind_eq_ok h
    cases h
    have hfresh := refuseIf_eq_ok hfresh
    obtain ⟨hused, hnodup⟩ := ih hrest
    refine ⟨?_, fun hn => hnodup (List.nodup_cons.2 ⟨by simpa using hfresh, hn⟩)⟩
    simp only at hused
    simp [hused]

namespace NodeDef

/-- A state declares children exactly if its kind has some, and their keys differ. -/
theorem check_eq_ok {id : StateId} {d : NodeDef C} {u : Unit} (h : check id d = .ok u) :
    (d.children.map NodeDef.key).Nodup ∧
      match d.kind with
      | .atomic | .final => d.children = []
      | .compound _ _ | .orthogonal => d.children ≠ [] := by
  have distinct : (d.children.map NodeDef.key).Nodup := by
    cases hrepeated : firstRepeated? [] (d.children.map NodeDef.key) with
    | none => exact (firstRepeated?_eq_none hrepeated).1
    | some key =>
      cases hk : d.kind with
      | final =>
        simp only [check, hk, hrepeated] at h
        obtain ⟨_, _, h⟩ := bind_eq_ok h
        obtain ⟨_, _, h⟩ := bind_eq_ok h
        cases h
      | _ =>
        simp only [check, hk, hrepeated] at h
        obtain ⟨_, _, h⟩ := bind_eq_ok h
        cases h
  refine ⟨distinct, ?_⟩
  cases hk : d.kind with
  | _ =>
    simp only [check, hk] at h
    obtain ⟨_, hchildren, _⟩ := bind_eq_ok h
    simpa using refuseIf_eq_ok hchildren

theorem builtKind_eq_ok {id : StateId} {children : List StateId} {k : KindDef C} {kind : NodeKind C}
    (hchildren : match k with
      | .atomic | .final => children = []
      | .compound _ _ | .orthogonal => children ≠ [])
    (h : builtKind id children k = .ok kind) : kind.Proper ∧ kind.children = children := by
  cases k with
  | atomic => cases h; exact ⟨trivial, hchildren.symm⟩
  | final => cases h; exact ⟨trivial, hchildren.symm⟩
  | orthogonal => cases h; exact ⟨hchildren, rfl⟩
  | compound initial actions =>
    simp only [builtKind] at h
    split at h
    · rename_i child hfind
      cases h
      exact ⟨List.mem_of_find?_eq_some hfind, rfl⟩
    · cases h

mutual

/-- A state is laid out before the states below it. -/
theorem layOut_forest {parent : Option StateId} {used used' : List String} {first : Draft C}
    {below : List (Draft C)} (d : NodeDef C)
    (h : layOut parent used d = .ok ((first, below), used')) :
    isKey d.key = true ∧ first.node.id = idBelow parent d.key ∧ first.node.kind.Proper ∧
      Forest first.node.id first.node.kind.children (below.map (·.node.outline)) := by
  match d with
  | ⟨key, kind, children, entry, exit, transitions, services⟩ =>
    simp only [layOut] at h
    obtain ⟨u₁, hkey, h⟩ := bind_eq_ok h
    obtain ⟨u₂, hcheck, h⟩ := bind_eq_ok h
    obtain ⟨⟨built, used₁⟩, -, h⟩ := bind_eq_ok h
    obtain ⟨⟨drafts, used₂⟩, hbelow, h⟩ := bind_eq_ok h
    obtain ⟨node, hkind, h⟩ := bind_eq_ok h
    cases h
    obtain ⟨hkeys, hshape⟩ := check_eq_ok hcheck
    have hproper := builtKind_eq_ok (by cases kind <;> simpa using hshape) hkind
    refine ⟨by simpa using refuseIf_eq_ok hkey, rfl, hproper.1, ?_⟩
    rw [hproper.2]
    exact layOutAll_forest children hkeys hbelow

/-- Siblings are laid out in turn, each with the states below it. -/
theorem layOutAll_forest {parent : StateId} {used used' : List String} {drafts : List (Draft C)}
    (ds : List (NodeDef C)) (hkeys : (ds.map NodeDef.key).Nodup)
    (h : layOutAll parent used ds = .ok (drafts, used')) :
    Forest parent (ds.map fun d => parent.child d.key) (drafts.map (·.node.outline)) := by
  match ds with
  | [] => cases h; exact .nil
  | d :: rest =>
    simp only [layOutAll] at h
    obtain ⟨⟨⟨first, below⟩, used₁⟩, hfirst, h⟩ := bind_eq_ok h
    obtain ⟨⟨others, used₂⟩, hrest, h⟩ := bind_eq_ok h
    cases h
    obtain ⟨hkey, hid, hproper, hforest⟩ := layOut_forest d hfirst
    obtain ⟨hfresh, hkeys⟩ := List.nodup_cons.1 hkeys
    have hothers := layOutAll_forest rest hkeys hrest
    have hid : first.node.id = parent.child d.key := hid
    have hout : first.node.outline = (parent.child d.key, first.node.kind) := by
      rw [Node.outline, hid]
    rw [hid] at hforest
    simp only [List.map_cons, List.map_append, List.cons_append, hout]
    refine .cons hkey hproper ?_ hforest hothers
    intro hmem
    obtain ⟨d', hd', heq⟩ := List.mem_map.1 hmem
    exact hfresh (List.mem_map.2 ⟨d', hd', (StateId.child_inj.1 heq).2⟩)

end

mutual

theorem layOut_services {parent : Option StateId} {used used' : List String} {first : Draft C}
    {below : List (Draft C)} (d : NodeDef C)
    (h : layOut parent used d = .ok ((first, below), used')) :
    used' = ((first :: below).flatMap (·.node.serviceIds)).reverse ++ used ∧
      (used.Nodup → used'.Nodup) := by
  match d with
  | ⟨key, kind, children, entry, exit, transitions, services⟩ =>
    simp only [layOut] at h
    obtain ⟨u₁, -, h⟩ := bind_eq_ok h
    obtain ⟨u₂, -, h⟩ := bind_eq_ok h
    obtain ⟨⟨built, used₁⟩, hnamed, h⟩ := bind_eq_ok h
    obtain ⟨⟨drafts, used₂⟩, hbelow, h⟩ := bind_eq_ok h
    obtain ⟨node, -, h⟩ := bind_eq_ok h
    cases h
    obtain ⟨hused₁, hnodup₁⟩ := nameServices_eq_ok hnamed
    obtain ⟨hused₂, hnodup₂⟩ := layOutAll_services children hbelow
    refine ⟨?_, fun hn => hnodup₂ (hnodup₁ hn)⟩
    simp only at hused₁ hused₂
    simp [hused₂, hused₁, Node.serviceIds]

theorem layOutAll_services {parent : StateId} {used used' : List String} {drafts : List (Draft C)}
    (ds : List (NodeDef C)) (h : layOutAll parent used ds = .ok (drafts, used')) :
    used' = (drafts.flatMap (·.node.serviceIds)).reverse ++ used ∧ (used.Nodup → used'.Nodup) := by
  match ds with
  | [] => cases h; exact ⟨rfl, fun hn => hn⟩
  | d :: rest =>
    simp only [layOutAll] at h
    obtain ⟨⟨⟨first, below⟩, used₁⟩, hfirst, h⟩ := bind_eq_ok h
    obtain ⟨⟨others, used₂⟩, hrest, h⟩ := bind_eq_ok h
    cases h
    obtain ⟨hused₁, hnodup₁⟩ := layOut_services d hfirst
    obtain ⟨hused₂, hnodup₂⟩ := layOutAll_services rest hrest
    refine ⟨?_, fun hn => hnodup₂ (hnodup₁ hn)⟩
    simp only at hused₁ hused₂
    simp [hused₂, hused₁]

end

end NodeDef

/-! ## Resolving transitions -/

theorem TransitionDef.resolveTargets_eq_ok {root owner : StateId} {known ids : List StateId}
    {targets : List String} (h : resolveTargets root known owner targets = .ok ids) :
    ∀ id ∈ ids, id ∈ known ∧ id ≠ root := by
  induction targets generalizing ids with
  | nil => cases h; simp
  | cons target rest ih =>
    simp only [resolveTargets] at h
    obtain ⟨id, hid, h⟩ := bind_eq_ok h
    obtain ⟨u, hroot, h⟩ := bind_eq_ok h
    obtain ⟨others, hrest, h⟩ := bind_eq_ok h
    cases h
    have hroot := refuseIf_eq_ok hroot
    have hknown := (Option.filter_eq_some_iff.1 (Tree.resolveAmong_eq_ok.1 hid)).2
    intro x hx
    rcases List.mem_cons.1 hx with rfl | hx
    · exact ⟨by simpa using hknown, by simpa using hroot⟩
    · exact ih hrest x hx

theorem TransitionDef.resolve_targets {root owner : StateId} {known : List StateId}
    {d : TransitionDef C} {tr : Transition C} (h : d.resolve root known owner = .ok tr) :
    ∀ id ∈ tr.targets, id ∈ known ∧ id ≠ root := by
  simp only [resolve] at h
  split at h
  · obtain ⟨u, -, h⟩ := bind_eq_ok h
    cases h
    simp [Transition.targets]
  · obtain ⟨targets, htargets, h⟩ := bind_eq_ok h
    obtain ⟨guard, -, h⟩ := bind_eq_ok h
    cases h
    exact resolveTargets_eq_ok htargets

theorem TransitionDef.resolveAll_forall {root owner : StateId} {known : List StateId}
    {ds : List (TransitionDef C)} {trs : List (Transition C)}
    (h : resolveAll root known owner ds = .ok trs) :
    List.Forall₂ (fun d tr => d.resolve root known owner = .ok tr) ds trs := by
  induction ds generalizing trs with
  | nil => cases h; exact .nil
  | cons d rest ih =>
    simp only [resolveAll] at h
    obtain ⟨first, hfirst, h⟩ := bind_eq_ok h
    obtain ⟨others, hrest, h⟩ := bind_eq_ok h
    cases h
    exact .cons hfirst (ih hrest)

theorem TransitionDef.resolveAll_targets {root owner : StateId} {known : List StateId}
    {ds : List (TransitionDef C)} {trs : List (Transition C)}
    (h : resolveAll root known owner ds = .ok trs) :
    ∀ tr ∈ trs, ∀ id ∈ tr.targets, id ∈ known ∧ id ≠ root := by
  have hall := resolveAll_forall h
  intro tr htr
  obtain ⟨i, hi, rfl⟩ := List.getElem_of_mem htr
  exact resolve_targets (hall.get (by rw [hall.length_eq]; exact hi) hi)

/-- What finishing a draft leaves as it is, and what it adds. -/
structure Draft.Finishes (root : StateId) (known : List StateId) (d : Draft C) (n : Node C) :
    Prop where
  outline : n.outline = d.node.outline
  services : n.services = d.node.services
  targets : ∀ tr ∈ n.transitions, ∀ id ∈ tr.targets, id ∈ known ∧ id ≠ root

theorem Draft.finish_eq_ok {root : StateId} {known : List StateId} {d : Draft C} {n : Node C}
    (h : d.finish root known = .ok n) : d.Finishes root known n := by
  simp only [finish] at h
  obtain ⟨transitions, htransitions, h⟩ := bind_eq_ok h
  cases h
  exact ⟨rfl, rfl, TransitionDef.resolveAll_targets htransitions⟩

theorem Draft.finishAll_forall {root : StateId} {known : List StateId} {ds : List (Draft C)}
    {ns : List (Node C)} (h : finishAll root known ds = .ok ns) :
    List.Forall₂ (fun d n => d.finish root known = .ok n) ds ns := by
  induction ds generalizing ns with
  | nil => cases h; exact .nil
  | cons d rest ih =>
    simp only [finishAll] at h
    obtain ⟨first, hfirst, h⟩ := bind_eq_ok h
    obtain ⟨others, hrest, h⟩ := bind_eq_ok h
    cases h
    exact .cons hfirst (ih hrest)

/-- A built tree is well-formed. -/
theorem Tree.build_wellFormed {d : NodeDef C} {t : Tree C} (h : Tree.build d = .ok t) :
    t.WellFormed := by
  simp only [build] at h
  obtain ⟨⟨⟨first, below⟩, used⟩, hlaid, h⟩ := bind_eq_ok h
  obtain ⟨root, hroot, h⟩ := bind_eq_ok h
  obtain ⟨rest, hrest, h⟩ := bind_eq_ok h
  cases h
  obtain ⟨hkey, hid, hkind, hforest⟩ := NodeDef.layOut_forest d hlaid
  obtain ⟨hused, hnodup⟩ := NodeDef.layOut_services d hlaid
  have hfirst := Draft.finish_eq_ok hroot
  have hothers := (Draft.finishAll_forall hrest).imp fun _ _ => Draft.finish_eq_ok
  have hall : List.Forall₂ (Draft.Finishes first.node.id (first.node.id :: below.map (·.node.id)))
      (first :: below) (root :: rest) := .cons hfirst hothers
  have houtlines : ∀ {ds : List (Draft C)} {ns : List (Node C)} {r : StateId}
      {known : List StateId}, List.Forall₂ (Draft.Finishes r known) ds ns →
        ns.map Node.outline = ds.map (·.node.outline) ∧
          ns.flatMap Node.serviceIds = ds.flatMap (·.node.serviceIds) := by
    intro ds ns r known hf
    induction hf with
    | nil => exact ⟨rfl, rfl⟩
    | cons hd _ ih =>
      simp only [List.map_cons, List.flatMap_cons, ih.1, ih.2, hd.outline, Node.serviceIds,
        hd.services, and_self]
  have hrootId : root.id = first.node.id := congrArg Prod.fst hfirst.outline
  have hrootKind : root.kind = first.node.kind := congrArg Prod.snd hfirst.outline
  have hids : (root :: rest).map Node.id = first.node.id :: below.map (·.node.id) := by
    have := congrArg (List.map Prod.fst) (houtlines hall).1
    simpa [Node.outline, Function.comp_def] using this
  constructor
  · exact ⟨d.key, hkey, by rw [hrootId]; exact hid⟩
  · rw [hrootKind]; exact hkind
  · rw [hrootId, hrootKind, (houtlines hothers).1]; exact hforest
  · intro n hn tr htr target htarget
    have hknown : target ∈ first.node.id :: below.map (·.node.id) ∧ target ≠ first.node.id := by
      obtain ⟨i, hi, rfl⟩ := List.getElem_of_mem hn
      have hfinish := List.Forall₂.get hall (by rw [hall.length_eq]; exact hi) hi
      exact hfinish.targets tr htr target htarget
    refine ⟨?_, by rw [hrootId]; exact hknown.2⟩
    rw [Tree.ids, Tree.nodes, hids]
    exact hknown.1
  · rw [Tree.nodes, (houtlines hall).2]
    have := hnodup .nil
    rw [hused, List.append_nil, List.nodup_reverse] at this
    exact this

end Statechart
