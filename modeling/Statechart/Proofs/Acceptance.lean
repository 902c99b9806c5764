import Statechart.Proofs.Building
import Statechart.Proofs.Dotted

/-!
# Statechart.Proofs.Acceptance

A tree is built from the well-formed definitions and from no others. What is well-formed is said of
the states of a definition, each with its identifier; the order in which building goes through them
does not appear.

* `NodeDef.placed`: the states of a definition.
* `NodeDef.WellFormed`: what is expected of them.
* `Vets`: a check passes exactly if a condition holds. Every step of building has such a condition.
* `Tree.build_accepts`: that of building a tree is being well-formed.
-/

namespace Statechart

variable {C : Type}

/-! ## Well-formed definitions -/

/-- What a transition of `owner` needs to be built: a forbidden one has nothing but its event, and
the others name states of the chart, as targets such below the root. -/
structure TransitionDef.Sound (root : StateId) (known : List StateId) (owner : StateId)
    (d : TransitionDef C) : Prop where
  forbidden : d.forbidden = true → d.targets = [] ∧ d.actions = [] ∧ d.guard = none
  targets : d.forbidden = false → ∀ target ∈ d.targets,
    ∃ id ∈ known, id ≠ root ∧ Names owner id target
  guard : d.forbidden = false → ∀ name, d.guard = some (.inState name) →
    ∃ id ∈ known, Names owner id name

namespace NodeDef

mutual

/-- The states of a definition with their identifiers, in document order. -/
def placed (parent : Option StateId) : NodeDef C → List (StateId × NodeDef C)
  | ⟨key, kind, children, entry, exit, transitions, services⟩ =>
    (idBelow parent key, ⟨key, kind, children, entry, exit, transitions, services⟩) ::
      placedAll (idBelow parent key) children

def placedAll (parent : StateId) : List (NodeDef C) → List (StateId × NodeDef C)
  | [] => []
  | d :: rest => d.placed (some parent) ++ placedAll parent rest

end

/-- The ids of some services of a state, from a place on. -/
def serviceIdsFrom (id : StateId) (place : Nat) (services : List ServiceDef) : List String :=
  services.mapIdx fun n s => s.id.getD (generatedServiceId id (place + n))

/-- The ids of the services of a state: declared ones, or such that tell the place. -/
def serviceIds (id : StateId) (d : NodeDef C) : List String :=
  serviceIdsFrom id 0 d.services

/-- Children are declared exactly by the kinds that have some. -/
def ChildrenFit (d : NodeDef C) : Prop :=
  match d.kind with
  | .atomic | .final => d.children = []
  | .compound _ _ | .orthogonal => d.children ≠ []

/-- What a state needs to be built, the services and transitions aside. -/
structure Sound (d : NodeDef C) : Prop where
  key : d.key ≠ "" ∧ '.' ∉ d.key.toList ∧ d.key.toList.head? ≠ some '#'
  children : d.ChildrenFit
  final : d.kind = .final → d.transitions = [] ∧ d.services = []
  siblings : (d.children.map NodeDef.key).Nodup
  initial : ∀ initial actions, d.kind = .compound initial actions →
    initial ∈ d.children.map NodeDef.key

/-- What a definition needs for a tree to be built from it. -/
structure WellFormed (d : NodeDef C) : Prop where
  states : ∀ s ∈ d.placed none, s.2.Sound
  services : ((d.placed none).flatMap fun s => s.2.serviceIds s.1).Nodup
  transitions : ∀ s ∈ d.placed none, ∀ tr ∈ s.2.transitions,
    tr.Sound (.root d.key) ((d.placed none).map Prod.fst) s.1

end NodeDef

/-! ## Checks -/

/-- A mistake in the structure of a definition, or a text that names no state. -/
def ChartError.OfDefinition (e : ChartError) : Prop :=
  (∃ flaw, e = .invalidDefinition flaw) ∨ ∃ state target, e = .unknownTarget state target

/-- Under the condition `p` the result is one for which `q` holds. Otherwise there is none, and the
definition is at fault. -/
structure Vets {α : Type} (x : Except ChartError α) (p : Prop) (q : α → Prop) : Prop where
  passes : p → ∃ a, x = .ok a ∧ q a
  refuses : ¬ p → ∃ e, x = .error e ∧ e.OfDefinition

namespace Vets

variable {α β : Type} {x : Except ChartError α} {p r : Prop} {q : α → Prop}

theorem pure {a : α} (h : q a) : Vets (.ok a) True q :=
  ⟨fun _ => ⟨a, rfl, h⟩, fun hp => absurd trivial hp⟩

theorem bind {f : α → Except ChartError β} {s : β → Prop} (hx : Vets x p q)
    (hf : p → ∀ a, q a → Vets (f a) r s) : Vets (x >>= f) (p ∧ r) s := by
  constructor
  · rintro ⟨hp, hr⟩
    obtain ⟨a, rfl, ha⟩ := hx.passes hp
    exact (hf hp a ha).passes hr
  · intro hnot
    by_cases hp : p
    · obtain ⟨a, rfl, ha⟩ := hx.passes hp
      exact (hf hp a ha).refuses fun hr => hnot ⟨hp, hr⟩
    · obtain ⟨e, rfl, he⟩ := hx.refuses hp
      exact ⟨e, rfl, he⟩

theorem congr (hx : Vets x p q) (hp : p ↔ r) : Vets x r q :=
  ⟨fun h => hx.passes (hp.2 h), fun h => hx.refuses fun h' => h (hp.1 h')⟩

theorem bind_pure {f : α → β} {s : β → Prop} (hx : Vets x p q) (hf : p → ∀ a, q a → s (f a)) :
    Vets (x >>= fun a => .ok (f a)) p s :=
  (hx.bind fun hp a ha => pure (hf hp a ha)).congr (iff_of_eq (and_true p))

theorem exists_ok (hx : Vets x p q) : (∃ a, x = .ok a) ↔ p := by
  constructor
  · rintro ⟨a, rfl⟩
    by_contra hp
    obtain ⟨e, he, -⟩ := hx.refuses hp
    cases he
  · intro hp
    obtain ⟨a, ha, -⟩ := hx.passes hp
    exact ⟨a, ha⟩

theorem of_error (hx : Vets x p q) {e : ChartError} (he : x = .error e) : e.OfDefinition := by
  subst he
  by_cases hp : p
  · obtain ⟨a, ha, -⟩ := hx.passes hp
    cases ha
  · obtain ⟨e', he', h⟩ := hx.refuses hp
    cases he'
    exact h

end Vets

theorem refuseIf_vets {condition : Bool} (flaw : Flaw) :
    Vets (refuseIf condition flaw) (condition = false) fun _ => True := by
  cases condition with
  | false => exact ⟨fun _ => ⟨(), rfl, trivial⟩, fun h => absurd rfl h⟩
  | true => exact ⟨fun h => (by cases h), fun _ => ⟨_, rfl, .inl ⟨flaw, rfl⟩⟩⟩

/-! ## Laying out a definition -/

theorem isKey_iff {key : String} :
    isKey key = true ↔ key ≠ "" ∧ '.' ∉ key.toList ∧ key.toList.head? ≠ some '#' := by
  have hempty : key ≠ "" ↔ key.toList ≠ [] := by simp
  rw [isKey, hempty]
  cases key.toList with
  | nil => simp
  | cons c rest => simp [StateId.separator, and_comm]

theorem firstRepeated?_iff {seen keys : List String} :
    firstRepeated? seen keys = none ↔ keys.Nodup ∧ ∀ k ∈ keys, k ∉ seen := by
  refine ⟨firstRepeated?_eq_none, ?_⟩
  induction keys generalizing seen with
  | nil => simp [firstRepeated?]
  | cons k rest ih =>
    rintro ⟨hnodup, hseen⟩
    obtain ⟨hk, hnodup⟩ := List.nodup_cons.1 hnodup
    rw [firstRepeated?, if_neg (by simpa using hseen k List.mem_cons_self)]
    refine ih ⟨hnodup, fun l hl => List.not_mem_cons_of_ne_of_not_mem ?_ ?_⟩
    · rintro rfl
      exact hk hl
    · exact hseen l (List.mem_cons_of_mem _ hl)

/-- Ids that are distinct and were not used before. -/
def Fresh (used ids : List String) : Prop :=
  ids.Nodup ∧ ∀ id ∈ ids, id ∉ used

theorem fresh_nil {ids : List String} : Fresh [] ids ↔ ids.Nodup :=
  and_iff_left fun _ _ => List.not_mem_nil

theorem fresh_cons {used ids : List String} {id : String} :
    Fresh used (id :: ids) ↔ id ∉ used ∧ Fresh (id :: used) ids := by
  constructor
  · rintro ⟨hnodup, hused⟩
    obtain ⟨hid, hnodup⟩ := List.nodup_cons.1 hnodup
    refine ⟨hused id List.mem_cons_self, hnodup, fun x hx hmem => ?_⟩
    rcases List.mem_cons.1 hmem with rfl | hmem
    · exact hid hx
    · exact hused x (List.mem_cons_of_mem _ hx) hmem
  · rintro ⟨hid, hnodup, hused⟩
    refine ⟨List.nodup_cons.2 ⟨fun h => hused id h List.mem_cons_self, hnodup⟩, fun x hx => ?_⟩
    rcases List.mem_cons.1 hx with rfl | hx
    · exact hid
    · exact fun h => hused x hx (List.mem_cons_of_mem _ h)

theorem fresh_append {used ids ids' : List String} :
    Fresh used (ids ++ ids') ↔ Fresh used ids ∧ Fresh (ids.reverse ++ used) ids' := by
  induction ids generalizing used with
  | nil => simp [Fresh]
  | cons id rest ih =>
    rw [List.cons_append, fresh_cons, ih, fresh_cons, and_assoc, List.reverse_cons,
      List.append_assoc, List.singleton_append]

namespace NodeDef

theorem serviceIdsFrom_cons (id : StateId) (place : Nat) (s : ServiceDef)
    (rest : List ServiceDef) :
    serviceIdsFrom id place (s :: rest) =
      s.id.getD (generatedServiceId id place) :: serviceIdsFrom id (place + 1) rest := by
  simp only [serviceIdsFrom, List.mapIdx_cons, Nat.add_zero, Nat.add_right_comm, Nat.add_assoc]

theorem nameServices_vets (id : StateId) (used : List String) (place : Nat)
    (services : List ServiceDef) :
    Vets (nameServices id used place services) (Fresh used (serviceIdsFrom id place services))
      fun named => named.2 = (serviceIdsFrom id place services).reverse ++ used := by
  induction services generalizing used place with
  | nil => exact Vets.congr (Vets.pure (by simp [serviceIdsFrom])) (by simp [serviceIdsFrom, Fresh])
  | cons s rest ih =>
    rw [serviceIdsFrom_cons, nameServices]
    refine ((refuseIf_vets _).bind fun _ _ _ =>
      (ih _ _).bind_pure fun _ named hnamed => ?_).congr ?_
    · simp [hnamed]
    · simp [fresh_cons]

/-- What is expected of a state before its services are named. -/
def Checked (d : NodeDef C) : Prop :=
  d.ChildrenFit ∧ (d.kind = .final → d.transitions = [] ∧ d.services = []) ∧
    (d.children.map NodeDef.key).Nodup

/-- Children are distinct if the search for a repeated key finds none, and are refused for one that
it finds. -/
theorem siblings_vets (id : StateId) (keys : List String) {x : Except ChartError Unit}
    (hnone : firstRepeated? [] keys = none → x = .ok ())
    (hsome : ∀ key, firstRepeated? [] keys = some key →
      x = .error (.invalidDefinition (.duplicateChild id key))) :
    Vets x keys.Nodup fun _ => True := by
  constructor
  · intro hnodup
    exact ⟨(), hnone (firstRepeated?_iff.2 ⟨hnodup, fun _ _ => List.not_mem_nil⟩), trivial⟩
  · intro hnot
    cases hrepeated : firstRepeated? [] keys with
    | none => exact absurd (firstRepeated?_iff.1 hrepeated).1 hnot
    | some key => exact ⟨_, hsome key hrepeated, .inl ⟨_, rfl⟩⟩

theorem check_vets (id : StateId) (d : NodeDef C) :
    Vets (check id d) d.Checked fun _ => True := by
  cases hk : d.kind with
  | final =>
    simp only [check, hk]
    refine ((refuseIf_vets _).bind fun _ _ _ => (refuseIf_vets _).bind fun _ _ _ =>
      siblings_vets id (d.children.map NodeDef.key) (fun h => ?_) fun key h => ?_).congr
        (by simp [Checked, ChildrenFit, hk])
    · simp only [h]
      rfl
    · simp only [h]
  | _ =>
    simp only [check, hk]
    refine ((refuseIf_vets _).bind fun _ _ _ =>
      siblings_vets id (d.children.map NodeDef.key) (fun h => ?_) fun key h => ?_).congr
        (by simp [Checked, ChildrenFit, hk])
    · simp only [h]
      rfl
    · simp only [h]

theorem builtKind_vets (id : StateId) (children : List (NodeDef C)) (kind : KindDef C) :
    Vets (builtKind id (children.map fun child => id.child child.key) kind)
      (∀ initial actions, kind = .compound initial actions → initial ∈ children.map NodeDef.key)
      fun _ => True := by
  cases kind with
  | compound initial actions =>
    have hfind : ((children.map fun child => id.child child.key).find?
        (·.key == initial)).isSome ↔ initial ∈ children.map NodeDef.key := by
      rw [List.find?_isSome]
      simp [StateId.key]
    simp only [builtKind]
    split
    · rename_i child hchild
      refine Vets.congr (Vets.pure trivial) ?_
      have hmem := hfind.1 (by rw [hchild]; rfl)
      simpa using hmem
    · rename_i hnone
      refine ⟨fun h => ?_, fun _ => ⟨_, rfl, .inl ⟨_, rfl⟩⟩⟩
      have hsome := hfind.2 (h initial actions rfl)
      rw [hnone] at hsome
      cases hsome
  | _ => exact Vets.congr (Vets.pure trivial) (by simp)

/-- Some states as laying them out finds them sound, their service ids being new. -/
def AllSound (used : List String) (states : List (StateId × NodeDef C)) : Prop :=
  (∀ s ∈ states, s.2.Sound) ∧ Fresh used (states.flatMap fun s => s.2.serviceIds s.1)

/-- The service ids used after some states. -/
def usedAfter (used : List String) (states : List (StateId × NodeDef C)) : List String :=
  (states.flatMap fun s => s.2.serviceIds s.1).reverse ++ used

/-- What laying out some states gives: their drafts, and the service ids used by then. -/
structure LaidOut (used : List String) (states : List (StateId × NodeDef C))
    (drafts : List (Draft C)) (used' : List String) : Prop where
  declared : drafts.map (fun draft => (draft.node.id, draft.pending)) =
    states.map fun s => (s.1, s.2.transitions)
  used : used' = usedAfter used states

theorem allSound_append {used : List String} {states states' : List (StateId × NodeDef C)} :
    AllSound used (states ++ states') ↔
      AllSound used states ∧ AllSound (usedAfter used states) states' := by
  simp only [AllSound, List.forall_mem_append, List.flatMap_append, fresh_append, usedAfter]
  exact and_and_and_comm

/-- What a state needs, as it is checked: before its services are named, and after the states below
it are laid out. -/
theorem sound_iff {d : NodeDef C} :
    d.Sound ↔ isKey d.key = true ∧ d.Checked ∧
      ∀ initial actions, d.kind = .compound initial actions →
        initial ∈ d.children.map NodeDef.key := by
  rw [isKey_iff]
  constructor
  · rintro ⟨hkey, hchildren, hfinal, hsiblings, hinitial⟩
    exact ⟨hkey, ⟨hchildren, hfinal, hsiblings⟩, hinitial⟩
  · rintro ⟨hkey, ⟨hchildren, hfinal, hsiblings⟩, hinitial⟩
    exact ⟨hkey, hchildren, hfinal, hsiblings, hinitial⟩

theorem allSound_cons {used : List String} {id : StateId} {d : NodeDef C}
    {states : List (StateId × NodeDef C)} :
    AllSound used ((id, d) :: states) ↔
      isKey d.key = true ∧ d.Checked ∧ Fresh used (serviceIdsFrom id 0 d.services) ∧
      AllSound (usedAfter used [(id, d)]) states ∧
      ∀ initial actions, d.kind = .compound initial actions →
        initial ∈ d.children.map NodeDef.key := by
  have hsingle : AllSound used [(id, d)] ↔
      d.Sound ∧ Fresh used (serviceIdsFrom id 0 d.services) := by
    simp [AllSound, serviceIds]
  rw [← List.singleton_append, allSound_append, hsingle, sound_iff]
  tauto

theorem wellFormed_iff {d : NodeDef C} :
    d.WellFormed ↔ AllSound [] (d.placed none) ∧
      ∀ s ∈ d.placed none, ∀ tr ∈ s.2.transitions,
        tr.Sound (.root d.key) ((d.placed none).map Prod.fst) s.1 := by
  constructor
  · rintro ⟨hstates, hservices, htransitions⟩
    exact ⟨⟨hstates, hservices, fun _ _ => List.not_mem_nil⟩, htransitions⟩
  · rintro ⟨⟨hstates, hservices, -⟩, htransitions⟩
    exact ⟨hstates, hservices, htransitions⟩

theorem LaidOut.append {used used' used'' : List String}
    {states states' : List (StateId × NodeDef C)} {drafts drafts' : List (Draft C)}
    (h : LaidOut used states drafts used') (h' : LaidOut used' states' drafts' used'') :
    LaidOut used (states ++ states') (drafts ++ drafts') used'' := by
  obtain ⟨hdeclared, rfl⟩ := h
  obtain ⟨hdeclared', rfl⟩ := h'
  refine ⟨?_, ?_⟩
  · rw [List.map_append, List.map_append, hdeclared, hdeclared']
  · simp [usedAfter]

theorem LaidOut.singleton {used : List String} {id : StateId} {d : NodeDef C} {draft : Draft C}
    (hid : draft.node.id = id) (hpending : draft.pending = d.transitions) :
    LaidOut used [(id, d)] [draft] (usedAfter used [(id, d)]) := by
  refine ⟨?_, rfl⟩
  rw [List.map_singleton, List.map_singleton, hid, hpending]

theorem LaidOut.ids {used used' : List String} {states : List (StateId × NodeDef C)}
    {drafts : List (Draft C)} (h : LaidOut used states drafts used') :
    drafts.map (·.node.id) = states.map Prod.fst := by
  have hids := congrArg (List.map Prod.fst) h.declared
  simpa [Function.comp_def] using hids

/-- What is asked of the declared transitions is asked of the pending ones. -/
theorem LaidOut.forall_iff {used used' : List String} {states : List (StateId × NodeDef C)}
    {drafts : List (Draft C)} (h : LaidOut used states drafts used')
    (asked : StateId × List (TransitionDef C) → Prop) :
    (∀ draft ∈ drafts, asked (draft.node.id, draft.pending)) ↔
      ∀ s ∈ states, asked (s.1, s.2.transitions) := by
  calc (∀ draft ∈ drafts, asked (draft.node.id, draft.pending))
      ↔ ∀ s ∈ drafts.map fun draft => (draft.node.id, draft.pending), asked s :=
        List.forall_mem_map.symm
    _ ↔ ∀ s ∈ states.map fun s => (s.1, s.2.transitions), asked s := by rw [h.declared]
    _ ↔ ∀ s ∈ states, asked (s.1, s.2.transitions) := List.forall_mem_map

mutual

theorem layOut_vets (parent : Option StateId) (used : List String) (d : NodeDef C) :
    Vets (layOut parent used d) (AllSound used (d.placed parent))
      fun laid => LaidOut used (d.placed parent) (laid.1.1 :: laid.1.2) laid.2 := by
  match d with
  | ⟨key, kind, children, entry, exit, transitions, services⟩ =>
    let id := idBelow parent key
    let own : NodeDef C := ⟨key, kind, children, entry, exit, transitions, services⟩
    have hused : (serviceIdsFrom id 0 services).reverse ++ used = usedAfter used [(id, own)] := by
      simp [usedAfter, own, serviceIds]
    rw [layOut, placed, allSound_cons]
    refine ((refuseIf_vets _).congr (by simp)).bind fun _ _ _ => (check_vets id own).bind
      fun _ _ _ => (nameServices_vets id used 0 services).bind fun _ named hnamed => ?_
    obtain ⟨built, used₁⟩ := named
    obtain rfl : used₁ = usedAfter used [(id, own)] := hnamed.trans hused
    refine (layOutAll_vets id _ children).bind fun _ laid hlaid => ?_
    refine (builtKind_vets id children kind).bind_pure fun _ kind _ => ?_
    have hown : LaidOut used [(id, own)] [⟨⟨id, kind, entry, exit, [], built⟩, transitions⟩]
        (usedAfter used [(id, own)]) := .singleton rfl rfl
    exact hown.append hlaid

theorem layOutAll_vets (parent : StateId) (used : List String) (ds : List (NodeDef C)) :
    Vets (layOutAll parent used ds) (AllSound used (placedAll parent ds))
      fun laid => LaidOut used (placedAll parent ds) laid.1 laid.2 := by
  match ds with
  | [] => exact Vets.congr (Vets.pure ⟨rfl, rfl⟩) (by simp [AllSound, placedAll, Fresh])
  | d :: rest =>
    rw [layOutAll, placedAll, allSound_append]
    refine (layOut_vets (some parent) used d).bind fun _ laid hlaid => ?_
    obtain ⟨⟨first, below⟩, used₁⟩ := laid
    have hfirst : LaidOut used (d.placed (some parent)) (first :: below) used₁ := hlaid
    rw [← hfirst.used]
    exact (layOutAll_vets parent used₁ rest).bind_pure fun _ _ hothers => hfirst.append hothers

end

mutual

/-- The states of a definition whose keys are sound have plain identifiers. -/
theorem placed_plain {parent : Option StateId} (d : NodeDef C)
    (hparent : ∀ p, parent = some p → p.Plain) (h : ∀ s ∈ d.placed parent, s.2.Sound) :
    ∀ s ∈ d.placed parent, s.1.Plain := by
  match d with
  | ⟨key, kind, children, entry, exit, transitions, services⟩ =>
    rw [placed] at h ⊢
    obtain ⟨hown, hbelow⟩ := List.forall_mem_cons.1 h
    have hkey : key ≠ "" ∧ StateId.separator ∉ key.toList := ⟨hown.key.1, hown.key.2.1⟩
    have hid : (idBelow parent key).Plain := by
      cases parent with
      | none => exact ⟨by simp [idBelow, StateId.root], by simpa [idBelow, StateId.root] using hkey⟩
      | some p =>
        refine ⟨by simp [idBelow], fun k hk => ?_⟩
        rcases List.mem_append.1 hk with hk | hk
        · exact (hparent p rfl).2 k hk
        · rw [List.mem_singleton.1 hk]
          exact hkey
    exact List.forall_mem_cons.2 ⟨hid, placedAll_plain children hid hbelow⟩

theorem placedAll_plain {parent : StateId} (ds : List (NodeDef C)) (hparent : parent.Plain)
    (h : ∀ s ∈ placedAll parent ds, s.2.Sound) : ∀ s ∈ placedAll parent ds, s.1.Plain := by
  match ds with
  | [] => exact fun s hs => absurd hs List.not_mem_nil
  | d :: rest =>
    rw [placedAll] at h ⊢
    obtain ⟨hfirst, hrest⟩ := List.forall_mem_append.1 h
    refine List.forall_mem_append.2 ⟨placed_plain d ?_ hfirst, placedAll_plain rest hparent hrest⟩
    rintro p ⟨⟩
    exact hparent

end

end NodeDef

/-! ## Resolving transitions -/

namespace TransitionDef

variable {root : StateId} {known : List StateId}

/-- A text is resolved if it names a state, and there is no other state that it names. -/
theorem resolveAmong_vets (hknown : ∀ id ∈ known, id.Plain) (owner : StateId) (name : String) :
    Vets (Tree.resolveAmong known owner name) (∃ id ∈ known, Names owner id name)
      fun id => ∀ other, other ∈ known ∧ Names owner other name ↔ other = id := by
  have hsome : ∀ id, id ∈ known ∧ Names owner id name ↔
      Tree.resolveAmong? known owner name = some id :=
    fun _ => (Tree.resolveAmong?_eq_some hknown).symm
  simp only [hsome, Tree.resolveAmong]
  cases Tree.resolveAmong? known owner name with
  | none => exact ⟨fun h => (by simp at h), fun _ => ⟨_, rfl, .inr ⟨owner, name, rfl⟩⟩⟩
  | some id => exact Vets.congr (Vets.pure fun other => by simp [eq_comm]) (by simp)

theorem resolveTargets_vets (hknown : ∀ id ∈ known, id.Plain) (owner : StateId)
    (targets : List String) :
    Vets (resolveTargets root known owner targets)
      (∀ target ∈ targets, ∃ id ∈ known, id ≠ root ∧ Names owner id target) fun _ => True := by
  induction targets with
  | nil => exact Vets.congr (Vets.pure trivial) (by simp)
  | cons target rest ih =>
    rw [resolveTargets]
    have honly : ∀ id, (∀ other, other ∈ known ∧ Names owner other target ↔ other = id) →
        ((id == root) = false ↔ ∃ id ∈ known, id ≠ root ∧ Names owner id target) := by
      intro id hid
      simp only [beq_eq_false_iff_ne, ne_eq, and_left_comm, hid, exists_eq_right]
    refine ((resolveAmong_vets hknown owner target).bind fun _ id hid =>
      ((refuseIf_vets _).bind fun _ _ _ => ih.bind_pure fun _ _ _ => trivial).congr
        (and_congr_left fun _ => honly id hid)).congr ?_
    rw [List.forall_mem_cons]
    refine and_iff_right_of_imp ?_
    rintro ⟨⟨id, hmem, -, hnames⟩, -⟩
    exact ⟨id, hmem, hnames⟩

theorem resolveGuard_vets (hknown : ∀ id ∈ known, id.Plain) (owner : StateId)
    (guard : Option (GuardDef C)) :
    Vets (resolveGuard known owner guard)
      (∀ name, guard = some (.inState name) → ∃ id ∈ known, Names owner id name)
      fun _ => True := by
  cases guard with
  | none => exact Vets.congr (Vets.pure trivial) (by simp)
  | some guard =>
    cases guard with
    | inState name =>
      exact ((resolveAmong_vets hknown owner name).bind_pure fun _ _ _ => trivial).congr (by simp)
    | context holds => exact Vets.congr (Vets.pure trivial) (by simp)
    | contextAndEvent holds => exact Vets.congr (Vets.pure trivial) (by simp)

theorem resolve_vets (hknown : ∀ id ∈ known, id.Plain) (owner : StateId) (d : TransitionDef C) :
    Vets (d.resolve root known owner) (d.Sound root known owner) fun _ => True := by
  rw [resolve]
  split
  · rename_i hforbidden
    refine ((refuseIf_vets _).bind_pure fun _ _ _ => trivial).congr ?_
    have hempty : (!d.targets.isEmpty || !d.actions.isEmpty || d.guard.isSome) = false ↔
        d.targets = [] ∧ d.actions = [] ∧ d.guard = none := by
      simp [and_assoc]
    rw [hempty]
    have hnot : d.forbidden ≠ false := by simp [hforbidden]
    exact ⟨fun h => ⟨fun _ => h, fun hfree => absurd hfree hnot, fun hfree => absurd hfree hnot⟩,
      fun h => h.forbidden hforbidden⟩
  · rename_i hforbidden
    have hfree : d.forbidden = false := by simpa using hforbidden
    refine ((resolveTargets_vets hknown owner d.targets).bind fun _ _ _ =>
      (resolveGuard_vets hknown owner d.guard).bind_pure fun _ _ _ => trivial).congr ?_
    constructor
    · rintro ⟨htargets, hguard⟩
      exact ⟨fun h => absurd h hforbidden, fun _ => htargets, fun _ => hguard⟩
    · exact fun h => ⟨h.targets hfree, h.guard hfree⟩

theorem resolveAll_vets (hknown : ∀ id ∈ known, id.Plain) (owner : StateId)
    (ds : List (TransitionDef C)) :
    Vets (resolveAll root known owner ds) (∀ d ∈ ds, d.Sound root known owner) fun _ => True := by
  induction ds with
  | nil => exact Vets.congr (Vets.pure trivial) (by simp)
  | cons d rest ih =>
    rw [resolveAll]
    exact ((resolve_vets hknown owner d).bind fun _ _ _ => ih.bind_pure fun _ _ _ => trivial).congr
      List.forall_mem_cons.symm

end TransitionDef

namespace Draft

variable {root : StateId} {known : List StateId}

theorem finish_vets (hknown : ∀ id ∈ known, id.Plain) (d : Draft C) :
    Vets (d.finish root known) (∀ tr ∈ d.pending, tr.Sound root known d.node.id)
      fun _ => True :=
  (TransitionDef.resolveAll_vets hknown _ _).bind_pure fun _ _ _ => trivial

theorem finishAll_vets (hknown : ∀ id ∈ known, id.Plain) (ds : List (Draft C)) :
    Vets (finishAll root known ds) (∀ d ∈ ds, ∀ tr ∈ d.pending, tr.Sound root known d.node.id)
      fun _ => True := by
  induction ds with
  | nil => exact Vets.congr (Vets.pure trivial) (by simp)
  | cons d rest ih =>
    rw [finishAll]
    refine ((finish_vets hknown d).bind fun _ _ _ => ih.bind_pure fun _ _ _ => trivial).congr ?_
    rw [List.forall_mem_cons]

end Draft

theorem Tree.build_vets (d : NodeDef C) :
    Vets (Tree.build d) d.WellFormed fun _ => True := by
  rw [build, NodeDef.wellFormed_iff]
  refine (d.layOut_vets none []).bind fun hsound laid hlaid => ?_
  obtain ⟨⟨first, below⟩, used⟩ := laid
  have hlaid : NodeDef.LaidOut [] (d.placed none) (first :: below) used := hlaid
  have hknown : first.node.id :: below.map (·.node.id) = (d.placed none).map Prod.fst := hlaid.ids
  have hroot : first.node.id = .root d.key := by
    have hfirst := congrArg List.head? hknown
    obtain ⟨key, kind, children, entry, exit, transitions, services⟩ := d
    simpa [NodeDef.placed, NodeDef.idBelow] using hfirst
  have hplain : ∀ id ∈ (d.placed none).map Prod.fst, id.Plain :=
    List.forall_mem_map.2 (NodeDef.placed_plain d (fun _ h => by cases h) hsound.1)
  have hdeclared := hlaid.forall_iff fun s => ∀ tr ∈ s.2,
    tr.Sound (.root d.key) ((d.placed none).map Prod.fst) s.1
  rw [hroot] at hknown
  simp only [hroot, hknown]
  rw [← hdeclared, List.forall_mem_cons]
  exact (Draft.finish_vets hplain first).bind fun _ _ _ =>
    (Draft.finishAll_vets hplain below).bind_pure fun _ _ _ => trivial

/-- A tree is built from a definition exactly if the definition is well-formed. From any other the
result is an error that tells a mistake in the structure, or a name that does not stand for a
state. -/
theorem Tree.build_accepts (d : NodeDef C) :
    ((∃ t, Tree.build d = .ok t) ↔ d.WellFormed) ∧
      ∀ e, Tree.build d = .error e →
        (∃ flaw, e = .invalidDefinition flaw) ∨ ∃ state target, e = .unknownTarget state target :=
  ⟨(build_vets d).exists_ok, fun _ he => (build_vets d).of_error he⟩

end Statechart
