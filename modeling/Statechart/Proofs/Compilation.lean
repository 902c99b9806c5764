import Statechart.Chart.Compile
import Statechart.Proofs.Acceptance

/-!
# Statechart.Proofs.Compilation

Written charts and the trees that are built from them. Two passes lie in between: from the written
states to a definition, and from the definition to the tree, where transitions wait until all
states are laid out. Each pass is followed with a relation between one state and what it became,
carried along the states in document order.

* `StateSpec.placed`, `StateSpec.candidates`: the states of a written chart, and the transitions of
  a written state in the order in which they are tried.
* `NodeDef.Built`, `Tree.build_built`: from definitions to trees.
* `StateSpec.Declares`, `StateSpec.toNodeDef_declares`: from written states to definitions.
* `StateSpec.Compiled`, `Chart.build_faithful`: both passes.
-/

namespace Statechart

variable {C : Type}

theorem forall₂_trans {α β γ : Type} {r : α → β → Prop} {r' : β → γ → Prop} {xs : List α}
    {ys : List β} {zs : List γ} (h : List.Forall₂ r xs ys) (h' : List.Forall₂ r' ys zs) :
    List.Forall₂ (fun x z => ∃ y, r x y ∧ r' y z) xs zs := by
  induction h generalizing zs with
  | nil => cases h'; exact .nil
  | cons hxy _ ih =>
    cases h' with
    | cons hyz h' => exact .cons ⟨_, hxy, hyz⟩ (ih h')

/-! ## From definitions to trees -/

namespace NodeDef

/-- What a declared state is laid out as, its transitions aside. -/
structure Laid (own : StateId) (d : NodeDef C) (n : Node C) : Prop where
  id : n.id = own
  kind : builtKind own (d.children.map fun child => own.child child.key) d.kind = .ok n.kind
  entry : n.entry = d.entry
  exit : n.exit = d.exit
  services : ∃ used used', nameServices own used 0 d.services = .ok (n.services, used')

/-- What a declared state becomes among the states `known`. -/
structure Built (root : StateId) (known : List StateId) (own : StateId) (d : NodeDef C)
    (n : Node C) : Prop extends Laid own d n where
  transitions : List.Forall₂ (fun declared tr => declared.resolve root known own = .ok tr)
    d.transitions n.transitions

/-- Does the draft wait to become this state? -/
def Drafted (own : StateId) (d : NodeDef C) (draft : Draft C) : Prop :=
  d.Laid own draft.node ∧ draft.pending = d.transitions

mutual

/-- The drafts stand in document order. -/
theorem layOut_drafted {parent : Option StateId} {used used' : List String} {first : Draft C}
    {below : List (Draft C)} (d : NodeDef C)
    (h : layOut parent used d = .ok ((first, below), used')) :
    List.Forall₂ (fun s draft => s.2.Drafted s.1 draft) (d.placed parent) (first :: below) := by
  match d with
  | ⟨key, kind, children, entry, exit, transitions, services⟩ =>
    simp only [layOut] at h
    obtain ⟨_, -, h⟩ := bind_eq_ok h
    obtain ⟨_, -, h⟩ := bind_eq_ok h
    obtain ⟨⟨built, used₁⟩, hservices, h⟩ := bind_eq_ok h
    obtain ⟨⟨drafts, used₂⟩, hbelow, h⟩ := bind_eq_ok h
    obtain ⟨node, hkind, h⟩ := bind_eq_ok h
    cases h
    rw [placed]
    have hlaid : Laid (idBelow parent key)
        ⟨key, kind, children, entry, exit, transitions, services⟩
        ⟨idBelow parent key, node, entry, exit, [], built⟩ :=
      ⟨rfl, hkind, rfl, rfl, _, _, hservices⟩
    exact .cons ⟨hlaid, rfl⟩ (layOutAll_drafted children hbelow)

theorem layOutAll_drafted {parent : StateId} {used used' : List String} {drafts : List (Draft C)}
    (ds : List (NodeDef C)) (h : layOutAll parent used ds = .ok (drafts, used')) :
    List.Forall₂ (fun s draft => s.2.Drafted s.1 draft) (placedAll parent ds) drafts := by
  match ds with
  | [] => cases h; exact .nil
  | d :: rest =>
    simp only [layOutAll] at h
    obtain ⟨⟨⟨first, below⟩, used₁⟩, hfirst, h⟩ := bind_eq_ok h
    obtain ⟨⟨others, used₂⟩, hrest, h⟩ := bind_eq_ok h
    cases h
    rw [placedAll]
    exact List.rel_append (layOut_drafted d hfirst) (layOutAll_drafted rest hrest)

end

end NodeDef

theorem Draft.finish_id {root : StateId} {known : List StateId} {draft : Draft C} {n : Node C}
    (h : draft.finish root known = .ok n) : n.id = draft.node.id := by
  obtain ⟨transitions, -, h⟩ := bind_eq_ok h
  cases h
  rfl

theorem NodeDef.Drafted.finish {root own : StateId} {known : List StateId} {d : NodeDef C}
    {draft : Draft C} {n : Node C} (hd : d.Drafted own draft)
    (h : draft.finish root known = .ok n) : d.Built root known own n := by
  obtain ⟨hlaid, hpending⟩ := hd
  obtain ⟨transitions, htransitions, h⟩ := bind_eq_ok h
  cases h
  rw [hpending, hlaid.id] at htransitions
  exact ⟨⟨hlaid.id, hlaid.kind, hlaid.entry, hlaid.exit, hlaid.services⟩,
    TransitionDef.resolveAll_forall htransitions⟩

/-- The states of a tree are those of its definition, in order. -/
theorem Tree.build_built {d : NodeDef C} {t : Tree C} (hb : Tree.build d = .ok t) :
    List.Forall₂ (fun s n => s.2.Built t.root.id t.ids s.1 n) (d.placed none) t.nodes := by
  simp only [build] at hb
  obtain ⟨⟨⟨first, below⟩, used⟩, hlaid, hb⟩ := bind_eq_ok hb
  obtain ⟨root, hroot, hb⟩ := bind_eq_ok hb
  obtain ⟨rest, hrest, hb⟩ := bind_eq_ok hb
  cases hb
  have hfinish : List.Forall₂ (fun draft n => draft.finish first.node.id
      (first.node.id :: below.map (·.node.id)) = .ok n) (first :: below) (root :: rest) :=
    .cons hroot (Draft.finishAll_forall hrest)
  have hids : (root :: rest).map Node.id = (first :: below).map (·.node.id) := by
    rw [← List.forall₂_eq_eq_eq, List.forall₂_map_left_iff, List.forall₂_map_right_iff]
    exact hfinish.flip.imp fun n draft h => Draft.finish_id h
  rw [ids, nodes, hids, Draft.finish_id hroot]
  refine (forall₂_trans (NodeDef.layOut_drafted d hlaid) hfinish).imp ?_
  rintro s n ⟨draft, hdraft, hn⟩
  exact hdraft.finish hn

/-! ## From written states to definitions -/

/-- A written transition with its event. Without a transition, the event is forbidden. -/
abbrev Candidate :=
  EventPattern × Option TransitionSpec

/-- The candidates for an event, in the order in which they are tried. -/
def TransitionList.candidates (event : EventPattern) (list : TransitionList) : List Candidate :=
  list.toList.map fun tr => (event, some tr)

def optionalCandidates (event : EventPattern) (list : Option TransitionList) : List Candidate :=
  list.toList.flatMap (·.candidates event)

namespace StateSpec

def onCandidates (on : List (String × Option TransitionList)) : List Candidate :=
  on.flatMap fun (name, list) =>
    match list with
    | none => [(.named name, none)]
    | some list => list.candidates (.named name)

def afterCandidates (after : List (String × TransitionList)) : List Candidate :=
  after.flatMap fun (key, list) =>
    (Number.parseNat64? key).toList.flatMap fun delay => list.candidates (.delayed delay)

/-- What invoked services come with; `ids` are their ids. -/
def invokeCandidates (invoke : List InvokeSpec) (ids : List String) : List Candidate :=
  (invoke.zip ids).flatMap fun (i, id) =>
    optionalCandidates (.serviceSuccess id) i.onDone ++
      optionalCandidates (.serviceError id) i.onError

/-- The transitions of a written state, in the order in which they are tried. `ids` are the ids of
the services that it invokes. -/
def candidates (s : StateSpec) (ids : List String) : List Candidate :=
  onCandidates s.on ++ optionalCandidates .immediate s.always ++ afterCandidates s.after ++
    optionalCandidates .done s.onDone ++ optionalCandidates .executionError s.onError ++
    invokeCandidates s.invoke ids

/-- The ids of the services that are invoked from a place on: written ones, or such that tell the
place. -/
def invokedIds (own : StateId) (place : Nat) (invoke : List InvokeSpec) : List String :=
  invoke.mapIdx fun n i => i.id.getD (generatedServiceId own (place + n))

mutual

/-- A written state and the states below it with their identifiers, in document order. -/
def placed (own : StateId) : StateSpec → List (StateId × StateSpec)
  | ⟨type, initial, entry, exit, on, always, after, onDone, onError, invoke, states⟩ =>
    (own, ⟨type, initial, entry, exit, on, always, after, onDone, onError, invoke, states⟩) ::
      placedAll own states

def placedAll (parent : StateId) : List (String × StateSpec) → List (StateId × StateSpec)
  | [] => []
  | (key, s) :: rest => s.placed (parent.child key) ++ placedAll parent rest

end

end StateSpec

/-- What a candidate is declared as. -/
def Candidate.Declares : Candidate → TransitionDef Json → Prop
  | (event, none), d => d = { event, forbidden := true }
  | (event, some tr), d => tr.toDef event = .ok d

/-- What an invoked service is declared as. -/
def InvokeSpec.Declares (services : Registry) (i : InvokeSpec) (d : ServiceDef) : Prop :=
  services.lookup? i.src = some d.body ∧ d.input = i.input

namespace StateSpec

/-- What a written state is declared as. -/
structure Declares (services : Registry) (own : StateId) (s : StateSpec) (d : NodeDef Json) :
    Prop where
  kind : kindDef own (impliedType s.type s.states) s.initial = .ok d.kind
  children : d.children.map NodeDef.key = s.states.map Prod.fst
  entry : d.entry = s.entry.map ActionSpec.toAction
  exit : d.exit = s.exit.map ActionSpec.toAction
  delays : ∀ timer ∈ s.after, (Number.parseNat64? timer.1).isSome
  invoked : List.Forall₂ (InvokeSpec.Declares services) s.invoke d.services
  ids : d.services.map ServiceDef.id = (invokedIds own 0 s.invoke).map some
  transitions : List.Forall₂ Candidate.Declares (s.candidates (invokedIds own 0 s.invoke))
    d.transitions

theorem transitionDefs_declares {event : EventPattern} {list : List TransitionSpec}
    {ds : List (TransitionDef Json)} (h : transitionDefs event list = .ok ds) :
    List.Forall₂ Candidate.Declares (list.map fun tr => (event, some tr)) ds := by
  induction list generalizing ds with
  | nil => cases h; exact .nil
  | cons tr rest ih =>
    simp only [transitionDefs] at h
    obtain ⟨first, hfirst, h⟩ := bind_eq_ok h
    obtain ⟨others, hrest, h⟩ := bind_eq_ok h
    cases h
    exact .cons hfirst (ih hrest)

theorem optionalDefs_declares {event : EventPattern} {list : Option TransitionList}
    {ds : List (TransitionDef Json)} (h : optionalDefs event list = .ok ds) :
    List.Forall₂ Candidate.Declares (optionalCandidates event list) ds := by
  cases list with
  | none => cases h; exact .nil
  | some list =>
    rw [optionalCandidates, Option.toList_some, List.flatMap_singleton]
    exact transitionDefs_declares h

theorem onDefs_declares {on : List (String × Option TransitionList)}
    {ds : List (TransitionDef Json)} (h : onDefs on = .ok ds) :
    List.Forall₂ Candidate.Declares (onCandidates on) ds := by
  induction on generalizing ds with
  | nil => cases h; exact .nil
  | cons entry rest ih =>
    obtain ⟨name, list⟩ := entry
    rw [onCandidates, List.flatMap_cons]
    cases list with
    | none =>
      obtain ⟨others, hrest, h⟩ := bind_eq_ok h
      cases h
      exact .cons rfl (ih hrest)
    | some list =>
      obtain ⟨first, hfirst, h⟩ := bind_eq_ok h
      obtain ⟨others, hrest, h⟩ := bind_eq_ok h
      cases h
      exact List.rel_append (transitionDefs_declares hfirst) (ih hrest)

theorem afterDefs_declares {own : StateId} {after : List (String × TransitionList)}
    {ds : List (TransitionDef Json)} (h : afterDefs own after = .ok ds) :
    (∀ timer ∈ after, (Number.parseNat64? timer.1).isSome) ∧
      List.Forall₂ Candidate.Declares (afterCandidates after) ds := by
  induction after generalizing ds with
  | nil => cases h; exact ⟨nofun, .nil⟩
  | cons entry rest ih =>
    obtain ⟨key, list⟩ := entry
    simp only [afterDefs] at h
    split at h
    · cases h
    · rename_i delay hdelay
      obtain ⟨first, hfirst, h⟩ := bind_eq_ok h
      obtain ⟨others, hrest, h⟩ := bind_eq_ok h
      cases h
      obtain ⟨hdelays, hothers⟩ := ih hrest
      refine ⟨List.forall_mem_cons.2 ⟨by rw [hdelay]; rfl, hdelays⟩, ?_⟩
      rw [afterCandidates, List.flatMap_cons]
      simp only [hdelay, Option.toList_some, List.flatMap_singleton]
      exact List.rel_append (transitionDefs_declares hfirst) hothers

theorem invokedIds_cons (own : StateId) (place : Nat) (i : InvokeSpec) (rest : List InvokeSpec) :
    invokedIds own place (i :: rest) =
      i.id.getD (generatedServiceId own place) :: invokedIds own (place + 1) rest := by
  simp only [invokedIds, List.mapIdx_cons, Nat.add_zero, Nat.add_right_comm, Nat.add_assoc]

theorem invokeDefs_declares {own : StateId} {services : Registry} {place : Nat}
    {invoke : List InvokeSpec} {ss : List ServiceDef} {ds : List (TransitionDef Json)}
    (h : invokeDefs own services place invoke = .ok (ss, ds)) :
    List.Forall₂ (InvokeSpec.Declares services) invoke ss ∧
      ss.map ServiceDef.id = (invokedIds own place invoke).map some ∧
      List.Forall₂ Candidate.Declares
        (invokeCandidates invoke (invokedIds own place invoke)) ds := by
  induction invoke generalizing place ss ds with
  | nil => cases h; exact ⟨.nil, rfl, .nil⟩
  | cons i rest ih =>
    simp only [invokeDefs] at h
    split at h
    · cases h
    · rename_i body hbody
      obtain ⟨onDone, hdone, h⟩ := bind_eq_ok h
      obtain ⟨onError, herror, h⟩ := bind_eq_ok h
      obtain ⟨⟨others, transitions⟩, hrest, h⟩ := bind_eq_ok h
      cases h
      obtain ⟨hothers, hids, htransitions⟩ := ih hrest
      rw [invokedIds_cons]
      refine ⟨.cons ⟨hbody, rfl⟩ hothers, ?_, ?_⟩
      · rw [List.map_cons, List.map_cons, hids]
      · rw [invokeCandidates, List.zip_cons_cons, List.flatMap_cons]
        exact List.rel_append (List.rel_append (optionalDefs_declares hdone)
          (optionalDefs_declares herror)) htransitions

mutual

/-- The states of a definition are the written ones, in order. -/
theorem toNodeDef_declares {services : Registry} {own : StateId} {parent : Option StateId}
    {d : NodeDef Json} (s : StateSpec) (hown : NodeDef.idBelow parent own.key = own)
    (h : toNodeDef services own s = .ok d) :
    d.key = own.key ∧ List.Forall₂ (fun written declared => declared.1 = written.1 ∧
      written.2.Declares services written.1 declared.2) (s.placed own) (d.placed parent) := by
  match s with
  | ⟨type, initial, entry, exit, on, always, after, onDone, onError, invoke, states⟩ =>
    simp only [toNodeDef] at h
    obtain ⟨kind, hkind, h⟩ := bind_eq_ok h
    obtain ⟨named, hnamed, h⟩ := bind_eq_ok h
    obtain ⟨eventless, heventless, h⟩ := bind_eq_ok h
    obtain ⟨delayed, hdelayed, h⟩ := bind_eq_ok h
    obtain ⟨done, hdone, h⟩ := bind_eq_ok h
    obtain ⟨failed, hfailed, h⟩ := bind_eq_ok h
    obtain ⟨⟨services', served⟩, hserved, h⟩ := bind_eq_ok h
    obtain ⟨children, hchildren, h⟩ := bind_eq_ok h
    cases h
    obtain ⟨hdelays, hafter⟩ := afterDefs_declares hdelayed
    obtain ⟨hinvoked, hids, hinvoke⟩ := invokeDefs_declares hserved
    obtain ⟨hkeys, hbelow⟩ := statesToDefs_declares states hchildren
    refine ⟨rfl, ?_⟩
    rw [placed, NodeDef.placed, hown]
    refine .cons ⟨rfl, hkind, hkeys, rfl, rfl, hdelays, hinvoked, hids, ?_⟩ hbelow
    have hon := onDefs_declares hnamed
    have halways := optionalDefs_declares heventless
    have hended := optionalDefs_declares hdone
    have herror := optionalDefs_declares hfailed
    exact List.rel_append (List.rel_append (List.rel_append (List.rel_append
      (List.rel_append hon halways) hafter) hended) herror) hinvoke

theorem statesToDefs_declares {services : Registry} {parent : StateId} {ds : List (NodeDef Json)}
    (states : List (String × StateSpec)) (h : statesToDefs services parent states = .ok ds) :
    ds.map NodeDef.key = states.map Prod.fst ∧
      List.Forall₂ (fun written declared => declared.1 = written.1 ∧
        written.2.Declares services written.1 declared.2)
        (placedAll parent states) (NodeDef.placedAll parent ds) := by
  match states with
  | [] => cases h; exact ⟨rfl, .nil⟩
  | (key, s) :: rest =>
    simp only [statesToDefs] at h
    obtain ⟨_, -, h⟩ := bind_eq_ok h
    obtain ⟨first, hfirst, h⟩ := bind_eq_ok h
    obtain ⟨others, hrest, h⟩ := bind_eq_ok h
    cases h
    have hkey : (parent.child key).key = key := by simp [StateId.key]
    have hown : NodeDef.idBelow (some parent) (parent.child key).key = parent.child key := by
      rw [hkey]
      rfl
    obtain ⟨hfirstKey, hs⟩ := toNodeDef_declares s hown hfirst
    obtain ⟨hkeys, hbelow⟩ := statesToDefs_declares rest hrest
    refine ⟨by rw [List.map_cons, List.map_cons, hfirstKey, hkey, hkeys], ?_⟩
    rw [placedAll, NodeDef.placedAll]
    exact List.rel_append hs hbelow

end

end StateSpec

/-! ## Both passes -/

/-- What the guard of a written transition becomes. -/
inductive TransitionObject.HasGuard (t : Tree Json) (own : StateId) (o : TransitionObject) :
    Option (Guard Json) → Prop where
  | none : o.guard = .none → o.inState = .none → HasGuard t own o .none
  | expr {text : String} {e : GuardExpr} : o.guard = some text → o.inState = .none →
      GuardExpr.parse text = .ok e →
      HasGuard t own o (some (.contextAndEvent fun context data => e.evaluate context data))
  | inState {name : String} {id : StateId} : o.guard = .none → o.inState = some name →
      t.resolve? own name = some id → HasGuard t own o (some (.inState id))

/-- What a candidate of a state becomes. -/
inductive Candidate.Compiled (t : Tree Json) (own : StateId) : Candidate → Transition Json → Prop
    where
  | forbidden {event : EventPattern} : Compiled t own (event, none) (.forbidden event)
  | target {event : EventPattern} {goal : String} {id : StateId} :
      t.resolve? own goal = some id →
      Compiled t own (event, some (.target goal)) (.taken event none [id] [])
  | object {event : EventPattern} {o : TransitionObject} {guard : Option (Guard Json)}
      {targets : List StateId} :
      List.Forall₂ (fun goal id => t.resolve? own goal = some id)
        ((o.target.map Targets.toList).getD []) targets →
      o.HasGuard t own guard →
      Compiled t own (event, some (.object o))
        (.taken event guard targets (o.actions.map ActionSpec.toAction))

namespace StateSpec

/-- What the type of a written state becomes: the written type, or else compound if there are states
below it and atomic if there are none. -/
def HasKind (own : StateId) (s : StateSpec) (kind : NodeKind Json) : Prop :=
  let children := s.states.map fun below => own.child below.1
  match s.type.getD (if s.states.isEmpty then .atomic else .compound) with
  | .atomic => s.initial = none ∧ kind = .atomic
  | .final => s.initial = none ∧ kind = .final
  | .parallel => s.initial = none ∧ kind = .orthogonal children
  | .compound => ∃ initial, s.initial = some initial ∧ initial ∈ s.states.map Prod.fst ∧
      kind = .compound children (own.child initial) []

/-- What a written state becomes. -/
structure Compiled (t : Tree Json) (services : Registry) (own : StateId) (s : StateSpec)
    (n : Node Json) : Prop where
  id : n.id = own
  kind : s.HasKind own n.kind
  entry : n.entry = s.entry.map ActionSpec.toAction
  exit : n.exit = s.exit.map ActionSpec.toAction
  serviceIds : n.serviceIds = invokedIds own 0 s.invoke
  services : List.Forall₂ (fun i service => services.lookup? i.src = some service.body ∧
    service.input = i.input) s.invoke n.services
  delays : ∀ timer ∈ s.after, (Number.parseNat64? timer.1).isSome
  transitions : List.Forall₂ (Candidate.Compiled t own) (s.candidates n.serviceIds) n.transitions

end StateSpec

theorem nameServices_ids {own : StateId} {used used' : List String} {place : Nat}
    {defs : List ServiceDef} {services : List Service}
    (h : nameServices own used place defs = .ok (services, used')) :
    services.map Service.id = NodeDef.serviceIdsFrom own place defs ∧
      List.Forall₂ (fun d service => service.body = d.body ∧ service.input = d.input)
        defs services := by
  induction defs generalizing used place services with
  | nil => cases h; exact ⟨rfl, .nil⟩
  | cons d rest ih =>
    simp only [nameServices] at h
    obtain ⟨_, -, h⟩ := bind_eq_ok h
    obtain ⟨⟨others, last⟩, hrest, h⟩ := bind_eq_ok h
    cases h
    obtain ⟨hids, hothers⟩ := ih hrest
    refine ⟨?_, .cons ⟨rfl, rfl⟩ hothers⟩
    rw [NodeDef.serviceIdsFrom_cons, List.map_cons, hids]

/-- Services that have an id keep it. -/
theorem NodeDef.serviceIdsFrom_written {own : StateId} {place : Nat} {defs : List ServiceDef}
    {ids : List String} (h : defs.map ServiceDef.id = ids.map some) :
    serviceIdsFrom own place defs = ids := by
  induction defs generalizing place ids with
  | nil =>
    cases ids with
    | nil => rfl
    | cons id rest => cases h
  | cons d rest ih =>
    cases ids with
    | nil => cases h
    | cons id ids =>
      obtain ⟨hid, hrest⟩ := List.cons_eq_cons.1 h
      rw [serviceIdsFrom_cons, hid, Option.getD_some, ih hrest]

theorem TransitionDef.resolveTargets_forall {root own : StateId} {known ids : List StateId}
    {goals : List String} (h : resolveTargets root known own goals = .ok ids) :
    List.Forall₂ (fun goal id => Tree.resolveAmong? known own goal = some id) goals ids := by
  induction goals generalizing ids with
  | nil => cases h; exact .nil
  | cons goal rest ih =>
    simp only [resolveTargets] at h
    obtain ⟨id, hid, h⟩ := bind_eq_ok h
    obtain ⟨_, -, h⟩ := bind_eq_ok h
    obtain ⟨others, hrest, h⟩ := bind_eq_ok h
    cases h
    exact .cons (Tree.resolveAmong_eq_ok.1 hid) (ih hrest)

section Passes

variable {t : Tree Json} {own : StateId}

theorem TransitionObject.hasGuard {o : TransitionObject} {d : Option (GuardDef Json)}
    {guard : Option (Guard Json)} (hd : o.guardDef = .ok d)
    (h : TransitionDef.resolveGuard t.ids own d = .ok guard) : o.HasGuard t own guard := by
  simp only [guardDef] at hd
  split at hd
  · cases hd
  · rename_i text htext hstate
    split at hd
    · rename_i e he
      cases hd
      cases h
      exact .expr htext hstate he
    · cases hd
  · rename_i name htext hstate
    cases hd
    simp only [TransitionDef.resolveGuard] at h
    obtain ⟨id, hid, h⟩ := bind_eq_ok h
    cases h
    exact .inState htext hstate (Tree.resolveAmong_eq_ok.1 hid)
  · rename_i htext hstate
    cases hd
    cases h
    exact .none htext hstate

theorem Candidate.Declares.compiled {root : StateId} {candidate : Candidate}
    {d : TransitionDef Json} {tr : Transition Json} (hd : candidate.Declares d)
    (h : d.resolve root t.ids own = .ok tr) : candidate.Compiled t own tr := by
  obtain ⟨event, written⟩ := candidate
  cases written with
  | none =>
    cases hd
    cases h
    exact .forbidden
  | some written =>
    cases written with
    | target goal =>
      cases hd
      obtain ⟨targets, htargets, h⟩ := bind_eq_ok h
      cases h
      cases TransitionDef.resolveTargets_forall htargets with
      | cons hid hrest =>
        cases hrest
        exact .target hid
    | object o =>
      obtain ⟨guard, hguard, hd⟩ := bind_eq_ok hd
      cases hd
      obtain ⟨targets, htargets, h⟩ := bind_eq_ok h
      obtain ⟨guard', hguard', h⟩ := bind_eq_ok h
      cases h
      exact .object (TransitionDef.resolveTargets_forall htargets) (o.hasGuard hguard hguard')

theorem StateSpec.Declares.hasKind {services : Registry} {s : StateSpec} {d : NodeDef Json}
    {kind : NodeKind Json} (hd : s.Declares services own d)
    (h : NodeDef.builtKind own (d.children.map fun child => own.child child.key) d.kind =
      .ok kind) : s.HasKind own kind := by
  have hchildren : (d.children.map fun child => own.child child.key) =
      s.states.map fun below => own.child below.1 := by
    have hmap := congrArg (List.map own.child) hd.children
    simpa [Function.comp_def] using hmap
  rw [hchildren] at h
  have hkind := hd.kind
  simp only [HasKind]
  generalize d.kind = declared at h hkind
  rw [impliedType] at hkind
  generalize s.type.getD (if s.states.isEmpty then .atomic else .compound) = type at hkind ⊢
  simp only [kindDef] at hkind
  split at hkind
  · rename_i initial hinitial
    cases hkind
    simp only [NodeDef.builtKind] at h
    split at h
    · rename_i child hchild
      cases h
      obtain ⟨below, hbelow, rfl⟩ := List.mem_map.1 (List.mem_of_find?_eq_some hchild)
      have hkey : below.1 = initial := by
        simpa [StateId.key] using List.find?_some hchild
      exact ⟨initial, hinitial, List.mem_map.2 ⟨below, hbelow, hkey⟩, by rw [hkey]⟩
    · cases h
  · cases hkind
  · cases hkind
  · rename_i hinitial
    cases hkind
    cases h
    exact ⟨hinitial, rfl⟩
  · rename_i hinitial
    cases hkind
    cases h
    exact ⟨hinitial, rfl⟩
  · rename_i hinitial
    cases hkind
    cases h
    exact ⟨hinitial, rfl⟩

theorem StateSpec.Declares.compiled {services : Registry} {root : StateId} {s : StateSpec}
    {d : NodeDef Json} {n : Node Json} (hd : s.Declares services own d)
    (hn : d.Built root t.ids own n) : s.Compiled t services own n := by
  obtain ⟨used, used', hservices⟩ := hn.services
  obtain ⟨hids, hbodies⟩ := nameServices_ids hservices
  have hserviceIds : n.serviceIds = invokedIds own 0 s.invoke :=
    hids.trans (NodeDef.serviceIdsFrom_written hd.ids)
  refine ⟨hn.id, hd.hasKind hn.kind, hn.entry.trans hd.entry, hn.exit.trans hd.exit,
    hserviceIds, ?_, hd.delays, ?_⟩
  · refine (forall₂_trans hd.invoked hbodies).imp ?_
    rintro i service ⟨d, ⟨hbody, hinput⟩, hbody', hinput'⟩
    exact ⟨by rw [hbody, hbody'], hinput'.trans hinput⟩
  · rw [hserviceIds]
    refine (forall₂_trans hd.transitions hn.transitions).imp ?_
    rintro candidate tr ⟨_, hdeclares, hresolve⟩
    exact hdeclares.compiled hresolve

end Passes

/-- The states of a built chart are the written ones, in document order: the root, and every state
before the states below it and the siblings behind it. Each has its type, its children with the
initial one, and its services; its transitions are the written candidates, in order, and those of
its services carry the ids that these have in the tree. -/
theorem Chart.build_faithful {c : Chart} {services : Registry} {t : Tree Json}
    (hb : c.build services = .ok t) :
    List.Forall₂ (fun written n => written.2.Compiled t services written.1 n)
      (c.spec.root.placed (.root c.spec.id)) t.nodes := by
  obtain ⟨d, hd, hb⟩ := bind_eq_ok hb
  have hroot : NodeDef.idBelow none (StateId.root c.spec.id).key = .root c.spec.id := rfl
  obtain ⟨-, hdeclares⟩ := StateSpec.toNodeDef_declares c.spec.root hroot hd
  refine (forall₂_trans hdeclares (Tree.build_built hb)).imp ?_
  rintro ⟨own, s⟩ n ⟨⟨own', d'⟩, ⟨rfl, hs⟩, hn⟩
  exact hs.compiled hn

/-! A state with a timer and a service, in the shortest spelling. -/

def polling : Chart where
  spec := {
    id := "m"
    root := {
      initial := some "a"
      states := [
        ("a", {
          on := [("stop", none), ("go", some (.one (.target "b")))]
          after := [("50", .one (.target "b"))]
          invoke := [{ src := "echo", onDone := some (.many [.target "b", .object {}]) }] }),
        ("b", { type := some .final })] } }
  checksum := ""

def pollingTree : Tree Json where
  root := ⟨⟨["m"]⟩, .compound [⟨["m", "a"]⟩, ⟨["m", "b"]⟩] ⟨["m", "a"]⟩ [], [], [], [], []⟩
  rest := [
    ⟨⟨["m", "a"]⟩, .atomic, [], [],
      [.forbidden (.named "stop"), .taken (.named "go") none [⟨["m", "b"]⟩] [],
        .taken (.delayed 50) none [⟨["m", "b"]⟩] [],
        .taken (.serviceSuccess "m.a:invoke[0]") none [⟨["m", "b"]⟩] [],
        .taken (.serviceSuccess "m.a:invoke[0]") none [] []],
      [⟨"m.a:invoke[0]", Registry.echo, .null⟩]⟩,
    ⟨⟨["m", "b"]⟩, .final, [], [], [], []⟩]

theorem polling_compiled :
    polling.build ⟨[("echo", Registry.echo)]⟩ = .ok pollingTree ∧
      List.Forall₂ (fun written n => written.2.Compiled pollingTree ⟨[("echo", Registry.echo)]⟩
        written.1 n) (polling.spec.root.placed ⟨["m"]⟩) pollingTree.nodes := by
  have hbuild : polling.build ⟨[("echo", Registry.echo)]⟩ = .ok pollingTree := rfl
  exact ⟨hbuild, Chart.build_faithful hbuild⟩

end Statechart
