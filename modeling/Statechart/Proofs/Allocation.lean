import Statechart.Proofs.Compilation
import Statechart.Tree.Arena

/-!
# Statechart.Proofs.Allocation

A definition in an arena and its tree. Both are built step by step in the same order, and fail in
the same way.

* `Alike`: two steps that do the same to different data.
* `Slot.Shows`: a slot and a state of the tree, the one with places where the other has
  identifiers.
* `Linked`: places, parents and the index of an arena fit together.
* `Builder.allocate_alike`: taking slots is laying out a definition.
* `Arena.build_alike`: arenas and trees are built alike.
-/

namespace Statechart

variable {C : Type}

/-! ## Steps side by side -/

/-- Both fail with the same error, or what they come to is related. -/
inductive Alike {ε α β : Type} (r : α → β → Prop) : Except ε α → Except ε β → Prop where
  | ok {a : α} {b : β} : r a b → Alike r (.ok a) (.ok b)
  | error {e : ε} : Alike r (.error e) (.error e)

namespace Alike

variable {ε α β γ δ : Type} {r : α → β → Prop} {s : γ → δ → Prop}

theorem bind {x : Except ε α} {y : Except ε β} {f : α → Except ε γ} {g : β → Except ε δ}
    (h : Alike r x y) (hf : ∀ a b, r a b → Alike s (f a) (g b)) : Alike s (x >>= f) (y >>= g) := by
  cases h with
  | ok hab => exact hf _ _ hab
  | error => exact .error

/-- After the same step. -/
theorem andThen {x : Except ε α} {f : α → Except ε γ} {g : α → Except ε δ}
    (hf : ∀ a, x = .ok a → Alike s (f a) (g a)) : Alike s (x >>= f) (x >>= g) := by
  cases x with
  | error e => exact .error
  | ok a => exact hf a rfl

/-- One side goes on with its result. -/
theorem mapRight {x : Except ε α} {y : Except ε β} {t : α → δ → Prop} {g : β → δ}
    (h : Alike r x y) (hg : ∀ a b, r a b → t a (g b)) : Alike t x (y >>= fun b => .ok (g b)) := by
  cases h with
  | ok hab => exact .ok (hg _ _ hab)
  | error => exact .error

theorem imp {r' : α → β → Prop} {x : Except ε α} {y : Except ε β} (h : Alike r x y)
    (hr : ∀ a b, r a b → r' a b) : Alike r' x y := by
  cases h with
  | ok hab => exact .ok (hr _ _ hab)
  | error => exact .error

theorem of_map {x : Except ε α} {y : Except ε β} {t : α → δ → Prop} {g : β → δ}
    (h : Alike t x (y.map g)) : Alike (fun a b => t a (g b)) x y := by
  cases y with
  | error e => cases h; exact .error
  | ok b =>
    cases h with
    | ok hab => exact .ok hab

theorem withRight {x : Except ε α} {y : Except ε β} (h : Alike r x y) :
    Alike (fun a b => r a b ∧ y = .ok b) x y := by
  cases h with
  | ok hab => exact .ok ⟨hab, rfl⟩
  | error => exact .error

end Alike

theorem optionRel_imp {α β : Type} {r r' : α → β → Prop} (h : ∀ a b, r a b → r' a b)
    {x : Option α} {y : Option β} (hxy : Option.Rel r x y) : Option.Rel r' x y := by
  cases hxy with
  | none => exact .none
  | some hab => exact .some (h _ _ hab)

/-- Searches with tests that agree find what is related. -/
theorem find?_related {α β : Type} {r : α → β → Prop} {p : α → Bool} {q : β → Bool} {xs : List α}
    {ys : List β} (h : List.Forall₂ r xs ys) (hpq : ∀ a b, r a b → p a = q b) :
    Option.Rel r (xs.find? p) (ys.find? q) := by
  induction h with
  | nil => exact .none
  | cons hab _ ih =>
    rw [List.find?_cons, List.find?_cons, hpq _ _ hab]
    split
    · exact .some hab
    · exact ih

theorem map_modify {α β : Type} {f : α → α} {g : α → β} (hfg : ∀ x, g (f x) = g x) (xs : List α)
    (i : Nat) : (xs.modify i f).map g = xs.map g := by
  induction xs generalizing i with
  | nil => rw [List.modify_nil]
  | cons x xs ih =>
    cases i with
    | zero => rw [List.modify_zero_cons, List.map_cons, hfg, List.map_cons]
    | succ i => rw [List.modify_succ_cons, List.map_cons, ih, List.map_cons]

theorem getElem?_concat_cases {α : Type} {xs : List α} {x y : α} {i : Nat}
    (h : (xs ++ [x])[i]? = some y) : xs[i]? = some y ∨ i = xs.length ∧ y = x := by
  rcases Nat.lt_trichotomy i xs.length with hlt | rfl | hgt
  · rw [List.getElem?_append_left hlt] at h
    exact .inl h
  · exact .inr ⟨rfl, by simpa using h.symm⟩
  · have hlength := (List.getElem?_eq_some_iff.1 h).1
    rw [List.length_append, List.length_singleton] at hlength
    omega

theorem modify_length {α : Type} (front : List α) (x : α) (rest : List α) (f : α → α) :
    (front ++ x :: rest).modify front.length f = front ++ f x :: rest := by
  induction front with
  | nil => rfl
  | cons y front ih => rw [List.cons_append, List.length_cons, List.modify_succ_cons, ih]; rfl

/-! ## Places -/

/-- The identifier stands at the place. -/
def StandsAt (ids : List StateId) (place : Nat) (id : StateId) : Prop :=
  ids[place]? = some id

namespace StandsAt

variable {ids more : List StateId} {p q : Nat} {x y : StateId}

theorem mem (h : StandsAt ids p x) : x ∈ ids :=
  List.mem_of_getElem? h

theorem lt_length (h : StandsAt ids p x) : p < ids.length :=
  (List.getElem?_eq_some_iff.1 h).1

theorem append (h : StandsAt ids p x) : StandsAt (ids ++ more) p x :=
  (List.getElem?_append_left h.lt_length).trans h

theorem at_length (front : List StateId) (x : StateId) (rest : List StateId) :
    StandsAt (front ++ x :: rest) front.length x := by
  simp [StandsAt]

theorem unique (hx : StandsAt ids p x) (hy : StandsAt ids p y) : x = y :=
  Option.some.inj (hx.symm.trans hy)

/-- Different places have different identifiers. -/
theorem inj (hnodup : ids.Nodup) (hp : StandsAt ids p x) (hq : StandsAt ids q x) : p = q :=
  (List.getElem?_inj hp.lt_length hnodup).1 (hp.trans hq.symm)

theorem idAt {slots : List (Slot C)} (h : StandsAt (slots.map Slot.id) p x) :
    idAt slots p = x := by
  rw [Statechart.idAt, ← List.getElem?_map, h]
  rfl

end StandsAt

/-! ## Slots -/

inductive SlotKind.Shows (ids : List StateId) : SlotKind C → NodeKind C → Prop where
  | atomic : Shows ids .atomic .atomic
  | final : Shows ids .final .final
  | compound {places : List Nat} {children : List StateId} {place : Nat} {initial : StateId}
      {actions : List (Action C)} : List.Forall₂ (StandsAt ids) places children →
      StandsAt ids place initial →
      Shows ids (.compound places place actions) (.compound children initial actions)
  | orthogonal {places : List Nat} {children : List StateId} :
      List.Forall₂ (StandsAt ids) places children →
      Shows ids (.orthogonal places) (.orthogonal children)

inductive SlotTransition.Shows (ids : List StateId) (own : StateId) :
    SlotTransition C → Transition C → Prop where
  | forbidden {event : EventPattern} : Shows ids own (.forbidden event) (.forbidden event)
  | taken {source : Nat} {event : EventPattern} {guard : Option (Guard C)} {places : List Nat}
      {targets : List StateId} {actions : List (Action C)} :
      StandsAt ids source own → List.Forall₂ (StandsAt ids) places targets →
      Shows ids own (.taken source event guard places actions) (.taken event guard targets actions)

/-- The slot has places where the state of the tree has identifiers. -/
structure Slot.Shows (ids : List StateId) (s : Slot C) (n : Node C) : Prop where
  id : s.id = n.id
  kind : s.kind.Shows ids n.kind
  entry : s.entry = n.entry
  exit : s.exit = n.exit
  transitions : List.Forall₂ (SlotTransition.Shows ids n.id) s.transitions n.transitions
  services : s.services = n.services

theorem standsAt_append_all {ids more : List StateId} {places : List Nat} {xs : List StateId}
    (h : List.Forall₂ (StandsAt ids) places xs) : List.Forall₂ (StandsAt (ids ++ more)) places xs :=
  h.imp fun _ _ => StandsAt.append

theorem SlotKind.Shows.children {ids : List StateId} {k : SlotKind C} {kind : NodeKind C}
    (h : k.Shows ids kind) : List.Forall₂ (StandsAt ids) k.children kind.children := by
  cases h with
  | atomic => exact .nil
  | final => exact .nil
  | compound hplaces _ => exact hplaces
  | orthogonal hplaces => exact hplaces

theorem SlotKind.Shows.append {ids more : List StateId} {k : SlotKind C} {kind : NodeKind C}
    (h : k.Shows ids kind) : k.Shows (ids ++ more) kind := by
  cases h with
  | atomic => exact .atomic
  | final => exact .final
  | compound hplaces hplace => exact .compound (standsAt_append_all hplaces) hplace.append
  | orthogonal hplaces => exact .orthogonal (standsAt_append_all hplaces)

theorem SlotTransition.Shows.append {ids more : List StateId} {own : StateId}
    {s : SlotTransition C} {tr : Transition C} (h : s.Shows ids own tr) :
    s.Shows (ids ++ more) own tr := by
  cases h with
  | forbidden => exact .forbidden
  | taken hsource hplaces => exact .taken hsource.append (standsAt_append_all hplaces)

theorem Slot.Shows.append {ids more : List StateId} {s : Slot C} {n : Node C}
    (h : s.Shows ids n) : s.Shows (ids ++ more) n :=
  ⟨h.id, h.kind.append, h.entry, h.exit, h.transitions.imp fun _ _ => .append, h.services⟩

/-! ## Links -/

/-- What filling in the kind and the transitions leaves as it is. -/
def Slot.frame (s : Slot C) : StateId × Nat × Option Nat := (s.id, s.index, s.parent)

/-- A slot knows its place and that of its parent, which is before it. Its identifier is a key
below the one of its parent, and the index leads from it to a place where it stands. -/
structure Linked (slots : List (Slot C)) (index : List (StateId × Nat)) : Prop where
  places : ∀ (i : Nat) (s : Slot C), slots[i]? = some s → s.index = i
  parents : ∀ (i : Nat) (s : Slot C), slots[i]? = some s → ∃ above key,
    Option.Rel (fun p x => p < i ∧ StandsAt (slots.map Slot.id) p x) s.parent above ∧
      s.id = NodeDef.idBelow above key
  found : ∀ id i, index.lookup id = some i → StandsAt (slots.map Slot.id) i id
  indexed : ∀ id ∈ slots.map Slot.id, ∃ i, index.lookup id = some i

theorem Linked.nil : Linked ([] : List (Slot C)) [] :=
  ⟨nofun, nofun, nofun, nofun⟩

theorem ids_of_frames {slots slots' : List (Slot C)}
    (h : slots'.map Slot.frame = slots.map Slot.frame) :
    slots'.map Slot.id = slots.map Slot.id := by
  have hfst := congrArg (List.map Prod.fst) h
  simpa [Slot.frame, Function.comp_def] using hfst

theorem Linked.of_frames {slots slots' : List (Slot C)} {index : List (StateId × Nat)}
    (h : Linked slots index) (hframes : slots'.map Slot.frame = slots.map Slot.frame) :
    Linked slots' index := by
  have hids := ids_of_frames hframes
  have hslot : ∀ (i : Nat) (s' : Slot C), slots'[i]? = some s' →
      ∃ s, slots[i]? = some s ∧ s.frame = s'.frame := by
    intro i s' hs'
    have hat : (slots.map Slot.frame)[i]? = some s'.frame := by
      rw [← hframes, List.getElem?_map, hs', Option.map_some]
    rwa [List.getElem?_map, Option.map_eq_some_iff] at hat
  constructor
  · intro i s' hs'
    obtain ⟨s, hs, hframe⟩ := hslot i s' hs'
    simp only [Slot.frame, Prod.mk.injEq] at hframe
    rw [← hframe.2.1, h.places i s hs]
  · intro i s' hs'
    obtain ⟨s, hs, hframe⟩ := hslot i s' hs'
    simp only [Slot.frame, Prod.mk.injEq] at hframe
    rw [hids, ← hframe.1, ← hframe.2.2]
    exact h.parents i s hs
  · rw [hids]; exact h.found
  · rw [hids]; exact h.indexed

/-- Taking the next slot keeps the links. -/
theorem Linked.push {slots : List (Slot C)} {index : List (StateId × Nat)} (h : Linked slots index)
    {s : Slot C} {above : Option StateId} {key : String} (hplace : s.index = slots.length)
    (hparent : Option.Rel (StandsAt (slots.map Slot.id)) s.parent above)
    (hid : s.id = NodeDef.idBelow above key) :
    Linked (slots ++ [s]) ((s.id, slots.length) :: index) := by
  have hids : (slots ++ [s]).map Slot.id = slots.map Slot.id ++ [s.id] := by simp
  have hlast : StandsAt ((slots ++ [s]).map Slot.id) slots.length s.id := by simp [StandsAt]
  constructor
  · intro i s' hs'
    rcases getElem?_concat_cases hs' with hold | ⟨rfl, rfl⟩
    · exact h.places i s' hold
    · exact hplace
  · intro i s' hs'
    rw [hids]
    rcases getElem?_concat_cases hs' with hold | ⟨rfl, rfl⟩
    · obtain ⟨above', key', hrel, hid'⟩ := h.parents i s' hold
      exact ⟨above', key', optionRel_imp (fun _ _ hp => ⟨hp.1, hp.2.append⟩) hrel, hid'⟩
    · exact ⟨above, key,
        optionRel_imp (fun _ _ hp => ⟨by simpa using hp.lt_length, hp.append⟩) hparent, hid⟩
  · intro id i hlookup
    rw [List.lookup_cons] at hlookup
    split at hlookup
    · rename_i hsame
      cases hlookup
      rw [eq_of_beq hsame]
      exact hlast
    · rw [hids]
      exact (h.found id i hlookup).append
  · intro id hmem
    rw [List.lookup_cons]
    split
    · exact ⟨_, rfl⟩
    · rename_i hother
      rw [hids, List.mem_append, List.mem_singleton] at hmem
      refine h.indexed id (hmem.resolve_right fun hsame => ?_)
      simp [hsame] at hother

/-! ## Taking slots -/

namespace Builder

def ids (b : Builder C) : List StateId :=
  b.slots.map Slot.id

/-- Taking slots for the states of the drafts: new slots show them, and their transitions are
pending, each with the place of its slot. -/
structure Takes (b b' : Builder C) (drafts : List (Draft C)) (used : List String) : Prop where
  linked : Linked b'.slots b'.index
  slots : ∃ new, b'.slots = b.slots ++ new ∧
    List.Forall₂ (fun s draft => s.Shows b'.ids draft.node) new drafts ∧
    b'.pending = b.pending ++ List.zipWith (fun s draft => (s.index, draft.pending)) new drafts
  serviceIds : b'.serviceIds = used

theorem builtKind_alike {slots : List (Slot C)} {places : List Nat} {children : List StateId}
    (h : List.Forall₂ (StandsAt (slots.map Slot.id)) places children) (id : StateId)
    (kind : KindDef C) :
    Alike (SlotKind.Shows (slots.map Slot.id)) (builtKind slots id places kind)
      (NodeDef.builtKind id children kind) := by
  cases kind with
  | atomic => exact .ok .atomic
  | final => exact .ok .final
  | orthogonal => exact .ok (.orthogonal h)
  | compound initial actions =>
    have hfound := find?_related (p := fun place => (idAt slots place).key == initial)
      (q := fun id => id.key == initial) h fun place x hx => by rw [hx.idAt]
    rw [builtKind, NodeDef.builtKind]
    generalize places.find? _ = found at hfound ⊢
    generalize children.find? _ = found' at hfound ⊢
    cases hfound with
    | none => exact .error
    | some hplace => exact .ok (.compound h hplace)

theorem setKind_ids (b : Builder C) (place : Nat) (kind : SlotKind C) :
    (b.setKind place kind).ids = b.ids := by
  refine map_modify ?_ b.slots place
  exact fun _ => rfl

theorem setKind_linked {b : Builder C} (h : Linked b.slots b.index) (place : Nat)
    (kind : SlotKind C) :
    Linked (b.setKind place kind).slots (b.setKind place kind).index := by
  refine h.of_frames (map_modify ?_ b.slots place)
  exact fun _ => rfl

theorem Takes.refl {b : Builder C} (h : Linked b.slots b.index) : b.Takes b [] b.serviceIds :=
  ⟨h, ⟨[], by simp, .nil, by simp⟩, rfl⟩

theorem Takes.trans {b b₁ b₂ : Builder C} {drafts others : List (Draft C)}
    {used used' : List String} (h : b.Takes b₁ drafts used) (h' : b₁.Takes b₂ others used') :
    b.Takes b₂ (drafts ++ others) used' := by
  obtain ⟨new, hslots, hnew, hpending⟩ := h.slots
  obtain ⟨new', hslots', hnew', hpending'⟩ := h'.slots
  have hids : b₂.ids = b₁.ids ++ new'.map Slot.id := by rw [ids, hslots', List.map_append]; rfl
  refine ⟨h'.linked, ⟨new ++ new', ?_, ?_, ?_⟩, h'.serviceIds⟩
  · rw [hslots', hslots, List.append_assoc]
  · refine List.rel_append (hnew.imp fun s draft hs => ?_) hnew'
    rw [hids]
    exact hs.append
  · rw [hpending', hpending, List.zipWith_append hnew.length_eq, List.append_assoc]

theorem Takes.standsAt {b b' : Builder C} {drafts : List (Draft C)} {used : List String}
    (h : b.Takes b' drafts used) {p : Nat} {x : StateId} (hp : StandsAt b.ids p x) :
    StandsAt b'.ids p x := by
  obtain ⟨new, hslots, -⟩ := h.slots
  rw [ids, hslots, List.map_append]
  exact hp.append

/-- Taking a slot, and filling it in when the slots below it are taken. -/
theorem takes_below {b b' : Builder C} {id : StateId} {parent : Option Nat}
    {entry exit : List (Action C)} {services : List Service} {transitions : List (TransitionDef C)}
    {used used' : List String} {drafts : List (Draft C)} {k : SlotKind C} {kind : NodeKind C}
    (h : (b.push id parent entry exit services transitions used).Takes b' drafts used')
    (hkind : k.Shows b'.ids kind) :
    b.Takes (b'.setKind b.slots.length k)
      (⟨⟨id, kind, entry, exit, [], services⟩, transitions⟩ :: drafts) used' := by
  obtain ⟨new, hslots, hnew, hpending⟩ := h.slots
  have hbefore : b'.slots =
      b.slots ++ ⟨id, b.slots.length, parent, entry, exit, [], services, .atomic⟩ :: new := by
    rw [hslots, push, List.append_assoc]
    rfl
  have hafter : (b'.setKind b.slots.length k).slots =
      b.slots ++ ⟨id, b.slots.length, parent, entry, exit, [], services, k⟩ :: new := by
    rw [setKind, hbefore, modify_length]
  refine ⟨setKind_linked h.linked _ _, ⟨_, hafter, ?_, ?_⟩, h.serviceIds⟩
  · rw [setKind_ids]
    exact .cons ⟨rfl, hkind, rfl, rfl, .nil, rfl⟩ hnew
  · rw [List.zipWith_cons_cons]
    exact hpending.trans (List.append_assoc _ _ _)

mutual

/-- Taking slots for a state is laying it out. -/
theorem allocate_alike {b : Builder C} {parent : Option Nat} {above : Option StateId}
    (h : Linked b.slots b.index) (hparent : Option.Rel (StandsAt b.ids) parent above)
    (d : NodeDef C) :
    Alike (fun taken laid => b.Takes taken.2 (laid.1.1 :: laid.1.2) laid.2 ∧
        StandsAt taken.2.ids taken.1 (NodeDef.idBelow above d.key))
      (allocate parent b d) (d.layOut above b.serviceIds) := by
  match d with
  | ⟨key, kind, children, entry, exit, transitions, services⟩ =>
    have hid : NodeDef.idBelow (parent.map (idAt b.slots)) key = NodeDef.idBelow above key := by
      cases hparent with
      | none => rfl
      | some hp => rw [Option.map_some, StandsAt.idAt hp]
    rw [allocate, NodeDef.layOut]
    simp only [hid]
    refine .andThen fun _ _ => .andThen fun _ _ => .andThen fun (built, used) _ => ?_
    have hpush : Linked (b.push (NodeDef.idBelow above key) parent entry exit built transitions
        used).slots (b.push (NodeDef.idBelow above key) parent entry exit built transitions
        used).index := h.push rfl hparent rfl
    have hown : StandsAt (b.push (NodeDef.idBelow above key) parent entry exit built transitions
        used).ids b.slots.length (NodeDef.idBelow above key) := by
      simp [ids, push, StandsAt]
    refine (allocateAll_alike hpush hown children).bind fun (places, b') (drafts, used') hall => ?_
    obtain ⟨htakes, hplaces⟩ := hall
    refine (builtKind_alike hplaces (NodeDef.idBelow above key) kind).bind fun k kind hkind => ?_
    refine .ok ⟨takes_below htakes hkind, ?_⟩
    rw [setKind_ids]
    exact htakes.standsAt hown

theorem allocateAll_alike {b : Builder C} {parent : Nat} {above : StateId}
    (h : Linked b.slots b.index) (hparent : StandsAt b.ids parent above) (ds : List (NodeDef C)) :
    Alike (fun taken laid => b.Takes taken.2 laid.1 laid.2 ∧
        List.Forall₂ (StandsAt taken.2.ids) taken.1 (ds.map fun d => above.child d.key))
      (allocateAll parent b ds) (NodeDef.layOutAll above b.serviceIds ds) := by
  match ds with
  | [] => exact .ok ⟨.refl h, .nil⟩
  | d :: rest =>
    rw [allocateAll, NodeDef.layOutAll]
    have hsome := allocate_alike h (.some hparent) d
    refine hsome.bind fun (first, b₁) ((draft, below), used₁) hfirst => ?_
    obtain ⟨htakes, hplace⟩ := hfirst
    have hrest := allocateAll_alike htakes.linked (htakes.standsAt hparent) rest
    rw [htakes.serviceIds] at hrest
    refine hrest.bind fun (others, b₂) (drafts, used₂) hothers => ?_
    obtain ⟨htakes', hplaces⟩ := hothers
    exact .ok ⟨htakes.trans htakes', .cons (htakes'.standsAt hplace) hplaces⟩

end

end Builder

/-! ## Resolving transitions -/

theorem Linked.keys_ne_nil {slots : List (Slot C)} {index : List (StateId × Nat)}
    (h : Linked slots index) {id : StateId} (hid : id ∈ slots.map Slot.id) : id.keys ≠ [] := by
  obtain ⟨s, hs, rfl⟩ := List.mem_map.1 hid
  obtain ⟨i, hi⟩ := List.mem_iff_getElem?.1 hs
  obtain ⟨above, key, -, hbelow⟩ := h.parents i s hi
  rw [hbelow]
  cases above with
  | none => exact List.cons_ne_nil _ _
  | some above => exact StateId.child_ne_nil above key

theorem foldl_child (id : StateId) (keys : List String) :
    keys.foldl StateId.child id = ⟨id.keys ++ keys⟩ := by
  induction keys generalizing id with
  | nil => rw [List.foldl_nil, List.append_nil]
  | cons key keys ih => rw [List.foldl_cons, ih, StateId.child_keys, List.append_assoc]; rfl

namespace Arena

variable {a : Arena C}

/-- The link to the parent of a state leads back to where its parent stands. -/
theorem parent?_related (h : Linked a.slots a.index) {i : Nat} {x : StateId}
    (hx : StandsAt a.ids i x) :
    Option.Rel (fun p y => p < i ∧ StandsAt a.ids p y) (a.parent? i) x.parent? := by
  rw [StandsAt, ids, List.getElem?_map, Option.map_eq_some_iff] at hx
  obtain ⟨s, hs, rfl⟩ := hx
  obtain ⟨above, key, hrel, hid⟩ := h.parents i s hs
  rw [parent?, hs, Option.bind_some, hid]
  generalize s.parent = p at hrel ⊢
  cases hrel with
  | none => exact .none
  | some hp =>
    rw [NodeDef.idBelow, StateId.parent?_child (h.keys_ne_nil hp.2.mem)]
    exact .some hp

theorem indexOf_eq_some (h : Linked a.slots a.index) (hnodup : a.ids.Nodup) {id : StateId}
    {i : Nat} : a.indexOf id = some i ↔ StandsAt a.ids i id := by
  refine ⟨h.found id i, fun hi => ?_⟩
  obtain ⟨j, hj⟩ := h.indexed id hi.mem
  rw [indexOf, hj, (h.found id j hj).inj hnodup hi]

section

variable {own root : StateId} {owner : Nat}

theorem targetId?_eq (h : Linked a.slots a.index) (hown : StandsAt a.ids owner own)
    (target : String) : a.targetId? owner target = Tree.targetId? own target := by
  have hanchor : idAt a.slots ((a.parent? owner).getD owner) = own.parent?.getD own := by
    have hrel := parent?_related h hown
    generalize a.parent? owner = place at hrel ⊢
    generalize own.parent? = above at hrel ⊢
    cases hrel with
    | none => exact hown.idAt
    | some hp => exact hp.2.idAt
  simp only [targetId?, foldl_child, hanchor]
  rfl

theorem resolve_alike (h : Linked a.slots a.index) (hown : StandsAt a.ids owner own)
    (target : String) :
    Alike (StandsAt a.ids) (a.resolve owner target) (Tree.resolveAmong a.ids own target) := by
  rw [resolve, Tree.resolveAmong, Tree.resolveAmong?, targetId?_eq h hown, hown.idAt]
  cases Tree.targetId? own target with
  | none => exact .error
  | some id =>
    by_cases hid : id ∈ a.ids
    · obtain ⟨i, hi⟩ := h.indexed id hid
      rw [Option.bind_some, indexOf, hi, Option.filter_some, if_pos (by simpa using hid)]
      exact .ok (h.found id i hi)
    · have hmissing : a.indexOf id = none :=
        Option.eq_none_iff_forall_ne_some.2 fun i hi => hid (h.found id i hi).mem
      rw [Option.bind_some, hmissing, Option.filter_some, if_neg (by simpa using hid)]
      exact .error

theorem resolveTargets_alike (h : Linked a.slots a.index) (hnodup : a.ids.Nodup)
    (hown : StandsAt a.ids owner own) (hroot : StandsAt a.ids 0 root) (targets : List String) :
    Alike (List.Forall₂ (StandsAt a.ids)) (a.resolveTargets owner targets)
      (TransitionDef.resolveTargets root a.ids own targets) := by
  induction targets with
  | nil => exact .ok .nil
  | cons target rest ih =>
    rw [resolveTargets, TransitionDef.resolveTargets, hown.idAt]
    refine (resolve_alike h hown target).bind fun place id hid => ?_
    have hsame : (place == 0) = (id == root) := by
      rw [Bool.eq_iff_iff, beq_iff_eq, beq_iff_eq]
      constructor
      · rintro rfl
        exact hid.unique hroot
      · rintro rfl
        exact hid.inj hnodup hroot
    rw [hsame]
    exact .andThen fun _ _ => ih.bind fun places ids hids => .ok (.cons hid hids)

theorem resolveGuard_alike (h : Linked a.slots a.index) (hown : StandsAt a.ids owner own)
    (guard : Option (GuardDef C)) :
    Alike Eq (a.resolveGuard owner guard) (TransitionDef.resolveGuard a.ids own guard) := by
  match guard with
  | none => exact .ok rfl
  | some (.inState name) =>
    refine (resolve_alike h hown name).bind fun place id hid => ?_
    rw [hid.idAt]
    exact .ok rfl
  | some (.context holds) => exact .ok rfl
  | some (.contextAndEvent holds) => exact .ok rfl

theorem resolveTransition_alike (h : Linked a.slots a.index) (hnodup : a.ids.Nodup)
    (hown : StandsAt a.ids owner own) (hroot : StandsAt a.ids 0 root) (d : TransitionDef C) :
    Alike (SlotTransition.Shows a.ids own) (a.resolveTransition owner d)
      (d.resolve root a.ids own) := by
  rw [resolveTransition, TransitionDef.resolve, hown.idAt]
  split
  · exact .andThen fun _ _ => .ok .forbidden
  · refine (resolveTargets_alike h hnodup hown hroot d.targets).bind fun places ids hids => ?_
    refine (resolveGuard_alike h hown d.guard).bind fun guard _ hguard => ?_
    subst hguard
    exact .ok (.taken hown hids)

theorem resolveTransitions_alike (h : Linked a.slots a.index) (hnodup : a.ids.Nodup)
    (hown : StandsAt a.ids owner own) (hroot : StandsAt a.ids 0 root)
    (defs : List (TransitionDef C)) :
    Alike (List.Forall₂ (SlotTransition.Shows a.ids own)) (a.resolveTransitions owner defs)
      (TransitionDef.resolveAll root a.ids own defs) := by
  induction defs with
  | nil => exact .ok .nil
  | cons d rest ih =>
    refine (resolveTransition_alike h hnodup hown hroot d).bind fun first tr hfirst => ?_
    exact ih.bind fun others trs hothers => .ok (.cons hfirst hothers)

end

/-- Filling in the transitions of one state. -/
theorem finish_alike {root : StateId} {front rest : List (Slot C)} {s : Slot C} {draft : Draft C}
    (ha : a.slots = front ++ s :: rest) (h : Linked a.slots a.index) (hnodup : a.ids.Nodup)
    (hroot : StandsAt a.ids 0 root) (hs : s.Shows a.ids draft.node) :
    Alike (fun a' n => ∃ s', a'.slots = front ++ s' :: rest ∧ a'.index = a.index ∧
        s'.frame = s.frame ∧ s'.Shows a.ids n)
      (a.finish s.index draft.pending) (draft.finish root a.ids) := by
  have hindex : s.index = front.length := h.places front.length s (by simp [ha])
  have hown : StandsAt a.ids front.length draft.node.id := by
    rw [← hs.id, ids, ha, List.map_append, List.map_cons]
    simpa using StandsAt.at_length (front.map Slot.id) s.id (rest.map Slot.id)
  rw [hindex]
  have hresolved := resolveTransitions_alike h hnodup hown hroot draft.pending
  refine hresolved.bind fun transitions trs htrs => .ok ⟨{ s with transitions }, ?_, rfl, rfl,
    ⟨hs.id, hs.kind, hs.entry, hs.exit, htrs, hs.services⟩⟩
  show a.slots.modify _ _ = _
  rw [ha, modify_length]

theorem finishAll_alike {root : StateId} {ids : List StateId} {front rest : List (Slot C)}
    {drafts : List (Draft C)}
    (hrest : List.Forall₂ (fun s draft => s.Shows ids draft.node) rest drafts)
    (hids : a.ids = ids) (ha : a.slots = front ++ rest) (h : Linked a.slots a.index)
    (hnodup : ids.Nodup) (hroot : StandsAt ids 0 root) :
    Alike (fun a' nodes => ∃ done, a'.slots = front ++ done ∧ Linked a'.slots a'.index ∧
        a'.ids = ids ∧ List.Forall₂ (Slot.Shows ids) done nodes)
      (a.finishAll (List.zipWith (fun s draft => (s.index, draft.pending)) rest drafts))
      (Draft.finishAll root ids drafts) := by
  induction hrest generalizing a front with
  | nil => exact .ok ⟨[], ha, h, hids, .nil⟩
  | @cons s draft rest drafts hs _ ih =>
    subst hids
    refine (finish_alike ha h hnodup hroot hs).bind fun a' n hfirst => ?_
    obtain ⟨s', hslots, hindex, hframe, hshows⟩ := hfirst
    have hframes : a'.slots.map Slot.frame = a.slots.map Slot.frame := by
      rw [hslots, ha, List.map_append, List.map_append, List.map_cons, List.map_cons, hframe]
    have hslots' : a'.slots = (front ++ [s']) ++ rest := by rw [hslots, List.append_assoc]; rfl
    have hlinked : Linked a'.slots a'.index := hindex ▸ h.of_frames hframes
    refine (ih (ids_of_frames hframes) hslots' hlinked).mapRight fun b nodes hothers => ?_
    obtain ⟨done, hdone, hblinked, hbids, hnodes⟩ := hothers
    exact ⟨s' :: done, by rw [hdone, List.append_assoc]; rfl, hblinked, hbids, .cons hshows hnodes⟩

/-- An arena is built exactly as the tree is. -/
theorem build_alike (d : NodeDef C) :
    Alike (fun a t => Linked a.slots a.index ∧ List.Forall₂ (Slot.Shows a.ids) a.slots t.nodes)
      (build d) (Tree.build d) := by
  have hstart := (Builder.allocate_alike (b := {}) Linked.nil .none d).withRight
  refine hstart.bind ?_
  rintro ⟨place, b⟩ ⟨⟨first, below⟩, used⟩ ⟨⟨htakes, -⟩, hlaid⟩
  obtain ⟨-, hid, -, hforest⟩ := NodeDef.layOut_forest d hlaid
  obtain ⟨new, hslots, hnew, hpending⟩ := htakes.slots
  simp only [List.nil_append] at hslots hpending
  -- The identifiers of the slots are those of the drafts.
  have hids : b.slots.map Slot.id = first.node.id :: below.map (·.node.id) := by
    rw [hslots, ← List.map_cons (f := fun draft : Draft C => draft.node.id),
      ← List.forall₂_eq_eq_eq, List.forall₂_map_left_iff, List.forall₂_map_right_iff]
    exact hnew.imp fun _ _ h => h.id
  have hnodup : (first.node.id :: below.map (·.node.id)).Nodup := by
    have := hforest.nodup_cons (by rw [hid]; exact List.cons_ne_nil _ _)
    simpa [Node.outline, Function.comp_def] using this
  simp only [Builder.ids, hids] at hnew
  have hroot : StandsAt (first.node.id :: below.map (·.node.id)) 0 first.node.id := rfl
  have hsplit : (⟨b.slots, b.index⟩ : Arena C).slots = [] ++ new := hslots
  have hall := finishAll_alike (a := ⟨b.slots, b.index⟩) hnew hids hsplit htakes.linked hnodup hroot
  have hnodes : Draft.finishAll first.node.id (first.node.id :: below.map (·.node.id))
      (first :: below) = Except.map Tree.nodes (do
        let n ← first.finish first.node.id (first.node.id :: below.map (·.node.id))
        let rest ← Draft.finishAll first.node.id (first.node.id :: below.map (·.node.id)) below
        return ⟨n, rest⟩) := by
    rw [Draft.finishAll]
    cases first.finish _ _ with
    | error e => rfl
    | ok n => cases Draft.finishAll _ _ below <;> rfl
  rw [hnodes, ← hpending] at hall
  refine hall.of_map.imp ?_
  rintro a t ⟨done, hdone, hlinked, hdoneIds, hshows⟩
  refine ⟨hlinked, ?_⟩
  rw [hdoneIds, hdone]
  exact hshows

end Arena

end Statechart
