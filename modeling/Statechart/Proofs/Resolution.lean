import Statechart.Proofs.Compilation

/-!
# Statechart.Proofs.Resolution

Target texts and the states that they name. A text behind `#` is compared with the dotted text of
an identifier; any other text is put behind the dotted text of the place that it starts from. Keys
hold no dot, so dotted texts tell states apart, and no text names two of them.

* `StateId.splitDots_append`, `StateId.text_inj`: dotted texts put together, and compared.
* `Designates`: what a text has to be to name a state, in terms of dotted texts.
* `Tree.ids_plain`: the identifiers of a built tree are made of keys without dots.
* `Tree.resolve_exact`: resolving a text finds the state that it designates, or fails.
-/

namespace Statechart

/-! ## Dotted texts -/

namespace StateId

variable {id a b : StateId}

theorem intercalate_splitDots (text : String) : ".".intercalate (splitDots text) = text :=
  ((splitDots_eq_iff (splitDots_ne_nil text) (splitDots_plain text)).1 rfl).symm

/-- A dot between two texts separates the keys of the one from those of the other. -/
theorem splitDots_append (before behind : String) :
    splitDots (before ++ "." ++ behind) = splitDots before ++ splitDots behind := by
  have hchars : (before ++ "." ++ behind).toList = before.toList ++ separator :: behind.toList := by
    simp [separator]
  simp only [splitDots, Text.splitAtChar_eq_splitOn, ← List.map_append]
  rw [hchars, List.splitOn_append_cons_self]

theorem splitDots_text (h : id.Plain) : splitDots id.text = id.keys :=
  (splitDots_eq_iff h.1 fun key hkey => (h.2 key hkey).2).2 rfl

theorem text_inj (ha : a.Plain) (hb : b.Plain) : a.text = b.text ↔ a = b := by
  constructor
  · intro htext
    have hkeys := congrArg splitDots htext
    rw [splitDots_text ha, splitDots_text hb] at hkeys
    exact eq_of_keys hkeys
  · rintro rfl
    rfl

/-- The keys below a state are written behind its text. -/
theorem text_append {keys : List String} (ha : a.keys ≠ []) (hkeys : keys ≠ []) :
    (⟨a.keys ++ keys⟩ : StateId).text = a.text ++ "." ++ ".".intercalate keys :=
  String.intercalate_append_of_ne_nil ha hkeys

/-- The keys behind the text of a state are the way down from it. -/
theorem keys_eq_iff {behind : String} (ha : a.Plain) (hid : id.Plain) :
    id.keys = a.keys ++ splitDots behind ↔ a.text ++ "." ++ behind = id.text := by
  constructor
  · intro hkeys
    have htext := text_append ha.1 (splitDots_ne_nil behind)
    rw [intercalate_splitDots, ← hkeys] at htext
    exact htext.symm
  · intro htext
    rw [← splitDots_text hid, ← htext, splitDots_append, splitDots_text ha]

end StateId

/-! ## Target texts -/

/-- What a target text has to be to name a state: the text of the state behind `#`, or else what
stands behind the text of the parent of the source, or of the root if it is the source. -/
def Designates (source id : StateId) (target : String) : Prop :=
  target = "#" ++ id.text ∨
    target.toList.head? ≠ some '#' ∧ (source.parent?.getD source).text ++ "." ++ target = id.text

instance (source id : StateId) (target : String) : Decidable (Designates source id target) :=
  inferInstanceAs (Decidable (_ ∨ _))

theorem designates_iff {source id : StateId} {target : String}
    (hanchor : (source.parent?.getD source).Plain) (hid : id.Plain) :
    Designates source id target ↔ Names source id target := by
  constructor
  · rintro (htarget | ⟨hhash, htext⟩)
    · exact .absolute htarget
    · exact .below _ (StateId.splitDots_ne_nil target) (StateId.intercalate_splitDots target).symm
        hhash ((StateId.keys_eq_iff hanchor hid).2 htext)
  · intro hnames
    cases hnames with
    | absolute htarget => exact .inl htarget
    | below keys hne htarget hhash hkeys =>
      refine .inr ⟨hhash, ?_⟩
      rw [htarget, ← StateId.text_append hanchor.1 hne, ← hkeys]

namespace Tree

variable {C : Type} {d : NodeDef C} {t : Tree C}

/-- The identifiers of a built tree are made of keys without dots. -/
theorem ids_plain (hb : Tree.build d = .ok t) : ∀ id ∈ t.ids, id.Plain := by
  have hsound : d.WellFormed := (build_vets d).exists_ok.1 ⟨t, hb⟩
  have hplaced : t.ids = (d.placed none).map Prod.fst := by
    rw [ids, ← List.forall₂_eq_eq_eq, List.forall₂_map_left_iff, List.forall₂_map_right_iff]
    exact (build_built hb).flip.imp fun _ _ hbuilt => hbuilt.id
  rw [hplaced]
  exact List.forall_mem_map.2 (NodeDef.placed_plain d (fun _ h => by cases h) hsound.states)

/-- The place that a relative text starts from is a state of the tree. -/
theorem anchor_mem (h : t.WellFormed) {source : StateId} (hs : source ∈ t.ids) :
    source.parent?.getD source ∈ t.ids := by
  cases hparent : source.parent? with
  | none => exact hs
  | some p => exact h.parent_mem hs hparent

/-- In a built tree, a text of a source is resolved to the state that it designates. If it
designates none, the error tells the source and the text. Every state can be named by its text
behind `#`, and no text designates two states. -/
theorem resolve_exact (hb : Tree.build d = .ok t) {source : StateId} (hs : source ∈ t.ids)
    (target : String) :
    (∀ id, t.resolve source target = .ok id ↔ id ∈ t.ids ∧ Designates source id target) ∧
      ((∀ id ∈ t.ids, ¬ Designates source id target) →
        t.resolve source target = .error (.unknownTarget source target)) ∧
      (∀ id ∈ t.ids, t.resolve source ("#" ++ id.text) = .ok id) ∧
      ∀ a ∈ t.ids, ∀ b ∈ t.ids,
        Designates source a target → Designates source b target → a = b := by
  have hplain := ids_plain hb
  have hanchor := hplain _ (anchor_mem (build_wellFormed hb) hs)
  have hfound : ∀ text id,
      t.resolve source text = .ok id ↔ id ∈ t.ids ∧ Designates source id text := by
    intro text id
    rw [resolve, resolveAmong_eq_ok, resolveAmong?_eq_some hplain]
    exact and_congr_right fun hid => (designates_iff hanchor (hplain id hid)).symm
  refine ⟨hfound target, fun hnone => ?_, fun id hid => (hfound _ id).2 ⟨hid, .inl rfl⟩, ?_⟩
  · have hmissing : resolveAmong? t.ids source target = none := by
      refine Option.eq_none_iff_forall_ne_some.2 fun id hid => ?_
      obtain ⟨hmem, hdesignates⟩ := (hfound target id).1 (resolveAmong_eq_ok.2 hid)
      exact hnone id hmem hdesignates
    rw [resolve, resolveAmong, hmissing]
  · intro a ha b hb' hda hdb
    have hsame := ((hfound target a).2 ⟨ha, hda⟩).symm.trans ((hfound target b).2 ⟨hb', hdb⟩)
    exact Except.ok.inj hsame

end Tree

/-! A state with a `#` in its key, below a sibling of another state. -/

def naming : NodeDef Nat where
  key := "m"
  kind := .compound "a" []
  children := [
    { key := "a", kind := .compound "b#1" [], children := [{ key := "b#1", kind := .atomic }] },
    { key := "c", kind := .atomic }]

def namingTree : Tree Nat where
  root := ⟨⟨["m"]⟩, .compound [⟨["m", "a"]⟩, ⟨["m", "c"]⟩] ⟨["m", "a"]⟩ [], [], [], [], []⟩
  rest := [⟨⟨["m", "a"]⟩, .compound [⟨["m", "a", "b#1"]⟩] ⟨["m", "a", "b#1"]⟩ [], [], [], [], []⟩,
    ⟨⟨["m", "a", "b#1"]⟩, .atomic, [], [], [], []⟩, ⟨⟨["m", "c"]⟩, .atomic, [], [], [], []⟩]

/-- From `c`, the state is found below the sibling and behind `#`, but not by its key alone. -/
theorem naming_resolved :
    Tree.build naming = .ok namingTree ∧ ⟨["m", "c"]⟩ ∈ namingTree.ids ∧
      namingTree.resolve ⟨["m", "c"]⟩ "a.b#1" = .ok ⟨["m", "a", "b#1"]⟩ ∧
      namingTree.resolve ⟨["m", "c"]⟩ "#m.a.b#1" = .ok ⟨["m", "a", "b#1"]⟩ ∧
      namingTree.resolve ⟨["m", "c"]⟩ "b#1" = .error (.unknownTarget ⟨["m", "c"]⟩ "b#1") := by
  have hbuild : Tree.build naming = .ok namingTree := rfl
  have hsource : ⟨["m", "c"]⟩ ∈ namingTree.ids := by decide
  obtain ⟨hbelow, -, habsolute, -⟩ := Tree.resolve_exact hbuild hsource "a.b#1"
  obtain ⟨-, hmissing, -⟩ := Tree.resolve_exact hbuild hsource "b#1"
  exact ⟨hbuild, hsource, (hbelow _).2 (by decide), habsolute ⟨["m", "a", "b#1"]⟩ (by decide),
    hmissing (by decide)⟩

end Statechart
