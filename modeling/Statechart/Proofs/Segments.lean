import Mathlib.Data.List.DropRight
import Statechart.Proofs.Resolution

/-!
# Statechart.Proofs.Segments

Identifiers and their dotted texts. A text is read as the identifier that it is the text of, so the
two say the same; going to the parent or to a child is cutting the last segment off the text, or
writing one more behind it.

* `cutLast?`, `cutLast?_eq_some`: a text without its last segment, and the segment.
* `StateId.cutLast?_text`: the last segment of the text of an identifier is its key.
* `StateId.parse?_iff`: what is read is written again as it was.
* `StateId.text_exact`: identifiers and texts, those of built trees among them.
-/

namespace Statechart

/-- What stands before the last dot of a text, and what stands behind it. -/
def cutLast? (text : String) : Option (String × String) :=
  match text.toList.reverse.dropWhile (· ≠ StateId.separator) with
  | [] => none
  | _ :: front =>
    some (String.ofList front.reverse,
      String.ofList (text.toList.rtakeWhile (· ≠ StateId.separator)))

theorem cutLast?_append {before behind : String} (h : StateId.separator ∉ behind.toList) :
    cutLast? (before ++ "." ++ behind) = some (before, behind) := by
  have hchars : (before ++ "." ++ behind).toList =
      before.toList ++ StateId.separator :: behind.toList := by
    simp [StateId.separator]
  have hbehind : ∀ c ∈ behind.toList.reverse, decide (c ≠ StateId.separator) = true := by
    rintro c hc
    refine decide_eq_true fun hdot => h (hdot ▸ List.mem_reverse.1 hc)
  have hreverse : (before ++ "." ++ behind).toList.reverse =
      behind.toList.reverse ++ StateId.separator :: before.toList.reverse := by
    simp [hchars]
  simp only [cutLast?, List.rtakeWhile, hreverse, List.dropWhile_append_of_pos hbehind,
    List.takeWhile_append_of_pos hbehind]
  simp

/-- A text with a dot in it has a last one. -/
theorem exists_lastDot {text : String} (h : StateId.separator ∈ text.toList) :
    ∃ before behind, text = before ++ "." ++ behind ∧ StateId.separator ∉ behind.toList := by
  obtain ⟨back, front, hsplit, hback⟩ := List.eq_append_cons_of_mem (List.mem_reverse.2 h)
  refine ⟨String.ofList front.reverse, String.ofList back.reverse, ?_, by simpa using hback⟩
  have hchars : text.toList = front.reverse ++ StateId.separator :: back.reverse := by
    rw [← List.reverse_reverse text.toList, hsplit]
    simp
  rw [← String.toList_inj, hchars]
  simp [StateId.separator]

theorem cutLast?_eq_none {text : String} (h : StateId.separator ∉ text.toList) :
    cutLast? text = none := by
  have hall : ∀ c ∈ text.toList.reverse, decide (c ≠ StateId.separator) = true :=
    fun c hc => decide_eq_true fun hdot => h (hdot ▸ List.mem_reverse.1 hc)
  rw [cutLast?, List.dropWhile_eq_nil_iff.2 hall]

/-- A text is cut at its last dot. -/
theorem cutLast?_eq_some {text before behind : String} :
    cutLast? text = some (before, behind) ↔
      text = before ++ "." ++ behind ∧ StateId.separator ∉ behind.toList := by
  constructor
  · intro h
    by_cases hdot : StateId.separator ∈ text.toList
    · obtain ⟨before', behind', rfl, hbehind⟩ := exists_lastDot hdot
      rw [cutLast?_append hbehind] at h
      cases h
      exact ⟨rfl, hbehind⟩
    · rw [cutLast?_eq_none hdot] at h
      cases h
  · rintro ⟨rfl, h⟩
    exact cutLast?_append h

namespace StateId

variable {id p : StateId} {key : String}

/-! ## Texts that are read -/

theorem ofKeys?_eq_some {keys : List String} :
    ofKeys? keys = some id ↔ id.keys = keys ∧ keys ≠ [] ∧ ∀ key ∈ keys, key ≠ "" := by
  rw [ofKeys?]
  split
  · rename_i hbad
    refine iff_of_false (by simp) ?_
    rintro ⟨-, hne, hkeys⟩
    rcases Bool.or_eq_true_iff.1 hbad with hnil | hempty
    · exact hne (List.isEmpty_iff.1 hnil)
    · obtain ⟨key, hkey, hsame⟩ := List.any_eq_true.1 hempty
      exact hkeys key hkey (by simpa using hsame)
  · rename_i hgood
    obtain ⟨hne, hkeys⟩ : keys ≠ [] ∧ "" ∉ keys := by simpa using hgood
    rw [Option.some.injEq]
    constructor
    · rintro rfl
      exact ⟨rfl, hne, fun key hkey hempty => hkeys (hempty ▸ hkey)⟩
    · rintro ⟨hid, -⟩
      exact eq_of_keys hid.symm

/-- What is read is made of keys without dots, and is written again as it was. -/
theorem parse?_iff {text : String} : parse? text = some id ↔ id.Plain ∧ id.text = text := by
  constructor
  · intro h
    obtain ⟨hkeys, hne, hnonempty⟩ := ofKeys?_eq_some.1 h
    have hplain : id.Plain := by
      rw [Plain, hkeys]
      exact ⟨hne, fun key hkey => ⟨hnonempty key hkey, splitDots_plain text key hkey⟩⟩
    exact ⟨hplain, ((parse?_eq_some hplain).1 h).symm⟩
  · rintro ⟨hplain, rfl⟩
    exact (parse?_eq_some hplain).2 rfl

/-! ## Parents and children -/

theorem text_child (hp : p.keys ≠ []) (key : String) :
    (p.child key).text = p.text ++ "." ++ key := by
  have htext := text_append hp (List.cons_ne_nil key [])
  rwa [String.intercalate_singleton] at htext

theorem plain_child (hp : p.Plain) : (p.child key).Plain ↔ key ≠ "" ∧ separator ∉ key.toList := by
  rw [Plain, child_keys]
  refine ⟨fun h => h.2 key (by simp), fun h => ⟨by simp, ?_⟩⟩
  exact List.forall_mem_append.2 ⟨hp.2, by simpa using h⟩

/-- The last segment of the text is the key, and the parent has what stands before it. -/
theorem cutLast?_text (h : id.Plain) :
    cutLast? id.text = id.parent?.map fun p => (p.text, id.key) := by
  obtain ⟨hne, hkeys⟩ := h
  induction id, hne using byParent with
  | root k =>
    rw [parent?_root, Option.map_none]
    refine cutLast?_eq_none ?_
    have htext : (StateId.root k).text = k := String.intercalate_singleton
    rw [htext]
    exact (hkeys k (by simp [StateId.root])).2
  | child p k hp _ =>
    rw [parent?_child hp, Option.map_some, key_child, text_child hp]
    exact cutLast?_append (hkeys k (by simp)).2

theorem plain_parent (h : id.Plain) (hp : id.parent? = some p) : p.Plain := by
  obtain ⟨hne, key, rfl⟩ := parent?_eq_some.1 hp
  exact ⟨hne, fun k hk => h.2 k (List.mem_append_left _ hk)⟩

/-- A text is read as an identifier exactly if it is the text of it, and keys without dots make such
identifiers, those of built trees among them. They are told apart by their texts; the parent has the
text without its last segment, and a child has one segment more. -/
theorem text_exact (id : StateId) :
    (∀ text, parse? text = some id ↔ id.Plain ∧ id.text = text) ∧
      (id.Plain →
        ofKeys? id.keys = some id ∧ parse? id.text = some id ∧
        (∀ other : StateId, other.Plain → other.text = id.text → other = id) ∧
        cutLast? id.text = id.parent?.map (fun p => (p.text, id.key)) ∧
        (cutLast? id.text).bind (fun cut => parse? cut.1) = id.parent? ∧
        (∀ key, (id.child key).text = id.text ++ "." ++ key) ∧
        ∀ key, key ≠ "" → separator ∉ key.toList →
          parse? (id.text ++ "." ++ key) = some (id.child key)) ∧
      ∀ (C : Type) (d : NodeDef C) (t : Tree C), Tree.build d = .ok t → id ∈ t.ids → id.Plain := by
  refine ⟨fun text => parse?_iff, fun h => ?_, fun C d t hb hid => Tree.ids_plain hb id hid⟩
  have hcut := cutLast?_text h
  refine ⟨ofKeys?_eq_some.2 ⟨rfl, h.1, fun key hkey => (h.2 key hkey).1⟩,
    parse?_iff.2 ⟨h, rfl⟩, fun other ho htext => (text_inj ho h).1 htext, hcut, ?parent,
    text_child h.1, fun key hkey hdot => ?child⟩
  case parent =>
    rw [hcut]
    cases hp : id.parent? with
    | none => rfl
    | some p => exact parse?_iff.2 ⟨plain_parent h hp, rfl⟩
  case child => exact parse?_iff.2 ⟨plain_child h |>.2 ⟨hkey, hdot⟩, text_child h.1 key⟩

end StateId

/-- The state with a `#` in its key: its text, and that of its parent and of a child. -/
theorem naming_text :
    Tree.build naming = .ok namingTree ∧ ⟨["m", "a", "b#1"]⟩ ∈ namingTree.ids ∧
      StateId.parse? "m.a.b#1" = some ⟨["m", "a", "b#1"]⟩ ∧
      cutLast? "m.a.b#1" = some ("m.a", "b#1") ∧
      StateId.parse? "m.a" = some ⟨["m", "a"]⟩ ∧
      StateId.parse? "m.a.b#1.größe" = some ⟨["m", "a", "b#1", "größe"]⟩ := by
  have hbuild : Tree.build naming = .ok namingTree := rfl
  have hid : ⟨["m", "a", "b#1"]⟩ ∈ namingTree.ids := by decide
  have hparent : ⟨["m", "a"]⟩ ∈ namingTree.ids := by decide
  obtain ⟨-, hplain, hbuilt⟩ := StateId.text_exact ⟨["m", "a", "b#1"]⟩
  obtain ⟨-, hread, -, hcut, -, -, hchild⟩ := hplain (hbuilt Nat naming namingTree hbuild hid)
  obtain ⟨-, hplain', hbuilt'⟩ := StateId.text_exact ⟨["m", "a"]⟩
  obtain ⟨-, hread', -⟩ := hplain' (hbuilt' Nat naming namingTree hbuild hparent)
  exact ⟨hbuild, hid, hread, hcut, hread', hchild "größe" (by decide) (by decide)⟩

end Statechart
