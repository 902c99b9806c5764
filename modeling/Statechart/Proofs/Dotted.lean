import Statechart.Tree

/-!
# Statechart.Proofs.Dotted

Texts cut at a character, and the dotted texts that name states.

* `Text.splitAtChar_eq_iff`: the pieces of a text.
* `Names`: the state that a target text stands for.
* `Tree.resolveAmong?_eq_some`: resolving a text finds the state that it names.
-/

namespace Statechart

/-! ## Cutting texts -/

namespace Text

theorem splitAtChar_eq_splitOn (sep : Char) (cs : List Char) :
    splitAtChar sep cs = cs.splitOn sep := by
  induction cs with
  | nil => simp [splitAtChar]
  | cons c cs ih =>
    rw [splitAtChar, List.splitOn_cons_eq_if_modifyHead, ih]
    cases hs : cs.splitOn sep with
    | nil => exact absurd hs (List.splitOn_ne_nil _ _)
    | cons piece rest => simp

/-- Pieces without the separator are those of the text that they are joined to. -/
theorem splitAtChar_eq_iff {sep : Char} {cs : List Char} {pieces : List (List Char)}
    (hne : pieces ≠ []) (hsep : ∀ piece ∈ pieces, sep ∉ piece) :
    splitAtChar sep cs = pieces ↔ cs = [sep].intercalate pieces := by
  rw [splitAtChar_eq_splitOn]
  constructor
  · rintro rfl
    exact (List.intercalate_splitOn sep).symm
  · rintro rfl
    exact List.splitOn_intercalate sep hsep hne

/-- A piece has only characters of the text, and not the separator. -/
theorem mem_of_mem_splitAtChar {sep : Char} {cs piece : List Char}
    (h : piece ∈ splitAtChar sep cs) : ∀ c ∈ piece, c ∈ cs ∧ c ≠ sep := by
  induction cs generalizing piece with
  | nil =>
    rw [List.mem_singleton.1 h]
    exact fun c hc => absurd hc List.not_mem_nil
  | cons d cs ih =>
    have below : ∀ piece ∈ splitAtChar sep cs, ∀ c ∈ piece, c ∈ d :: cs ∧ c ≠ sep :=
      fun piece hpiece c hc => (ih hpiece c hc).imp_left (List.mem_cons_of_mem d)
    rw [splitAtChar_eq_splitOn, List.splitOn_cons_eq_if_modifyHead, ← splitAtChar_eq_splitOn] at h
    split at h
    · rcases List.mem_cons.1 h with rfl | h
      · exact fun c hc => absurd hc List.not_mem_nil
      · exact below piece h
    · rename_i hd
      cases hs : splitAtChar sep cs with
      | nil =>
        rw [hs] at h
        exact absurd h List.not_mem_nil
      | cons first rest =>
        rw [hs] at h below
        rcases List.mem_cons.1 h with rfl | h
        · refine List.forall_mem_cons.2 ⟨⟨List.mem_cons_self, by simpa using hd⟩, ?_⟩
          exact below first List.mem_cons_self
        · exact below piece (List.mem_cons_of_mem _ h)

end Text

namespace StateId

/-- The keys of a text are those that it joins with dots. -/
theorem splitDots_eq_iff {text : String} {keys : List String} (hne : keys ≠ [])
    (hdots : ∀ key ∈ keys, separator ∉ key.toList) :
    splitDots text = keys ↔ text = ".".intercalate keys := by
  have hpieces : ∀ piece ∈ keys.map String.toList, separator ∉ piece := by
    intro piece hpiece
    obtain ⟨key, hkey, rfl⟩ := List.mem_map.1 hpiece
    exact hdots key hkey
  have hchars : splitDots text = keys ↔
      Text.splitAtChar separator text.toList = keys.map String.toList := by
    rw [splitDots]
    constructor
    · rintro rfl
      simp [Function.comp_def]
    · intro h
      simp [h, Function.comp_def]
  rw [hchars, Text.splitAtChar_eq_iff (by simpa using hne) hpieces]
  constructor
  · intro h
    rw [← String.toList_inj, String.toList_intercalate]
    exact h
  · rintro rfl
    exact String.toList_intercalate

/-- Keys that identifiers are made of. -/
def Plain (id : StateId) : Prop :=
  id.keys ≠ [] ∧ ∀ key ∈ id.keys, key ≠ "" ∧ separator ∉ key.toList

theorem parse?_eq_some {id : StateId} {text : String} (h : id.Plain) :
    parse? text = some id ↔ text = id.text := by
  rw [StateId.text, ← splitDots_eq_iff h.1 fun key hkey => (h.2 key hkey).2, parse?, ofKeys?]
  constructor
  · intro hid
    split at hid
    · cases hid
    · cases hid
      rfl
  · intro hkeys
    have hne : id.keys.isEmpty = false := by simpa using h.1
    have hany : id.keys.any (· == "") = false := by simpa using fun key hkey => (h.2 key hkey).1
    simp [hkeys, hne, hany]

end StateId

/-- A text names a state from a source. Behind `#` stands the identifier of the state; other texts
are the way down from the parent of the source, or from the root if it is the source. -/
inductive Names (source id : StateId) (target : String) : Prop where
  | absolute : target = "#" ++ id.text → Names source id target
  | below (keys : List String) : keys ≠ [] → target = ".".intercalate keys →
      target.toList.head? ≠ some '#' → id.keys = (source.parent?.getD source).keys ++ keys →
      Names source id target

theorem StateId.splitDots_plain (text : String) :
    ∀ key ∈ splitDots text, separator ∉ key.toList := by
  intro key hkey
  obtain ⟨piece, hpiece, rfl⟩ := List.mem_map.1 hkey
  rw [String.toList_ofList]
  exact fun hdot => (Text.mem_of_mem_splitAtChar hpiece _ hdot).2 rfl

theorem StateId.splitDots_ne_nil (text : String) : splitDots text ≠ [] := by
  rw [splitDots, Text.splitAtChar_eq_splitOn]
  simp

theorem Tree.targetId?_eq_some {source id : StateId} {target : String} (h : id.Plain) :
    Tree.targetId? source target = some id ↔ Names source id target := by
  rw [targetId?]
  split
  · rename_i rest hchars
    have htarget : target = "#" ++ String.ofList rest := by
      rw [← String.toList_inj, hchars, String.toList_append]
      simp
    rw [StateId.parse?_eq_some h]
    constructor
    · intro hid
      rw [htarget, hid]
      exact .absolute rfl
    · intro hnames
      cases hnames with
      | absolute htext => exact (String.append_right_inj _).1 (htarget.symm.trans htext)
      | below _ _ _ hhash _ => exact absurd (congrArg List.head? hchars) hhash
  · rename_i hchars
    constructor
    · intro hid
      simp only at hid
      split at hid
      · cases hid
      · cases hid
        have hdots : ∀ key ∈ StateId.splitDots target, StateId.separator ∉ key.toList :=
          fun key hkey => (h.2 key (List.mem_append_right _ hkey)).2
        have htarget := (StateId.splitDots_eq_iff (StateId.splitDots_ne_nil target) hdots).1 rfl
        refine .below _ (StateId.splitDots_ne_nil target) htarget (fun hhash => ?_) rfl
        obtain ⟨rest, hrest⟩ := List.head?_eq_some_iff.1 hhash
        exact hchars rest hrest
    · intro hnames
      cases hnames with
      | absolute htext =>
        refine absurd ?_ (hchars id.text.toList)
        rw [htext, String.toList_append]
        rfl
      | below keys hne htext _ hkeys =>
        have hplain : ∀ key ∈ keys, key ≠ "" ∧ StateId.separator ∉ key.toList :=
          fun key hkey => h.2 key (by rw [hkeys]; exact List.mem_append_right _ hkey)
        have hsplit : StateId.splitDots target = keys :=
          (StateId.splitDots_eq_iff hne fun key hkey => (hplain key hkey).2).2 htext
        have hany : keys.any (· == "") = false := by
          simpa using fun key hkey => (hplain key hkey).1
        simp [hsplit, hany, ← hkeys]

theorem Tree.resolveAmong?_eq_some {source id : StateId} {target : String} {known : List StateId}
    (h : ∀ id ∈ known, id.Plain) :
    Tree.resolveAmong? known source target = some id ↔ id ∈ known ∧ Names source id target := by
  rw [resolveAmong?, Option.filter_eq_some_iff, List.contains_iff_mem, and_comm]
  exact and_congr_right fun hid => targetId?_eq_some (h id hid)

end Statechart
