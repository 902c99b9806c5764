import Statechart.Proofs.Parts
import Statechart.Proofs.Repeats

/-!
# Statechart.Proofs.Strictness

Which keys the readers of the parts of a state look for, and so refuse if they are written twice.
Each part has a predicate `Once`, under which it is read as it was written just as it is read with
every key left once; without it, it is refused as it was written.

* `ActionSpec.decode?_narrows`: the tag of an action, and the fields that go with this tag.
* `TransitionSpec.decode?_narrows`, `InvokeSpec.decode?_narrows`: all fields of a transition and of
  an invoked service.
* `TransitionList.decode?_narrows`: a list of candidates or one transition, whichever is denoted.
  `TransitionSpec.map_dedup_eq` is why the same is denoted and written: what can be read in both
  ways has no keys at all.
* `decodeEntries_narrows`: entries with distinct keys.
-/

namespace Statechart

open Json

/-! ## Actions -/

namespace ActionSpec

/-- The fields of an action with a tag, the tag aside. -/
def fieldNames : String → List String
  | "assign" => ["values"]
  | "assign_event" => ["key"]
  | "raise" => ["event", "data"]
  | "send" => ["event", "data"]
  | "log" => ["message"]
  | "fail" => ["message"]
  | _ => []

theorem decodeFields?_narrows {tag : String} (htag : tag ∈ tags) (content : Json) :
    Narrows (OnceIn (fieldNames tag) content) (decodeFields? tag content)
      (decodeFields? tag content.dedup) := by
  simp only [tags, List.mem_cons, List.not_mem_nil, or_false] at htag
  rcases htag with rfl | rfl | rfl | rfl | rfl | rfl
  · refine record?_invariant (by decide) false fun fs => ?_
    rw [find?_merged, required?_fields_dedup]
    cases required? fields? (find? "values" fs) with
    | none => rfl
    | some values => exact congrArg (some ∘ assign) (dedupFields_dedupFields values)
  · refine record?_invariant (by decide) false fun fs => ?_
    rw [find?_merged, optional?_dedup str?_dedup]
  · refine record?_invariant (by decide) false fun fs => ?_
    rw [find?_merged, find?_merged, required?_dedup str?_dedup, getD_dedup]
  · refine record?_invariant (by decide) false fun fs => ?_
    rw [find?_merged, find?_merged, required?_dedup str?_dedup, getD_dedup]
  · refine record?_invariant (by decide) false fun fs => ?_
    rw [find?_merged, required?_dedup str?_dedup]
  · refine record?_invariant (by decide) false fun fs => ?_
    rw [find?_merged, required?_dedup str?_dedup]

/-- Is the tag of an action written once, and each field that an action with this tag has? -/
def Once (v : Json) : Prop :=
  ∃ tag content name, tagged? v = some (tag, content) ∧ tagName? tags true tag = some name ∧
    OnceIn (fieldNames name) content

theorem decode?_narrows (v : Json) : Narrows (Once v) (decode? true v) (decode? true v.dedup) := by
  intro a
  constructor
  · intro h
    obtain ⟨⟨tag, content⟩, htagged, h⟩ := Option.bind_eq_some_iff.1 h
    obtain ⟨name, hname, h⟩ := Option.bind_eq_some_iff.1 h
    have htag := tagName?_mem hname
    obtain ⟨hmerged, honce⟩ := (decodeFields?_narrows htag content a).1 h
    refine ⟨?_, tag, content, name, htagged, hname, honce⟩
    simp only [decode?, tagged?_dedup htagged, tagName?_dedup, hname, Option.bind_eq_bind,
      Option.bind_some, hmerged]
  · rintro ⟨h, tag, content, name, htagged, hname, honce⟩
    simp only [decode?, tagged?_dedup htagged, tagName?_dedup, htagged, hname, Option.bind_eq_bind,
      Option.bind_some] at h ⊢
    exact (decodeFields?_narrows (tagName?_mem hname) content a).2 ⟨h, honce⟩

end ActionSpec

/-! ## Transitions -/

theorem Targets.decode?_dedup (v : Json) : decode? v.dedup = decode? v := by
  cases v with
  | arr items =>
    have hstrings := strings?_dedup (.arr items)
    rw [dedup] at hstrings ⊢
    exact congrArg (Option.map many) hstrings
  | _ => rfl

namespace TransitionSpec

def fieldNames : List String := ["target", "guard", "in", "actions"]

/-- A transition from the fields of its object. -/
def ofFields? (fs : Fields) : Option TransitionSpec := do
  let goal ← optional? Targets.decode? (find? "target" fs)
  let guard ← optional? str? (find? "guard" fs)
  let inState ← optional? str? (find? "in" fs)
  let actions ← list? (ActionSpec.decode? true) (find? "actions" fs)
  return .object { target := goal, guard, inState, actions }

theorem decode?_eq {v : Json} (h : ∀ goal, v ≠ .str goal) :
    decode? v = (record? fieldNames true v).bind ofFields? := by
  rw [decode?]
  · rfl
  · exact h

/-- Is each field of a transition written once, and so in its actions? -/
def Once (v : Json) : Prop :=
  OnceIn fieldNames v ∧
    ∀ items, find? "actions" (parts fieldNames v) = some (.arr items) →
      ∀ w ∈ items, ActionSpec.Once w

theorem ofFields?_narrows (fs : Fields) :
    Narrows (∀ items, find? "actions" fs = some (.arr items) → ∀ w ∈ items, ActionSpec.Once w)
      (ofFields? fs) (ofFields? (merged fs)) := by
  simp only [ofFields?, find?_merged, optional?_dedup Targets.decode?_dedup,
    optional?_dedup str?_dedup]
  refine ((Narrows.refl _).bind fun goal => (Narrows.refl _).bind fun guard =>
    (Narrows.refl _).bind fun inState =>
      (list?_narrows ActionSpec.decode?_narrows _).bind_same _).congr ?_
  simp

theorem decode?_narrows (v : Json) : Narrows (Once v) (decode? v) (decode? v.dedup) := by
  by_cases hv : ∃ goal, v = .str goal
  · obtain ⟨goal, rfl⟩ := hv
    exact (Narrows.refl _).congr (by simp [Once, OnceIn, parts, find?])
  · have hraw : ∀ goal, v ≠ .str goal := not_exists.1 hv
    have hmerged : ∀ goal, v.dedup ≠ .str goal := by
      intro goal hgoal
      cases v with
      | str text => exact hraw text rfl
      | _ => cases hgoal
    rw [decode?_eq hraw, decode?_eq hmerged]
    exact record?_narrows (by decide) true (ofFields?_narrows _)

theorem ofFields?_eq_some {fs : Fields} {tr : TransitionSpec} (h : ofFields? fs = some tr) :
    (∃ goal, optional? Targets.decode? (find? "target" fs) = some goal) ∧
      (∃ guard, optional? str? (find? "guard" fs) = some guard) ∧
      (∃ inState, optional? str? (find? "in" fs) = some inState) ∧
      ∃ actions, list? (ActionSpec.decode? true) (find? "actions" fs) = some actions := by
  obtain ⟨goal, hgoal, h⟩ := Option.bind_eq_some_iff.1 h
  obtain ⟨guard, hguard, h⟩ := Option.bind_eq_some_iff.1 h
  obtain ⟨inState, hin, h⟩ := Option.bind_eq_some_iff.1 h
  obtain ⟨actions, hactions, -⟩ := Option.bind_eq_some_iff.1 h
  exact ⟨⟨goal, hgoal⟩, ⟨guard, hguard⟩, ⟨inState, hin⟩, actions, hactions⟩

/-- The items of a transition that is written as an array, by their place. -/
theorem decode?_arr {items : List Json} {tr : TransitionSpec} (h : decode? (.arr items) = some tr) :
    items.length ≤ 4 ∧ (∃ goal, optional? Targets.decode? items[0]? = some goal) ∧
      (∃ guard, optional? str? items[1]? = some guard) ∧
      (∃ inState, optional? str? items[2]? = some inState) ∧
      ∃ actions, list? (ActionSpec.decode? true) items[3]? = some actions := by
  have hraw : ∀ goal, Json.arr items ≠ .str goal := fun goal => nofun
  rw [decode?_eq hraw] at h
  obtain ⟨fs, hfs, h⟩ := Option.bind_eq_some_iff.1 h
  simp only [record?] at hfs
  split at hfs
  · cases hfs
  · rename_i hlength
    cases hfs
    have hfields := ofFields?_eq_some h
    refine ⟨Nat.le_of_not_lt hlength, ?_⟩
    rcases items with _ | ⟨goal, _ | ⟨guard, _ | ⟨inState, _ | ⟨actions, rest⟩⟩⟩⟩ <;> exact hfields

end TransitionSpec

/-! ## Candidates -/

/-- A list of names has no keys. -/
theorem Targets.dedup_eq {v : Json} {goal : Option Targets}
    (h : optional? decode? (some v) = some goal) : v.dedup = v := by
  cases v with
  | arr items =>
    obtain ⟨goal, hgoal, -⟩ := Option.map_eq_some_iff.1 h
    obtain ⟨names, hnames, -⟩ := Option.map_eq_some_iff.1 hgoal
    have hitem : ∀ v ∈ items, v.dedup = id v := by
      intro v hv
      obtain ⟨name, hname⟩ := exists_of_mapM hnames v hv
      cases v <;> cases hname
      rfl
    rw [dedup, dedupItems_eq, List.map_congr_left hitem, List.map_id]
  | obj fields => cases h
  | _ => rfl

theorem dedup_eq_of_str? {v : Json} {text : Option String}
    (h : optional? str? (some v) = some text) : v.dedup = v := by
  cases v with
  | arr items => cases h
  | obj fields => cases h
  | _ => rfl

/-- An action that is read as a transition as well is a list of names, and stands alone: behind it
the transition has a guard, which is no action. -/
theorem dedup_eq_of_actions {v : Json} {actions : List ActionSpec} {tr : TransitionSpec}
    (hactions : list? (ActionSpec.decode? true) (some v) = some actions)
    (htr : TransitionSpec.decode? v.dedup = some tr) : v.dedup = v := by
  cases v with
  | arr items =>
    have haction := exists_of_mapM hactions
    rw [dedup, dedupItems_eq] at htr ⊢
    obtain ⟨-, ⟨goal, hgoal⟩, ⟨guard, hguard⟩, -⟩ := TransitionSpec.decode?_arr htr
    rcases items with _ | ⟨first, _ | ⟨second, rest⟩⟩
    · rfl
    · rw [List.getElem?_map, optional?_dedup Targets.decode?_dedup] at hgoal
      rw [List.map_singleton, Targets.dedup_eq hgoal]
    · rw [List.getElem?_map, optional?_dedup str?_dedup] at hguard
      obtain ⟨a, ha⟩ := haction second (.tail _ (.head _))
      cases second <;> first | cases hguard; done | cases ha
  | _ => cases hactions

/-- What is read as one transition and as a list of candidates as well has no keys. -/
theorem TransitionSpec.map_dedup_eq {items : List Json} {tr : TransitionSpec}
    {ts : List TransitionSpec} (hone : decode? (.arr items) = some tr)
    (hmany : (items.map dedup).mapM decode? = some ts) : items.map dedup = items := by
  obtain ⟨hlength, ⟨goal, hgoal⟩, ⟨guard, hguard⟩, ⟨inState, hin⟩, actions, hactions⟩ :=
    decode?_arr hone
  refine (List.map_congr_left fun v hv => ?_).trans (List.map_id items)
  obtain ⟨tr, htr⟩ := exists_of_mapM hmany v.dedup (List.mem_map_of_mem hv)
  obtain ⟨place, hplace⟩ := List.mem_iff_getElem?.1 hv
  have hlt : place < 4 := (List.getElem?_eq_some_iff.1 hplace).1.trans_le hlength
  match place, hlt with
  | 0, _ =>
    rw [hplace] at hgoal
    exact Targets.dedup_eq hgoal
  | 1, _ =>
    rw [hplace] at hguard
    exact dedup_eq_of_str? hguard
  | 2, _ =>
    rw [hplace] at hin
    exact dedup_eq_of_str? hin
  | 3, _ =>
    rw [hplace] at hactions
    exact dedup_eq_of_actions hactions htr

namespace TransitionList

/-- Is every key written once in the candidates of a list or, if it is none, in one transition? -/
def Once : Json → Prop
  | .arr items =>
    if ((items.map dedup).mapM TransitionSpec.decode?).isSome then
      ∀ w ∈ items, TransitionSpec.Once w
    else TransitionSpec.Once (.arr items)
  | v => TransitionSpec.Once v

theorem decode?_arr (items : List Json) :
    decode? (.arr items) =
      match items.mapM TransitionSpec.decode? with
      | some ts => some (.many ts)
      | none => (TransitionSpec.decode? (.arr items)).map .one := rfl

theorem decode?_narrows (v : Json) : Narrows (Once v) (decode? v) (decode? v.dedup) := by
  cases v with
  | arr items =>
    have hone := TransitionSpec.decode?_narrows (.arr items)
    have hmany := items_narrows TransitionSpec.decode?_narrows items
    simp only [Once]
    rw [dedup, dedupItems_eq] at hone ⊢
    rw [decode?_arr, decode?_arr]
    cases hcandidates : (items.map dedup).mapM TransitionSpec.decode? with
    | none =>
      simp only [hmany.eq_none hcandidates]
      exact hone.map TransitionList.one
    | some ts =>
      simp only [Option.isSome_some, if_true]
      by_cases honce : ∀ w ∈ items, TransitionSpec.Once w
      · simp only [(hmany ts).2 ⟨hcandidates, honce⟩]
        exact (Narrows.refl _).congr (iff_of_true trivial honce)
      · have hnone : items.mapM TransitionSpec.decode? = none :=
          Option.eq_none_iff_forall_ne_some.2 fun as has => honce ((hmany as).1 has).2
        -- Nor is the array one transition: then it would have no keys that are written twice.
        have hraw : TransitionSpec.decode? (.arr items) = none := by
          refine Option.eq_none_iff_forall_ne_some.2 fun tr htr => ?_
          rw [TransitionSpec.map_dedup_eq htr hcandidates, hnone] at hcandidates
          cases hcandidates
        simp only [hnone, hraw]
        exact .of_not honce _
  | _ => exact (TransitionSpec.decode?_narrows _).map TransitionList.one

theorem once_null : Once .null :=
  ⟨.nil, nofun⟩

theorem optional?_narrows (v : Option Json) :
    Narrows (∀ w, v = some w → Once w) (optional? decode? v) (optional? decode? (v.map dedup)) :=
  Json.optional?_narrows once_null decode?_narrows v

end TransitionList

/-! ## Services -/

namespace InvokeSpec

def fieldNames : List String := ["id", "src", "input", "onDone", "onError"]

/-- Is each field of an invoked service written once, and so in its transitions? -/
def Once (v : Json) : Prop :=
  OnceIn fieldNames v ∧
    ∀ key ∈ ["onDone", "onError"], ∀ w, find? key (parts fieldNames v) = some w →
      TransitionList.Once w

theorem decode?_narrows (v : Json) : Narrows (Once v) (decode? v) (decode? v.dedup) := by
  refine record?_narrows (by decide) true ?_
  simp only [find?_merged, optional?_dedup str?_dedup, required?_dedup str?_dedup, getD_dedup]
  refine ((Narrows.refl _).bind fun id => (Narrows.refl _).bind fun src =>
    (TransitionList.optional?_narrows _).bind fun onDone =>
      (TransitionList.optional?_narrows _).bind_same _).congr ?_
  simp [fieldNames]

end InvokeSpec

/-! ## Types -/

namespace StateType

theorem decode?_of_length {fields : Fields} (h : fields.length ≠ 1) :
    decode? (.obj fields) = none := by
  simp only [decode?]
  split
  · rename_i hobj
    cases hobj
  · rename_i hobj
    cases hobj
    exact absurd rfl h
  · rename_i hobj
    cases hobj
    exact absurd rfl h
  · rfl

/-- A type that is written as an object is its only key, whatever is denoted by the value. -/
theorem decode?_single (name : String) (v : Json) :
    decode? (.obj [(name, v.dedup)]) = decode? (.obj [(name, v)]) := by
  cases v with
  | obj fields =>
    cases fields with
    | nil => rfl
    | cons field rest =>
      rw [dedup]
      cases hrest : dedupFields (field :: rest) with
      | nil => exact nomatch dedupFields_eq_nil.1 hrest
      | cons => rfl
  | _ => rfl

theorem decode?_narrows (v : Json) :
    Narrows (∀ fields, v = .obj fields → (fields.map Prod.fst).Nodup) (decode? v)
      (decode? v.dedup) := by
  cases v with
  | obj fields =>
    simp only [Json.obj.injEq, forall_eq']
    by_cases hkeys : (fields.map Prod.fst).Nodup
    · rw [dedup, dedupFields_of_nodup hkeys]
      refine (Narrows.of_eq ?_).congr (iff_of_true trivial hkeys)
      by_cases hlength : fields.length = 1
      · obtain ⟨⟨name, w⟩, rfl⟩ := List.length_eq_one_iff.1 hlength
        exact (decode?_single name w).symm
      · have hmerged : (merged fields).length ≠ 1 := by rwa [merged, List.length_map]
        rw [decode?_of_length hlength, decode?_of_length hmerged]
    · have hlength : fields.length ≠ 1 := by
        intro hlength
        obtain ⟨field, rfl⟩ := List.length_eq_one_iff.1 hlength
        exact hkeys (List.nodup_singleton _)
      rw [decode?_of_length hlength]
      exact .of_not hkeys _
  | _ => exact (Narrows.refl _).congr (by simp)

end StateType

/-! ## Entries by key -/

section Entries

theorem toOption_eq_some {ε α : Type} {x : Except ε α} {a : α} :
    x.toOption = some a ↔ x = .ok a := by
  cases x <;> simp [Except.toOption]

theorem toOption_bind {ε α β : Type} (x : Except ε α) (f : α → Except ε β) :
    (x >>= f).toOption = x.toOption.bind fun a => (f a).toOption := by
  cases x <;> rfl

theorem toOption_orMalformed {α : Type} (x : Option α) : (orMalformed x).toOption = x := by
  cases x <;> rfl

variable {α : Type} {read : Json → Option α} {seen : List String} {fields : Fields}
  {es : List (String × α)}

/-- Entries as far as their values can be read, whichever keys they have. -/
def entries? (read : Json → Option α) (fields : Fields) : Option (List (String × α)) :=
  fields.mapM fun field => (read field.2).map (field.1, ·)

/-- Entries are read if their keys are written once. -/
theorem decodeEntries_toOption : (decodeEntries read seen fields).toOption = some es ↔
    Fresh seen (fields.map Prod.fst) ∧ entries? read fields = some es := by
  induction fields generalizing seen es with
  | nil => simp [decodeEntries, entries?, Fresh, Except.toOption]
  | cons field rest ih =>
    obtain ⟨k, v⟩ := field
    rw [decodeEntries, toOption_bind, toOption_orMalformed, List.map_cons, fresh_cons, entries?,
      List.mapM_cons]
    by_cases hk : k ∈ seen
    · simp [hk, Except.toOption]
    · have hnew : seen.contains k = false := by simpa using hk
      simp only [hnew, Bool.false_eq_true, if_false, toOption_bind, Option.bind_eq_some_iff, ih,
        Option.bind_eq_bind, Option.map_eq_some_iff]
      constructor
      · rintro ⟨a, ha, others, ⟨hkeys, hrest⟩, h⟩
        cases h
        exact ⟨⟨hk, hkeys⟩, (k, a), ⟨a, ha, rfl⟩, others, hrest, rfl⟩
      · rintro ⟨⟨-, hkeys⟩, _, ⟨a, ha, rfl⟩, others, hrest, h⟩
        cases h
        exact ⟨a, ha, others, ⟨hkeys, hrest⟩, rfl⟩

/-- Keys that are written twice are refused, and entries are read one by one. -/
theorem decodeEntries_narrows {once : Json → Prop}
    (h : ∀ field ∈ fields, Narrows (once field.2) (read field.2) (read field.2.dedup)) :
    Narrows ((fields.map Prod.fst).Nodup ∧ ∀ field ∈ fields, once field.2)
      (decodeEntries read [] fields).toOption
      (decodeEntries read [] (dedupFields fields)).toOption := by
  by_cases hkeys : (fields.map Prod.fst).Nodup
  · have hentries : Narrows (∀ field ∈ fields, once field.2) (entries? read fields)
        (entries? read (merged fields)) := by
      rw [entries?, entries?, merged, List.mapM_map]
      exact .mapM fun field hfield => (h field hfield).map (field.1, ·)
    intro es
    rw [dedupFields_of_nodup hkeys, decodeEntries_toOption, decodeEntries_toOption, fresh_nil,
      fresh_nil, merged_keys, hentries]
    tauto
  · have hnone : (decodeEntries read [] fields).toOption = none :=
      Option.eq_none_iff_forall_ne_some.2 fun es hes =>
        hkeys (fresh_nil.1 (decodeEntries_toOption.1 hes).1)
    rw [hnone]
    exact .of_not (fun h => hkeys h.1) _

end Entries

end Statechart
