import Statechart.Chart.Decode
import Statechart.Chart.Encode
import Statechart.Proofs.Acceptance
import Statechart.Proofs.Records

/-!
# Statechart.Proofs.Parts

The parts of a state are read back from the JSON that they are written as. For each there are two
halves, which meet in a predicate `Plain`: what was read has every key once, and what has every key
once is read back from its written form.

* `ActionSpec.plain_of_decode`, `TransitionSpec.plain_of_decode`, `TransitionList.plain_of_decode`,
  `InvokeSpec.plain_of_decode`: what a part is read as is plain, however it was spelled.
* `ActionSpec.decode_toJson`, `TransitionSpec.decode_toJson`, `TransitionList.decode_toJson`,
  `InvokeSpec.decode_toJson`: a plain part is read back.
* `decodeEntries_eq_ok`, `decodeEntries_map`: the same for parts that stand under keys.
-/

namespace Statechart

open Json

/-! ## Actions -/

theorem Targets.decode_toJson (t : Targets) : decode? t.toJson = some t := by
  cases t with
  | one target => rfl
  | many targets => exact congrArg (Option.map many) (mapM_map_eq_some fun _ _ => rfl)

namespace ActionSpec

def tag : ActionSpec → String
  | .assign _ => "assign"
  | .assignEvent _ => "assign_event"
  | .raise _ _ => "raise"
  | .send _ _ => "send"
  | .log _ => "log"
  | .fail _ => "fail"

/-- The fields of a written action, its tag aside. -/
def values : ActionSpec → List (String × Option Json)
  | .assign values => [("values", some (.obj values))]
  | .assignEvent key => [("key", key.map .str)]
  | .raise event data => [("event", some (.str event)), ("data", unlessNull data)]
  | .send event data => [("event", some (.str event)), ("data", unlessNull data)]
  | .log message => [("message", some (.str message))]
  | .fail message => [("message", some (.str message))]

/-- Is every key in the data of the action written once? -/
def Plain : ActionSpec → Prop
  | .assign values => dedupFields values = values
  | .raise _ data => data.dedup = data
  | .send _ data => data.dedup = data
  | _ => True

theorem toJson_eq (a : ActionSpec) : a.toJson = .obj ((tagKey, .str a.tag) :: layout a.values) := by
  cases a with
  | assignEvent key => rw [toJson, fieldIf_eq]; rfl
  | raise event data => rw [toJson, fieldUnlessNull_eq]; rfl
  | send event data => rw [toJson, fieldUnlessNull_eq]; rfl
  | _ => rfl

theorem values_nodup (a : ActionSpec) : (tagKey :: a.values.map Prod.fst).Nodup := by
  cases a <;> simp [tagKey, values]

theorem plain_of_decode {inChart : Bool} {v : Json} {a : ActionSpec}
    (h : decode? inChart v = some a) : a.Plain := by
  obtain ⟨⟨tag, content⟩, -, h⟩ := Option.bind_eq_some_iff.1 h
  obtain ⟨name, -, h⟩ := Option.bind_eq_some_iff.1 h
  simp only [decodeFields?] at h
  -- The tags in turn; a reader of data leaves every key once, the others have nothing to show.
  split at h
  · obtain ⟨fs, -, h⟩ := Option.bind_eq_some_iff.1 h
    obtain ⟨values, -, h⟩ := Option.bind_eq_some_iff.1 h
    cases h
    exact dedupFields_dedupFields values
  · obtain ⟨fs, -, h⟩ := Option.bind_eq_some_iff.1 h
    obtain ⟨key, -, h⟩ := Option.bind_eq_some_iff.1 h
    cases h
    trivial
  · obtain ⟨fs, -, h⟩ := Option.bind_eq_some_iff.1 h
    obtain ⟨event, -, h⟩ := Option.bind_eq_some_iff.1 h
    cases h
    exact dedup_dedup _
  · obtain ⟨fs, -, h⟩ := Option.bind_eq_some_iff.1 h
    obtain ⟨event, -, h⟩ := Option.bind_eq_some_iff.1 h
    cases h
    exact dedup_dedup _
  · obtain ⟨fs, -, h⟩ := Option.bind_eq_some_iff.1 h
    obtain ⟨message, -, h⟩ := Option.bind_eq_some_iff.1 h
    cases h
    trivial
  · obtain ⟨fs, -, h⟩ := Option.bind_eq_some_iff.1 h
    obtain ⟨message, -, h⟩ := Option.bind_eq_some_iff.1 h
    cases h
    trivial
  · cases h

theorem plain_of_list {inChart : Bool} {v : Option Json} {actions : List ActionSpec}
    (h : list? (decode? inChart) v = some actions) : ∀ a ∈ actions, a.Plain := by
  intro a ha
  obtain ⟨w, hw⟩ := list?_eq_some h a ha
  exact plain_of_decode hw

theorem tagged?_toJson (a : ActionSpec) :
    tagged? a.toJson = some (.str a.tag, .obj (layout a.values)) := by
  have hfresh := (List.nodup_cons.1 a.values_nodup).1
  have hother : ∀ field ∈ layout a.values, field.1 ≠ tagKey := fun field hfield htag =>
    hfresh (htag ▸ layout_keys.subset (List.mem_map_of_mem hfield))
  have htag : ((tagKey, Json.str a.tag) :: layout a.values).filter (·.1 = tagKey) =
      [(tagKey, .str a.tag)] := by
    rw [List.filter_cons_of_pos (by simp), List.filter_eq_nil_iff.2 (by simpa using hother)]
  have hrest : ((tagKey, Json.str a.tag) :: layout a.values).filter (·.1 ≠ tagKey) =
      layout a.values := by
    rw [List.filter_cons_of_neg (by simp), List.filter_eq_self.2 (by simpa using hother)]
  rw [toJson_eq]
  simp only [tagged?, htag, hrest]

theorem decodeFields_values {a : ActionSpec} (ha : a.Plain) :
    decodeFields? a.tag (.obj (layout a.values)) = some a := by
  cases a with
  | assign values =>
    have hread : decodeFields? "assign" (.obj [("values", .obj values)]) =
        some (.assign (dedupFields values)) := rfl
    rwa [ha] at hread
  | assignEvent key => cases key <;> rfl
  | raise event data =>
    have hread : decodeFields? "raise" (.obj (layout (values (.raise event data)))) =
        some (.raise event data.dedup) := by cases data <;> rfl
    rwa [ha] at hread
  | send event data =>
    have hread : decodeFields? "send" (.obj (layout (values (.send event data)))) =
        some (.send event data.dedup) := by cases data <;> rfl
    rwa [ha] at hread
  | log message => rfl
  | fail message => rfl

/-- An action is read back. -/
theorem decode_toJson {a : ActionSpec} (ha : a.Plain) (inChart : Bool) :
    decode? inChart a.toJson = some a := by
  have htag : tagName? tags inChart (.str a.tag) = some a.tag := by cases a <;> rfl
  simp only [decode?, tagged?_toJson, Option.bind_eq_bind, Option.bind_some, htag,
    decodeFields_values ha]

end ActionSpec

/-! ## Transitions -/

namespace TransitionObject

/-- The fields of a written transition. -/
def values (o : TransitionObject) : List (String × Option Json) :=
  [("target", o.target.map Targets.toJson), ("guard", o.guard.map .str), ("in", o.inState.map .str),
    ("actions", listed ActionSpec.toJson o.actions)]

theorem values_nodup (o : TransitionObject) : (o.values.map Prod.fst).Nodup := by
  simp [values]

end TransitionObject

namespace TransitionSpec

def Plain : TransitionSpec → Prop
  | .target _ => True
  | .object o => ∀ a ∈ o.actions, a.Plain

theorem toJson_object (o : TransitionObject) : toJson (.object o) = .obj (layout o.values) := by
  rw [toJson, fieldIf_eq, fieldIf_eq, fieldIf_eq, fieldOf_eq, ← layout_append, ← layout_append,
    ← layout_append]
  rfl

theorem plain_of_decode {v : Json} {tr : TransitionSpec} (h : decode? v = some tr) : tr.Plain := by
  simp only [decode?] at h
  split at h
  · cases h
    trivial
  · obtain ⟨fs, -, h⟩ := Option.bind_eq_some_iff.1 h
    obtain ⟨goal, -, h⟩ := Option.bind_eq_some_iff.1 h
    obtain ⟨guard, -, h⟩ := Option.bind_eq_some_iff.1 h
    obtain ⟨inState, -, h⟩ := Option.bind_eq_some_iff.1 h
    obtain ⟨actions, hactions, h⟩ := Option.bind_eq_some_iff.1 h
    cases h
    exact ActionSpec.plain_of_list hactions

/-- A transition is read back. -/
theorem decode_toJson {tr : TransitionSpec} (h : tr.Plain) : decode? tr.toJson = some tr := by
  cases tr with
  | target goal => rfl
  | object o =>
    have hrecord : record? ["target", "guard", "in", "actions"] true (.obj (layout o.values)) =
        some (layout o.values) := record?_layout o.values_nodup (fun key hkey => hkey) true
    have htarget : optional? Targets.decode? (find? "target" (layout o.values)) =
        some o.target :=
      optional?_layout o.values_nodup (.head _) rfl fun goal _ => goal.decode_toJson
    have hguard : optional? str? (find? "guard" (layout o.values)) = some o.guard :=
      optional?_layout o.values_nodup (.tail _ (.head _)) rfl fun _ _ => rfl
    have hin : optional? str? (find? "in" (layout o.values)) = some o.inState :=
      optional?_layout o.values_nodup (.tail _ (.tail _ (.head _))) rfl fun _ _ => rfl
    have hactions : list? (ActionSpec.decode? true) (find? "actions" (layout o.values)) =
        some o.actions := by
      rw [find?_layout o.values_nodup (.tail _ (.tail _ (.tail _ (.head _))))]
      exact list?_listed fun a ha => ActionSpec.decode_toJson (h a ha) true
    rw [toJson_object]
    simp only [decode?, hrecord, htarget, hguard, hin, hactions, Option.bind_eq_bind,
      Option.bind_some]
    rfl

end TransitionSpec

namespace TransitionList

def Plain (list : TransitionList) : Prop :=
  ∀ tr ∈ list.toList, tr.Plain

theorem plain_of_decode {v : Json} {list : TransitionList} (h : decode? v = some list) :
    list.Plain := by
  simp only [decode?] at h
  split at h
  · rename_i ts hts
    cases h
    split at hts
    · intro tr htr
      obtain ⟨w, hw⟩ := mapM_eq_some hts tr htr
      exact TransitionSpec.plain_of_decode hw
    · cases hts
  · obtain ⟨tr, htr, h⟩ := Option.map_eq_some_iff.1 h
    cases h
    exact List.forall_mem_singleton.2 (TransitionSpec.plain_of_decode htr)

theorem plain_of_optional {v : Option Json} {list : Option TransitionList}
    (h : optional? decode? v = some list) : ∀ l, list = some l → l.Plain := by
  rintro l rfl
  obtain ⟨w, hw⟩ := optional?_eq_some h
  exact plain_of_decode hw

/-- A list of candidates is read back as a list, and one transition as one: its JSON is no array. -/
theorem decode_toJson {list : TransitionList} (h : list.Plain) :
    decode? list.toJson = some list := by
  cases list with
  | many candidates =>
    have hread : (candidates.map TransitionSpec.toJson).mapM TransitionSpec.decode? =
        some candidates := mapM_map_eq_some fun tr htr => TransitionSpec.decode_toJson (h tr htr)
    simp only [decode?, toJson, hread]
  | one tr =>
    have hread := TransitionSpec.decode_toJson (h tr (List.mem_singleton_self tr))
    cases tr with
    | target goal => rfl
    | object o =>
      rw [toJson, decode?, hread]
      · rfl
      · exact fun items => nofun

end TransitionList

/-! ## Services -/

namespace InvokeSpec

/-- The fields of an invoked service. -/
def values (i : InvokeSpec) : List (String × Option Json) :=
  [("id", i.id.map .str), ("src", some (.str i.src)), ("input", unlessNull i.input),
    ("onDone", i.onDone.map TransitionList.toJson),
    ("onError", i.onError.map TransitionList.toJson)]

theorem values_nodup (i : InvokeSpec) : (i.values.map Prod.fst).Nodup := by
  simp [values]

structure Plain (i : InvokeSpec) : Prop where
  input : i.input.dedup = i.input
  onDone : ∀ list, i.onDone = some list → list.Plain
  onError : ∀ list, i.onError = some list → list.Plain

theorem toJson_eq (i : InvokeSpec) : i.toJson = .obj (layout i.values) := by
  have hsrc : [("src", Json.str i.src)] = layout [("src", some (.str i.src))] := rfl
  rw [toJson, hsrc, fieldIf_eq, fieldIf_eq, fieldIf_eq, fieldUnlessNull_eq, ← layout_append,
    ← layout_append, ← layout_append, ← layout_append]
  rfl

theorem plain_of_decode {v : Json} {i : InvokeSpec} (h : decode? v = some i) : i.Plain := by
  obtain ⟨fs, -, h⟩ := Option.bind_eq_some_iff.1 h
  obtain ⟨id, -, h⟩ := Option.bind_eq_some_iff.1 h
  obtain ⟨src, -, h⟩ := Option.bind_eq_some_iff.1 h
  obtain ⟨onDone, hdone, h⟩ := Option.bind_eq_some_iff.1 h
  obtain ⟨onError, herror, h⟩ := Option.bind_eq_some_iff.1 h
  cases h
  exact ⟨dedup_dedup _, TransitionList.plain_of_optional hdone,
    TransitionList.plain_of_optional herror⟩

/-- An invoked service is read back. -/
theorem decode_toJson {i : InvokeSpec} (h : i.Plain) : decode? i.toJson = some i := by
  have hrecord : record? ["id", "src", "input", "onDone", "onError"] true (.obj (layout i.values)) =
      some (layout i.values) := record?_layout i.values_nodup (fun key hkey => hkey) true
  have hid : optional? str? (find? "id" (layout i.values)) = some i.id :=
    optional?_layout i.values_nodup (.head _) rfl fun _ _ => rfl
  have hsrc : required? str? (find? "src" (layout i.values)) = some i.src := by
    rw [find?_layout i.values_nodup (.tail _ (.head _))]
    rfl
  have hinput : ((find? "input" (layout i.values)).getD .null).dedup = i.input := by
    rw [find?_layout i.values_nodup (.tail _ (.tail _ (.head _))), getD_unlessNull, h.input]
  have hdone : optional? TransitionList.decode? (find? "onDone" (layout i.values)) =
      some i.onDone :=
    optional?_layout i.values_nodup (.tail _ (.tail _ (.tail _ (.head _)))) rfl
      fun list hlist => TransitionList.decode_toJson (h.onDone list hlist)
  have herror : optional? TransitionList.decode? (find? "onError" (layout i.values)) =
      some i.onError :=
    optional?_layout i.values_nodup (.tail _ (.tail _ (.tail _ (.tail _ (.head _))))) rfl
      fun list hlist => TransitionList.decode_toJson (h.onError list hlist)
  rw [toJson_eq]
  simp only [decode?, hrecord, hid, hsrc, hinput, hdone, herror, Option.bind_eq_bind,
    Option.bind_some]
  rfl

end InvokeSpec

/-! ## Entries by key -/

theorem orMalformed_eq_ok {α : Type} {x : Option α} {a : α} (h : orMalformed x = .ok a) :
    x = some a := by
  cases x <;> cases h
  rfl

section Entries

variable {α : Type} {read : Json → Option α} {write : α → Json} {seen : List String}
  {es : List (String × α)}

/-- Entries as the value of a field that is left out if there are none. -/
def entries (write : α → Json) : List (String × α) → Option Json
  | [] => none
  | es => some (.obj (es.map fun (k, a) => (k, write a)))

theorem entriesField_eq (key : String) (write : α → Json) (es : List (String × α)) :
    entriesField key write es = layout [(key, entries write es)] := by
  cases es <;> rfl

/-- Entries are read with distinct keys. -/
theorem decodeEntries_eq_ok {fields : Fields} (h : decodeEntries read seen fields = .ok es) :
    Fresh seen (es.map Prod.fst) ∧ ∀ entry ∈ es, ∃ w, read w = some entry.2 := by
  induction fields generalizing seen es with
  | nil => cases h; exact ⟨⟨.nil, nofun⟩, nofun⟩
  | cons field rest ih =>
    obtain ⟨k, v⟩ := field
    obtain ⟨a, ha, h⟩ := bind_eq_ok h
    split at h
    · cases h
    · rename_i hseen
      obtain ⟨others, hrest, h⟩ := bind_eq_ok h
      cases h
      obtain ⟨hkeys, hread⟩ := ih hrest
      rw [List.contains_iff_mem] at hseen
      exact ⟨fresh_cons.2 ⟨hseen, hkeys⟩,
        List.forall_mem_cons.2 ⟨⟨v, orMalformed_eq_ok ha⟩, hread⟩⟩

/-- What every value has that can be read, the values of entries have. -/
theorem decodeEntries_forall {P : α → Prop} (hread : ∀ w a, read w = some a → P a)
    {fields : Fields} (h : decodeEntries read [] fields = .ok es) :
    (es.map Prod.fst).Nodup ∧ ∀ entry ∈ es, P entry.2 := by
  obtain ⟨⟨hkeys, -⟩, hvalues⟩ := decodeEntries_eq_ok h
  refine ⟨hkeys, fun entry hentry => ?_⟩
  obtain ⟨w, hw⟩ := hvalues entry hentry
  exact hread w _ hw

/-- Entries with distinct keys are read back if their values are. -/
theorem decodeEntries_map (hkeys : Fresh seen (es.map Prod.fst))
    (hread : ∀ entry ∈ es, read (write entry.2) = some entry.2) :
    decodeEntries read seen (es.map fun (k, a) => (k, write a)) = .ok es := by
  induction es generalizing seen with
  | nil => rfl
  | cons entry rest ih =>
    obtain ⟨k, a⟩ := entry
    obtain ⟨hk, hkeys⟩ := fresh_cons.1 hkeys
    obtain ⟨ha, hread⟩ := List.forall_mem_cons.1 hread
    have hnew : seen.contains k = false := by simpa using hk
    simp only [List.map_cons, decodeEntries, ha, orMalformed, hnew, ih hkeys hread]
    rfl

end Entries

end Statechart
