import Statechart.Event.Json
import Statechart.Proofs.Repeats

/-!
# Statechart.Proofs.Spellings

The spellings of events. An event is written as one object; what is read as an event is an object
with its tag and its fields, each once, in any order and among other keys, or the array of them.

* `Json.Holds`: a value has these fields and no other ones that count.
* `Json.record?_holds`: what readers of records ask for.
* `ReadsField`: a reader of a field, with what it reads and how that is written. From such readers,
  `record?_one` and `record?_two` make one of a record.
* `Event.Fits`: an event that can be written without loss.
* `Event.decodeFields?_eq_some`: reading the fields behind a tag.
* `Event.read_exactly`: reading events, and reading them back.
-/

namespace Statechart

namespace Json

/-! ## Records -/

/-- Does the value have exactly these fields? An object has each of them once, and may have other
keys; an array has their values in order. -/
def Holds (fields : Fields) : Json → Prop
  | .obj fs => ∀ field ∈ fields, fs.filter (·.1 = field.1) = [field]
  | .arr items => items = fields.map Prod.snd
  | _ => False

theorem find?_eq_head? (key : String) (fields : Fields) :
    find? key fields = (fields.filter (·.1 = key)).head?.map Prod.snd := by
  induction fields with
  | nil => rfl
  | cons field rest ih =>
    obtain ⟨k, v⟩ := field
    rw [find?, List.filter_cons, ih]
    by_cases hk : k = key <;> simp [hk]

/-- A key is written once, with this value. -/
theorem filter_eq_singleton {fields : Fields} {key : String} {v : Json} :
    fields.filter (·.1 = key) = [(key, v)] ↔
      (fields.filter (·.1 = key)).length ≤ 1 ∧ find? key fields = some v := by
  have hkeys : ∀ field ∈ fields.filter (·.1 = key), field.1 = key := fun field hfield => by
    simpa using (List.mem_filter.1 hfield).2
  rw [find?_eq_head?]
  generalize fields.filter (·.1 = key) = found at hkeys ⊢
  match found with
  | [] => simp
  | [(k, w)] => simp [show k = key from hkeys (k, w) (List.mem_singleton_self _)]
  | _ :: _ :: _ => simp

/-- Values in order are those of the fields, if they are found there. -/
theorem find?_zip {fields : Fields} (hkeys : (fields.map Prod.fst).Nodup) {items : List Json}
    (hlength : items.length ≤ fields.length) :
    (∀ field ∈ fields, find? field.1 ((fields.map Prod.fst).zip items) = some field.2) ↔
      items = fields.map Prod.snd := by
  induction fields generalizing items with
  | nil => simpa using hlength
  | cons field rest ih =>
    obtain ⟨k, v⟩ := field
    obtain ⟨hfresh, hkeys⟩ := List.nodup_cons.1 hkeys
    cases items with
    | nil => exact iff_of_false (fun h => by cases h _ List.mem_cons_self) nofun
    | cons item items =>
      have hown : find? k ((k, item) :: (rest.map Prod.fst).zip items) = some item := if_pos rfl
      have hother : (∀ field ∈ rest,
          find? field.1 ((k, item) :: (rest.map Prod.fst).zip items) = some field.2) ↔
          ∀ field ∈ rest, find? field.1 ((rest.map Prod.fst).zip items) = some field.2 :=
        forall₂_congr fun field hfield => by
          rw [find?, if_neg fun hk => hfresh (List.mem_map.2 ⟨field, hfield, hk.symm⟩)]
      rw [List.forall_mem_cons, List.map_cons, List.map_cons, List.zip_cons_cons, hown, hother,
        ih hkeys (Nat.le_of_succ_le_succ hlength), Option.some.injEq, List.cons.injEq]

/-- What readers of records ask for: each of the fields, and nothing that must not be there. -/
theorem record?_holds {fields : Fields} (hkeys : (fields.map Prod.fst).Nodup) {v : Json} :
    (∃ fs, record? (fields.map Prod.fst) false v = some fs ∧
      ∀ field ∈ fields, find? field.1 fs = some field.2) ↔ v.Holds fields := by
  cases v with
  | obj fs =>
    have hsingle : ∀ field : String × Json, fs.filter (·.1 = field.1) = [field] ↔
        (fs.filter (·.1 = field.1)).length ≤ 1 ∧ find? field.1 fs = some field.2 :=
      fun _ => filter_eq_singleton
    have honce : repeats (fields.map Prod.fst) fs = false ↔
        ∀ field ∈ fields, (fs.filter (·.1 = field.1)).length ≤ 1 := by simp [repeats]
    have hfind : (∀ field ∈ fields, find? field.1
        (fs.filter fun given => (fields.map Prod.fst).contains given.1) = some field.2) ↔
        ∀ field ∈ fields, find? field.1 fs = some field.2 :=
      forall₂_congr fun field hfield => by
        rw [find?_filter (List.contains_iff_mem.2 (List.mem_map_of_mem hfield))]
    simp only [Holds, hsingle, forall_and, ← honce, ← hfind, record?]
    cases repeats (fields.map Prod.fst) fs with
    | true => simp
    | false => simp
  | arr items =>
    rw [Holds, record?, List.length_map]
    split
    · rename_i hmore
      refine iff_of_false ?_ ?_
      · rintro ⟨fs, h, -⟩
        cases h
      · rintro rfl
        rw [List.length_map] at hmore
        exact Nat.lt_irrefl _ hmore
    · rename_i hmore
      rw [← find?_zip hkeys (Nat.le_of_not_lt hmore)]
      simp only [Option.some.injEq, exists_eq_left']
  | _ => simp [record?, Holds]

theorem str?_eq_some {v : Json} {s : String} : str? v = some s ↔ v = .str s := by
  cases v <;> simp [str?]

theorem nat64?_eq_some {v : Json} {n : Nat} :
    nat64? v = some n ↔ v = .int n ∧ n ≤ greatestNat64 := by
  rw [nat64?, Option.filter_eq_some_iff, decide_eq_true_iff]
  refine and_congr_left fun _ => ?_
  cases v with
  | int m =>
    cases m with
    | ofNat m =>
      simp only [nat?, Option.some.injEq, Json.int.injEq, Int.ofNat_eq_natCast, Int.natCast_inj]
    | negSucc m => simp [nat?]
  | _ => simp [nat?]

theorem mapM_str? {items : List Json} {keys : List String} :
    items.mapM str? = some keys ↔ items = keys.map .str := by
  constructor
  · intro h
    induction items generalizing keys with
    | nil => cases h; rfl
    | cons item rest ih =>
      rw [List.mapM_cons] at h
      obtain ⟨key, hkey, h⟩ := Option.bind_eq_some_iff.1 h
      obtain ⟨others, hothers, h⟩ := Option.bind_eq_some_iff.1 h
      cases h
      rw [List.map_cons, str?_eq_some.1 hkey, ih hothers]
  · rintro rfl
    exact mapM_map_eq_some fun _ _ => rfl

end Json

open Json

theorem StateId.ofJson?_eq_some {v : Json} {id : StateId} :
    ofJson? v = some id ↔ v = id.toJson := by
  obtain ⟨keys⟩ := id
  cases v with
  | arr items => simp [ofJson?, strings?, toJson, mapM_str?]
  | _ => simp [ofJson?, strings?, toJson]

/-! ## Fields -/

/-- The reader of a field takes what is written of the things that fit, and nothing else. -/
def ReadsField {α : Type} (read : Option Json → Option α) (fits : α → Prop) (write : α → Json) :
    Prop :=
  ∀ v a, read v = some a ↔ fits a ∧ v = some (write a)

theorem readsField_any : ReadsField (fun v => v) (fun _ => True) (fun v : Json => v) :=
  fun _ _ => (and_iff_right trivial).symm

theorem readsField_str : ReadsField (required? str?) (fun _ => True) .str := by
  intro v s
  cases v <;> simp [required?, str?_eq_some]

theorem readsField_stateId : ReadsField (required? StateId.ofJson?) (fun _ => True)
    StateId.toJson := by
  intro v id
  cases v <;> simp [required?, StateId.ofJson?_eq_some]

section Records

variable {content : Json} {key other : String} {v w : Json}

theorem isBare_iff : isBare content = true ↔ content.Holds [] := by
  match content with
  | .obj _ => simp [isBare, Json.Holds]
  | .arr [] => simp [isBare, Json.Holds]
  | .arr (_ :: _) | .null | .bool _ | .int _ | .float _ | .str _ => simp [isBare, Json.Holds]

theorem holds_one : content.Holds [(key, v)] ↔
    ∃ fs, record? [key] false content = some fs ∧ find? key fs = some v := by
  rw [← @record?_holds [(key, v)] (List.nodup_singleton key) content]
  simp

theorem holds_two (hne : key ≠ other) : content.Holds [(key, v), (other, w)] ↔
    ∃ fs, record? [key, other] false content = some fs ∧ find? key fs = some v ∧
      find? other fs = some w := by
  rw [← @record?_holds [(key, v), (other, w)] (by simpa using hne) content]
  simp

variable {α β γ : Type} {read : Option Json → Option α} {read' : Option Json → Option β}
  {fits : α → Prop} {fits' : β → Prop} {write : α → Json} {write' : β → Json} {c : γ}

/-- Reading a record of one field. -/
theorem record?_one (hread : ReadsField read fits write) {build : α → γ} :
    ((record? [key] false content).bind fun fs =>
      (read (find? key fs)).bind fun a => some (build a)) = some c ↔
    ∃ a, (fits a ∧ content.Holds [(key, write a)]) ∧ build a = c := by
  simp only [Option.bind_eq_some_iff, Option.some.injEq]
  constructor
  · rintro ⟨fs, hfs, a, ha, rfl⟩
    obtain ⟨hfits, hfound⟩ := (hread _ _).1 ha
    exact ⟨a, ⟨hfits, holds_one.2 ⟨fs, hfs, hfound⟩⟩, rfl⟩
  · rintro ⟨a, ⟨hfits, hholds⟩, rfl⟩
    obtain ⟨fs, hfs, hfound⟩ := holds_one.1 hholds
    exact ⟨fs, hfs, a, (hread _ _).2 ⟨hfits, hfound⟩, rfl⟩

/-- Reading a record of two fields. -/
theorem record?_two (hne : key ≠ other) (hread : ReadsField read fits write)
    (hread' : ReadsField read' fits' write') {build : α → β → γ} :
    ((record? [key, other] false content).bind fun fs =>
      (read (find? key fs)).bind fun a => (read' (find? other fs)).bind fun b =>
        some (build a b)) = some c ↔
    ∃ a b, ((fits a ∧ fits' b) ∧ content.Holds [(key, write a), (other, write' b)]) ∧
      build a b = c := by
  simp only [Option.bind_eq_some_iff, Option.some.injEq]
  constructor
  · rintro ⟨fs, hfs, a, ha, b, hb, rfl⟩
    obtain ⟨hfits, hfound⟩ := (hread _ _).1 ha
    obtain ⟨hfits', hfound'⟩ := (hread' _ _).1 hb
    exact ⟨a, b, ⟨⟨hfits, hfits'⟩, (holds_two hne).2 ⟨fs, hfs, hfound, hfound'⟩⟩, rfl⟩
  · rintro ⟨a, b, ⟨⟨hfits, hfits'⟩, hholds⟩, rfl⟩
    obtain ⟨fs, hfs, hfound, hfound'⟩ := (holds_two hne).1 hholds
    exact ⟨fs, hfs, a, (hread _ _).2 ⟨hfits, hfound⟩, b, (hread' _ _).2 ⟨hfits', hfound'⟩, rfl⟩

end Records

/-! ## Events -/

namespace Event

/-- Can the event be written without loss? A delay has to fit 64 bits. -/
def Fits : Event → Prop
  | .delayed _ delay => delay ≤ greatestNat64
  | _ => True

/-- The tag and the fields of the event. -/
def spelling (e : Event) : Fields :=
  (tagKey, .str e.tag) :: e.toFields

theorem readsField_delay : ReadsField (required? nat64?) (· ≤ greatestNat64) delayToJson := by
  intro v delay
  have hread : required? nat64? v = some delay ↔
      v = some (.int delay) ∧ delay ≤ greatestNat64 := by
    cases v <;> simp [required?, nat64?_eq_some]
  rw [hread, and_comm]
  refine and_congr_right fun hfits => ?_
  rw [delayToJson, Nat.mod_eq_of_lt (Nat.lt_succ_of_le hfits)]

/-- What is read behind a tag is an event with this tag. -/
theorem decodeFields?_tag {name : String} {content : Json} {e : Event}
    (h : decodeFields? name content = some e) : e.tag = name := by
  simp only [decodeFields?] at h
  split at h <;> grind [tag, Option.bind_eq_some_iff]

/-- The fields of an event are read behind its tag. -/
theorem decodeFields?_self {content : Json} (e : Event) :
    decodeFields? e.tag content = some e ↔ e.Fits ∧ content.Holds e.toFields := by
  cases e with
  | start => simp [decodeFields?, tag, isBare_iff, Fits, toFields]
  | named name data =>
    exact (record?_two (by decide) readsField_str readsField_any).trans (by simp [Fits, toFields])
  | immediate => simp [decodeFields?, tag, isBare_iff, Fits, toFields]
  | delayed state delay =>
    exact (record?_two (by decide) readsField_stateId readsField_delay).trans
      (by simp [Fits, toFields])
  | serviceSuccess id data =>
    exact (record?_two (by decide) readsField_str readsField_any).trans (by simp [Fits, toFields])
  | serviceError id message =>
    exact (record?_two (by decide) readsField_str readsField_str).trans (by simp [Fits, toFields])
  | done state => exact (record?_one readsField_stateId).trans (by simp [Fits, toFields])
  | executionError message => exact (record?_one readsField_str).trans (by simp [Fits, toFields])

/-- The fields behind a tag are those of an event with this tag. -/
theorem decodeFields?_eq_some {name : String} {content : Json} {e : Event} :
    decodeFields? name content = some e ↔ e.tag = name ∧ e.Fits ∧ content.Holds e.toFields := by
  constructor
  · intro h
    obtain rfl := decodeFields?_tag h
    exact ⟨rfl, (decodeFields?_self e).1 h⟩
  · rintro ⟨rfl, h⟩
    exact (decodeFields?_self e).2 h

/-- No event has a field of the tag's name. -/
theorem toFields_key_ne (e : Event) : ∀ field ∈ e.toFields, field.1 ≠ tagKey := by
  cases e <;> simp [toFields, tagKey]

/-- The tag in front, and the fields behind it. -/
theorem holds_spelling (e : Event) {v : Json} :
    v.Holds e.spelling ↔ ∃ content, tagged? v = some (.str e.tag, content) ∧
      content.Holds e.toFields := by
  cases v with
  | obj fs =>
    have hother : ∀ field ∈ e.toFields, (fs.filter (·.1 ≠ tagKey)).filter (·.1 = field.1) =
        fs.filter (·.1 = field.1) := fun field hfield => by
      rw [List.filter_filter]
      refine List.filter_congr fun given _ => ?_
      have hne := e.toFields_key_ne field hfield
      by_cases hkey : given.1 = field.1
      · simp [hkey, hne]
      · simp [hkey]
    have hfields : (Json.obj (fs.filter (·.1 ≠ tagKey))).Holds e.toFields ↔
        ∀ field ∈ e.toFields, fs.filter (·.1 = field.1) = [field] :=
      forall₂_congr fun field hfield => by rw [hother field hfield]
    rw [Json.Holds, spelling, List.forall_mem_cons, ← hfields, tagged?]
    constructor
    · rintro ⟨htag, hrest⟩
      exact ⟨_, by rw [htag], hrest⟩
    · rintro ⟨content, htag, hrest⟩
      split at htag
      · rename_i key tag hone
        have hmem : (key, tag) ∈ fs.filter (·.1 = tagKey) := hone ▸ List.mem_singleton_self _
        obtain rfl : key = tagKey := by simpa using (List.mem_filter.1 hmem).2
        cases htag
        exact ⟨hone, hrest⟩
      · cases htag
  | arr items =>
    cases items with
    | nil => simp [Json.Holds, spelling, tagged?]
    | cons first rest => simp [Json.Holds, spelling, tagged?]
  | _ => simp [Json.Holds, tagged?]

/-- What is read as an event: an object or an array with its tag and its fields. -/
theorem ofJson?_eq_some {v : Json} {e : Event} :
    ofJson? v = some e ↔ e.Fits ∧ v.Holds e.spelling := by
  rw [holds_spelling]
  constructor
  · intro h
    obtain ⟨⟨tag, content⟩, htagged, h⟩ := Option.bind_eq_some_iff.1 h
    obtain ⟨name, hname, h⟩ := Option.bind_eq_some_iff.1 h
    obtain ⟨rfl, hfits, hfields⟩ := decodeFields?_eq_some.1 h
    exact ⟨hfits, content, str?_eq_some.1 hname ▸ htagged, hfields⟩
  · rintro ⟨hfits, content, htagged, hfields⟩
    rw [ofJson?, htagged]
    exact decodeFields?_eq_some.2 ⟨rfl, hfits, hfields⟩

/-- An object with the fields of an event has them. -/
theorem toJson_holds (e : Event) : e.toJson.Holds e.spelling := by
  cases e <;> simp [toJson, spelling, Json.Holds, toFields, tagKey]

/-- Events are read from what they are written as, unless a delay does not fit, and from every other
object or array with their tag and fields; an event that was read is read again from what it is
written as. -/
theorem read_exactly (e : Event) :
    (ofJson? e.toJson = some e ↔ e.Fits) ∧
      (∀ v, ofJson? v = some e ↔ e.Fits ∧ v.Holds e.spelling) ∧
      ∀ v, ofJson? v = some e → ofJson? e.toJson = some e := by
  have hwritten : ofJson? e.toJson = some e ↔ e.Fits :=
    ofJson?_eq_some.trans (and_iff_left e.toJson_holds)
  refine ⟨hwritten, fun _ => ofJson?_eq_some, fun v hv => ?_⟩
  exact hwritten.2 (ofJson?_eq_some.1 hv).1

/-- The longest delay, written with another key and the tag last. -/
theorem longest_delay_read :
    let delay := Event.delayed ⟨["light", "green"]⟩ 18446744073709551615
    let given := Json.obj [("delay", .int 18446744073709551615), ("colour", .null),
      ("state", .arr [.str "light", .str "green"]), ("type", .str "delayed")]
    ofJson? given = some delay ∧ ofJson? delay.toJson = some delay := by
  intro delay given
  have hgiven : ofJson? given = some delay := rfl
  exact ⟨hgiven, (read_exactly delay).2.2 given hgiven⟩

/-- Of a delay that is one too long, nothing is left. -/
example : ofJson? (toJson (.delayed ⟨["light"]⟩ 18446744073709551616)) =
    some (.delayed ⟨["light"]⟩ 0) :=
  rfl

end Event

end Statechart
