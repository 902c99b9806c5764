import Statechart.Command.Argument
import Statechart.Proofs.RoundTrip
import Statechart.Proofs.Strictness

/-!
# Statechart.Proofs.Agreement

Charts on the command line and charts in text. An argument is read as the value that it denotes,
with the last value of a key that is written twice; text is read as it was written. The first
accepts more than the second: charts in which a key that is looked for is written twice.

* `StateSpec.decode_toOption`: a state is read as a record, field by field.
* `StateSpec.Once`: every key that is looked for in a state, and in the states below it, is written
  once.
* `StateSpec.decode_narrows`, `ChartSpec.ofJson_narrows`: the readers on what was written and on
  what it denotes, by recursion on the value.
* `Chart.parse_iff_ofArgument`: when a chart is read in both ways, and as the same chart.
-/

namespace Statechart

open Json

/-! ## States -/

namespace StateField

/-- Is every key written once in a field of a state, the states below it aside? -/
def Once : StateField → Json → Prop
  | .type, .obj fields | .states, .obj fields => (fields.map Prod.fst).Nodup
  | .entry, .arr items | .exit, .arr items => ∀ w ∈ items, ActionSpec.Once w
  | .on, .obj fields | .after, .obj fields =>
    (fields.map Prod.fst).Nodup ∧ ∀ field ∈ fields, TransitionList.Once field.2
  | .always, v | .onDone, v | .onError, v => TransitionList.Once v
  | .invoke, .arr items => ∀ w ∈ items, InvokeSpec.Once w
  | _, _ => True

theorem ofKey?_eq_some {key : String} {field : StateField} :
    ofKey? key = some field ↔ key = field.key := by
  constructor
  · intro h
    have hkey := List.find?_some h
    exact (of_decide_eq_true hkey).symm
  · rintro rfl
    exact field.ofKey_key

theorem key_injective : Function.Injective key := by
  intro field other h
  exact Option.some.inj ((ofKey?_eq_some.2 h).symm.trans field.ofKey_key).symm

end StateField

namespace StateSpec

def fieldNames : List String := StateField.all.map StateField.key

/-- Reads a field of a state by its key. -/
def readPart? (s : StateSpec) (part : String × Json) : Option StateSpec :=
  match StateField.ofKey? part.1 with
  | some field => (readField field s part.2).toOption
  | none => some s

theorem readPart?_key (s : StateSpec) (field : StateField) (v : Json) :
    readPart? s (field.key, v) = (readField field s v).toOption := by
  simp only [readPart?, field.ofKey_key]

theorem contains_fieldNames (key : String) :
    fieldNames.contains key = (StateField.ofKey? key).isSome := by
  rw [Bool.eq_iff_iff, Option.isSome_iff_exists, List.contains_iff_mem, fieldNames, List.mem_map]
  simp only [StateField.ofKey?_eq_some]
  constructor
  · rintro ⟨field, -, rfl⟩
    exact ⟨field, rfl⟩
  · rintro ⟨field, rfl⟩
    exact ⟨field, by cases field <;> decide, rfl⟩

theorem decodeKeyed_toOption {seen : List StateField} {s t : StateSpec} {fields : Fields} :
    (decodeKeyed seen s fields).toOption = some t ↔
      Fresh (seen.map StateField.key) ((parts fieldNames (.obj fields)).map Prod.fst) ∧
        (parts fieldNames (.obj fields)).foldlM readPart? s = some t := by
  induction fields generalizing seen s with
  | nil => simp [decodeKeyed, parts, Fresh, Except.toOption]
  | cons field rest ih =>
    obtain ⟨k, v⟩ := field
    rw [parts, List.filter_cons, contains_fieldNames]
    cases hkey : StateField.ofKey? k with
    | none =>
      rw [decodeKeyed]
      simp only [hkey]
      exact ih
    | some field =>
      obtain rfl := StateField.ofKey?_eq_some.1 hkey
      have hseen : field.key ∈ seen.map StateField.key ↔ field ∈ seen :=
        List.mem_map_of_injective StateField.key_injective
      rw [Option.isSome_some, if_pos rfl, List.map_cons, fresh_cons, hseen, List.foldlM_cons,
        readPart?_key]
      by_cases hfield : field ∈ seen
      · rw [decodeKeyed]
        simp [hkey, hfield, Except.toOption]
      · rw [decodeKeyed_cons hfield hkey, toOption_bind]
        simp only [Option.bind_eq_some_iff, Option.bind_eq_bind, ih, List.map_cons]
        constructor
        · rintro ⟨mid, hmid, hkeys, hrest⟩
          exact ⟨⟨hfield, hkeys⟩, mid, hmid, hrest⟩
        · rintro ⟨⟨-, hkeys⟩, mid, hmid, hrest⟩
          exact ⟨mid, hmid, hkeys, hrest⟩

theorem decodeInOrder_toOption (left : List StateField) (s : StateSpec) (items : List Json) :
    (decodeInOrder left s items).toOption =
      if left.length < items.length then none
      else ((left.map StateField.key).zip items).foldlM readPart? s := by
  induction items generalizing left s with
  | nil => cases left <;> simp [decodeInOrder, Except.toOption]
  | cons v rest ih =>
    cases left with
    | nil => simp [decodeInOrder, Except.toOption]
    | cons field left =>
      rw [decodeInOrder_cons, toOption_bind, List.map_cons, List.zip_cons_cons, List.foldlM_cons,
        readPart?_key, List.length_cons, List.length_cons]
      simp only [ih, Nat.add_lt_add_iff_right]
      split
      · cases (readField field s v).toOption <;> rfl
      · rfl

/-- A state is read as a record. -/
theorem decode_toOption (v : Json) :
    (decode v).toOption = (record? fieldNames false v).bind fun fs => fs.foldlM readPart? {} := by
  cases v with
  | obj fields =>
    refine Option.ext fun t => ?_
    rw [decode, decodeKeyed_toOption, List.map_nil, fresh_nil, Option.bind_eq_some_iff]
    simp only [record?_eq_some]
    constructor
    · rintro ⟨hkeys, hread⟩
      exact ⟨_, ⟨hkeys, rfl⟩, hread⟩
    · rintro ⟨_, ⟨hkeys, rfl⟩, hread⟩
      exact ⟨hkeys, hread⟩
  | arr items =>
    rw [decode, decodeInOrder_toOption, record?]
    have hlength : fieldNames.length = StateField.all.length := List.length_map _
    rw [hlength]
    split
    · rfl
    · rfl
  | _ => rfl

/-- States are read as entries. -/
theorem decodeStates_toOption (seen : List String) (fields : Fields) :
    (decodeStates seen fields).toOption =
      (decodeEntries (fun v => (decode v).toOption) seen fields).toOption := by
  induction fields generalizing seen with
  | nil => rfl
  | cons field rest ih =>
    obtain ⟨k, v⟩ := field
    rw [decodeStates, decodeEntries, toOption_bind, toOption_bind, toOption_orMalformed]
    refine congrArg _ (funext fun state => ?_)
    split
    · rfl
    · rw [toOption_bind, toOption_bind, ih]

/-- Is every key written once in a state and in the states below it? -/
inductive Once : Json → Prop where
  | intro {v : Json} : OnceIn fieldNames v →
      (∀ field w, (StateField.key field, w) ∈ parts fieldNames v → field.Once w) →
      (∀ children, (StateField.states.key, .obj children) ∈ parts fieldNames v →
        ∀ below ∈ children, Once below.2) → Once v

section Field

variable {α : Type} {read : Json → Option α} {once : Json → Prop}

theorem setField_narrows {x y : Option α} {once : Prop} (h : Narrows once x y)
    (set : α → StateSpec) :
    Narrows once (orMalformed x >>= fun a => Except.ok (set a)).toOption
      (orMalformed y >>= fun a => Except.ok (set a)).toOption := by
  rw [toOption_bind, toOption_bind, toOption_orMalformed, toOption_orMalformed]
  exact h.bind_same _

theorem setItems_narrows (h : ∀ v, Narrows (once v) (read v) (read v.dedup))
    (set : List α → StateSpec) (v : Json) :
    Narrows (∀ items, v = .arr items → ∀ w ∈ items, once w)
      (orMalformed (list? read (some v)) >>= fun as => Except.ok (set as)).toOption
      (orMalformed (list? read (some v.dedup)) >>= fun as => Except.ok (set as)).toOption :=
  (setField_narrows (list?_narrows h (some v)) set).congr (by simp)

theorem setEntries_narrows (h : ∀ v, Narrows (once v) (read v) (read v.dedup))
    (set : List (String × α) → StateSpec) (v : Json) :
    Narrows (∀ fields, v = .obj fields →
        (fields.map Prod.fst).Nodup ∧ ∀ field ∈ fields, once field.2)
      (orMalformed (fields? v) >>= fun fields =>
        decodeEntries read [] fields >>= fun es => Except.ok (set es)).toOption
      (orMalformed (fields? v.dedup) >>= fun fields =>
        decodeEntries read [] fields >>= fun es => Except.ok (set es)).toOption := by
  cases v with
  | obj fields =>
    have hentries := decodeEntries_narrows fun field (_ : field ∈ fields) => h field.2
    simp only [dedup, fields?, orMalformed, toOption_bind]
    exact (hentries.bind_same _).congr (by simp)
  | _ => exact .none _

end Field

theorem decodeField_narrows (field : StateField) (s : StateSpec) (v : Json) :
    Narrows (field.Once v) (decodeField field s v).toOption
      (decodeField field s v.dedup).toOption := by
  cases field with
  | type =>
    exact (setField_narrows (optional?_narrows (fun _ => nofun) StateType.decode?_narrows (some v))
      fun type => { s with type }).congr (by cases v <;> simp [StateField.Once])
  | initial =>
    exact (setField_narrows (.of_eq (optional?_dedup str?_dedup (some v)).symm)
      fun initial => { s with initial }).congr (by simp [StateField.Once])
  | entry =>
    exact (setItems_narrows ActionSpec.decode?_narrows (fun entry => { s with entry }) v).congr
      (by cases v <;> simp [StateField.Once])
  | exit =>
    exact (setItems_narrows ActionSpec.decode?_narrows (fun exit => { s with exit }) v).congr
      (by cases v <;> simp [StateField.Once])
  | on =>
    have hread : ∀ v, Narrows (TransitionList.Once v) ((optional? TransitionList.decode? ∘ some) v)
        ((optional? TransitionList.decode? ∘ some) v.dedup) := fun v =>
      (TransitionList.optional?_narrows (some v)).congr (by simp)
    exact (setEntries_narrows hread (fun on => { s with on }) v).congr
      (by cases v <;> simp [StateField.Once])
  | always =>
    exact (setField_narrows (TransitionList.optional?_narrows (some v))
      (fun always => { s with always })).congr (by simp [StateField.Once])
  | after =>
    exact (setEntries_narrows TransitionList.decode?_narrows (fun after => { s with after })
      v).congr (by cases v <;> simp [StateField.Once])
  | onDone =>
    exact (setField_narrows (TransitionList.optional?_narrows (some v))
      (fun onDone => { s with onDone })).congr (by simp [StateField.Once])
  | onError =>
    exact (setField_narrows (TransitionList.optional?_narrows (some v))
      (fun onError => { s with onError })).congr (by simp [StateField.Once])
  | invoke =>
    exact (setItems_narrows InvokeSpec.decode?_narrows (fun invoke => { s with invoke }) v).congr
      (by cases v <;> simp [StateField.Once])
  | states => exact .none _

theorem readField_narrows (field : StateField) (s : StateSpec) {v : Json}
    (hbelow : ∀ children, field = .states → v = .obj children → ∀ below ∈ children,
      Narrows (Once below.2) (decode below.2).toOption (decode below.2.dedup).toOption) :
    Narrows (field.Once v ∧
        ∀ children, field = .states → v = .obj children → ∀ below ∈ children, Once below.2)
      (readField field s v).toOption (readField field s v.dedup).toOption := by
  by_cases hstates : field = .states ∧ ∃ children, v = .obj children
  · obtain ⟨rfl, children, rfl⟩ := hstates
    have hchildren : Narrows ((children.map Prod.fst).Nodup ∧ ∀ below ∈ children, Once below.2)
        (decodeEntries (fun v => (decode v).toOption) [] children).toOption
        (decodeEntries (fun v => (decode v).toOption) [] (dedupFields children)).toOption :=
      decodeEntries_narrows (hbelow children rfl rfl)
    rw [dedup, readField_states, readField_states, toOption_bind, toOption_bind,
      decodeStates_toOption, decodeStates_toOption]
    exact (hchildren.bind_same _).congr (by simp [StateField.Once])
  · have hraw : ∀ children, field = .states → v ≠ .obj children :=
      fun children hfield hv => hstates ⟨hfield, children, hv⟩
    have hmerged : ∀ children, field = .states → v.dedup ≠ .obj children := by
      intro children hfield hv
      cases v with
      | obj fields => exact hraw fields hfield rfl
      | _ => cases hv
    rw [readField_eq hraw, readField_eq hmerged]
    exact (decodeField_narrows field s v).congr
      ⟨fun h => ⟨h, fun children hfield hv => absurd hv (hraw children hfield)⟩, fun h => h.1⟩

/-- What `Once` asks of one field of a state. -/
def PartOnce (part : String × Json) : Prop :=
  (∀ field, part.1 = StateField.key field → field.Once part.2) ∧
    ∀ children, part.1 = StateField.states.key → part.2 = .obj children →
      ∀ below ∈ children, Once below.2

theorem once_iff {v : Json} :
    Once v ↔ OnceIn fieldNames v ∧ ∀ part ∈ parts fieldNames v, PartOnce part := by
  constructor
  · rintro ⟨hkeys, hown, hbelow⟩
    refine ⟨hkeys, ?_⟩
    rintro ⟨k, w⟩ hpart
    constructor
    · rintro field rfl
      exact hown field w hpart
    · rintro children rfl rfl
      exact hbelow children hpart
  · rintro ⟨hkeys, hparts⟩
    exact ⟨hkeys, fun field w hpart => (hparts _ hpart).1 field rfl,
      fun children hpart => (hparts _ hpart).2 children rfl rfl⟩

theorem readPart?_narrows {part : String × Json}
    (hbelow : ∀ children, part.2 = .obj children → ∀ below ∈ children,
      Narrows (Once below.2) (decode below.2).toOption (decode below.2.dedup).toOption)
    (s : StateSpec) :
    Narrows (PartOnce part) (readPart? s part) (readPart? s (part.1, part.2.dedup)) := by
  simp only [readPart?, PartOnce, ← StateField.ofKey?_eq_some]
  cases hkey : StateField.ofKey? part.1 with
  | none => exact (Narrows.refl _).congr (by simp)
  | some field =>
    exact (readField_narrows field s fun children _ => hbelow children).congr (by simp)

/-- A state is read as it was written if every key that is looked for is written once. -/
theorem decode_narrows (v : Json) :
    Narrows (Once v) (decode v).toOption (decode v.dedup).toOption := by
  -- The states below are smaller than the value that they stand in.
  have hbelow : ∀ part ∈ parts fieldNames v, ∀ children, part.2 = .obj children →
      ∀ below ∈ children,
        Narrows (Once below.2) (decode below.2).toOption (decode below.2.dedup).toOption := by
    intro part hpart children hchildren below hbelow
    have hlt : sizeOf below.2 < sizeOf v := by
      have hpart := sizeOf_lt_of_mem_parts hpart
      rw [hchildren] at hpart
      exact (sizeOf_field_lt hbelow).trans hpart
    exact decode_narrows below.2
  rw [decode_toOption, decode_toOption]
  refine (record?_narrows (by decide) false ?_).congr once_iff.symm
  rw [merged, List.foldlM_map]
  exact .foldlM (fun part hpart s => readPart?_narrows (hbelow part hpart) s) {}
termination_by sizeOf v

end StateSpec

/-! ## Charts -/

namespace ChartSpec

def fieldNames : List String := ["id", "context"]

/-- Is every key written once that is looked for in a chart? -/
def Once (v : Json) : Prop :=
  OnceIn fieldNames v ∧ StateSpec.Once v

/-- The id and the context of a chart are not looked for in its root. -/
theorem decodeKeyed_filter (fields : Fields) :
    (StateSpec.decodeKeyed [] {} (fields.filter fun (k, _) => k ≠ "id" && k ≠ "context")).toOption =
      (StateSpec.decode (.obj fields)).toOption := by
  have hother : ∀ key ∈ StateSpec.fieldNames, (key ≠ "id" && key ≠ "context") = true := by decide
  have hparts : parts StateSpec.fieldNames
      (.obj (fields.filter fun (k, _) => k ≠ "id" && k ≠ "context")) =
      parts StateSpec.fieldNames (.obj fields) := by
    rw [parts, parts, List.filter_filter]
    refine List.filter_congr fun field _ => ?_
    cases hkey : StateSpec.fieldNames.contains field.1 with
    | true => exact hother _ (List.contains_iff_mem.1 hkey)
    | false => rfl
  refine Option.ext fun root => ?_
  rw [StateSpec.decode, StateSpec.decodeKeyed_toOption, StateSpec.decodeKeyed_toOption, hparts]

/-- A chart is read as a record and as its root. -/
theorem ofJson_toOption (fields : Fields) :
    (ofJson (.obj fields)).toOption =
      (record? fieldNames false (.obj fields)).bind fun fs =>
        (required? str? (find? "id" fs)).bind fun id =>
          (StateSpec.decode (.obj fields)).toOption.map fun root =>
            { id, context := ((find? "context" fs).getD .null).dedup, root } := by
  have hfind : ∀ key ∈ fieldNames, find? key (parts fieldNames (.obj fields)) = find? key fields :=
    fun key hkey => find?_filter (List.contains_iff_mem.2 hkey) fields
  rw [ofJson, ← decodeKeyed_filter]
  cases hrepeats : repeats fieldNames fields with
  | true =>
    have hnone : record? fieldNames false (.obj fields) = none := by
      rw [record?, hrepeats]
      rfl
    have hraw : repeats ["id", "context"] fields = true := hrepeats
    simp only [hraw, hnone]
    rfl
  | false =>
    have hraw : repeats ["id", "context"] fields = false := hrepeats
    rw [record?_eq_some.2 ⟨repeats_eq_false.1 hrepeats, rfl⟩, Option.bind_some,
      hfind "id" (by decide), hfind "context" (by decide)]
    simp only [hraw]
    cases required? str? (find? "id" fields) with
    | none => rfl
    | some id =>
      simp only [Bool.false_eq_true, if_false, toOption_bind, Option.bind_some]
      exact Option.map_eq_bind.symm

theorem ofJson_narrows (v : Json) :
    Narrows (Once v) (ofJson v).toOption (ofJson v.dedup).toOption := by
  cases v with
  | obj fields =>
    have hroot := StateSpec.decode_narrows (.obj fields)
    rw [dedup] at hroot ⊢
    rw [ofJson_toOption, ofJson_toOption, ← dedup]
    refine record?_narrows (by decide) false ?_
    simp only [find?_merged, required?_dedup str?_dedup, getD_dedup]
    exact ((Narrows.refl _).bind fun id => hroot.map _).congr (true_and _).to_iff
  | _ => exact .none _

end ChartSpec

namespace Chart

theorem ofJson_narrows (v : Json) :
    Narrows (ChartSpec.Once v) (ofJson v).toOption (ofJson v.dedup).toOption := by
  have hofJson : ∀ v, (ofJson v).toOption =
      (ChartSpec.ofJson v).toOption.bind fun spec => (ofSpec spec).toOption := by
    intro v
    rw [ofJson]
    cases ChartSpec.ofJson v <;> rfl
  rw [hofJson, hofJson]
  exact (ChartSpec.ofJson_narrows v).bind_same _

theorem parse_eq_ok {text : String} {c : Chart} :
    parse text = .ok c ↔ ∃ v, Json.parse? text = some v ∧ ofJson v = .ok c := by
  rw [parse, ChartSpec.parse, Json.parse?]
  cases Json.parseDocument? text with
  | none => simp
  | some read =>
    obtain ⟨v, rest⟩ := read
    by_cases hrest : Json.skipSpace rest = [] <;> cases hspec : ChartSpec.ofJson v <;>
      simp [bind, Except.bind, pure, Except.pure, ofJson, hrest, hspec]

/-- An argument that holds a chart is read as the value that it denotes. -/
theorem ofArgument_eq_ok (files : Files) {text : String} {c : Chart}
    (h : text.toList.head? ≠ some Argument.fileMark) :
    ofArgument files text = .ok c ↔ ∃ v, Json.parse? text = some v ∧ ofJson v.dedup = .ok c := by
  rw [ofArgument, Argument.ofText_eq_inline h, Argument.value, Argument.text]
  cases htext : Json.parse? text with
  | none => simp [bind, Except.bind, htext]
  | some v =>
    cases hchart : ofJson v.dedup <;>
      simp [bind, Except.bind, pure, Except.pure, htext, hchart]

/-- A chart is read from text exactly if it is read on the command line, as the same chart with the
same checksum, and every key that is looked for in it is written once. -/
theorem parse_iff_ofArgument (files : Files) {text : String} (c : Chart)
    (h : text.toList.head? ≠ some Argument.fileMark) :
    parse text = .ok c ↔
      ofArgument files text = .ok c ∧ ∃ v, Json.parse? text = some v ∧ ChartSpec.Once v := by
  rw [parse_eq_ok, ofArgument_eq_ok files h]
  constructor
  · rintro ⟨v, hv, hc⟩
    obtain ⟨hmerged, honce⟩ := (ofJson_narrows v c).1 (toOption_eq_some.2 hc)
    exact ⟨⟨v, hv, toOption_eq_some.1 hmerged⟩, v, hv, honce⟩
  · rintro ⟨⟨v, hv, hc⟩, w, hw, honce⟩
    cases hv.symm.trans hw
    exact ⟨v, hv, toOption_eq_some.1 ((ofJson_narrows v c).2 ⟨toOption_eq_some.2 hc, honce⟩)⟩

end Chart

/-- A door with a note on it, which is written twice and means nothing. -/
def notedText : String :=
  "\x7b\"note\":1,\"note\":2,\"id\":\"door\",\"initial\":\"shut\"," ++
    "\"states\":\x7b\"shut\":\x7b\x7d\x7d\x7d"

/-- A door with a state that is written twice. -/
def repeatedText : String :=
  "\x7b\"id\":\"door\",\"initial\":\"shut\"," ++
    "\"states\":\x7b\"shut\":\x7b\x7d,\"shut\":\x7b\x7d\x7d\x7d"

def notedJson : Json :=
  .obj [("note", .int 1), ("note", .int 2), ("id", .str "door"), ("initial", .str "shut"),
    ("states", .obj [("shut", .obj [])])]

def repeatedJson : Json :=
  .obj [("id", .str "door"), ("initial", .str "shut"),
    ("states", .obj [("shut", .obj []), ("shut", .obj [])])]

def shutDoor : ChartSpec where
  id := "door"
  root := { initial := some "shut", states := [("shut", {})] }

theorem noted_read_alike :
    notedText.toList.head? ≠ some Argument.fileMark ∧
      Chart.parse notedText = .ok ⟨shutDoor, shutDoor.checksum⟩ ∧
      Chart.ofArgument (fun _ => none) notedText = .ok ⟨shutDoor, shutDoor.checksum⟩ := by
  have hmark : notedText.toList.head? ≠ some Argument.fileMark := by decide
  have hread : Json.parse? notedText = some notedJson := rfl
  have hparse := Chart.parse_eq_ok.2 ⟨notedJson, hread, rfl⟩
  exact ⟨hmark, hparse, ((Chart.parse_iff_ofArgument _ _ hmark).1 hparse).1⟩

/-- The command line takes a state that is written twice, and text is refused for it. -/
theorem repeated_read_apart :
    repeatedText.toList.head? ≠ some Argument.fileMark ∧
      Chart.parse repeatedText = .error (.badJson (.duplicateKey "shut")) ∧
      Chart.ofArgument (fun _ => none) repeatedText = .ok ⟨shutDoor, shutDoor.checksum⟩ := by
  have hmark : repeatedText.toList.head? ≠ some Argument.fileMark := by decide
  have hread : Json.parse? repeatedText = some repeatedJson := rfl
  have hdocument : Json.parseDocument? repeatedText = some (repeatedJson, []) := rfl
  refine ⟨hmark, ?_, (Chart.ofArgument_eq_ok _ hmark).2 ⟨repeatedJson, hread, rfl⟩⟩
  rw [Chart.parse, ChartSpec.parse, hdocument]
  rfl

end Statechart
