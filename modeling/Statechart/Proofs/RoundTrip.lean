import Statechart.Chart.Compile
import Statechart.Proofs.Parts

/-!
# Statechart.Proofs.RoundTrip

Charts are read back from the JSON that they are written as: what was read has every key once, and
what has every key once is read back.

* `StateSpec.toFields_eq`: a written state, from the values that its fields have.
* `StateSpec.plain_of_decode`: what a state is read as is plain, by recursion on the value.
* `StateSpec.decodeKeyed_toFields`: a plain state is read back, by induction on the states below it.
* `ChartSpec.plain_of_ofJson`, `ChartSpec.ofJson_toJson`: the two halves for a chart.
* `Chart.read_back`: whichever way a chart was spelled, its written form is read as the same chart.
-/

namespace Statechart

open Json

/-! ## States -/

theorem StateField.ofKey_key (field : StateField) : ofKey? field.key = some field := by
  cases field <;> rfl

theorem StateType.decode_name (t : StateType) : decode? (.str t.name) = some t := by
  cases t <;> rfl

/-- The value of an event in a written state: null if the event is forbidden. -/
def reactionToJson (list : Option TransitionList) : Json :=
  (list.map TransitionList.toJson).getD .null

theorem decode_reactionToJson {list : Option TransitionList}
    (h : ∀ candidates, list = some candidates → candidates.Plain) :
    optional? TransitionList.decode? (some (reactionToJson list)) = some list := by
  cases list with
  | none => rfl
  | some candidates =>
    exact optional?_of_read rfl (TransitionList.decode_toJson (h candidates rfl))

namespace StateSpec

/-- The value that a field of a written state has, if any. -/
def value? (s : StateSpec) : StateField → Option Json
  | .type => s.type.map fun t => .str t.name
  | .initial => s.initial.map .str
  | .entry => listed ActionSpec.toJson s.entry
  | .exit => listed ActionSpec.toJson s.exit
  | .on => entries reactionToJson s.on
  | .always => s.always.map TransitionList.toJson
  | .after => entries TransitionList.toJson s.after
  | .onDone => s.onDone.map TransitionList.toJson
  | .onError => s.onError.map TransitionList.toJson
  | .invoke => listed InvokeSpec.toJson s.invoke
  | .states => entries (fun below => .obj below.toFields) s.states

theorem statesToFields_eq (states : List (String × StateSpec)) :
    statesToFields states = states.map fun (k, s) => (k, .obj s.toFields) := by
  induction states with
  | nil => rfl
  | cons entry rest ih =>
    obtain ⟨k, s⟩ := entry
    rw [statesToFields, ih, List.map_cons]

theorem toFields_eq (s : StateSpec) :
    s.toFields = layout (StateField.all.map fun field => (field.key, s.value? field)) := by
  obtain ⟨type, initial, entry, exit, on, always, after, onDone, onError, invoke, states⟩ := s
  have hstates : toFields ⟨type, initial, entry, exit, on, always, after, onDone, onError, invoke,
      states⟩ = ownFields ⟨type, initial, entry, exit, on, always, after, onDone, onError, invoke,
      []⟩ ++ layout [("states", entries (fun below => .obj below.toFields) states)] := by
    cases states with
    | nil => rw [toFields]; exact (List.append_nil _).symm
    | cons entry rest => rw [toFields, statesToFields_eq]; rfl
  rw [hstates]
  simp only [ownFields, fieldIf_eq, fieldOf_eq, entriesField_eq, ← layout_append]
  rfl

/-- Reads a field of a state. -/
def readField (field : StateField) (s : StateSpec) (v : Json) : Except DecodeError StateSpec :=
  match field, v with
  | .states, .obj children => do
    let states ← decodeStates [] children
    return { s with states }
  | field, v => decodeField field s v

theorem readField_states (s : StateSpec) (children : Fields) :
    readField .states s (.obj children) =
      decodeStates [] children >>= fun states => .ok { s with states } := rfl

theorem readField_eq {field : StateField} {v : Json}
    (h : ∀ children, field = .states → v ≠ .obj children) (s : StateSpec) :
    readField field s v = decodeField field s v := by
  rw [readField]
  exact h

theorem decodeKeyed_cons {seen : List StateField} {field : StateField} (hseen : field ∉ seen)
    {key : String} (hkey : StateField.ofKey? key = some field) (s : StateSpec) (v : Json)
    (rest : Fields) :
    decodeKeyed seen s ((key, v) :: rest) =
      readField field s v >>= fun s => decodeKeyed (field :: seen) s rest := by
  have hnew : seen.contains field = false := by simpa using hseen
  rw [decodeKeyed]
  simp only [hkey, hnew, Bool.false_eq_true, if_false]
  split
  · rw [readField_states, bind_assoc]
    rfl
  · rename_i hother
    rw [readField_eq fun children hfield hv => hother children hfield hv]

theorem decodeInOrder_cons (field : StateField) (left : List StateField) (s : StateSpec) (v : Json)
    (rest : List Json) :
    decodeInOrder (field :: left) s (v :: rest) =
      readField field s v >>= fun s => decodeInOrder left s rest := by
  by_cases hstates : field = .states ∧ ∃ children, v = .obj children
  · obtain ⟨rfl, children, rfl⟩ := hstates
    rw [readField_states, bind_assoc, decodeInOrder]
    rfl
  · have hother : ∀ children, field = .states → v ≠ .obj children :=
      fun children hfield hv => hstates ⟨hfield, children, hv⟩
    rw [readField_eq hother, decodeInOrder]
    exact fun children hv hfield => hother children hfield hv

/-- Are keys written once in a state, the states below it aside? -/
structure OwnPlain (s : StateSpec) : Prop where
  entry : ∀ a ∈ s.entry, a.Plain
  exit : ∀ a ∈ s.exit, a.Plain
  onKeys : (s.on.map Prod.fst).Nodup
  on : ∀ entry ∈ s.on, ∀ list, entry.2 = some list → list.Plain
  always : ∀ list, s.always = some list → list.Plain
  afterKeys : (s.after.map Prod.fst).Nodup
  after : ∀ entry ∈ s.after, entry.2.Plain
  onDone : ∀ list, s.onDone = some list → list.Plain
  onError : ∀ list, s.onError = some list → list.Plain
  invoke : ∀ i ∈ s.invoke, i.Plain

/-- Are keys written once in a state and in all states below it? -/
inductive Plain : StateSpec → Prop where
  | intro {s : StateSpec} : s.OwnPlain → (s.states.map Prod.fst).Nodup →
      (∀ below ∈ s.states, Plain below.2) → Plain s

theorem plain_empty : Plain {} := by
  have hnone : ∀ list : TransitionList, none = some list → list.Plain := nofun
  have hown : OwnPlain {} :=
    ⟨List.forall_mem_nil _, List.forall_mem_nil _, .nil, List.forall_mem_nil _, hnone, .nil,
      List.forall_mem_nil _, hnone, hnone, List.forall_mem_nil _⟩
  exact .intro hown .nil (List.forall_mem_nil _)

theorem decodeField_plain {field : StateField} {s s' : StateSpec} {v : Json}
    (h : decodeField field s v = .ok s') (hs : s.Plain) : s'.Plain := by
  obtain ⟨hown, hkeys, hbelow⟩ := hs
  cases field with
  | type =>
    obtain ⟨type, -, h⟩ := bind_eq_ok h
    cases h
    exact .intro { hown with } hkeys hbelow
  | initial =>
    obtain ⟨initial, -, h⟩ := bind_eq_ok h
    cases h
    exact .intro { hown with } hkeys hbelow
  | entry =>
    obtain ⟨actions, hread, h⟩ := bind_eq_ok h
    cases h
    have hplain := ActionSpec.plain_of_list (orMalformed_eq_ok hread)
    exact .intro { hown with entry := hplain } hkeys hbelow
  | exit =>
    obtain ⟨actions, hread, h⟩ := bind_eq_ok h
    cases h
    have hplain := ActionSpec.plain_of_list (orMalformed_eq_ok hread)
    exact .intro { hown with exit := hplain } hkeys hbelow
  | on =>
    obtain ⟨fs, -, h⟩ := bind_eq_ok h
    obtain ⟨es, hes, h⟩ := bind_eq_ok h
    cases h
    obtain ⟨hnodup, hplain⟩ := decodeEntries_forall
      (fun _ _ hw => TransitionList.plain_of_optional hw) hes
    exact .intro { hown with onKeys := hnodup, on := hplain } hkeys hbelow
  | always =>
    obtain ⟨list, hread, h⟩ := bind_eq_ok h
    cases h
    have hplain := TransitionList.plain_of_optional (orMalformed_eq_ok hread)
    exact .intro { hown with always := hplain } hkeys hbelow
  | after =>
    obtain ⟨fs, -, h⟩ := bind_eq_ok h
    obtain ⟨es, hes, h⟩ := bind_eq_ok h
    cases h
    obtain ⟨hnodup, hplain⟩ := decodeEntries_forall
      (fun _ _ hw => TransitionList.plain_of_decode hw) hes
    exact .intro { hown with afterKeys := hnodup, after := hplain } hkeys hbelow
  | onDone =>
    obtain ⟨list, hread, h⟩ := bind_eq_ok h
    cases h
    have hplain := TransitionList.plain_of_optional (orMalformed_eq_ok hread)
    exact .intro { hown with onDone := hplain } hkeys hbelow
  | onError =>
    obtain ⟨list, hread, h⟩ := bind_eq_ok h
    cases h
    have hplain := TransitionList.plain_of_optional (orMalformed_eq_ok hread)
    exact .intro { hown with onError := hplain } hkeys hbelow
  | invoke =>
    obtain ⟨services, hread, h⟩ := bind_eq_ok h
    cases h
    have hplain : ∀ i ∈ services, i.Plain := by
      intro i hi
      obtain ⟨w, hw⟩ := list?_eq_some (orMalformed_eq_ok hread) i hi
      exact InvokeSpec.plain_of_decode hw
    exact .intro { hown with invoke := hplain } hkeys hbelow
  | states => cases h

/-- Is every key written once in the states that are read from a value? -/
def BelowPlain (v : Json) : Prop :=
  ∀ children states, v = .obj children → decodeStates [] children = .ok states →
    (states.map Prod.fst).Nodup ∧ ∀ below ∈ states, below.2.Plain

theorem readField_plain {field : StateField} {s s' : StateSpec} {v : Json}
    (h : readField field s v = .ok s') (hs : s.Plain) (hv : BelowPlain v) : s'.Plain := by
  by_cases hstates : field = .states ∧ ∃ children, v = .obj children
  · obtain ⟨rfl, children, rfl⟩ := hstates
    rw [readField_states] at h
    obtain ⟨states, hread, h⟩ := bind_eq_ok h
    cases h
    obtain ⟨hkeys, hbelow⟩ := hv children states rfl hread
    obtain ⟨hown, -, -⟩ := hs
    exact .intro { hown with } hkeys hbelow
  · rw [readField_eq fun children hfield hv => hstates ⟨hfield, children, hv⟩] at h
    exact decodeField_plain h hs

mutual

/-- A state that was read has every key once. -/
theorem plain_of_decode {s : StateSpec} (v : Json) (h : decode v = .ok s) : s.Plain := by
  match v with
  | .obj fields => exact plain_of_decodeKeyed fields h plain_empty
  | .arr items => exact plain_of_decodeInOrder items h plain_empty
  | .null | .bool _ | .int _ | .float _ | .str _ => cases h

theorem below_plain (v : Json) : BelowPlain v := by
  match v with
  | .obj fields =>
    rintro children states ⟨⟩ h
    obtain ⟨⟨hkeys, -⟩, hbelow⟩ := plain_of_decodeStates fields h
    exact ⟨hkeys, hbelow⟩
  | .arr _ | .null | .bool _ | .int _ | .float _ | .str _ => exact fun _ _ => nofun

theorem plain_of_decodeKeyed {seen : List StateField} {s s' : StateSpec} (fields : Fields)
    (h : decodeKeyed seen s fields = .ok s') (hs : s.Plain) : s'.Plain := by
  match fields with
  | [] =>
    cases h
    exact hs
  | (k, v) :: rest =>
    cases hkey : StateField.ofKey? k with
    | none =>
      rw [decodeKeyed] at h
      simp only [hkey] at h
      exact plain_of_decodeKeyed rest h hs
    | some field =>
      by_cases hseen : field ∈ seen
      · rw [decodeKeyed] at h
        simp only [hkey, List.contains_iff_mem, hseen, if_true] at h
        cases h
      · rw [decodeKeyed_cons hseen hkey] at h
        obtain ⟨mid, hmid, h⟩ := bind_eq_ok h
        exact plain_of_decodeKeyed rest h (readField_plain hmid hs (below_plain v))

theorem plain_of_decodeInOrder {left : List StateField} {s s' : StateSpec} (items : List Json)
    (h : decodeInOrder left s items = .ok s') (hs : s.Plain) : s'.Plain := by
  match items with
  | [] =>
    rw [decodeInOrder] at h
    cases h
    exact hs
  | v :: rest =>
    cases left with
    | nil =>
      rw [decodeInOrder] at h
      cases h
    | cons field left =>
      rw [decodeInOrder_cons] at h
      obtain ⟨mid, hmid, h⟩ := bind_eq_ok h
      exact plain_of_decodeInOrder rest h (readField_plain hmid hs (below_plain v))

theorem plain_of_decodeStates {seen : List String} {states : List (String × StateSpec)}
    (fields : Fields) (h : decodeStates seen fields = .ok states) :
    Fresh seen (states.map Prod.fst) ∧ ∀ below ∈ states, below.2.Plain := by
  match fields with
  | [] =>
    cases h
    exact ⟨⟨.nil, nofun⟩, nofun⟩
  | (k, v) :: rest =>
    rw [decodeStates] at h
    obtain ⟨state, hstate, h⟩ := bind_eq_ok h
    split at h
    · cases h
    · rename_i hseen
      obtain ⟨others, hrest, h⟩ := bind_eq_ok h
      cases h
      obtain ⟨hkeys, hbelow⟩ := plain_of_decodeStates rest hrest
      rw [List.contains_iff_mem] at hseen
      exact ⟨fresh_cons.2 ⟨hseen, hkeys⟩,
        List.forall_mem_cons.2 ⟨plain_of_decode v hstate, hbelow⟩⟩

end

/-! ## Written states -/

/-- Reads a field of a state that may be missing. -/
def readField? (field : StateField) (s : StateSpec) : Option Json → Except DecodeError StateSpec
  | none => .ok s
  | some v => readField field s v

/-- The fields of a written state are read in turn. -/
theorem decodeKeyed_layout {seen fields : List StateField} (hnodup : fields.Nodup)
    (hseen : ∀ field ∈ fields, field ∉ seen) (s : StateSpec) (value : StateField → Option Json) :
    decodeKeyed seen s (layout (fields.map fun field => (field.key, value field))) =
      fields.foldlM (fun s field => readField? field s (value field)) s := by
  induction fields generalizing seen s with
  | nil => rfl
  | cons field rest ih =>
    obtain ⟨hfresh, hnodup⟩ := List.nodup_cons.1 hnodup
    obtain ⟨hfield, hseen⟩ := List.forall_mem_cons.1 hseen
    rw [List.map_cons, List.foldlM_cons]
    have hrest : ∀ other ∈ rest, other ∉ field :: seen := by
      intro other hother hmem
      rcases List.mem_cons.1 hmem with rfl | hmem
      · exact hfresh hother
      · exact hseen other hother hmem
    cases value field with
    | none => exact ih hnodup hseen s
    | some v =>
      exact (decodeKeyed_cons hfield field.ofKey_key s v _).trans
        (congrArg (readField field s v >>= ·) (funext fun s => ih hnodup hrest s))

theorem decodeStates_map {seen : List String} {states : List (String × StateSpec)}
    (hkeys : Fresh seen (states.map Prod.fst))
    (hread : ∀ below ∈ states, decodeKeyed [] {} below.2.toFields = .ok below.2) :
    decodeStates seen (states.map fun (k, s) => (k, .obj s.toFields)) = .ok states := by
  induction states generalizing seen with
  | nil => rfl
  | cons entry rest ih =>
    obtain ⟨k, s⟩ := entry
    obtain ⟨hk, hkeys⟩ := fresh_cons.1 hkeys
    obtain ⟨hs, hread⟩ := List.forall_mem_cons.1 hread
    have hnew : seen.contains k = false := by simpa using hk
    rw [List.map_cons, decodeStates, decode, hs, hnew, ih hkeys hread]
    rfl

section Fields

variable {α : Type} {field : StateField} {s : StateSpec} (read : Json → Option α)
  {write : α → Json}

theorem readField?_map (set : Option α → StateSpec)
    (hfield : ∀ w, readField field s w =
      orMalformed (optional? read (some w)) >>= fun v => .ok (set v))
    (hmissing : set none = s) (hnull : read .null = none) {v : Option α}
    (hread : ∀ a, v = some a → read (write a) = some a) :
    readField? field s (v.map write) = .ok (set v) := by
  cases v with
  | none => exact congrArg Except.ok hmissing.symm
  | some a =>
    rw [Option.map_some, readField?, hfield, optional?_of_read hnull (hread a rfl)]
    rfl

theorem readField?_listed (set : List α → StateSpec)
    (hfield : ∀ w, readField field s w =
      orMalformed (list? read (some w)) >>= fun vs => .ok (set vs))
    (hmissing : set [] = s) {as : List α} (hread : ∀ a ∈ as, read (write a) = some a) :
    readField? field s (listed write as) = .ok (set as) := by
  cases as with
  | nil => exact congrArg Except.ok hmissing.symm
  | cons a rest =>
    have hlist : list? read (some (.arr ((a :: rest).map write))) = some (a :: rest) :=
      list?_listed hread
    rw [listed, readField?, hfield, hlist]
    · rfl
    · exact nofun

theorem readField?_entries (set : List (String × α) → StateSpec)
    (hfield : ∀ fs, readField field s (.obj fs) =
      decodeEntries read [] fs >>= fun es => .ok (set es))
    (hmissing : set [] = s) {es : List (String × α)} (hkeys : (es.map Prod.fst).Nodup)
    (hread : ∀ entry ∈ es, read (write entry.2) = some entry.2) :
    readField? field s (entries write es) = .ok (set es) := by
  cases es with
  | nil => exact congrArg Except.ok hmissing.symm
  | cons entry rest =>
    have hentries := decodeEntries_map ⟨hkeys, fun _ _ => List.not_mem_nil⟩ hread
    rw [entries, readField?, hfield, hentries]
    · rfl
    · exact nofun

end Fields

/-- The first state with a field of the second. -/
def withField (s t : StateSpec) : StateField → StateSpec
  | .type => { s with type := t.type }
  | .initial => { s with initial := t.initial }
  | .entry => { s with entry := t.entry }
  | .exit => { s with exit := t.exit }
  | .on => { s with on := t.on }
  | .always => { s with always := t.always }
  | .after => { s with after := t.after }
  | .onDone => { s with onDone := t.onDone }
  | .onError => { s with onError := t.onError }
  | .invoke => { s with invoke := t.invoke }
  | .states => { s with states := t.states }

theorem withField_comm {field other : StateField} (h : field ≠ other) (s t u : StateSpec) :
    (s.withField t field).withField u other = (s.withField u other).withField t field := by
  cases field <;> cases other <;> first | rfl | exact absurd rfl h

theorem withField_all (t : StateSpec) :
    StateField.all.foldl (fun s field => s.withField t field) {} = t := by
  cases t
  rfl

/-- A field that a state lacks so far is read as it was written. -/
theorem readField?_value {t : StateSpec} (hown : t.OwnPlain) (hkeys : (t.states.map Prod.fst).Nodup)
    (hbelow : ∀ below ∈ t.states, decodeKeyed [] {} below.2.toFields = .ok below.2)
    {s : StateSpec} {field : StateField} (hs : s.withField {} field = s) :
    readField? field s (t.value? field) = .ok (s.withField t field) := by
  cases field with
  | type =>
    exact readField?_map StateType.decode? (fun type => { s with type }) (fun _ => rfl) hs rfl
      fun type _ => type.decode_name
  | initial =>
    exact readField?_map str? (fun initial => { s with initial }) (fun _ => rfl) hs rfl
      fun _ _ => rfl
  | entry =>
    exact readField?_listed (ActionSpec.decode? true) (fun entry => { s with entry })
      (fun _ => rfl) hs fun a ha => ActionSpec.decode_toJson (hown.entry a ha) true
  | exit =>
    exact readField?_listed (ActionSpec.decode? true) (fun exit => { s with exit })
      (fun _ => rfl) hs fun a ha => ActionSpec.decode_toJson (hown.exit a ha) true
  | on =>
    exact readField?_entries (optional? TransitionList.decode? ∘ some) (fun on => { s with on })
      (fun _ => rfl) hs hown.onKeys fun entry hentry => decode_reactionToJson (hown.on entry hentry)
  | always =>
    exact readField?_map TransitionList.decode? (fun always => { s with always }) (fun _ => rfl)
      hs rfl fun list hlist => TransitionList.decode_toJson (hown.always list hlist)
  | after =>
    exact readField?_entries TransitionList.decode? (fun after => { s with after })
      (fun _ => rfl) hs hown.afterKeys fun entry hentry =>
        TransitionList.decode_toJson (hown.after entry hentry)
  | onDone =>
    exact readField?_map TransitionList.decode? (fun onDone => { s with onDone }) (fun _ => rfl)
      hs rfl fun list hlist => TransitionList.decode_toJson (hown.onDone list hlist)
  | onError =>
    exact readField?_map TransitionList.decode? (fun onError => { s with onError }) (fun _ => rfl)
      hs rfl fun list hlist => TransitionList.decode_toJson (hown.onError list hlist)
  | invoke =>
    exact readField?_listed InvokeSpec.decode? (fun invoke => { s with invoke }) (fun _ => rfl) hs
      fun i hi => InvokeSpec.decode_toJson (hown.invoke i hi)
  | states =>
    have hstates := decodeStates_map ⟨hkeys, fun _ _ => List.not_mem_nil⟩ hbelow
    rw [value?, withField]
    cases hcases : t.states with
    | nil => exact congrArg Except.ok hs.symm
    | cons entry rest =>
      rw [hcases] at hstates
      rw [entries, readField?, readField_states, hstates]
      · rfl
      · exact nofun

theorem foldlM_value {t : StateSpec} (hown : t.OwnPlain) (hkeys : (t.states.map Prod.fst).Nodup)
    (hbelow : ∀ below ∈ t.states, decodeKeyed [] {} below.2.toFields = .ok below.2)
    {fields : List StateField} (hnodup : fields.Nodup) {s : StateSpec}
    (hs : ∀ field ∈ fields, s.withField {} field = s) :
    fields.foldlM (fun s field => readField? field s (t.value? field)) s =
      .ok (fields.foldl (fun s field => s.withField t field) s) := by
  induction fields generalizing s with
  | nil => rfl
  | cons field rest ih =>
    obtain ⟨hfresh, hnodup⟩ := List.nodup_cons.1 hnodup
    obtain ⟨hfield, hs⟩ := List.forall_mem_cons.1 hs
    rw [List.foldlM_cons, readField?_value hown hkeys hbelow hfield]
    -- Reading this field leaves the others to read.
    refine ih hnodup fun other hother => ?_
    have hne : field ≠ other := by
      rintro rfl
      exact hfresh hother
    rw [withField_comm hne, hs other hother]

/-- A state is read back from its fields. -/
theorem decodeKeyed_toFields {t : StateSpec} (h : t.Plain) :
    decodeKeyed [] {} t.toFields = .ok t := by
  induction h with
  | @intro t hown hkeys _ ih =>
    rw [toFields_eq, decodeKeyed_layout (by decide) (fun _ _ => List.not_mem_nil),
      foldlM_value hown hkeys ih (by decide) (fun field _ => by cases field <;> rfl), withField_all]

end StateSpec

/-! ## Charts -/

namespace ChartSpec

/-- Is every key in the chart written once? -/
structure Plain (c : ChartSpec) : Prop where
  context : c.context.dedup = c.context
  root : c.root.Plain

theorem plain_of_ofJson {v : Json} {c : ChartSpec} (h : ofJson v = .ok c) : c.Plain := by
  simp only [ofJson] at h
  split at h
  · split at h
    · cases h
    · split at h
      · cases h
      · obtain ⟨root, hroot, h⟩ := bind_eq_ok h
        cases h
        exact ⟨dedup_dedup _, StateSpec.plain_of_decodeKeyed _ hroot StateSpec.plain_empty⟩
  · cases h

/-- The fields of a written chart. -/
def values (c : ChartSpec) : List (String × Option Json) :=
  ("id", some (.str c.id)) :: ("context", unlessNull c.context) ::
    StateField.all.map fun field => (field.key, c.root.value? field)

theorem values_nodup (c : ChartSpec) : (c.values.map Prod.fst).Nodup := by
  have hkeys : c.values.map Prod.fst = "id" :: "context" :: StateField.all.map StateField.key := rfl
  rw [hkeys]
  decide

theorem layout_values (c : ChartSpec) : layout c.values =
    ("id", .str c.id) :: fieldUnlessNull "context" c.context ++ c.root.toFields := by
  rw [fieldUnlessNull_eq, StateSpec.toFields_eq, List.cons_append, ← layout_append]
  rfl

theorem toFields_keys (s : StateSpec) :
    ∀ field ∈ s.toFields, field.1 ∈ StateField.all.map StateField.key := by
  intro field hfield
  rw [StateSpec.toFields_eq] at hfield
  have hkey := layout_keys.subset (List.mem_map_of_mem hfield)
  rwa [List.map_map] at hkey

/-- Its id and context aside, the fields of a chart are those of its root. -/
theorem rootFields_values (c : ChartSpec) :
    (layout c.values).filter (fun (k, _) => k ≠ "id" && k ≠ "context") = c.root.toFields := by
  have hother : ∀ key ∈ StateField.all.map StateField.key,
      (key ≠ "id" && key ≠ "context") = true := by decide
  have hcontext : (fieldUnlessNull "context" c.context).filter
      (fun (k, _) => k ≠ "id" && k ≠ "context") = [] := by
    cases c.context <;> rfl
  have hroot : c.root.toFields.filter (fun (k, _) => k ≠ "id" && k ≠ "context") =
      c.root.toFields :=
    List.filter_eq_self.2 fun field hfield => hother _ (toFields_keys c.root field hfield)
  rw [layout_values, List.cons_append, List.filter_cons_of_neg, List.filter_append, hcontext, hroot]
  · rfl
  · exact Bool.false_ne_true

/-- A chart is read back as it was written. -/
theorem ofJson_toJson {c : ChartSpec} (h : c.Plain) : ofJson c.toJson = .ok c := by
  have hrepeats : repeats ["id", "context"] (layout c.values) = false :=
    repeats_of_nodup (layout_keys.nodup c.values_nodup)
  have hid : required? str? (find? "id" (layout c.values)) = some c.id := by
    rw [find?_layout c.values_nodup (.head _)]
    rfl
  have hcontext : ((find? "context" (layout c.values)).getD .null).dedup = c.context := by
    rw [find?_layout c.values_nodup (.tail _ (.head _)), getD_unlessNull, h.context]
  rw [toJson, ← layout_values, ofJson]
  simp only [hrepeats, hid, hcontext, rootFields_values, StateSpec.decodeKeyed_toFields h.root]
  rfl

end ChartSpec

/-- However a chart was spelled, what is written of it is read as the same chart, with the same
checksum. -/
theorem Chart.read_back {v : Json} {c : Chart} (h : ofJson v = .ok c) :
    ofJson c.spec.toJson = .ok c := by
  simp only [ofJson] at h
  split at h
  · rename_i spec hspec
    have hspec' : c.spec = spec := by
      simp only [ofSpec] at h
      split at h <;> cases h
      rfl
    rw [ofJson, hspec', ChartSpec.ofJson_toJson (ChartSpec.plain_of_ofJson hspec)]
    exact h
  · cases h

/-- A door in some of the spellings that are read: records and a state in order, a type and an
action by its tag or its place, one target and many, nulls, and a key that means nothing. -/
def spelledDoor : Json :=
  .obj [("note", .str "door"), ("type", .obj [("compound", .null)]), ("initial", .str "shut"),
    ("context", .null), ("id", .str "door"), ("onDone", .null),
    ("states", .obj [
      ("shut", .obj [
        ("on", .obj [("open", .arr [.str "ajar"]), ("kick", .null),
          ("lock", .arr [.arr [.str "ajar"], .null])]),
        ("invoke", .arr [.arr [.null, .str "echo"]])]),
      ("ajar", .arr [.str "orthogonal", .null, .arr [.arr [.int 4, .str "creak"]]])])]

def door : ChartSpec where
  id := "door"
  root := {
    type := some .compound
    initial := some "shut"
    states := [
      ("shut", {
        on := [("open", some (.many [.target "ajar"])), ("kick", none),
          ("lock", some (.one (.object { target := some (.many ["ajar"]) })))]
        invoke := [{ src := "echo" }] }),
      ("ajar", { type := some .parallel, entry := [.log "creak"] })] }

theorem door_read_back :
    Chart.ofJson spelledDoor = .ok ⟨door, door.checksum⟩ ∧
      Chart.ofJson door.toJson = .ok ⟨door, door.checksum⟩ := by
  have hdoor : Chart.ofJson spelledDoor = .ok ⟨door, door.checksum⟩ := rfl
  exact ⟨hdoor, Chart.read_back hdoor⟩

end Statechart
