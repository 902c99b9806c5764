import Mathlib.Data.List.Nodup
import Mathlib.Data.List.Sublists
import Statechart.Json.Record

/-!
# Statechart.Proofs.Records

Records written as JSON objects, and read again. A writer leaves out the fields that say nothing; a
reader takes a missing field for one that says nothing, so nothing is lost on the way.

* `Json.dedupFields_of_nodup`: of keys that are written once only the values change.
* `Json.dedup_dedup`: what a document denotes stays as it is.
* `Json.layout`: a written record, from the values that its fields have, if any.
* `Json.record?_layout`, `Json.find?_layout`: a written record is read with the values that it was
  written with.
* `Json.optional?_layout`, `Json.list?_listed`: values that are read back one by one are read back
  from a field.
-/

namespace Statechart.Json

/-! ## Keys that are written once -/

theorem mem_of_find? {key : String} {v : Json} {fields : Fields} (h : find? key fields = some v) :
    (key, v) ∈ fields := by
  induction fields with
  | nil => cases h
  | cons field rest ih =>
    obtain ⟨k, w⟩ := field
    simp only [find?] at h
    split at h
    · rename_i hk
      cases h
      rw [hk]
      exact List.mem_cons_self
    · exact List.mem_cons_of_mem _ (ih h)

theorem find?_eq_none {key : String} {fields : Fields} :
    find? key fields = none ↔ key ∉ fields.map Prod.fst := by
  induction fields with
  | nil => simp [find?]
  | cons field rest ih =>
    obtain ⟨k, w⟩ := field
    rw [List.map_cons, List.mem_cons, not_or, ← ih, find?]
    split
    · rename_i hk
      simp [hk]
    · rename_i hk
      simp [Ne.symm hk]

/-- Fields with values in which every key is left once. -/
def merged (fields : Fields) : Fields :=
  fields.map fun field => (field.1, field.2.dedup)

theorem merged_keys (fields : Fields) : (merged fields).map Prod.fst = fields.map Prod.fst := by
  rw [merged, List.map_map]
  rfl

/-- Of keys that are written once only the values change. -/
theorem dedupFields_of_nodup {fields : Fields} (hkeys : (fields.map Prod.fst).Nodup) :
    dedupFields fields = merged fields := by
  induction fields with
  | nil => rfl
  | cons field rest ih =>
    obtain ⟨k, v⟩ := field
    obtain ⟨hfresh, hkeys⟩ := List.nodup_cons.1 hkeys
    have hnone : find? k (merged rest) = none := find?_eq_none.2 (by rwa [merged_keys])
    rw [dedupFields, ih hkeys, hnone]
    rfl

/-- Fields that are written once are left as they are. -/
theorem dedupFields_of_distinct {fields : Fields} (hkeys : (fields.map Prod.fst).Nodup)
    (hvalues : ∀ field ∈ fields, field.2.dedup = field.2) : dedupFields fields = fields := by
  have hsame : ∀ field ∈ fields, (field.1, field.2.dedup) = id field := fun field hfield =>
    Prod.ext rfl (hvalues field hfield)
  rw [dedupFields_of_nodup hkeys, merged, List.map_congr_left hsame, List.map_id]

mutual

theorem dedup_dedup (v : Json) : v.dedup.dedup = v.dedup := by
  match v with
  | .arr items => rw [dedup, dedup, dedupItems_dedupItems]
  | .obj fields =>
    obtain ⟨hkeys, hvalues⟩ := dedupFields_distinct fields
    rw [dedup, dedup, dedupFields_of_distinct hkeys hvalues]
  | .null | .bool _ | .int _ | .float _ | .str _ => rfl

theorem dedupItems_dedupItems (items : List Json) :
    dedupItems (dedupItems items) = dedupItems items := by
  match items with
  | [] => rfl
  | v :: rest => rw [dedupItems, dedupItems, dedup_dedup v, dedupItems_dedupItems rest]

/-- Every key is left once, with a value in which every key is left once. -/
theorem dedupFields_distinct (fields : Fields) :
    ((dedupFields fields).map Prod.fst).Nodup ∧
      ∀ field ∈ dedupFields fields, field.2.dedup = field.2 := by
  match fields with
  | [] => exact ⟨.nil, nofun⟩
  | (k, v) :: rest =>
    obtain ⟨hkeys, hvalues⟩ := dedupFields_distinct rest
    rw [dedupFields]
    split
    · rename_i w hw
      have hsub : ((dedupFields rest).filter (·.1 ≠ k)).Sublist (dedupFields rest) :=
        List.filter_sublist
      refine ⟨List.nodup_cons.2 ⟨?_, (hsub.map _).nodup hkeys⟩, List.forall_mem_cons.2
        ⟨hvalues _ (mem_of_find? hw), fun field hfield => hvalues _ (hsub.subset hfield)⟩⟩
      intro hmem
      obtain ⟨field, hfield, rfl⟩ := List.mem_map.1 hmem
      simpa using (List.mem_filter.1 hfield).2
    · rename_i hnone
      exact ⟨List.nodup_cons.2 ⟨find?_eq_none.1 hnone, hkeys⟩,
        List.forall_mem_cons.2 ⟨dedup_dedup v, hvalues⟩⟩

end

theorem dedupFields_dedupFields (fields : Fields) :
    dedupFields (dedupFields fields) = dedupFields fields :=
  dedupFields_of_distinct (dedupFields_distinct fields).1 (dedupFields_distinct fields).2

/-! ## Written records -/

/-- The fields of a record that have a value, in order. -/
def layout (values : List (String × Option Json)) : Fields :=
  values.filterMap fun (key, v) => v.map (key, ·)

/-- A list as the value of a field that is left out if it is empty. -/
def listed {α : Type} (write : α → Json) : List α → Option Json
  | [] => none
  | vs => some (.arr (vs.map write))

def unlessNull : Json → Option Json
  | .null => none
  | v => some v

section Layout

variable {α : Type} {values values' : List (String × Option Json)}

theorem layout_append : layout (values ++ values') = layout values ++ layout values' :=
  List.filterMap_append

theorem fieldIf_eq (key : String) (write : α → Json) (v : Option α) :
    fieldIf key write v = layout [(key, v.map write)] := by
  cases v <;> rfl

theorem fieldOf_eq (key : String) (write : α → Json) (vs : List α) :
    fieldOf key write vs = layout [(key, listed write vs)] := by
  cases vs <;> rfl

theorem fieldUnlessNull_eq (key : String) (v : Json) :
    fieldUnlessNull key v = layout [(key, unlessNull v)] := by
  cases v <;> rfl

theorem layout_keys : ((layout values).map Prod.fst).Sublist (values.map Prod.fst) := by
  induction values with
  | nil => exact .slnil
  | cons value rest ih =>
    obtain ⟨key, v⟩ := value
    cases v with
    | none => exact ih.cons key
    | some v => exact ih.cons_cons key

/-- A field of a record has the value that it was written with. -/
theorem find?_layout (hkeys : (values.map Prod.fst).Nodup) {key : String} {v : Option Json}
    (h : (key, v) ∈ values) : find? key (layout values) = v := by
  induction values with
  | nil => cases h
  | cons value rest ih =>
    obtain ⟨k, w⟩ := value
    obtain ⟨hfresh, hrest⟩ := List.nodup_cons.1 hkeys
    rcases List.mem_cons.1 h with heq | htail
    · cases heq
      cases v with
      | none => exact find?_eq_none.2 fun hmem => hfresh (layout_keys.subset hmem)
      | some v => exact if_pos rfl
    · have hne : k ≠ key := by
        rintro rfl
        exact hfresh (List.mem_map.2 ⟨_, htail, rfl⟩)
      cases w with
      | none => exact ih hrest htail
      | some w => exact (if_neg hne).trans (ih hrest htail)

theorem filter_length (key : String) (fields : Fields) :
    (fields.filter (·.1 = key)).length = (fields.map Prod.fst).count key := by
  rw [List.count_eq_length_filter, List.filter_map, List.length_map]
  rfl

theorem repeats_of_nodup {names : List String} {fields : Fields}
    (hkeys : (fields.map Prod.fst).Nodup) : repeats names fields = false := by
  rw [repeats, List.any_eq_false]
  intro name _
  rw [decide_eq_true_iff, Nat.not_lt, filter_length]
  exact List.nodup_iff_count_le_one.1 hkeys name

/-- A written record is read with the fields that it was written with. -/
theorem record?_layout (hkeys : (values.map Prod.fst).Nodup) {names : List String}
    (hnames : ∀ key ∈ values.map Prod.fst, key ∈ names) (strict : Bool) :
    record? names strict (.obj (layout values)) = some (layout values) := by
  have hknown : ∀ field ∈ layout values, names.contains field.1 = true := fun field hfield =>
    List.contains_iff_mem.2 (hnames _ (layout_keys.subset (List.mem_map_of_mem hfield)))
  have hstrict : ((layout values).any fun field => !names.contains field.1) = false := by
    rw [List.any_eq_false]
    intro field hfield
    rw [hknown field hfield]
    exact Bool.false_ne_true
  simp only [record?, repeats_of_nodup (layout_keys.nodup hkeys), hstrict, Bool.and_false,
    Bool.or_false, Bool.false_eq_true, if_false, Option.some.injEq]
  exact List.filter_eq_self.2 hknown

end Layout

/-! ## Values of fields -/

section Values

variable {α : Type} {read : Json → Option α} {write : α → Json}

theorem mapM_eq_some {β : Type} {f : β → Option α} {xs : List β} {as : List α}
    (h : xs.mapM f = some as) : ∀ a ∈ as, ∃ x, f x = some a := by
  induction xs generalizing as with
  | nil => cases h; exact nofun
  | cons x rest ih =>
    rw [List.mapM_cons] at h
    obtain ⟨a, ha, h⟩ := Option.bind_eq_some_iff.1 h
    obtain ⟨others, hrest, h⟩ := Option.bind_eq_some_iff.1 h
    cases h
    exact List.forall_mem_cons.2 ⟨⟨x, ha⟩, ih hrest⟩

theorem mapM_map_eq_some {as : List α} (h : ∀ a ∈ as, read (write a) = some a) :
    (as.map write).mapM read = some as := by
  induction as with
  | nil => rfl
  | cons a rest ih =>
    obtain ⟨ha, hrest⟩ := List.forall_mem_cons.1 h
    rw [List.map_cons, List.mapM_cons, ha, ih hrest]
    rfl

/-- What is read from a field that may be missing is read from a value. -/
theorem optional?_eq_some {v : Option Json} {a : α} (h : optional? read v = some (some a)) :
    ∃ w, read w = some a := by
  simp only [optional?] at h
  split at h
  · cases h
  · cases h
  · rename_i w _
    obtain ⟨b, hb, h⟩ := Option.map_eq_some_iff.1 h
    cases h
    exact ⟨w, hb⟩

theorem list?_eq_some {v : Option Json} {as : List α} (h : list? read v = some as) :
    ∀ a ∈ as, ∃ w, read w = some a := by
  simp only [list?] at h
  split at h
  · cases h
    exact nofun
  · exact mapM_eq_some h
  · cases h

theorem optional?_of_read (hnull : read .null = none) {v : Json} {a : α} (h : read v = some a) :
    optional? read (some v) = some (some a) := by
  cases v with
  | null =>
    rw [hnull] at h
    cases h
  | _ => exact congrArg (Option.map some) h

/-- A value that is read back is read back from a field that may be missing. -/
theorem optional?_map (hnull : read .null = none) {v : Option α}
    (h : ∀ a, v = some a → read (write a) = some a) : optional? read (v.map write) = some v := by
  cases v with
  | none => rfl
  | some a => exact optional?_of_read hnull (h a rfl)

/-- So it is from a field of a written record. -/
theorem optional?_layout {values : List (String × Option Json)}
    (hkeys : (values.map Prod.fst).Nodup) {key : String} {v : Option α}
    (h : (key, v.map write) ∈ values) (hnull : read .null = none)
    (hread : ∀ a, v = some a → read (write a) = some a) :
    optional? read (find? key (layout values)) = some v := by
  rw [find?_layout hkeys h]
  exact optional?_map hnull hread

theorem list?_listed {as : List α} (h : ∀ a ∈ as, read (write a) = some a) :
    list? read (listed write as) = some as := by
  cases as with
  | nil => rfl
  | cons a rest => exact mapM_map_eq_some h

theorem getD_unlessNull (v : Json) : (unlessNull v).getD .null = v := by
  cases v <;> rfl

end Values

end Statechart.Json
