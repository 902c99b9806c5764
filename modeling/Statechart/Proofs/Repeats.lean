import Statechart.Proofs.Records

/-!
# Statechart.Proofs.Repeats

Keys that are written twice, and what readers make of them. A document denotes a value in which
every key is left once, at its first place and with its last value. A reader that takes the value
as it was written instead refuses keys that it looks for and finds twice, and passes over the
others.

* `Json.dedupFields_filter`: what is left of some keys does not depend on the others.
* `Json.Narrows`: a value as it was written is read as what it denotes, or not at all.
* `Json.record?_narrows`: so are records, if the keys that are looked for are written once.
* `Json.tagged?_dedup`: a tag that is written once is the tag of what is denoted.
-/

namespace Statechart.Json

/-! ## What is left of fields -/

theorem dedupItems_eq (items : List Json) : dedupItems items = items.map dedup := by
  induction items with
  | nil => rfl
  | cons v rest ih => rw [dedupItems, ih, List.map_cons]

section Fields

variable {key : String} {fields : Fields}

theorem sizeOf_field_lt {field : String × Json} (h : field ∈ fields) :
    sizeOf field.2 < sizeOf (Json.obj fields) := by
  have hmem := List.sizeOf_lt_of_mem h
  rw [Prod.mk.sizeOf_spec] at hmem
  rw [Json.obj.sizeOf_spec]
  omega

theorem find?_merged (key : String) (fields : Fields) :
    find? key (merged fields) = (find? key fields).map dedup := by
  induction fields with
  | nil => rfl
  | cons field rest ih =>
    obtain ⟨k, v⟩ := field
    rw [merged, List.map_cons, find?, find?]
    split
    · rfl
    · exact ih

theorem find?_filter {p : String → Bool} (hp : p key = true) (fields : Fields) :
    find? key (fields.filter fun field => p field.1) = find? key fields := by
  induction fields with
  | nil => rfl
  | cons field rest ih =>
    obtain ⟨k, v⟩ := field
    by_cases hk : k = key
    · rw [List.filter_cons_of_pos (by simpa [hk] using hp), find?, find?, if_pos hk, if_pos hk]
    · rw [List.filter_cons]
      split
      · rw [find?, find?, if_neg hk, if_neg hk, ih]
      · rw [find?, if_neg hk, ih]

/-- What is left of some keys does not depend on the others. -/
theorem dedupFields_filter (p : String → Bool) (fields : Fields) :
    (dedupFields fields).filter (fun field => p field.1) =
      dedupFields (fields.filter fun field => p field.1) := by
  induction fields with
  | nil => rfl
  | cons field rest ih =>
    obtain ⟨k, v⟩ := field
    -- A key that passes is met again behind its field with or without the others. If it does not
    -- pass, neither do the fields that go because of it.
    cases hk : p k with
    | true =>
      have hfind : find? k (dedupFields (rest.filter fun field => p field.1)) =
          find? k (dedupFields rest) := by rw [← ih, find?_filter hk]
      rw [List.filter_cons_of_pos (by exact hk), dedupFields, dedupFields, hfind, ← ih]
      split
      · rw [List.filter_cons_of_pos (by exact hk), List.filter_comm]
      · rw [List.filter_cons_of_pos (by exact hk)]
    | false =>
      have hne : ∀ field : String × Json, p field.1 = true → field.1 ≠ k := by
        rintro field hfield rfl
        rw [hk] at hfield
        cases hfield
      rw [List.filter_cons_of_neg (by simp [hk]), dedupFields, ← ih]
      split
      · rw [List.filter_cons_of_neg (by simp [hk]), List.filter_filter]
        refine List.filter_congr fun field _ => ?_
        cases hfield : p field.1 with
        | true => simp [hne field hfield]
        | false => rfl
      · rw [List.filter_cons_of_neg (by simp [hk])]

theorem dedupFields_eq_nil : dedupFields fields = [] ↔ fields = [] := by
  cases fields with
  | nil => rfl
  | cons field rest =>
    obtain ⟨k, v⟩ := field
    rw [dedupFields]
    split <;> simp

/-- A document has the keys of what it denotes. -/
theorem any_dedupFields (p : String → Bool) (fields : Fields) :
    ((dedupFields fields).any fun field => p field.1) = fields.any fun field => p field.1 := by
  have hnone : ∀ l : Fields, (l.any fun field => p field.1) = false ↔
      l.filter (fun field => p field.1) = [] := fun l => by
    rw [List.any_eq_false, List.filter_eq_nil_iff]
  rw [Bool.eq_iff_iff, ← not_iff_not, Bool.not_eq_true, Bool.not_eq_true, hnone, hnone,
    dedupFields_filter, dedupFields_eq_nil]

end Fields

/-! ## Reading what was written -/

/-- Reading a value as it was written gives what reading it with every key left once gives, if
`once` holds, and nothing otherwise. -/
def Narrows {α : Type} (once : Prop) (asWritten asMerged : Option α) : Prop :=
  ∀ a, asWritten = some a ↔ asMerged = some a ∧ once

namespace Narrows

variable {α β : Type} {once other : Prop} {x y : Option α}

theorem of_eq (h : x = y) : Narrows True x y :=
  fun a => h ▸ (and_true (x = some a)).symm.to_iff

theorem refl (x : Option α) : Narrows True x x :=
  of_eq rfl

theorem none (once : Prop) : Narrows once (none : Option α) none :=
  fun _ => ⟨nofun, nofun⟩

theorem of_not (h : ¬ once) (y : Option α) : Narrows once Option.none y :=
  fun _ => ⟨nofun, fun hy => absurd hy.2 h⟩

theorem congr (h : Narrows once x y) (hiff : once ↔ other) : Narrows other x y :=
  fun a => (h a).trans (and_congr_right' hiff)

theorem eq_none (h : Narrows once x y) (hy : y = Option.none) : x = Option.none := by
  refine Option.eq_none_iff_forall_ne_some.2 fun a ha => ?_
  rw [h, hy] at ha
  exact nomatch ha.1

theorem bind {f g : α → Option β} (h : Narrows once x y) (hf : ∀ a, Narrows other (f a) (g a)) :
    Narrows (once ∧ other) (x.bind f) (y.bind g) := by
  intro b
  simp only [Option.bind_eq_some_iff, h _, hf _ _]
  constructor
  · rintro ⟨a, ⟨ha, honce⟩, hb, hother⟩
    exact ⟨⟨a, ha, hb⟩, honce, hother⟩
  · rintro ⟨⟨a, ha, hb⟩, honce, hother⟩
    exact ⟨a, ⟨ha, honce⟩, hb, hother⟩

/-- What is done with the value read does not depend on how it was written. -/
theorem bind_same (h : Narrows once x y) (f : α → Option β) :
    Narrows once (x.bind f) (y.bind f) :=
  (h.bind fun a => refl (f a)).congr (and_true _).to_iff

theorem map (h : Narrows once x y) (f : α → β) : Narrows once (x.map f) (y.map f) := by
  rw [Option.map_eq_bind, Option.map_eq_bind]
  exact h.bind_same _

theorem mapM {γ : Type} {xs : List γ} {f g : γ → Option α} {once : γ → Prop}
    (h : ∀ x ∈ xs, Narrows (once x) (f x) (g x)) :
    Narrows (∀ x ∈ xs, once x) (xs.mapM f) (xs.mapM g) := by
  induction xs with
  | nil => exact (refl _).congr (by simp)
  | cons x rest ih =>
    obtain ⟨hx, hrest⟩ := List.forall_mem_cons.1 h
    rw [List.mapM_cons, List.mapM_cons]
    exact (hx.bind fun a => (ih hrest).bind_same _).congr List.forall_mem_cons.symm

theorem foldlM {σ γ : Type} {xs : List γ} {f g : σ → γ → Option σ} {once : γ → Prop}
    (h : ∀ x ∈ xs, ∀ s, Narrows (once x) (f s x) (g s x)) (s : σ) :
    Narrows (∀ x ∈ xs, once x) (xs.foldlM f s) (xs.foldlM g s) := by
  induction xs generalizing s with
  | nil => exact (refl _).congr (by simp)
  | cons x rest ih =>
    obtain ⟨hx, hrest⟩ := List.forall_mem_cons.1 h
    rw [List.foldlM_cons, List.foldlM_cons]
    exact ((hx s).bind fun s => ih hrest s).congr List.forall_mem_cons.symm

end Narrows

section Values

variable {α : Type} {read : Json → Option α} {once : Json → Prop}

theorem exists_of_mapM {γ : Type} {f : γ → Option α} {xs : List γ} {as : List α}
    (h : xs.mapM f = some as) : ∀ x ∈ xs, ∃ a, f x = some a := by
  induction xs generalizing as with
  | nil => exact nofun
  | cons x rest ih =>
    rw [List.mapM_cons] at h
    obtain ⟨a, ha, h⟩ := Option.bind_eq_some_iff.1 h
    obtain ⟨others, hrest, -⟩ := Option.bind_eq_some_iff.1 h
    exact List.forall_mem_cons.2 ⟨⟨a, ha⟩, ih hrest⟩

/-- The items of an array are read one by one. -/
theorem items_narrows (h : ∀ v, Narrows (once v) (read v) (read v.dedup)) (items : List Json) :
    Narrows (∀ v ∈ items, once v) (items.mapM read) ((items.map dedup).mapM read) := by
  rw [List.mapM_map]
  exact .mapM fun v _ => h v

theorem list?_narrows (h : ∀ v, Narrows (once v) (read v) (read v.dedup)) (v : Option Json) :
    Narrows (∀ items, v = some (.arr items) → ∀ w ∈ items, once w) (list? read v)
      (list? read (v.map dedup)) := by
  cases v with
  | none => exact (Narrows.refl _).congr (by simp)
  | some v =>
    cases v with
    | arr items =>
      rw [Option.map_some, dedup, dedupItems_eq]
      exact (items_narrows h items).congr (by simp)
    | _ => exact .none _

theorem optional?_narrows (hnull : once .null) (h : ∀ v, Narrows (once v) (read v) (read v.dedup))
    (v : Option Json) :
    Narrows (∀ w, v = some w → once w) (optional? read v) (optional? read (v.map dedup)) := by
  cases v with
  | none => exact (Narrows.refl _).congr (by simp)
  | some v =>
    cases v with
    | null => exact (Narrows.refl _).congr (by simpa using hnull)
    | obj fields => exact ((h _).map some).congr (by simp)
    | _ => exact ((h _).map some).congr (by simp)

end Values

/-! ## Records -/

/-- The fields with some names that a record has, each as often as it is written. -/
def parts (names : List String) : Json → Fields
  | .obj fields => fields.filter fun field => names.contains field.1
  | .arr items => names.zip items
  | _ => []

/-- Are the fields with some names written once? -/
def OnceIn (names : List String) (v : Json) : Prop :=
  ((parts names v).map Prod.fst).Nodup

section Records

variable {α : Type} {names : List String} {v : Json}

theorem parts_dedup (h : OnceIn names v) : parts names v.dedup = merged (parts names v) := by
  cases v with
  | obj fields =>
    rw [dedup, parts, dedupFields_filter fun key => names.contains key]
    exact dedupFields_of_nodup h
  | arr items =>
    rw [dedup, parts, parts, dedupItems_eq, List.zip_map_right]
    rfl
  | _ => rfl

theorem repeats_eq_false {fields : Fields} :
    repeats names fields = false ↔ OnceIn names (.obj fields) := by
  have hkeys : (parts names (.obj fields)).map Prod.fst =
      (fields.map Prod.fst).filter fun key => names.contains key := by
    rw [List.filter_map]
    rfl
  rw [OnceIn, hkeys, List.nodup_iff_count_le_one, repeats, List.any_eq_false]
  simp only [decide_eq_true_iff, Nat.not_lt, filter_length]
  constructor
  · intro h key
    by_cases hkey : key ∈ names
    · rw [List.count_filter (by simpa using hkey)]
      exact h key hkey
    · rw [List.count_eq_zero_of_not_mem (by simp [hkey])]
      exact Nat.zero_le 1
  · intro h key hkey
    rw [← List.count_filter (p := fun key => names.contains key) (by simpa using hkey)]
    exact h key

theorem record?_eq_some {fields fs : Fields} :
    record? names false (.obj fields) = some fs ↔
      OnceIn names (.obj fields) ∧ parts names (.obj fields) = fs := by
  rw [← repeats_eq_false, record?, Bool.false_and, Bool.or_false]
  cases repeats names fields with
  | true => simp
  | false => exact ⟨fun h => ⟨rfl, Option.some.inj h⟩, fun h => congrArg some h.2⟩

theorem zip_nodup {κ β : Type} {keys : List κ} (hkeys : keys.Nodup) (items : List β) :
    ((keys.zip items).map Prod.fst).Nodup := by
  rw [List.zip_eq_zip_take_min, List.map_fst_zip (by simp)]
  exact hkeys.take

theorem sizeOf_lt_of_mem_parts {field : String × Json} (h : field ∈ parts names v) :
    sizeOf field.2 < sizeOf v := by
  cases v with
  | obj fields => exact sizeOf_field_lt (List.mem_of_mem_filter h)
  | arr items =>
    have hmem := List.sizeOf_lt_of_mem (List.of_mem_zip h).2
    rw [Json.arr.sizeOf_spec]
    omega
  | _ => cases h

/-- The fields of a record are read as they are if they are written once. -/
theorem record?_narrows (hnames : names.Nodup) (strict : Bool)
    {body body' : Fields → Option α} {once : Prop}
    (h : Narrows once (body (parts names v)) (body' (merged (parts names v)))) :
    Narrows (OnceIn names v ∧ once) ((record? names strict v).bind body)
      ((record? names strict v.dedup).bind body') := by
  cases v with
  | obj fields =>
    have hrepeats : repeats names (dedupFields fields) = false :=
      repeats_of_nodup (dedupFields_distinct fields).1
    have hunknown := any_dedupFields (fun key => !names.contains key) fields
    rw [dedup]
    simp only [record?, hrepeats, hunknown, Bool.false_or]
    by_cases hstrict : (strict && fields.any fun field => !names.contains field.1) = true
    · simp only [hstrict, Bool.or_true, if_true]
      exact .none _
    · simp only [Bool.not_eq_true] at hstrict
      simp only [hstrict, Bool.or_false]
      by_cases honce : OnceIn names (.obj fields)
      · have hparts := parts_dedup honce
        rw [← hparts] at h
        simp only [repeats_eq_false.2 honce]
        exact h.congr (by simp [honce])
      · have hrepeats : repeats names fields = true :=
          Bool.not_eq_false _ |>.mp fun hfalse => honce (repeats_eq_false.1 hfalse)
        simp only [hrepeats]
        exact .of_not (fun h => honce h.1) _
  | arr items =>
    have honce : OnceIn names (.arr items) := zip_nodup hnames items
    have hparts := parts_dedup honce
    rw [dedup, dedupItems_eq] at hparts ⊢
    rw [record?, record?, List.length_map]
    split
    · exact .none _
    · rw [← hparts] at h
      exact h.congr (by simp [honce])
  | _ => exact .none _

/-- So are records of which nothing else depends on how they were written. -/
theorem record?_invariant (hnames : names.Nodup) (strict : Bool) {body : Fields → Option α}
    (h : ∀ fields, body (merged fields) = body fields) :
    Narrows (OnceIn names v) ((record? names strict v).bind body)
      ((record? names strict v.dedup).bind body) := by
  have hbody : Narrows True (body (parts names v)) (body (merged (parts names v))) :=
    .of_eq (h _).symm
  exact (record?_narrows hnames strict hbody).congr (and_true _).to_iff

end Records

/-! ## Variants -/

/-- A tag that is written once is the tag of what is denoted. -/
theorem tagged?_dedup {v tag content : Json} (h : tagged? v = some (tag, content)) :
    tagged? v.dedup = some (tag.dedup, content.dedup) := by
  cases v with
  | obj fields =>
    simp only [tagged?] at h
    split at h
    · rename_i k _ hone
      cases h
      have htag := dedupFields_filter (fun key => key = tagKey) fields
      have hother := dedupFields_filter (fun key => key ≠ tagKey) fields
      rw [hone] at htag
      rw [dedup, dedup, tagged?, htag, hother]
      rfl
    · cases h
  | arr items =>
    cases items with
    | nil => cases h
    | cons first rest =>
      cases h
      rfl
  | _ => cases h

theorem tagName?_dedup (names : List String) (byPlace : Bool) (tag : Json) :
    tagName? names byPlace tag.dedup = tagName? names byPlace tag := by
  cases tag <;> rfl

theorem tagName?_mem {names : List String} {byPlace : Bool} {tag : Json} {name : String}
    (h : tagName? names byPlace tag = some name) : name ∈ names := by
  simp only [tagName?] at h
  split at h
  · split at h
    · rename_i hname
      cases h
      exact List.contains_iff_mem.1 hname
    · cases h
  · split at h
    · exact List.mem_of_getElem? h
    · cases h
  · cases h

/-! ## Values that keys do not matter for -/

theorem str?_dedup (v : Json) : str? v.dedup = str? v := by
  cases v <;> rfl

theorem strings?_dedup (v : Json) : strings? v.dedup = strings? v := by
  cases v with
  | arr items =>
    rw [dedup, dedupItems_eq, strings?, strings?, List.mapM_map]
    exact congrArg (items.mapM ·) (funext str?_dedup)
  | _ => rfl

theorem getD_dedup (v : Option Json) : ((v.map dedup).getD .null).dedup = (v.getD .null).dedup := by
  cases v with
  | none => rfl
  | some v => exact dedup_dedup v

section Invariant

variable {α : Type} {read : Json → Option α}

theorem required?_dedup (h : ∀ v, read v.dedup = read v) (v : Option Json) :
    required? read (v.map dedup) = required? read v := by
  cases v with
  | none => rfl
  | some v => exact h v

theorem required?_fields_dedup (v : Option Json) :
    required? fields? (v.map dedup) = (required? fields? v).map dedupFields := by
  cases v with
  | none => rfl
  | some v => cases v <;> rfl

theorem optional?_dedup (h : ∀ v, read v.dedup = read v) (v : Option Json) :
    optional? read (v.map dedup) = optional? read v := by
  cases v with
  | none => rfl
  | some v =>
    cases v with
    | null => rfl
    | _ => exact congrArg (Option.map some) (h _)

end Invariant

end Statechart.Json
