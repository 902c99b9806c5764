import Statechart.Json.Basic

/-!
# Statechart.Json.Record

Typed objects in JSON. A record may be written as an object, or as the array of its fields in
order; a variant carries its tag in the field `type`, or as the first item of an array.

* `record?`: the fields of a record.
* `tagged?`, `tagName?`: the tag of a variant, and the rest of it.
* `optional?`, `list?`: fields that may be missing.
-/

namespace Statechart.Json

def repeats (names : List String) (fields : Fields) : Bool :=
  names.any fun n => 1 < (fields.filter (·.1 = n)).length

/-- The fields of a record. A field must not be written twice; there must be no more items than
fields, and in a strict record no other keys. -/
def record? (names : List String) (strict : Bool) : Json → Option Fields
  | .obj fields =>
    if repeats names fields || (strict && fields.any fun (k, _) => !names.contains k) then none
    else some (fields.filter fun (k, _) => names.contains k)
  | .arr items => if names.length < items.length then none else some (names.zip items)
  | _ => none

def tagKey : String := "type"

/-- The tag of a variant, and the variant without it. -/
def tagged? : Json → Option (Json × Json)
  | .obj fields =>
    match fields.filter (·.1 = tagKey) with
    | [(_, tag)] => some (tag, .obj (fields.filter (·.1 ≠ tagKey)))
    | _ => none
  | .arr (tag :: rest) => some (tag, .arr rest)
  | _ => none

/-- The name of a tag. Where tags are read by place too, a number stands for its name in the list
of names. -/
def tagName? (names : List String) (byPlace : Bool) : Json → Option String
  | .str s => if names.contains s then some s else none
  | .int (.ofNat n) => if byPlace then names[n]? else none
  | _ => none

/-- A variant without fields: an object of any other keys, or an empty array. -/
def isBare : Json → Bool
  | .obj _ => true
  | .arr [] => true
  | _ => false

def optional? {α : Type} (read : Json → Option α) : Option Json → Option (Option α)
  | none => some none
  | some .null => some none
  | some v => (read v).map some

def list? {α : Type} (read : Json → Option α) : Option Json → Option (List α)
  | none => some []
  | some (.arr items) => items.mapM read
  | some _ => none

def required? {α : Type} (read : Json → Option α) (v : Option Json) : Option α :=
  v.bind read

def strings? : Json → Option (List String)
  | .arr items => items.mapM str?
  | _ => none

def fields? : Json → Option Fields
  | .obj fields => some fields
  | _ => none

def fieldIf {α : Type} (key : String) (write : α → Json) : Option α → Fields
  | some v => [(key, write v)]
  | none => []

def fieldOf {α : Type} (key : String) (write : α → Json) : List α → Fields
  | [] => []
  | vs => [(key, .arr (vs.map write))]

/-- A field with a value, unless it is null. -/
def fieldUnlessNull (key : String) : Json → Fields
  | .null => []
  | v => [(key, v)]

end Statechart.Json
