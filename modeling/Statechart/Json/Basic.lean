/-!
# Statechart.Json.Basic

JSON values. Contexts, event data and charts are of this type.

* `Json`: the values. A number is an integer or a double, and stays of its class; an object keeps
  its fields in the order in which they were written.
* `Json.same`: equality of values. Field order does not matter, the class of a number does.
* `Json.find?`, `Json.insert`: fields by key. Writing an existing key keeps its place.
* `Json.dedup`: the value that a document denotes when keys are written twice: the last value, at
  the first place.
-/

namespace Statechart

inductive Json where
  | null
  | bool (b : Bool)
  | int (n : Int)
  | float (x : Float)
  | str (s : String)
  | arr (items : List Json)
  | obj (fields : List (String × Json))
  deriving Inhabited, Repr

namespace Json

/-- The fields of an object in writing order. -/
abbrev Fields := List (String × Json)

def find? (key : String) : Fields → Option Json
  | [] => none
  | (k, v) :: rest => if k = key then some v else find? key rest

/-- Writes a field: in place if the key is there, else at the end. -/
def insert (key : String) (value : Json) : Fields → Fields
  | [] => [(key, value)]
  | (k, v) :: rest => if k = key then (k, value) :: rest else (k, v) :: insert key value rest

def insertAll (values : Fields) (fields : Fields) : Fields :=
  values.foldl (fun acc (k, v) => insert k v acc) fields

mutual

/-- Equality of values: fields in any order, numbers of one class. -/
def same : Json → Json → Bool
  | .null, .null => true
  | .bool a, .bool b => a == b
  | .int a, .int b => a == b
  | .float a, .float b => a == b
  | .str a, .str b => a == b
  | .arr a, .arr b => sameItems a b
  | .obj a, .obj b => a.length == b.length && sameFields a b
  | _, _ => false

def sameItems : List Json → List Json → Bool
  | [], [] => true
  | a :: as, b :: bs => same a b && sameItems as bs
  | _, _ => false

def sameFields : Fields → Fields → Bool
  | [], _ => true
  | (k, v) :: rest, other =>
    (match find? k other with
      | some w => same v w
      | none => false) && sameFields rest other

end

instance : BEq Json := ⟨same⟩

mutual

/-- Every key once: at its first place, with its last value. -/
def dedup : Json → Json
  | .arr items => .arr (dedupItems items)
  | .obj fields => .obj (dedupFields fields)
  | v => v

def dedupItems : List Json → List Json
  | [] => []
  | v :: rest => dedup v :: dedupItems rest

/-- Reads the fields from the last to the first: a key met again later takes the later value. -/
def dedupFields : Fields → Fields
  | [] => []
  | (k, v) :: rest =>
    let later := dedupFields rest
    match find? k later with
    | some w => (k, w) :: later.filter (·.1 ≠ k)
    | none => (k, dedup v) :: later

end

mutual

def depth : Json → Nat
  | .arr items => depthItems items + 1
  | .obj fields => depthFields fields + 1
  | _ => 0

def depthItems : List Json → Nat
  | [] => 0
  | v :: rest => max (depth v) (depthItems rest)

def depthFields : Fields → Nat
  | [] => 0
  | (_, v) :: rest => max (depth v) (depthFields rest)

end

def isNull : Json → Bool
  | .null => true
  | _ => false

def get? (v : Json) (key : String) : Option Json :=
  match v with
  | .obj fields => find? key fields
  | _ => none

def str? : Json → Option String
  | .str s => some s
  | _ => none

def greatestNat64 : Nat := Nat.pow 2 64 - 1

def nat? : Json → Option Nat
  | .int (.ofNat n) => some n
  | _ => none

/-- A natural number of 64 bits. -/
def nat64? (v : Json) : Option Nat :=
  (nat? v).filter (· ≤ greatestNat64)

def int64? : Json → Option Int
  | .int n => if n < Nat.pow 2 63 then some n else none
  | _ => none

def float? : Json → Option Float
  | .int n => some (Float.ofInt n)
  | .float x => some x
  | _ => none

end Json

end Statechart
