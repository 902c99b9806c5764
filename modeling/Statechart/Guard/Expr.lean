import Statechart.Json.Text

/-!
# Statechart.Guard.Expr

Guard expressions over a JSON context and the data of an event.

* `GuardExpr`: the expressions.
* `GuardExpr.evaluate`: their truth. A field that is not there is null; a comparison by order with
  something that is no number is false; arrays and objects equal nothing.
* `GuardExpr.text`: the tree of an expression, operator first.
-/

namespace Statechart

inductive Scope where
  | context
  | event
  deriving DecidableEq, Repr

structure FieldRef where
  scope : Scope
  path : List String
  deriving DecidableEq, Repr

inductive Comparison where
  | eq
  | ne
  | gt
  | ge
  | lt
  | le
  deriving DecidableEq, Repr

inductive GuardExpr where
  /-- The field is neither null, false, zero nor empty. -/
  | truthy (field : FieldRef)
  | compare (field : FieldRef) (op : Comparison) (value : Json)
  | and (left right : GuardExpr)
  | or (left right : GuardExpr)
  | not (inner : GuardExpr)
  deriving Repr

namespace FieldRef

/-- Follows keys through objects; null where they lead nowhere. -/
def follow (v : Json) : List String → Json
  | [] => v
  | key :: rest =>
    match v.get? key with
    | some w => follow w rest
    | none => .null

def lookup (f : FieldRef) (context event : Json) : Json :=
  match f.scope with
  | .context => follow context f.path
  | .event => follow event f.path

def text (f : FieldRef) : String :=
  let root := match f.scope with
    | .context => "ctx"
    | .event => "event"
  ".".intercalate (root :: f.path)

end FieldRef

namespace Comparison

def text : Comparison → String
  | .eq => "=="
  | .ne => "!="
  | .gt => ">"
  | .ge => ">="
  | .lt => "<"
  | .le => "<="

end Comparison

namespace GuardExpr

def isTruthy : Json → Bool
  | .null => false
  | .bool b => b
  | .int n => n != 0
  | .float x => x != 0
  | .str s => s != ""
  | .arr items => !items.isEmpty
  | .obj fields => !fields.isEmpty

/-- The distance from one to the next double: numbers nearer than this are equal. -/
def epsilon : Float := Float.ofBits 0x3CB0000000000000

def equals (value expected : Json) : Bool :=
  match value.float?, expected.float? with
  | some a, some b => (a - b).abs < epsilon
  | _, _ =>
    match value with
    | .arr _ => false
    | .obj _ => false
    | v => v == expected

def holds (value : Json) (op : Comparison) (expected : Json) : Bool :=
  match op with
  | .eq => equals value expected
  | .ne => !equals value expected
  | op =>
    match value.float?, expected.float? with
    | some a, some b =>
      match op with
      | .gt => b < a
      | .ge => b ≤ a
      | .lt => a < b
      | _ => a ≤ b
    | _, _ => false

def evaluate (context event : Json) : GuardExpr → Bool
  | .truthy f => isTruthy (f.lookup context event)
  | .compare f op expected => holds (f.lookup context event) op expected
  | .and l r => evaluate context event l && evaluate context event r
  | .or l r => evaluate context event l || evaluate context event r
  | .not e => !evaluate context event e

/-- The tree of an expression, operator first. -/
def text : GuardExpr → String
  | .truthy f => "(truthy " ++ f.text ++ ")"
  | .compare f op v => "(" ++ op.text ++ " " ++ f.text ++ " " ++ v.compact ++ ")"
  | .and l r => "(and " ++ text l ++ " " ++ text r ++ ")"
  | .or l r => "(or " ++ text l ++ " " ++ text r ++ ")"
  | .not e => "(not " ++ text e ++ ")"

end GuardExpr

end Statechart
