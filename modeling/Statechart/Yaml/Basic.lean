import Statechart.Number.Binary64

/-!
# Statechart.Yaml.Basic

YAML nodes, as far as settings need them. Of how a scalar was written, a node keeps only whether it
was plain: a plain scalar may stand for null, a truth value or a number, a quoted one may not.

* `Yaml`: the nodes.
* `Plain.isNull`, `Plain.bool?`, `Plain.nat64?`, `Plain.isNumber`: what a plain scalar stands for.
* `Plain.isTyped`: does a plain scalar stand for something else than its text?
-/

namespace Statechart

inductive Yaml where
  | scalar (plain : Bool) (text : String)
  | sequence (items : List Yaml)
  | mapping (entries : List (Yaml × Yaml))
  deriving Inhabited, Repr

namespace Yaml

/-- The node of a document or value of which nothing is written. -/
def absent : Yaml := .scalar true ""

namespace Plain

def isNull (text : String) : Bool :=
  ["", "~", "null", "Null", "NULL"].contains text

def bool? (text : String) : Option Bool :=
  if ["true", "True", "TRUE"].contains text then some true
  else if ["false", "False", "FALSE"].contains text then some false
  else none

def digitValue (c : Char) : Nat :=
  let c := c.toLower
  if c.isDigit then c.toNat - '0'.toNat
  else if 'a' ≤ c ∧ c ≤ 'z' then c.toNat - 'a'.toNat + 10
  else 36

def digits? (base : Nat) : List Char → Option Nat
  | [] => none
  | cs =>
    if cs.all (digitValue · < base) then some (cs.foldl (fun n c => base * n + digitValue c) 0)
    else none

def dropSign : List Char → Bool × List Char
  | '+' :: rest => (false, rest)
  | '-' :: rest => (true, rest)
  | cs => (false, cs)

/-- The magnitude that a text without sign denotes: `0x`, `0o` and `0b` name a base, and a decimal
number has no leading zero. -/
def magnitude? : List Char → Option Nat
  | '0' :: 'x' :: rest => digits? 16 rest
  | '0' :: 'o' :: rest => digits? 8 rest
  | '0' :: 'b' :: rest => digits? 2 rest
  | '0' :: d :: rest => if (d :: rest).all Char.isDigit then none else digits? 10 ('0' :: d :: rest)
  | cs => digits? 10 cs

def int? (text : String) : Option Int :=
  match dropSign text.toList with
  | (true, cs) => (magnitude? cs).map fun n => -(n : Int)
  | (false, cs) => (magnitude? cs).map fun n => (n : Int)

def nat64? (text : String) : Option Nat :=
  match dropSign text.toList with
  | (true, _) => none
  | (false, cs) => (magnitude? cs).filter (· < Nat.pow 2 64)

def decimal? (cs : List Char) : Option (Nat × Int) :=
  let whole := cs.takeWhile (· ≠ '.')
  let fraction := (cs.dropWhile (· ≠ '.')).drop 1
  (digits? 10 (whole ++ fraction)).map fun n => (n, -(fraction.length : Int))

def exponent? (cs : List Char) : Option Int :=
  match dropSign cs with
  | (true, ds) => (digits? 10 ds).map fun n => -(n : Int)
  | (false, ds) => (digits? 10 ds).map fun n => (n : Int)

/-- Is a text without sign a decimal number that a double can be near to? -/
def isDecimal (cs : List Char) : Bool :=
  let isMark (c : Char) : Bool := c = 'e' || c = 'E'
  let power := match cs.dropWhile (!isMark ·) with
    | [] => some 0
    | _ :: rest => exponent? rest
  match decimal? (cs.takeWhile (!isMark ·)), power with
  | some (n, e), some p => (Number.ofDecimal n (e + p)).isSome
  | _, _ => false

def isSpecial (text : String) : Bool :=
  [".inf", ".Inf", ".INF", "+.inf", "+.Inf", "+.INF", "-.inf", "-.Inf", "-.INF", ".nan", ".NaN",
    ".NAN"].contains text

def hasLeadingZero (text : String) : Bool :=
  match (dropSign text.toList).2 with
  | '0' :: d :: rest => (d :: rest).all Char.isDigit
  | _ => false

def isWithinBounds (n : Int) : Bool :=
  -(Nat.pow 2 127) ≤ n && n < Nat.pow 2 128

def isNumber (text : String) : Bool :=
  (int? text).any isWithinBounds || isSpecial text ||
    (!hasLeadingZero text && isDecimal (dropSign text.toList).2)

/-- Does a plain scalar stand for something else than its text, or look as if it did? -/
def isTyped (text : String) : Bool :=
  isNull text || (bool? text).isSome || isNumber text || hasLeadingZero text

end Plain

end Yaml

end Statechart
