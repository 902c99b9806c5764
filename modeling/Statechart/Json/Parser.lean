import Statechart.Json.Basic
import Statechart.Number.Binary64

/-!
# Statechart.Json.Parser

Reading JSON text. The reader works on characters and returns what it did not read.

* `value`: one value. Arrays and objects may be nested to the given number of levels.
* `parseDocument?`: a value at the start of a text, with the text behind it.
* `parse?`: a text that holds one value. Keys written twice are still there: `Json.dedup` says
  what they denote.

A number without fraction and exponent that fits 64 bits is an integer; every other number is a
double. Its first digits, as many as fit 64 bits, are scaled by one power of ten, which is exact
for short decimals and may miss the nearest double by one unit for long ones.
-/

namespace Statechart.Json

def isSpace (c : Char) : Bool :=
  c = ' ' || c = '\n' || c = '\t' || c = '\r'

def skipSpace (cs : List Char) : List Char :=
  cs.dropWhile isSpace

def hexValue (c : Char) : Option Nat :=
  if c.isDigit then some (c.toNat - 48)
  else if 'a' ≤ c && c ≤ 'f' then some (c.toNat - 87)
  else if 'A' ≤ c && c ≤ 'F' then some (c.toNat - 55)
  else none

def hexUnit (a b c d : Char) : Option Nat := do
  return ((← hexValue a) * 16 + (← hexValue b)) * 256 + ((← hexValue c) * 16 + (← hexValue d))

def unescape (c : Char) : Option Char :=
  match c with
  | '"' => some '"'
  | '\\' => some '\\'
  | '/' => some '/'
  | 'b' => some '\x08'
  | 'f' => some '\x0c'
  | 'n' => some '\n'
  | 'r' => some '\r'
  | 't' => some '\t'
  | _ => none

def isHighHalf (u : Nat) : Bool := 0xD800 ≤ u && u ≤ 0xDBFF

def isLowHalf (u : Nat) : Bool := 0xDC00 ≤ u && u ≤ 0xDFFF

/-- The rest of a string behind its opening quote; `read` holds what was read, last first. -/
def stringBody (read : List Char) : List Char → Option (String × List Char)
  | [] => none
  | '"' :: rest => some (String.ofList read.reverse, rest)
  | '\\' :: 'u' :: a :: b :: c :: d :: rest =>
    match hexUnit a b c d with
    | none => none
    | some u =>
      if isLowHalf u then none
      else if isHighHalf u then
        match rest with
        | '\\' :: 'u' :: e :: f :: g :: h :: rest =>
          match hexUnit e f g h with
          | none => none
          | some v =>
            if isLowHalf v then
              stringBody (Char.ofNat (0x10000 + (u - 0xD800) * 0x400 + (v - 0xDC00)) :: read) rest
            else none
        | _ => none
      else stringBody (Char.ofNat u :: read) rest
  | '\\' :: e :: rest =>
    match unescape e with
    | some c => stringBody (c :: read) rest
    | none => none
  | c :: rest => if c.toNat < 0x20 then none else stringBody (c :: read) rest

/-- Appends digits to a number while the result fits 64 bits. Returns the number, how many digits
went into it, and how many did not. -/
def absorb (n absorbed : Nat) : List Char → Nat × Nat × Nat
  | [] => (n, absorbed, 0)
  | d :: ds =>
    let next := 10 * n + (d.toNat - 48)
    if greatestNat64 < next then (n, absorbed, ds.length + 1) else absorb next (absorbed + 1) ds

def powerOfTen (k : Nat) : Float :=
  (Number.ofDecimal 1 k).getD 0

/-- Scales a double by a power of ten; none if the result is beyond the largest double. The
division by the largest power in the table is repeated at most `left` times. -/
def scale (f : Float) (exponent : Int) : Nat → Option Float
  | 0 => some f
  | left + 1 =>
    if exponent.natAbs ≤ 308 then
      if 0 ≤ exponent then
        let r := f * powerOfTen exponent.natAbs
        if r.isInf then none else some r
      else some (f / powerOfTen exponent.natAbs)
    else if f == 0 then some f
    else if 0 ≤ exponent then none
    else scale (f / powerOfTen 308) (exponent + 308) left

def floatOfParts (negative : Bool) (significand : Nat) (exponent : Int) : Option Json :=
  (scale significand.toUInt64.toFloat exponent 8).map fun f => .float (if negative then -f else f)

def exponentPart (cs : List Char) : Option (Option Int × List Char) :=
  match cs with
  | c :: rest =>
    if c = 'e' || c = 'E' then
      let (negative, rest) := match rest with
        | '-' :: rest => (true, rest)
        | '+' :: rest => (false, rest)
        | _ => (false, rest)
      let digits := rest.takeWhile Char.isDigit
      if digits.isEmpty then none
      else
        let n : Nat := digits.foldl (fun n d => 10 * n + (d.toNat - 48)) 0
        some (some (if negative then -(n : Int) else n), rest.drop digits.length)
    else some (none, cs)
  | [] => some (none, cs)

/-- An integer: a double if it does not fit 64 bits, or is zero with a sign. -/
def integer (negative : Bool) (n : Nat) : Json :=
  if !negative then .int n
  else if n = 0 || Nat.pow 2 63 < n then .float (-n.toUInt64.toFloat)
  else .int (-n)

def unsignedNumber (negative : Bool) (cs : List Char) : Option (Json × List Char) :=
  let whole := cs.takeWhile Char.isDigit
  let rest := cs.drop whole.length
  if whole.isEmpty || (whole.length ≠ 1 && whole.head? = some '0') then none
  else
    let (n, _, dropped) := absorb 0 0 whole
    match rest with
    | '.' :: behind =>
      let fraction := behind.takeWhile Char.isDigit
      if fraction.isEmpty then none
      else
        let (n, absorbed, _) := absorb n 0 fraction
        match exponentPart (behind.drop fraction.length) with
        | none => none
        | some (e, rest) =>
          (floatOfParts negative n (e.getD 0 + dropped - absorbed)).map (·, rest)
    | _ =>
      match exponentPart rest with
      | none => none
      | some (some e, rest) => (floatOfParts negative n (e + dropped)).map (·, rest)
      | some (none, rest) =>
        if dropped = 0 then some (integer negative n, rest)
        else (floatOfParts negative n dropped).map (·, rest)

def number (cs : List Char) : Option (Json × List Char) :=
  match cs with
  | '-' :: rest => unsignedNumber true rest
  | _ => unsignedNumber false cs

def word (w : List Char) (cs : List Char) : Option (List Char) :=
  if w.isPrefixOf cs then some (cs.drop w.length) else none

/-- The items of an array behind its bracket or a comma; `read` holds the items read, last first.
`fuel` is at least the number of characters. -/
def items (item : List Char → Option (Json × List Char)) (read : List Json) :
    Nat → List Char → Option (List Json × List Char)
  | 0, _ => none
  | fuel + 1, cs =>
    match item cs with
    | none => none
    | some (v, rest) =>
      match skipSpace rest with
      | ',' :: rest => items item (v :: read) fuel rest
      | ']' :: rest => some ((v :: read).reverse, rest)
      | _ => none

def field (item : List Char → Option (Json × List Char)) (cs : List Char) :
    Option ((String × Json) × List Char) :=
  match skipSpace cs with
  | '"' :: rest =>
    match stringBody [] rest with
    | none => none
    | some (key, rest) =>
      match skipSpace rest with
      | ':' :: rest => (item rest).map fun (v, rest) => ((key, v), rest)
      | _ => none
  | _ => none

/-- The fields of an object behind its brace or a comma, as `items` for arrays. -/
def fields (item : List Char → Option (Json × List Char)) (read : Fields) :
    Nat → List Char → Option (Fields × List Char)
  | 0, _ => none
  | fuel + 1, cs =>
    match field item cs with
    | none => none
    | some (kv, rest) =>
      match skipSpace rest with
      | ',' :: rest => fields item (kv :: read) fuel rest
      | '}' :: rest => some ((kv :: read).reverse, rest)
      | _ => none

/-- A value with at most `levels` levels of arrays and objects. `fuel` is at least the number of
characters. -/
def value (fuel : Nat) : Nat → List Char → Option (Json × List Char)
  | levels, cs =>
    match skipSpace cs with
    | 'n' :: rest => (word ['u', 'l', 'l'] rest).map (.null, ·)
    | 't' :: rest => (word ['r', 'u', 'e'] rest).map (.bool true, ·)
    | 'f' :: rest => (word ['a', 'l', 's', 'e'] rest).map (.bool false, ·)
    | '"' :: rest => (stringBody [] rest).map fun (s, rest) => (.str s, rest)
    | '[' :: rest =>
      match levels with
      | 0 => none
      | levels + 1 =>
        match skipSpace rest with
        | ']' :: rest => some (.arr [], rest)
        | rest => (items (value fuel levels) [] fuel rest).map fun (vs, rest) => (.arr vs, rest)
    | '{' :: rest =>
      match levels with
      | 0 => none
      | levels + 1 =>
        match skipSpace rest with
        | '}' :: rest => some (.obj [], rest)
        | rest => (fields (value fuel levels) [] fuel rest).map fun (fs, rest) => (.obj fs, rest)
    | rest => number rest

def levelLimit : Nat := 127

def parseDocument? (text : String) : Option (Json × List Char) :=
  let cs := text.toList
  value (cs.length + 1) levelLimit cs

def parse? (text : String) : Option Json :=
  match parseDocument? text with
  | some (v, rest) => if (skipSpace rest).isEmpty then some v else none
  | none => none

end Statechart.Json
