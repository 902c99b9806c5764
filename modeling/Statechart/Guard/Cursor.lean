import Statechart.Guard.Parser

/-!
# Statechart.Guard.Cursor

Guard expressions read with a cursor, a byte position in the text that moves on by the width of
what is read: of a token, of a character, or by one byte where a character is known to have one.
What is read is cut out of the text at such positions. A cut fails where no character begins, and
a loop that has used up its fuel before it ends fails as well.

* `Text.fromByte?`, `Text.between?`: cuts.
* `Scan`: reading with a cursor that remembers where it has been.
* `GuardExpr.scan`: the whole, with the positions that the cursor takes.
-/

namespace Statechart

namespace Text

/-- The text from a byte on. None if the byte is inside a character or behind the end. -/
def fromByte? : List Char → Nat → Option (List Char)
  | cs, 0 => some cs
  | [], _ + 1 => none
  | c :: cs, n + 1 => if c.utf8Size ≤ n + 1 then fromByte? cs (n + 1 - c.utf8Size) else none

/-- The text up to a byte. -/
def upToByte? : List Char → Nat → Option (List Char)
  | _, 0 => some []
  | [], _ + 1 => none
  | c :: cs, n + 1 =>
    if c.utf8Size ≤ n + 1 then (upToByte? cs (n + 1 - c.utf8Size)).map (c :: ·) else none

def between? (cs : List Char) (start stop : Nat) : Option (List Char) :=
  if start ≤ stop then (fromByte? cs start).bind (upToByte? · (stop - start)) else none

end Text

/-- Why reading stops before the end. -/
inductive Halt where
  | refused (e : GuardError)
  /-- A cut where no character begins. -/
  | misplaced
  | outOfFuel

/-- A byte position, with those before it, the latest first. -/
structure Cursor where
  position : Nat := 0
  passed : List Nat := []

/-- All positions of the cursor in turn. -/
def Cursor.positions (c : Cursor) : List Nat :=
  (c.position :: c.passed).reverse

abbrev Scan :=
  EStateM Halt Cursor

namespace Scan

open Text

variable {α : Type}

def refuse (e : GuardError) : Scan α :=
  throw (.refused e)

def position : Scan Nat := do
  return (← get).position

def advance (bytes : Nat) : Scan Unit :=
  modify fun c => ⟨c.position + bytes, c.position :: c.passed⟩

def orMisplaced : Option α → Scan α
  | some a => pure a
  | none => throw .misplaced

/-- What is left of the text. -/
def remaining (text : List Char) : Scan (List Char) := do
  orMisplaced (fromByte? text (← position))

/-- What has been passed since a position. -/
def passedFrom (text : List Char) (start : Nat) : Scan (List Char) := do
  orMisplaced (between? text start (← position))

def peek (text : List Char) : Scan (Option Char) := do
  return (← remaining text).head?

def atEnd (text : List Char) : Scan Bool := do
  return decide (byteLength text ≤ (← position))

/-- Passes a token if it comes next. -/
def eat (text token : List Char) : Scan Bool := do
  if token.isPrefixOf (← remaining text) then
    advance (byteLength token)
    return true
  else
    return false

/-- Passes characters with a property, as far as they go. -/
def passWhile (text : List Char) (p : Char → Bool) (width : Char → Nat) : Nat → Scan Unit
  | 0 => throw .outOfFuel
  | fuel + 1 => do
    match ← peek text with
    | some c =>
      if p c then
        advance (width c)
        passWhile text p width fuel
      else
        return ()
    | none => return ()

def passBlank (text : List Char) (fuel : Nat) : Scan Unit :=
  passWhile text isBlank Char.utf8Size fuel

def scope (text : List Char) : Scan Scope := do
  if ← eat text ['c', 't', 'x', '.'] then
    return .context
  else if ← eat text ['e', 'v', 'e', 'n', 't', '.'] then
    return .event
  else
    refuse .noField

def path (text : List Char) (fuel : Nat) (scope : Scope) : Scan FieldRef := do
  let start ← position
  passWhile text GuardExpr.isPathChar Char.utf8Size fuel
  let raw ← passedFrom text start
  let keys := splitAtChar '.' raw
  if keys.any List.isEmpty then
    refuse (.invalidPath (String.ofList raw))
  else
    return ⟨scope, keys.map String.ofList⟩

def field (text : List Char) (fuel : Nat) : Scan FieldRef := do
  path text fuel (← scope text)

/-- The rest of a quoted string. Behind a backslash any character belongs to it. -/
def quoted (text : List Char) : Nat → Bool → List Char → Scan String
  | 0, _, _ => throw .outOfFuel
  | fuel + 1, escaped, read => do
    match ← peek text with
    | none => refuse .unterminatedString
    | some c =>
      advance c.utf8Size
      if escaped then
        quoted text fuel false (c :: read)
      else if c = '\\' then
        quoted text fuel true read
      else if c = '"' then
        return String.ofList read.reverse
      else
        quoted text fuel false (c :: read)

/-- The number that a text denotes. -/
def numberOfText? : List Char → Option Json
  | '-' :: body => GuardExpr.numberOf? true body
  | body => GuardExpr.numberOf? false body

def passMinus (text : List Char) : Scan Unit := do
  match ← peek text with
  | some '-' => advance 1
  | _ => return ()

def number (text : List Char) (fuel : Nat) : Scan Json := do
  let start ← position
  passMinus text
  passWhile text GuardExpr.isNumberChar (fun _ => 1) fuel
  let written ← passedFrom text start
  match numberOfText? written with
  | some v => return v
  | none => refuse (.invalidNumber (String.ofList written))

def literal (text : List Char) (fuel : Nat) : Scan Json := do
  if ← eat text ['t', 'r', 'u', 'e'] then
    return .bool true
  else if ← eat text ['f', 'a', 'l', 's', 'e'] then
    return .bool false
  else if ← eat text ['n', 'u', 'l', 'l'] then
    return .null
  else
    match ← peek text with
    | some '"' =>
      advance 1
      return .str (← quoted text fuel false [])
    | _ => number text fuel

def comparison (text : List Char) : Scan (Option Comparison) := do
  if ← eat text ['=', '='] then
    return some .eq
  else if ← eat text ['!', '='] then
    return some .ne
  else if ← eat text ['>', '='] then
    return some .ge
  else if ← eat text ['<', '='] then
    return some .le
  else if ← eat text ['>'] then
    return some .gt
  else if ← eat text ['<'] then
    return some .lt
  else
    return none

/-- What may stand behind a comparison. -/
def operand (text : List Char) (fuel : Nat) : Comparison → Scan Json
  | .eq | .ne => literal text fuel
  | .gt | .ge | .lt | .le => number text fuel

def atom (text : List Char) (fuel : Nat) : Scan GuardExpr := do
  let f ← field text fuel
  passBlank text fuel
  match ← comparison text with
  | none => return .truthy f
  | some op =>
    passBlank text fuel
    return .compare f op (← operand text fuel op)

/-- Operands behind the first one, each behind the token of a connective. -/
def chain (text token : List Char) (connect : GuardExpr → GuardExpr → GuardExpr)
    (read : Scan GuardExpr) (blanks : Nat) : Nat → GuardExpr → Scan GuardExpr
  | 0, _ => throw .outOfFuel
  | fuel + 1, left => do
    passBlank text blanks
    if ← eat text token then
      let right ← read
      chain text token connect read blanks fuel (connect left right)
    else
      return left

def conjunction (text : List Char) (read : Scan GuardExpr) (fuel : Nat) : Scan GuardExpr := do
  let left ← read
  chain text ['&', '&'] .and read fuel fuel left

def disjunction (text : List Char) (read : Scan GuardExpr) (fuel : Nat) : Scan GuardExpr := do
  let left ← conjunction text read fuel
  chain text ['|', '|'] .or (conjunction text read fuel) fuel fuel left

def unary (text : List Char) (fuel : Nat) : Nat → Scan GuardExpr
  | 0 => throw .outOfFuel
  | levels + 1 => do
    passBlank text fuel
    if ← eat text ['!'] then
      return .not (← unary text fuel levels)
    else if ← eat text ['('] then
      let e ← disjunction text (unary text fuel levels) fuel
      passBlank text fuel
      if ← eat text [')'] then
        return e
      else
        refuse .unclosedParenthesis
    else
      atom text fuel

/-- An expression that ends where the text ends. -/
def whole (text : List Char) (fuel : Nat) : Scan GuardExpr := do
  let e ← disjunction text (unary text fuel fuel) fuel
  passBlank text fuel
  if ← atEnd text then
    return e
  else
    refuse (.unexpectedInput (← position))

end Scan

/-- Reads a text with a cursor: what comes of it, and the positions of the cursor in turn. `fuel`
bounds every loop, and how deep negations and parentheses are nested. -/
def GuardExpr.scan (fuel : Nat) (text : String) : Except Halt GuardExpr × List Nat :=
  let cs := Text.trimChars text.toList
  if cs.isEmpty then (.error (.refused .empty), [])
  else
    match Scan.whole cs fuel {} with
    | .ok e c => (.ok e, c.positions)
    | .error h c => (.error h, c.positions)

end Statechart
