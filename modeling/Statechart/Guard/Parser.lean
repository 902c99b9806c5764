import Statechart.Guard.Expr
import Statechart.Text.Blank
import Statechart.Text.Letter

/-!
# Statechart.Guard.Parser

Guard expressions:

    expr    = and ("||" and)*
    and     = unary ("&&" unary)*
    unary   = "!" unary | "(" expr ")" | field [op literal]
    field   = ("ctx." | "event.") name ("." name)*

Both connectives associate to the left. `==` and `!=` take any literal, the ordering comparisons a
number. White space may stand between tokens.

Each reader returns what it read and the rest of the text. `GuardExpr.parse` is the whole; where it
stops short it names the byte at which the rest begins.
-/

namespace Statechart

inductive GuardError where
  | empty
  /-- An expression ends before this byte, and the text does not. -/
  | unexpectedInput (offset : Nat)
  | unclosedParenthesis
  | noField
  | invalidPath (path : String)
  | unterminatedString
  | invalidNumber (text : String)
  deriving DecidableEq, Repr

namespace GuardError

def message : GuardError → String
  | .empty => "empty guard expression"
  | .unexpectedInput offset => "unexpected input at offset " ++ toString offset
  | .unclosedParenthesis => "expected ')'"
  | .noField => "field must start with 'ctx.' or 'event.'"
  | .invalidPath path => "invalid field path '" ++ path ++ "'"
  | .unterminatedString => "unterminated string"
  | .invalidNumber text => "invalid number: '" ++ text ++ "'"

end GuardError

namespace GuardExpr

open Text

/-- A reader of expressions returns what it read and the rest of the text. -/
abbrev Reader := List Char → Except GuardError (GuardExpr × List Char)

def strip? (token cs : List Char) : Option (List Char) :=
  if token.isPrefixOf cs then some (cs.drop token.length) else none

def isPathChar (c : Char) : Bool :=
  isAlphanumeric c || c = '_' || c = '.'

def path (scope : Scope) (cs : List Char) : Except GuardError (FieldRef × List Char) :=
  let raw := cs.takeWhile isPathChar
  let keys := splitAtChar '.' raw
  if keys.any List.isEmpty then .error (.invalidPath (String.ofList raw))
  else .ok (⟨scope, keys.map String.ofList⟩, cs.dropWhile isPathChar)

def field (cs : List Char) : Except GuardError (FieldRef × List Char) :=
  match strip? ['c', 't', 'x', '.'] cs with
  | some rest => path .context rest
  | none =>
    match strip? ['e', 'v', 'e', 'n', 't', '.'] cs with
    | some rest => path .event rest
    | none => .error .noField

/-- The rest of a quoted string. A backslash takes the next character as it is. -/
def quoted (read : List Char) : List Char → Except GuardError (String × List Char)
  | [] => .error .unterminatedString
  | '"' :: rest => .ok (String.ofList read.reverse, rest)
  | ['\\'] => .error .unterminatedString
  | '\\' :: c :: rest => quoted (c :: read) rest
  | c :: rest => quoted (c :: read) rest

def natOfDigits (ds : List Char) : Nat :=
  ds.foldl (fun n d => 10 * n + (d.toNat - 48)) 0

/-- The number that digits and points denote, behind an optional sign: an integer if it is written
without a point and fits 64 bits, else the nearest double. -/
def numberOf? (negative : Bool) (body : List Char) : Option Json :=
  match splitAtChar '.' body with
  | [whole] =>
    if whole.isEmpty then none
    else
      let n : Int := natOfDigits whole
      let n := if negative then -n else n
      if -Nat.pow 2 63 ≤ n ∧ n < Nat.pow 2 63 then some (.int n)
      else (Number.ofDecimal n.natAbs 0).map fun x => .float (if negative then -x else x)
  | [whole, fraction] =>
    if whole.isEmpty && fraction.isEmpty then none
    else
      (Number.ofDecimal (natOfDigits (whole ++ fraction)) (-(fraction.length : Int))).map fun x =>
        .float (if negative then -x else x)
  | _ => none

def isNumberChar (c : Char) : Bool :=
  c.isDigit || c = '.'

def number (cs : List Char) : Except GuardError (Json × List Char) :=
  let (negative, rest) := match cs with
    | '-' :: rest => (true, rest)
    | _ => (false, cs)
  let body := rest.takeWhile isNumberChar
  match numberOf? negative body with
  | some v => .ok (v, rest.dropWhile isNumberChar)
  | none => .error (.invalidNumber (String.ofList (if negative then '-' :: body else body)))

def literal (cs : List Char) : Except GuardError (Json × List Char) :=
  match strip? ['t', 'r', 'u', 'e'] cs with
  | some rest => .ok (.bool true, rest)
  | none =>
    match strip? ['f', 'a', 'l', 's', 'e'] cs with
    | some rest => .ok (.bool false, rest)
    | none =>
      match strip? ['n', 'u', 'l', 'l'] cs with
      | some rest => .ok (.null, rest)
      | none =>
        match cs with
        | '"' :: rest => do
          let (s, rest) ← quoted [] rest
          return (.str s, rest)
        | _ => number cs

def comparison? (cs : List Char) : Option (Comparison × List Char) :=
  match cs with
  | '=' :: '=' :: rest => some (.eq, rest)
  | '!' :: '=' :: rest => some (.ne, rest)
  | '>' :: '=' :: rest => some (.ge, rest)
  | '<' :: '=' :: rest => some (.le, rest)
  | '>' :: rest => some (.gt, rest)
  | '<' :: rest => some (.lt, rest)
  | _ => none

def atom (cs : List Char) : Except GuardError (GuardExpr × List Char) := do
  let (f, rest) ← field cs
  let rest := dropBlank rest
  match comparison? rest with
  | none => return (.truthy f, rest)
  | some (op, rest) =>
    let (v, rest) ← match op with
      | .eq | .ne => literal (dropBlank rest)
      | _ => number (dropBlank rest)
    return (.compare f op v, rest)

/-- Operands behind the first one, each behind the token of a connective. The white space behind
the last operand is read too. `fuel` is more than the number of operands. -/
def chain (token : List Char) (connect : GuardExpr → GuardExpr → GuardExpr)
    (operand : Reader) :
    Nat → GuardExpr → List Char → Except GuardError (GuardExpr × List Char)
  | 0, left, cs => .ok (left, cs)
  | fuel + 1, left, cs =>
    match strip? token (dropBlank cs) with
    | none => .ok (left, dropBlank cs)
    | some rest => do
      let (right, rest) ← operand rest
      chain token connect operand fuel (connect left right) rest

def conjunction (operand : Reader) (fuel : Nat) (cs : List Char) :
    Except GuardError (GuardExpr × List Char) := do
  let (left, rest) ← operand cs
  chain ['&', '&'] .and operand fuel left rest

def disjunction (operand : Reader) (fuel : Nat) (cs : List Char) :
    Except GuardError (GuardExpr × List Char) := do
  let (left, rest) ← conjunction operand fuel cs
  chain ['|', '|'] .or (conjunction operand fuel) fuel left rest

/-- An operand with fewer than `levels` negations and open parentheses around its atoms. Texts with
fewer than `levels` characters have no more of them. -/
def unary (fuel : Nat) : Nat → Reader
  | 0, _ => .error .noField
  | levels + 1, cs =>
    match dropBlank cs with
    | '!' :: rest => do
      let (e, rest) ← unary fuel levels rest
      return (.not e, rest)
    | '(' :: rest => do
      let (e, rest) ← disjunction (unary fuel levels) fuel rest
      match dropBlank rest with
      | ')' :: rest => return (e, rest)
      | _ => .error .unclosedParenthesis
    | cs => atom cs

def expression (cs : List Char) : Except GuardError (GuardExpr × List Char) :=
  disjunction (unary (cs.length + 1) (cs.length + 1)) (cs.length + 1) cs

/-- Reads a text that is an expression, with white space around it. -/
def parseChars (cs : List Char) : Except GuardError GuardExpr :=
  let cs := trimChars cs
  if cs.isEmpty then .error .empty
  else do
    let (e, rest) ← expression cs
    let rest := dropBlank rest
    if rest.isEmpty then return e
    else .error (.unexpectedInput (byteLength cs - byteLength rest))

def parse (text : String) : Except GuardError GuardExpr :=
  parseChars text.toList

end GuardExpr

end Statechart
