import Statechart.Yaml.Basic

/-!
# Statechart.Yaml.Writer

Texts as YAML scalars. A text is written plain if it reads back as this text; otherwise between
single quotes, as a block of lines if it has several, and between double quotes if there is no other
way.

* `Yaml.scalarStyle`: how a text is written.
* `Yaml.writeText`: the scalar.
-/

namespace Statechart.Yaml

inductive ScalarStyle where
  | plain
  | singleQuoted
  | doubleQuoted
  | literal
  deriving DecidableEq, Repr

def isPrintable (c : Char) : Bool :=
  c = '\n' || (0x20 ≤ c.toNat && c.toNat ≤ 0x7E) || (0xA0 ≤ c.toNat && c.toNat ≤ 0xD7FF) ||
    (0xE000 ≤ c.toNat && c.toNat ≤ 0xFFFD && c.toNat ≠ 0xFEFF)

def isGap : List Char → Bool
  | [] => true
  | c :: _ => c = ' ' || c = '\t' || c = '\n'

def indicators : List Char :=
  ['#', ',', '[', ']', '\x7b', '\x7d', '&', '*', '!', '|', '>', '\'', '"', '%', '@', '\x60']

def startsAsMark : List Char → Bool
  | '-' :: '-' :: '-' :: _ => true
  | '.' :: '.' :: '.' :: _ => true
  | c :: rest => indicators.contains c || ((c = '?' || c = ':' || c = '-') && isGap rest)
  | [] => false

/-- Would something behind the first character be taken for a key or a comment? `gap`: does white
space stand in front? -/
def holdsMark (gap : Bool) : List Char → Bool
  | [] => false
  | c :: rest =>
    (c = ':' && isGap rest) || (c = '#' && gap) || holdsMark (c = ' ' || c = '\t') rest

def hasSpaceBeforeBreak : List Char → Bool
  | ' ' :: '\n' :: _ => true
  | _ :: rest => hasSpaceBeforeBreak rest
  | [] => false

def canBePlain (cs : List Char) : Bool :=
  !startsAsMark cs && !holdsMark (isGap cs) (cs.drop 1) && cs.all isPrintable &&
    cs.head? ≠ some ' ' && cs.getLast? ≠ some ' '

def canBeLiteral (cs : List Char) : Bool :=
  cs.all (fun c => isPrintable c || c = '\t') && !hasSpaceBeforeBreak cs && cs.getLast? ≠ some ' '

def scalarStyle (text : String) : ScalarStyle :=
  let cs := text.toList
  if cs.contains '\n' then
    if canBeLiteral cs then .literal else .doubleQuoted
  else if !cs.all isPrintable then .doubleQuoted
  else if Plain.isTyped text || !canBePlain cs then .singleQuoted
  else .plain

def singleQuoted (c : Char) : List Char :=
  if c = '\'' then ['\'', '\''] else [c]

def hexDigit (n : Nat) : Char :=
  if n < 10 then Char.ofNat ('0'.toNat + n) else Char.ofNat ('A'.toNat + (n - 10))

def hexDigits : Nat → Nat → List Char
  | 0, _ => []
  | width + 1, n => hexDigits width (n / 16) ++ [hexDigit (n % 16)]

def shortEscapes : List (Nat × Char) :=
  [(0x00, '0'), (0x07, 'a'), (0x08, 'b'), (0x09, 't'), (0x0A, 'n'), (0x0B, 'v'), (0x0C, 'f'),
    (0x0D, 'r'), (0x1B, 'e'), (0x22, '"'), (0x5C, '\\'), (0x85, 'N'), (0xA0, '_'), (0x2028, 'L'),
    (0x2029, 'P')]

def escaped (c : Char) : List Char :=
  match shortEscapes.find? (·.1 = c.toNat) with
  | some (_, letter) => ['\\', letter]
  | none =>
    if c.toNat ≤ 0xFF then '\\' :: 'x' :: hexDigits 2 c.toNat
    else if c.toNat ≤ 0xFFFF then '\\' :: 'u' :: hexDigits 4 c.toNat
    else '\\' :: 'U' :: hexDigits 8 c.toNat

def doubleQuoted (c : Char) : List Char :=
  let isBreak := c = '\n' || c = '\u2028' || c = '\u2029'
  if !isPrintable c || isBreak || c = '"' || c = '\\' then escaped c else [c]

/-- What follows the mark of a block: a digit if the text does not start with a character that shows
its indentation, and how the text ends: without, with one, or with more ends of lines. -/
def blockHints (cs : List Char) : List Char :=
  let start := match cs with
    | ' ' :: _ => ['2']
    | '\n' :: _ => ['2']
    | _ => []
  let ending := match cs.reverse with
    | '\n' :: '\n' :: _ => ['+']
    | ['\n'] => ['+']
    | '\n' :: _ => []
    | _ => ['-']
  start ++ ending

/-- The lines of a block, those that are not empty behind `indent` spaces. `fresh`: does a line
start here? -/
def blockLines (indent : Nat) (fresh : Bool) : List Char → List Char
  | [] => []
  | '\n' :: rest => '\n' :: blockLines indent true rest
  | c :: rest =>
    (if fresh then List.replicate indent ' ' else []) ++ c :: blockLines indent false rest

/-- A text as a scalar, with the end of its last line. The lines of a block are indented by
`indent`. -/
def writeText (indent : Nat) (text : String) : String :=
  let cs := text.toList
  match scalarStyle text with
  | .plain => text ++ "\n"
  | .singleQuoted => String.ofList ('\'' :: cs.flatMap singleQuoted ++ ['\'', '\n'])
  | .doubleQuoted => String.ofList ('"' :: cs.flatMap doubleQuoted ++ ['"', '\n'])
  | .literal =>
    let lines := blockLines indent true cs
    let ending := if cs.getLast? = some '\n' then [] else ['\n']
    String.ofList ('|' :: blockHints cs ++ '\n' :: lines ++ ending)

end Statechart.Yaml
