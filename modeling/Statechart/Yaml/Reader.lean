import Statechart.Text.Blank
import Statechart.Yaml.Writer

/-!
# Statechart.Yaml.Reader

Reading a YAML document: block and flow collections, plain and quoted scalars, blocks of lines,
comments, anchors, and tags, which are passed over. Explicit keys (`?`) are not read.

* `Cursor`: a place in a text. The column of a place decides to which collection a line belongs.
* `blockNode`: a node that may be a collection by indentation.
* `flowNode`: a node inside brackets.
* `Yaml.parse?`: the only document of a text.

The readers carry fuel, which is more than the number of characters that are left to read.
-/

namespace Statechart.Yaml

structure Cursor where
  rest : List Char
  column : Nat := 0
  line : Nat := 0
  /-- Can a block collection start here? -/
  fresh : Bool := true
  /-- The nodes with a name. -/
  anchors : List (String × Yaml) := []

abbrev Reader := StateT Cursor Option

namespace Reader

def fail {α : Type} : Reader α := fun _ => none

def require (condition : Bool) : Reader Unit :=
  if condition then pure () else fail

def step (c : Cursor) : Cursor :=
  match c.rest with
  | [] => c
  | '\n' :: rest => { c with rest, column := 0, line := c.line + 1, fresh := true }
  | _ :: rest => { c with rest, column := c.column + 1, fresh := false }

def steps : Nat → Cursor → Cursor
  | 0, c => c
  | n + 1, c => steps n (step c)

def skip (n : Nat) : Reader Unit :=
  modify (steps n)

/-- Number of characters of the white space and comments in front of the next token. `tabs`: may
tabs stand here? -/
def gapLength (flow : Bool) (tabs comment : Bool) : List Char → Nat
  | [] => 0
  | c :: rest =>
    if c = '\n' then gapLength flow flow false rest + 1
    else if comment || c = ' ' || (c = '\t' && tabs) then gapLength flow tabs comment rest + 1
    else if c = '#' then gapLength flow tabs true rest + 1
    else 0

/-- Passes over white space and comments. Spaces do not change whether a collection can start. -/
def gap (flow : Bool) : Reader Unit := modify fun c =>
  let n := gapLength flow (flow || !c.fresh) false c.rest
  let next := steps n c
  { next with fresh := if next.line = c.line then c.fresh else true }

/-- Is this a line that separates documents, or what follows the last one? -/
def isMarker (c : Cursor) : Bool :=
  c.column = 0 && match c.rest with
    | '-' :: '-' :: '-' :: rest => isGap rest
    | '.' :: '.' :: '.' :: rest => isGap rest
    | _ => false

def isOver (c : Cursor) : Bool :=
  c.rest.isEmpty || isMarker c

def startsWith (char : Char) (c : Cursor) : Bool :=
  c.rest.head? = some char

def hasMark (mark : Char) (c : Cursor) : Bool :=
  match c.rest with
  | char :: rest => char = mark && isGap rest
  | [] => false

/-! ## Scalars -/

def isFlowMark (c : Char) : Bool :=
  c = ',' || c = '[' || c = ']' || c = '\x7b' || c = '\x7d'

def plainChars (flow : Bool) (blank : Bool) : List Char → List Char
  | [] => []
  | c :: rest =>
    if c = '\n' || (c = '#' && blank) || (flow && isFlowMark c) then []
    else if c = ':' && (isGap rest || (flow && rest.head?.any isFlowMark)) then []
    else c :: plainChars flow (c = ' ' || c = '\t') rest

def dropTrailingBlanks (cs : List Char) : List Char :=
  (cs.reverse.dropWhile fun c => c = ' ' || c = '\t').reverse

def plainLine (flow : Bool) : Reader (List Char) := do
  let cs := dropTrailingBlanks (plainChars flow true (← get).rest)
  skip cs.length
  return cs

def startsPlain (flow : Bool) (cs : List Char) : Bool :=
  match cs with
  | [] => false
  | c :: rest =>
    !(indicators.contains c || c = ' ' || c = '\t' || c = '\n') &&
      (c ≠ '-' || rest.head?.any fun d => d ≠ ' ' && d ≠ '\t') &&
      ((c ≠ '?' && c ≠ ':') || (!flow && !isGap rest))

/-- What white space between two lines of a scalar stands for: a space, or the ends of lines but
one. -/
def foldedBreak (lines : Nat) : List Char :=
  if lines ≤ 1 then [' '] else List.replicate (lines - 1) '\n'

/-- The further lines of a plain scalar, each at column `least` or behind. -/
def plainLines (flow : Bool) (least : Nat) : Nat → Reader (List Char)
  | 0 => pure []
  | fuel + 1 => do
    let start ← get
    let n := (start.rest.takeWhile fun c => c = ' ' || c = '\t' || c = '\n').length
    let next := steps n start
    if next.line = start.line || isOver next || startsWith '#' next ||
        (!flow && next.column < least) then
      return []
    else
      let cs := dropTrailingBlanks (plainChars flow true next.rest)
      if cs.isEmpty then return []
      else
        set (steps cs.length next)
        let more ← plainLines flow least fuel
        return foldedBreak (next.line - start.line) ++ cs ++ more

/-- Takes the white space around an end of line inside quotes: what it stands for. -/
def quotedBreak : Reader (List Char) := do
  let start ← get
  let n := (start.rest.takeWhile fun c => c = ' ' || c = '\t' || c = '\n').length
  let next := steps n start
  if isMarker next then fail
  else
    set next
    return foldedBreak (next.line - start.line)

def breaksNext (c : Cursor) : Bool :=
  ((c.rest.dropWhile fun c => c = ' ' || c = '\t').head?) = some '\n'

def singleQuotedChars : Nat → Reader (List Char)
  | 0 => fail
  | fuel + 1 => do
    let c ← get
    if breaksNext c then
      let folded ← quotedBreak
      return folded ++ (← singleQuotedChars fuel)
    else match c.rest with
      | '\'' :: '\'' :: _ =>
        skip 2
        return '\'' :: (← singleQuotedChars fuel)
      | '\'' :: _ =>
        skip 1
        return []
      | char :: _ =>
        skip 1
        return char :: (← singleQuotedChars fuel)
      | [] => fail

def escapeWidth? : Char → Option Nat
  | 'x' => some 2
  | 'u' => some 4
  | 'U' => some 8
  | _ => none

def furtherEscapes : List (Char × Char) :=
  [('\t', '\t'), (' ', ' '), ('/', '/')]

def escapedChar? (letter : Char) : Option Char :=
  match shortEscapes.find? (·.2 = letter) with
  | some (code, _) => some (Char.ofNat code)
  | none => (furtherEscapes.find? (·.1 = letter)).map (·.2)

def escape : Reader Char := do
  match (← get).rest with
  | [] => fail
  | letter :: rest =>
    match escapeWidth? letter with
    | none =>
      skip 1
      match escapedChar? letter with
      | some c => return c
      | none => fail
    | some width =>
      let digits := rest.take width
      match Plain.digits? 16 digits with
      | some n =>
        require (digits.length = width && n.isValidChar)
        skip (width + 1)
        return Char.ofNat n
      | none => fail

/-- The text between double quotes, from behind the first. A backslash at the end of a line joins
it to the next line. -/
def doubleQuotedChars : Nat → Reader (List Char)
  | 0 => fail
  | fuel + 1 => do
    let c ← get
    if breaksNext c then
      let folded ← quotedBreak
      return folded ++ (← doubleQuotedChars fuel)
    else match c.rest with
      | '\\' :: '\n' :: _ =>
        skip 1
        let folded ← quotedBreak
        return (if folded = [' '] then [] else folded) ++ (← doubleQuotedChars fuel)
      | '\\' :: _ =>
        skip 1
        let char ← escape
        return char :: (← doubleQuotedChars fuel)
      | '"' :: _ =>
        skip 1
        return []
      | char :: _ =>
        skip 1
        return char :: (← doubleQuotedChars fuel)
      | [] => fail

def quoted (fuel : Nat) : Reader Yaml := do
  let double := startsWith '"' (← get)
  skip 1
  let cs ← if double then doubleQuotedChars fuel else singleQuotedChars fuel
  return .scalar false (String.ofList cs)

/-! ## Blocks of lines -/

inductive Chomping where
  | strip
  | clip
  | keep
  deriving DecidableEq

/-- The marks behind `|` or `>`: how the end is kept, and the indentation if it is given. -/
def blockHeader? : List Char → Option (Chomping × Option Nat)
  | [] => some (.clip, none)
  | ['+'] => some (.keep, none)
  | ['-'] => some (.strip, none)
  | [d] => digit? d |>.map fun n => (.clip, some n)
  | [a, b] =>
    match a, b with
    | '+', d => digit? d |>.map fun n => (.keep, some n)
    | '-', d => digit? d |>.map fun n => (.strip, some n)
    | d, '+' => digit? d |>.map fun n => (.keep, some n)
    | d, '-' => digit? d |>.map fun n => (.strip, some n)
    | _, _ => none
  | _ => none
where
  digit? (d : Char) : Option Nat :=
    if '1' ≤ d ∧ d ≤ '9' then some (d.toNat - '0'.toNat) else none

structure BlockLine where
  text : List Char
  ended : Bool

/-- The indentation that the first lines of a block show: the column of the first text, or of the
longest blank line in front of it. -/
def shownIndent (longest : Nat) : List (List Char) → Nat
  | [] => longest
  | line :: rest =>
    let spaces := (line.takeWhile (· = ' ')).length
    if spaces = line.length then shownIndent (max longest spaces) rest else max longest spaces

def linesOf (cs : List Char) : List (List Char) :=
  Text.splitAtChar '\n' cs

def isInBlock (indent : Nat) (line : List Char) : Bool :=
  let spaces := (line.takeWhile (· = ' ')).length
  indent ≤ spaces || spaces = line.length

/-- Adds the ends of lines between two lines of a folded block. -/
def foldedEnds (previous : List Char) (blankLines : Nat) (line : List Char) : List Char :=
  let isIndented (cs : List Char) : Bool := cs.head?.any fun c => c = ' ' || c = '\t'
  if isIndented previous || isIndented line then List.replicate (blankLines + 1) '\n'
  else if blankLines = 0 then [' ']
  else List.replicate blankLines '\n'

/-- The text of the lines of a block up to its last line that is not empty, and the number of empty
lines behind that. -/
def blockText (folded : Bool) : Option (List Char) → Nat → List (List Char) → List Char × Nat
  | _, blankLines, [] => ([], blankLines)
  | previous, blankLines, [] :: rest => blockText folded previous (blankLines + 1) rest
  | previous, blankLines, line :: rest =>
    let ends := match previous with
      | none => List.replicate blankLines '\n'
      | some p =>
        if folded then foldedEnds p blankLines line else List.replicate (blankLines + 1) '\n'
    let (text, blanks) := blockText folded (some line) 0 rest
    (ends ++ line ++ text, blanks)

/-- The end of a block. `ended`: does an end of line follow the last text? -/
def chomped (chomping : Chomping) (hasText ended : Bool) (blankLines : Nat) : List Char :=
  match chomping with
  | .strip => []
  | .clip => if hasText && ended then ['\n'] else []
  | .keep => List.replicate (if hasText && ended then blankLines + 1 else blankLines) '\n'

/-- A block of lines, from behind its mark. `least` is the least column of a node here. -/
def block (folded : Bool) (least : Nat) : Reader Yaml := do
  let c ← get
  let marks := c.rest.takeWhile fun d => d ≠ ' ' && d ≠ '\t' && d ≠ '\n'
  match blockHeader? marks with
  | none => fail
  | some (chomping, given) =>
    skip marks.length
    let behind := (← get).rest
    let blanks := (behind.takeWhile fun d => d = ' ' || d = '\t').length
    let tail := (behind.drop blanks).takeWhile (· ≠ '\n')
    require (tail.isEmpty || (0 < blanks && tail.head? = some '#'))
    skip (blanks + tail.length + 1)
    let lines := linesOf (← get).rest
    let indent := match given with
      | some n => if least = 0 then n else least - 1 + n
      | none => max (shownIndent 0 lines) (max least 1)
    let own := lines.takeWhile (isInBlock indent)
    let texts := own.map (List.drop indent)
    let (text, blankLines) := blockText folded none 0 texts
    -- The last piece of the whole text has no end of line.
    let isLast := own.length = lines.length
    let length := own.flatten.length + own.length - (if isLast then 1 else 0)
    skip length
    let blankLines := if isLast then blankLines - 1 else blankLines
    let ended := !isLast || texts.getLast?.any List.isEmpty
    return .scalar false (String.ofList (text ++ chomped chomping (!text.isEmpty) ended blankLines))

/-! ## Names and tags -/

def anchorName : Reader String := do
  skip 1
  let cs := (← get).rest.takeWhile fun c => c.isAlphanum || c = '_' || c = '-'
  skip cs.length
  let c ← get
  require (!cs.isEmpty && (isGap c.rest || c.rest.head?.any fun d =>
    ['?', ':', ',', ']', '\x7d', '%', '@', '\x60'].contains d))
  return String.ofList cs

def tag (flow : Bool) : Reader Unit := do
  let cs := (← get).rest.takeWhile fun c =>
    c ≠ ' ' && c ≠ '\t' && c ≠ '\n' && !(flow && isFlowMark c)
  skip cs.length

def reference : Reader Yaml := do
  let name ← anchorName
  match (← get).anchors.find? (·.1 = name) with
  | some (_, node) => return node
  | none => fail

def named (name : Option String) (node : Yaml) : Reader Yaml := do
  match name with
  | some name => modify fun c => { c with anchors := (name, node) :: c.anchors }
  | none => pure ()
  return node

/-- The tag and the name in front of a node: the name, and whether there was either. -/
def properties (flow : Bool) : Nat → Reader (Option String × Bool)
  | 0 => return (none, false)
  | fuel + 1 => do
    match (← get).rest.head? with
    | some '&' =>
      let fresh := (← get).fresh
      let name ← anchorName
      modify fun c => { c with fresh }
      gap flow
      let (_, _) ← properties flow fuel
      return (some name, true)
    | some '!' =>
      let fresh := (← get).fresh
      tag flow
      modify fun c => { c with fresh }
      gap flow
      let (name, _) ← properties flow fuel
      return (name, true)
    | _ => return (none, false)

/-! ## Collections in brackets -/

mutual

def flowNode : Nat → Reader Yaml
  | 0 => fail
  | fuel + 1 => do
    gap true
    let (name, _) ← properties true 2
    let node ← flowContent fuel
    named name node

def flowContent : Nat → Reader Yaml
  | 0 => fail
  | fuel + 1 => do
    let c ← get
    match c.rest.head? with
    | some '[' =>
      skip 1
      return .sequence (← flowItems fuel)
    | some '\x7b' =>
      skip 1
      return .mapping (← flowEntries fuel)
    | some '"' => quoted fuel
    | some '\'' => quoted fuel
    | some '*' => reference
    | _ =>
      if startsPlain true c.rest then
        let first ← plainLine true
        let more ← plainLines true 0 fuel
        return .scalar true (String.ofList (first ++ more))
      else if startsWith ',' c || startsWith ':' c || startsWith ']' c || startsWith '\x7d' c then
        return absent
      else fail

def flowItems : Nat → Reader (List Yaml)
  | 0 => fail
  | fuel + 1 => do
    gap true
    if startsWith ']' (← get) then
      skip 1
      return []
    else
      require (!startsWith ',' (← get))
      let key ← flowNode fuel
      gap true
      let item ←
        if startsWith ':' (← get) then do
          skip 1
          let value ← flowNode fuel
          pure (Yaml.mapping [(key, value)])
        else pure key
      gap true
      if startsWith ',' (← get) then
        skip 1
        return item :: (← flowItems fuel)
      else
        require (startsWith ']' (← get))
        skip 1
        return [item]

def flowEntries : Nat → Reader (List (Yaml × Yaml))
  | 0 => fail
  | fuel + 1 => do
    gap true
    if startsWith '\x7d' (← get) then
      skip 1
      return []
    else
      require (!startsWith ',' (← get))
      let key ← flowNode fuel
      gap true
      let value ←
        if startsWith ':' (← get) then do
          skip 1
          flowNode fuel
        else pure absent
      gap true
      if startsWith ',' (← get) then
        skip 1
        return (key, value) :: (← flowEntries fuel)
      else
        require (startsWith '\x7d' (← get))
        skip 1
        return [(key, value)]

end

/-! ## Collections by indentation -/

def blanks : Reader Unit := do
  skip ((← get).rest.takeWhile fun c => c = ' ' || c = '\t').length

/-- A node that may be a key: it stands on one line. For a plain scalar, this is its first line. -/
def atom (fuel : Nat) : Reader (Yaml × Bool) := do
  let c ← get
  match c.rest.head? with
  | some '"' => return (← quoted fuel, false)
  | some '\'' => return (← quoted fuel, false)
  | some '*' => return (← reference, false)
  | some '[' => return (← flowContent fuel, false)
  | some '\x7b' => return (← flowContent fuel, false)
  | _ =>
    require (startsPlain false c.rest)
    let cs ← plainLine false
    return (.scalar true (String.ofList cs), true)

def continued (least fuel : Nat) (node : Yaml) : Reader Yaml := do
  match node with
  | .scalar true text =>
    let more ← plainLines false least fuel
    return .scalar true (text ++ String.ofList more)
  | node => return node

def key (fuel : Nat) : Reader Yaml := do
  let (_, _) ← properties false 2
  let start := (← get).line
  let (node, _) ← atom fuel
  require ((← get).line = start)
  blanks
  require (hasMark ':' (← get))
  skip 1
  return node

mutual

/-- A node at column `least` or behind it. The place is that of its first token. -/
def blockNode (least : Nat) : Nat → Reader Yaml
  | 0 => fail
  | fuel + 1 => do
    let (name, hasProperties) ← properties false 2
    let c ← get
    if isOver c || (c.fresh && c.column < least) then
      require hasProperties
      named name absent
    else if hasMark '-' c then
      require c.fresh
      let items ← blockItems c.column fuel
      named name (.sequence items)
    else if startsWith '|' c || startsWith '>' c then
      skip 1
      let node ← block (startsWith '>' c) least
      named name node
    else
      let (node, isPlain) ← atom fuel
      let behind ← get
      blanks
      if hasMark ':' (← get) then
        require (c.fresh && behind.line = c.line)
        skip 1
        let value ← blockValue c.column fuel
        let entries ← blockEntries c.column fuel
        named name (.mapping ((node, value) :: entries))
      else
        set behind
        let node ← if isPlain then continued least fuel node else pure node
        named name node

/-- The value of an entry of a mapping at `column`, from behind its mark. -/
def blockValue (column : Nat) : Nat → Reader Yaml
  | 0 => fail
  | fuel + 1 => do
    gap false
    let c ← get
    if isOver c then return absent
    else if c.fresh && c.column = column && hasMark '-' c then
      return .sequence (← blockItems column fuel)
    else if c.fresh && c.column ≤ column then return absent
    else blockNode (column + 1) fuel

def blockEntries (column : Nat) : Nat → Reader (List (Yaml × Yaml))
  | 0 => fail
  | fuel + 1 => do
    gap false
    let c ← get
    if isOver c then return []
    else
      require (c.fresh && c.column ≤ column)
      if c.column < column then return []
      else
        let k ← key fuel
        let value ← blockValue column fuel
        return (k, value) :: (← blockEntries column fuel)

def blockItems (column : Nat) : Nat → Reader (List Yaml)
  | 0 => fail
  | fuel + 1 => do
    let c ← get
    if isOver c || !(c.fresh && c.column = column && hasMark '-' c) then
      require (isOver c || (c.fresh && c.column ≤ column))
      return []
    else
      skip 1
      modify fun c => { c with fresh := true }
      gap false
      let inside ← get
      let item ←
        if isOver inside || inside.column ≤ column then pure absent
        else blockNode (column + 1) fuel
      gap false
      return item :: (← blockItems column fuel)

end

def startMarker : Reader Bool := do
  let c ← get
  if isMarker c && startsWith '-' c then
    skip 3
    return true
  else return false

def document (fuel : Nat) : Reader Yaml := do
  gap false
  let marked ← startMarker
  if marked then gap false
  let c ← get
  let node ← if isOver c then pure absent else blockNode 0 fuel
  gap false
  let c ← get
  require (isOver c)
  if startsWith '.' c then
    skip 3
    gap false
    require (← get).rest.isEmpty
  else require c.rest.isEmpty
  return node

end Reader

def isAllowed (c : Char) : Bool :=
  c = '\t' || c = '\n' || c = '\r' || c.toNat = 0x85 || isPrintable c || c.toNat = 0xFEFF ||
    0x10000 ≤ c.toNat

def unifyBreaks : List Char → List Char
  | [] => []
  | '\r' :: '\n' :: rest => '\n' :: unifyBreaks rest
  | '\r' :: rest => '\n' :: unifyBreaks rest
  | '\u0085' :: rest => '\n' :: unifyBreaks rest
  | c :: rest => c :: unifyBreaks rest

def dropByteOrderMark : List Char → List Char
  | '\ufeff' :: rest => rest
  | cs => cs

def parse? (text : String) : Option Yaml :=
  let cs := unifyBreaks (dropByteOrderMark text.toList)
  if text.toList.all isAllowed then
    ((Reader.document (4 * cs.length + 16)).run { rest := cs }).map (·.1)
  else none

end Statechart.Yaml
