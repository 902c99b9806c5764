/-!
# Statechart.Text.Blank

White space as Unicode defines it (the property `White_Space`), and the three ways the rest of
the library uses it: skipping it, trimming it and cutting a line into words.

* `isBlank`: the property.
* `dropBlank`, `trim`: texts without leading, or without leading and trailing, white space.
* `words`: the maximal runs of other characters.
-/

namespace Statechart.Text

/-- The code points of white space, as inclusive ranges. -/
def blankRanges : List (Nat × Nat) :=
  [(0x9, 0xD), (0x20, 0x20), (0x85, 0x85), (0xA0, 0xA0), (0x1680, 0x1680), (0x2000, 0x200A),
   (0x2028, 0x2029), (0x202F, 0x202F), (0x205F, 0x205F), (0x3000, 0x3000)]

def isBlank (c : Char) : Bool :=
  blankRanges.any fun (lo, hi) => lo ≤ c.toNat && c.toNat ≤ hi

def dropBlank (cs : List Char) : List Char :=
  cs.dropWhile isBlank

def trimChars (cs : List Char) : List Char :=
  (dropBlank (dropBlank cs).reverse).reverse

def trim (s : String) : String :=
  String.ofList (trimChars s.toList)

/-- Adds `c` in front of a list of words: it starts a new one if white space follows it. -/
def addToWords (c : Char) (follows : List Char) (ws : List (List Char)) : List (List Char) :=
  match follows, ws with
  | d :: _, w :: rest => if isBlank d then [c] :: w :: rest else (c :: w) :: rest
  | _, ws => [c] :: ws

def wordsOfChars : List Char → List (List Char)
  | [] => []
  | c :: cs => if isBlank c then wordsOfChars cs else addToWords c cs (wordsOfChars cs)

def words (s : String) : List String :=
  (wordsOfChars s.toList).map String.ofList

def byteLength (cs : List Char) : Nat :=
  cs.foldl (fun n c => n + c.utf8Size) 0

/-- Cuts a text at every `sep`; a text without `sep` is one piece. -/
def splitAtChar (sep : Char) : List Char → List (List Char)
  | [] => [[]]
  | c :: cs =>
    if c = sep then [] :: splitAtChar sep cs
    else match splitAtChar sep cs with
      | [] => [[c]]
      | piece :: rest => (c :: piece) :: rest

example : words "  send  go {} " = ["send", "go", "{}"] := by decide +kernel
example : trim "\t a b \n" = "a b" := by decide +kernel

end Statechart.Text
