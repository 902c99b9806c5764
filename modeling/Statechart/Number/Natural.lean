/-!
# Statechart.Number.Natural

Natural numbers of 64 bits as people write them in settings and in keys: decimal digits, with an
optional plus sign in front.
-/

namespace Statechart.Number

/-- The number that a text denotes, if it fits 64 bits. -/
def parseNat64? (text : String) : Option Nat :=
  let digits := match text.toList with
    | '+' :: rest => rest
    | cs => cs
  if digits.isEmpty || !digits.all Char.isDigit then none
  else
    let n := digits.foldl (fun n d => 10 * n + (d.toNat - 48)) 0
    if n < Nat.pow 2 64 then some n else none

end Statechart.Number
