/-!
# Statechart.Number.Binary64

Exact conversions between decimals and binary floating point of 64 bits. A finite double is
`m * 2 ^ q`; everything here is arithmetic on `m`, `q` and powers of ten in `Nat`.

* `nearest`: the double nearest to a quotient, a tie going to the even mantissa.
* `shortest`: the fewest digits that read back as a given double, and of those the nearest.
* `render`: the text of a double from these digits.
-/

namespace Statechart.Number

def digitCount (n : Nat) : Nat :=
  (Nat.toDigits 10 n).length

/-- Rounds `num / den` to the nearest integer, a tie to the even one. -/
def roundHalfEven (num den : Nat) : Nat :=
  let low := num / den
  let twice := 2 * (num % den)
  if twice < den then low
  else if den < twice then low + 1
  else if low % 2 = 0 then low else low + 1

/-- `num / (den * 2 ^ q)` as a quotient of naturals. -/
def scaleDown (num den : Nat) (q : Int) : Nat × Nat :=
  match q with
  | .ofNat k => (num, den * Nat.pow 2 k)
  | .negSucc k => (num * Nat.pow 2 (k + 1), den)

def leastExponent : Int := -1074

/-- The exponent `q` for which `num / (den * 2 ^ q)` has 53 bits, or the least exponent. -/
def exponentFor (num den : Nat) : Int :=
  let guess : Int := max (((Nat.log2 num : Int) - Nat.log2 den) - 52) leastExponent
  let (n, d) := scaleDown num den guess
  if n < d * Nat.pow 2 52 then max (guess - 1) leastExponent else guess

/-- The bits of the double nearest to `num / den`; none if that is beyond the largest double. -/
def nearest (num den : Nat) : Option UInt64 :=
  if num = 0 then some 0
  else
    let q := exponentFor num den
    let (n, d) := scaleDown num den q
    let bits := (q - leastExponent).toNat * Nat.pow 2 52 + roundHalfEven n d
    if bits < 0x7FF0000000000000 then some bits.toUInt64 else none

def ofDecimal (digits : Nat) (exponent : Int) : Option Float :=
  let bits := match exponent with
    | .ofNat k => if digits ≠ 0 ∧ 400 < k then none else nearest (digits * Nat.pow 10 k) 1
    | .negSucc k =>
      if digitCount digits + 400 < k then some 0 else nearest digits (Nat.pow 10 (k + 1))
  bits.map Float.ofBits

def decompose (bits : UInt64) : Nat × Int :=
  let fraction := bits.toNat % Nat.pow 2 52
  let biased := bits.toNat / Nat.pow 2 52 % Nat.pow 2 11
  if biased = 0 then (fraction, leastExponent)
  else (fraction + Nat.pow 2 52, leastExponent + (biased - 1 : Nat))

def decimalExponent (num den : Nat) : Int :=
  if den ≤ num then (digitCount (num / den) : Int) - 1
  else
    let t := digitCount den - digitCount num
    if den ≤ num * Nat.pow 10 t then -(t : Int) else -(t : Int) - 1

/-- The reals that round to a double: `low` to `high` over the denominator of `value`, the ends
included if the mantissa is even. -/
structure Interval where
  low : Nat
  value : Nat
  high : Nat
  den : Nat
  closed : Bool

/-- The interval of `m * 2 ^ q`. Below a power of two the gap to the next double is halved. -/
def Interval.of (m : Nat) (q : Int) : Interval :=
  let below := if m = Nat.pow 2 52 ∧ q ≠ leastExponent then 1 else 2
  let (num, den) : Nat × Nat := match q with
    | .ofNat k => (Nat.pow 2 k, 4)
    | .negSucc k => (1, 4 * Nat.pow 2 (k + 1))
  ⟨(4 * m - below) * num, 4 * m * num, (4 * m + 2) * num, den, m % 2 = 0⟩

def Interval.contains (i : Interval) (c : Nat) (s : Int) : Bool :=
  let (c, den) : Nat × Nat := match s with
    | .ofNat k => (c * i.den, Nat.pow 10 k)
    | .negSucc k => (c * Nat.pow 10 (k + 1) * i.den, 1)
  if i.closed then i.low * den ≤ c && c ≤ i.high * den
  else i.low * den < c && c < i.high * den

/-- The neighbours of the value among the multiples of `10 ^ -s`: the one at or below it, and
whether the next one is nearer. -/
def Interval.floorAt (i : Interval) (s : Int) : Nat × Bool :=
  let (num, den) : Nat × Nat := match s with
    | .ofNat k => (i.value * Nat.pow 10 k, i.den)
    | .negSucc k => (i.value, i.den * Nat.pow 10 (k + 1))
  (num / den, den < 2 * (num % den))

/-- Looks for a decimal of `n` digits, then of one digit more, and so on for `left` counts. -/
def shortestFrom (i : Interval) (x : Int) : Nat → Nat → Nat × Int
  | _, 0 => (0, 0)
  | n, left + 1 =>
    let s : Int := (n : Int) - 1 - x
    let (c, up) := i.floorAt s
    let lowIn := i.contains c s
    let highIn := i.contains (c + 1) s
    if lowIn && highIn then (if up then c + 1 else c, -s)
    else if lowIn then (c, -s)
    else if highIn then (c + 1, -s)
    else shortestFrom i x (n + 1) left

def dropZeros : Nat → Nat × Int → Nat × Int
  | 0, d => d
  | fuel + 1, (c, e) => if c ≠ 0 ∧ c % 10 = 0 then dropZeros fuel (c / 10, e + 1) else (c, e)

/-- Digits and exponent of the shortest decimal that reads back as `m * 2 ^ q`, for `m ≠ 0`. -/
def shortest (m : Nat) (q : Int) : Nat × Int :=
  let i := Interval.of m q
  dropZeros 20 (shortestFrom i (decimalExponent i.value i.den) 1 17)

/-- How a double is written: which decimal exponents are written plainly. -/
structure Layout where
  leastPlain : Int
  greatestPlain : Int

def jsonLayout : Layout := ⟨-5, 15⟩

/-- Writes the digits `ds` of a number whose first digit has the decimal exponent `x`. -/
def layDigits (layout : Layout) (ds : List Char) (x : Int) : List Char :=
  if layout.leastPlain ≤ x ∧ x ≤ layout.greatestPlain then
    match x with
    | .ofNat k =>
      let whole := ds.take (k + 1)
      let pad := List.replicate (k + 1 - whole.length) '0'
      let fraction := ds.drop (k + 1)
      whole ++ pad ++ '.' :: (if fraction.isEmpty then ['0'] else fraction)
    | .negSucc k => '0' :: '.' :: List.replicate k '0' ++ ds
  else
    let mantissa := match ds with
      | [] => []
      | [d] => [d]
      | d :: rest => d :: '.' :: rest
    mantissa ++ 'e' :: (if x < 0 then '-' else '+') :: Nat.toDigits 10 x.natAbs

def render (f : Float) : String :=
  let bits := f.toBits
  let sign := if bits.toNat < Nat.pow 2 63 then [] else ['-']
  let (m, q) := decompose bits
  if m = 0 then String.ofList (sign ++ ['0', '.', '0'])
  else
    let (c, e) := shortest m q
    let ds := Nat.toDigits 10 c
    String.ofList (sign ++ layDigits jsonLayout ds (e + ds.length - 1))

end Statechart.Number
