import WordProblem.Binary64

/-!
The decimal text of a double: the fewest digits that read back to it, of those the nearest to
its value, and the larger of two equally near. It is written positionally, without a point for
whole numbers.

Everything is compared in exact integers. Around a number there is an interval of reals that
round to it; on the grid of the multiples of `10 ^ place` only the two neighbours of the number
can be the nearest point inside, so places are tried from coarse to fine until one holds a hit.
-/
namespace WordProblem.Binary64

structure Decimal where
  digits : Nat
  place : Int
  deriving DecidableEq, Repr

/-- The reals that round to a positive number, in quarters of the spacing above it. Below a
    power of two the spacing halves, unless the numbers are subnormal. -/
structure Interval where
  low : Nat
  middle : Nat
  high : Nat
  closed : Bool
  deriving DecidableEq, Repr

def Interval.around (p : Parts) : Interval :=
  let below := if p.mantissa = leadingBit ∧ -1074 < p.exponent then 1 else 2
  ⟨4 * p.mantissa - below, 4 * p.mantissa, 4 * p.mantissa + 2, p.mantissa % 2 = 0⟩

def Interval.holds (i : Interval) (quarter step point : Nat) : Bool :=
  if i.closed then i.low * quarter ≤ point * step && point * step ≤ i.high * quarter
  else i.low * quarter < point * step && point * step < i.high * quarter

/-- The weights of a quarter `2 ^ (exponent - 2)` and of a step `10 ^ place`, brought to a common
    denominator. -/
def weights (exponent place : Int) : Nat × Nat :=
  (Nat.pow 10 (-place).toNat <<< (exponent - 2).toNat,
    Nat.pow 10 place.toNat <<< (2 - exponent).toNat)

def gridPoint? (p : Parts) (place : Int) : Option Nat :=
  let i := Interval.around p
  let (quarter, step) := weights p.exponent place
  let value := i.middle * quarter
  let below := value / step
  match i.holds quarter step below, i.holds quarter step (below + 1) with
  | true, true =>
    if (below + 1) * step - value ≤ value - below * step then some (below + 1) else some below
  | true, false => some below
  | false, true => some (below + 1)
  | false, false => none

def searchFrom (p : Parts) (place : Int) : Nat → Decimal
  | 0 => ⟨p.mantissa <<< p.exponent.toNat, 0⟩
  | more + 1 =>
    match gridPoint? p place with
    | some digits => ⟨digits, place⟩
    | none => searchFrom p (place - 1) more

/-- A power of ten at or above every number with this many bits before the binary point. -/
def topPlace (bits : Int) : Int := bits * 30103 / 100000 + 1

/-- Seventeen digits always suffice, so a hit comes within the nineteen places below the top. -/
def shortest (p : Parts) : Decimal :=
  searchFrom p (topPlace (p.mantissa.log2 + 1 + p.exponent)) 20

def Decimal.chars (d : Decimal) : List Char :=
  let digits := Nat.toDigits 10 d.digits
  if 0 ≤ d.place then digits ++ List.replicate d.place.toNat '0'
  else
    let places := (-d.place).toNat
    if places < digits.length then
      digits.take (digits.length - places) ++ '.' :: digits.drop (digits.length - places)
    else '0' :: '.' :: (List.replicate (places - digits.length) '0' ++ digits)

def chars (x : Float) : List Char :=
  match parts? x with
  | none => if x.isNaN then "NaN".toList else if x < 0.0 then "-inf".toList else "inf".toList
  | some p =>
    let magnitude := if p.mantissa = 0 then ['0'] else (shortest p).chars
    if p.negative then '-' :: magnitude else magnitude

def text (x : Float) : String := String.ofList (chars x)

example :
    (text 0.1, text 100.0, text (-0.0), text 1e21, text 1.5e-7, text 0.30000000000000004) =
      ("0.1", "100", "-0", "1000000000000000000000", "0.00000015", "0.30000000000000004") := by
  decide +kernel

example : text (Float.ofBits 0x3E60000000000000) = "0.000000029802322387695313" := by
  decide +kernel

end WordProblem.Binary64
