import WordProblem.Text
import WordProblem.Shortest

/-!
Answers as they are shown: an integer when the double is whole and no larger than `2 ^ 53 - 1`,
the double itself otherwise. For comparison with printed options a value that is not such an
integer is rounded to five decimal places first.
-/
namespace WordProblem

inductive Number where
  | integer (value : Int)
  | real (value : Float)
  deriving DecidableEq, Repr

/-- Up to here every integer is a double, and no two integers share one. -/
def largestExact : Nat := (1 <<< 53) - 1

namespace Binary64

def exactInt? (x : Float) : Option Int :=
  (toInt? x).filter fun n => n.natAbs ≤ largestExact

/-- Scaling may overflow; then the number is kept as it is. -/
def roundToPlaces (x : Float) (places : Int) : Float :=
  let scale := power 10.0 places
  let rounded := round (x * scale) / scale
  if rounded.isFinite then rounded else x

end Binary64

namespace Number

def decimalPlaces : Int := 5

def canonical (x : Float) : Number :=
  match Binary64.exactInt? x with
  | some n => .integer n
  | none => .real x

def rounded (x : Float) : Number :=
  match Binary64.exactInt? x with
  | some n => .integer n
  | none => canonical (Binary64.roundToPlaces x decimalPlaces)

def toFloat : Number → Float
  | .integer n => Float.ofInt n
  | .real x => x

def isInteger : Number → Bool
  | .integer _ => true
  | .real _ => false

def chars : Number → List Char
  | .integer n => (if n < 0 then ['-'] else []) ++ Digits.text n.natAbs
  | .real x => Binary64.chars x

def text (n : Number) : String := String.ofList n.chars

example : canonical (-0.0) = .integer 0 := by decide +kernel

example :
    rounded 2.4999999 = .real 2.5 ∧ rounded 2.999999999 = .integer 3 ∧
      rounded 1e308 = .real 1e308 := by
  decide +kernel

end Number

end WordProblem
