import WordProblem.Formula
import WordProblem.Number

/-!
Factorials, arrangements, selections, divisors and probabilities. Counts are taken only from
whole numbers in the exact range; a result that no double can hold is refused as non-finite.
-/
namespace WordProblem.Formula

def count (x : Float) : Except Refusal Nat :=
  if !x.isFinite then .error (.unsuitable (.notFinite x))
  else if x < 0.0 then .error (.unsuitable (.negative x))
  else if Float.ofNat largestExact < x then .error (.unsuitable (.tooLarge x))
  else
    match Binary64.toInt? x with
    | some n => .ok n.toNat
    | none => .error (.unsuitable (.notInteger x))

def ofCount (n : Nat) : Except Refusal Float :=
  if largestExact < n then .error .nonFinite else .ok (Float.ofNat n)

def factors (first last : Nat) : List Nat := List.range' first (last + 1 - first)

def product (factors : List Nat) : Float :=
  factors.foldl (fun product i => product * Float.ofNat i) 1.0

def factorialLimit : Nat := 50

def factorial (x : Float) : Except Refusal Float := do
  let n ← count x
  if factorialLimit < n then .error (.unsuitable (.aboveLimit n factorialLimit))
  else .ok (product (factors 2 n))

/-- A binomial coefficient under way: the exact value while it fits 128 bits, and the double. -/
structure Selection where
  exact : Option Nat
  approximate : Float
  deriving DecidableEq, Repr

def Selection.advance (s : Selection) (base i : Nat) : Selection :=
  let factor := base + i
  let product := s.exact.bind fun r => if r * factor < 1 <<< 128 then some (r * factor) else none
  ⟨product.map (· / i), s.approximate * Float.ofNat factor / Float.ofNat i⟩

def Selection.rounds (base : Nat) (s : Selection) (i : Nat) : Nat → Except Refusal Selection
  | 0 => .ok s
  | more + 1 =>
    let next := s.advance base i
    if next.approximate.isInf then .error .nonFinite else rounds base next (i + 1) more

/-- The exact value where every integer is a double, the approximation beyond. -/
def Selection.value (s : Selection) : Float :=
  match s.exact with
  | some r => if r ≤ largestExact then Float.ofNat r else s.approximate
  | none => s.approximate

def choose (x y : Float) : Except Refusal Float := do
  let n ← count x
  let k ← count y
  if n < k then .ok 0.0
  else
    let rounds := min k (n - k)
    let s ← Selection.rounds (n - rounds) ⟨some 1, 1.0⟩ 1 rounds
    .ok s.value

/-- More distinct positive factors than this exceed every double. -/
def mostFactors : Nat := 170

def permutation (x y : Float) : Except Refusal Float := do
  let n ← count x
  let k ← count y
  if n < k then .error (.unsuitable (.tooFew k n))
  else if mostFactors < k then .error .nonFinite
  else
    let arrangements := product (factors (n - k + 1) n)
    if arrangements.isInf then .error .nonFinite else .ok arrangements

def truncatedMagnitude (x : Float) : Except Refusal Nat :=
  match Binary64.exactInt? (Binary64.truncate x) with
  | some n => .ok n.natAbs
  | none => .error (.unsuitable (.notTruncatable x))

def euclid (a b : Nat) : Nat := if b = 0 then a else euclid b (a % b)
termination_by b
decreasing_by exact Nat.mod_lt a (by omega)

def commonDivisor (x y : Float) : Except Refusal Nat := do
  let a ← truncatedMagnitude x
  let b ← truncatedMagnitude y
  .ok (euclid a b)

def gcd (x y : Float) : Except Refusal Float := (commonDivisor x y).map Float.ofNat

def lcm (x y : Float) : Except Refusal Float := do
  let g ← commonDivisor x y
  if g = 0 then .error .divisionByZero
  else .ok (Binary64.floor ((x * y).abs / Float.ofNat g))

def complement (p : Float) : Except Refusal Float :=
  if 0.0 ≤ p ∧ p ≤ 1.0 then .ok (1.0 - p) else .error (.unsuitable (.notProbability p))

def counting : List Formula :=
  [⟨"factorial", 1, .unary factorial⟩,
    ⟨"choose", 2, .binary choose⟩,
    ⟨"permutation", 2, .binary permutation⟩,
    ⟨"gcd", 2, .binary gcd⟩,
    ⟨"lcm", 2, .binary lcm⟩,
    ⟨"negate_prob", 1, .unary complement⟩]

end WordProblem.Formula
