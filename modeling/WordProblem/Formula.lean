import WordProblem.Binary64
import WordProblem.Fault

/-!
A formula is a named function of one, two or three numbers, of the arity that it declares. Here
are arithmetic, roots, logarithms and the trigonometric functions, and then speeds and prices.
-/
namespace WordProblem

inductive Rule : Nat → Type where
  | unary (value : Float → Except Refusal Float) : Rule 1
  | binary (value : Float → Float → Except Refusal Float) : Rule 2
  | ternary (value : Float → Float → Float → Except Refusal Float) : Rule 3

namespace Rule

def result? {arity : Nat} : Rule arity → List Float → Option (Except Refusal Float)
  | .unary f, [a] => some (f a)
  | .binary f, [a, b] => some (f a b)
  | .ternary f, [a, b, c] => some (f a b c)
  | _, _ => none

theorem result?_isSome_iff {arity : Nat} (r : Rule arity) (values : List Float) :
    (r.result? values).isSome ↔ values.length = arity := by
  cases r <;> rcases values with _ | ⟨a, _ | ⟨b, _ | ⟨c, _ | ⟨d, rest⟩⟩⟩⟩ <;> simp [result?]

theorem arity_positive {arity : Nat} (r : Rule arity) : 0 < arity := by
  cases r <;> decide

end Rule

structure Formula where
  name : String
  arity : Nat
  rule : Rule arity

namespace Formula

def apply (f : Formula) (values : List Float) : Except StepFault Float :=
  match f.rule.result? values with
  | some (.ok x) => .ok x
  | some (.error why) => .error (.refused f.name why)
  | none => .error (.arityMismatch f.name f.arity values.length)

def divide (a b : Float) : Except Refusal Float :=
  if b == 0.0 then .error .divisionByZero else .ok (a / b)

/-- What is left of a division whose quotient is rounded down, so it has the sign of the
    divisor. -/
def modulo (a b : Float) : Except Refusal Float :=
  if b == 0.0 then .error .divisionByZero
  else
    let m := Binary64.remainder a b
    if m != 0.0 && decide (m < 0.0) != decide (b < 0.0) then .ok (m + b) else .ok m

def squareRoot (a : Float) : Except Refusal Float :=
  if a < 0.0 then .error (.unsuitable (.negative a)) else .ok a.sqrt

def logarithm (a : Float) : Except Refusal Float :=
  if a ≤ 0.0 then .error (.unsuitable (.notPositive a)) else .ok a.log

def elementary : List Formula :=
  [⟨"add", 2, .binary fun a b => .ok (a + b)⟩,
    ⟨"subtract", 2, .binary fun a b => .ok (a - b)⟩,
    ⟨"multiply", 2, .binary fun a b => .ok (a * b)⟩,
    ⟨"divide", 2, .binary divide⟩,
    ⟨"power", 2, .binary fun a b => .ok (a.pow b)⟩,
    ⟨"max", 2, .binary fun a b => .ok (Binary64.maximum a b)⟩,
    ⟨"min", 2, .binary fun a b => .ok (Binary64.minimum a b)⟩,
    ⟨"reminder", 2, .binary modulo⟩,
    ⟨"sqrt", 1, .unary squareRoot⟩,
    ⟨"floor", 1, .unary fun a => .ok (Binary64.floor a)⟩,
    ⟨"log", 1, .unary logarithm⟩,
    ⟨"inverse", 1, .unary (divide 1.0)⟩,
    ⟨"negate", 1, .unary fun a => .ok (-a)⟩,
    ⟨"sine", 1, .unary fun a => .ok a.sin⟩,
    ⟨"cosine", 1, .unary fun a => .ok a.cos⟩,
    ⟨"tangent", 1, .unary fun a => .ok a.tan⟩]

def beforeLoss (loss price : Float) : Except Refusal Float :=
  let remaining := 100.0 - loss
  if 0.0 < remaining ∧ remaining ≤ 100.0 then .ok (100.0 / remaining * price)
  else .error (.unsuitable (.lossTooLarge loss remaining))

def beforeGain (gain price : Float) : Except Refusal Float :=
  let total := 100.0 + gain
  if total == 0.0 then .error .divisionByZero else .ok (100.0 / total * price)

def proportion : List Formula :=
  [⟨"speed", 2, .binary divide⟩,
    ⟨"stream_speed", 2, .binary fun a b => .ok ((a + b) / 2.0)⟩,
    ⟨"speed_in_still_water", 2, .binary fun a b => .ok (a * b * 2.0)⟩,
    ⟨"original_price_before_loss", 2, .binary beforeLoss⟩,
    ⟨"original_price_before_gain", 2, .binary beforeGain⟩,
    ⟨"p_after_gain", 2, .binary fun a b => .ok (a / 100.0 * b)⟩]

end Formula

end WordProblem
