import WordProblem.Shortest

/-!
What can go wrong with a program, and how it is told. A listing is refused for its shape before
anything runs; a step is refused for its operator, its arguments or the mathematics.
-/
namespace WordProblem

/-- Why a listing of tokens is no program. Positions count tokens from zero. -/
inductive ReadingFault where
  | invalidArgument (token : String) (position : Nat)
  | orphanArgument (token : String) (position : Nat)
  | leftoverArguments (arguments : List String)
  | unfinishedOperators (operators : List String)
  | expectedOperator (token : String) (position : Nat)
  | missingArguments (operator : String) (remaining : Nat) (position : Nat)
  | unexpectedArgument (token : String) (position : Nat)
  deriving DecidableEq, Repr

def ReadingFault.message : ReadingFault → String
  | .invalidArgument token position => s!"Token {position}: '{token}' is not a valid argument."
  | .orphanArgument token position =>
    s!"Token {position}: argument '{token}' has no operator to bind to."
  | .leftoverArguments arguments =>
    "Arguments left unconsumed at end of program: " ++ ", ".intercalate arguments ++ "."
  | .unfinishedOperators operators =>
    "Operators left without arguments at end of program: " ++ ", ".intercalate operators ++ "."
  | .expectedOperator token position =>
    s!"Token {position}: expected an operator but found '{token}'."
  | .missingArguments operator remaining position =>
    s!"Token {position}: '{operator}' expects {remaining} more argument(s)."
  | .unexpectedArgument token position =>
    s!"Token {position}: too many arguments, found '{token}' where an operator was expected."

inductive Unsuitable where
  | notFinite (x : Float)
  | negative (x : Float)
  | tooLarge (x : Float)
  | notInteger (x : Float)
  | notPositive (x : Float)
  | aboveLimit (n limit : Nat)
  | tooFew (k n : Nat)
  | notTruncatable (x : Float)
  | notProbability (x : Float)
  | lossTooLarge (loss remaining : Float)
  deriving DecidableEq, Repr

def Unsuitable.details : Unsuitable → String
  | .notFinite x => Binary64.text x ++ " is not finite"
  | .negative x => Binary64.text x ++ " is negative"
  | .tooLarge x => Binary64.text x ++ " is too large"
  | .notInteger x => Binary64.text x ++ " is not an integer"
  | .notPositive x => Binary64.text x ++ " is not positive"
  | .aboveLimit n limit => s!"{n} is larger than {limit}"
  | .tooFew k n => s!"cannot arrange {k} of {n}"
  | .notTruncatable x => Binary64.text x ++ " cannot be truncated to an integer"
  | .notProbability x => Binary64.text x ++ " is not a probability"
  | .lossTooLarge loss remaining =>
    "a loss of " ++ Binary64.text loss ++ "% leaves " ++ Binary64.text remaining ++ "% of the price"

inductive Refusal where
  | unsuitable (why : Unsuitable)
  | divisionByZero
  | nonFinite
  deriving DecidableEq, Repr

inductive StepFault where
  | unknownOperator (name : String)
  | arityMismatch (operator : String) (expected found : Nat)
  | invalidConstant (token : String)
  | invalidLiteral (token : String)
  | refused (operator : String) (why : Refusal)
  | malformedReference (token : String)
  | referenceOutOfBounds (index held : Nat)
  | unboundPlaceholder (token : String)
  deriving DecidableEq, Repr

def StepFault.message (step : Nat) : StepFault → String
  | .unknownOperator name => s!"Step {step}: unknown operator '{name}'."
  | .arityMismatch operator expected found =>
    s!"Step {step}: '{operator}' takes {expected} argument(s) but {found} were given."
  | .invalidConstant token => s!"Step {step}: invalid constant '{token}'."
  | .invalidLiteral token => s!"Step {step}: '{token}' is not a number."
  | .refused operator (.unsuitable why) =>
    s!"Step {step}: invalid argument to '{operator}': " ++ why.details ++ "."
  | .refused operator .divisionByZero => s!"Step {step}: division by zero in '{operator}'."
  | .refused operator .nonFinite => s!"Step {step}: '{operator}' produced a non-finite result."
  | .malformedReference token => s!"Step {step}: malformed back-reference '{token}'."
  | .referenceOutOfBounds index held =>
    s!"Step {step}: back-reference #{index} out of bounds, memory holds {held} result(s)."
  | .unboundPlaceholder token =>
    s!"Step {step}: placeholder '{token}' was never bound to a number."

inductive Fault where
  | reading (fault : ReadingFault)
  | step (number : Nat) (fault : StepFault)
  deriving DecidableEq, Repr

/-- A placeholder left in a program is a mistake of the caller; every other fault belongs to the
    program or to the numbers it meets. -/
inductive FaultKind where
  | structural
  | domain
  | reference
  | misuse
  deriving DecidableEq, Repr

def StepFault.kind : StepFault → FaultKind
  | .refused _ _ => .domain
  | .malformedReference _ => .reference
  | .referenceOutOfBounds _ _ => .reference
  | .unboundPlaceholder _ => .misuse
  | _ => .structural

namespace Fault

def kind : Fault → FaultKind
  | .reading _ => .structural
  | .step _ fault => fault.kind

def details : Fault → String
  | .reading fault => fault.message
  | .step number fault => fault.message number

def message (f : Fault) : String :=
  match f.kind with
  | .structural => "Structural error: " ++ f.details
  | .domain => "Domain error: " ++ f.details
  | .reference => "Reference error: " ++ f.details
  | .misuse => f.details

def isMisuse (f : Fault) : Bool := f.kind == .misuse

end Fault

end WordProblem
