import WordProblem.Expression
import WordProblem.Program.Run

/-!
The value of an expression, taken from the tree itself. A call is worth what its formula gives
once all calls among its arguments have values; only then are its leaves read, from the left.
A fault names the failing call by its number in the linear listing.
-/
namespace WordProblem

/-- What a formula is applied to: a leaf that is still to be read, or the value of a call. -/
inductive Operand where
  | token (token : Token)
  | number (value : Float)
  deriving DecidableEq, Repr

namespace Operand

def value (read : Token → Except StepFault Float) : Operand → Except StepFault Float
  | .token t => read t
  | .number x => .ok x

def values (read : Token → Except StepFault Float) :
    List Operand → Except StepFault (List Float)
  | [] => .ok []
  | operand :: rest =>
    match operand.value read with
    | .error fault => .error fault
    | .ok x =>
      match values read rest with
      | .error fault => .error fault
      | .ok xs => .ok (x :: xs)

def apply (read : Token → Except StepFault Float) (operator : Token) (operands : List Operand) :
    Except StepFault Float :=
  match Formula.find? operator with
  | none => .error (.unknownOperator operator)
  | some f =>
    if operands.length = f.arity then
      match values read operands with
      | .error fault => .error fault
      | .ok xs => f.finite xs
    else .error (.arityMismatch operator f.arity operands.length)

end Operand

namespace Expression

mutual

def evaluate (read : Token → Except StepFault Float) (start : Nat) :
    Expression → Except Fault Operand
  | .leaf t => .ok (.token t)
  | .call operator arguments =>
    match evaluateAll read start arguments with
    | .error fault => .error fault
    | .ok operands =>
      match Operand.apply read operator operands with
      | .error fault => .error (.step (start + totalCalls arguments) fault)
      | .ok x => .ok (.number x)

def evaluateAll (read : Token → Except StepFault Float) (start : Nat) :
    List Expression → Except Fault (List Operand)
  | [] => .ok []
  | e :: rest =>
    match evaluate read start e with
    | .error fault => .error fault
    | .ok operand =>
      match evaluateAll read (start + calls e) rest with
      | .error fault => .error fault
      | .ok operands => .ok (operand :: operands)

end

/-- A leaf alone is no program and has no answer. -/
def outcome (read : Token → Except StepFault Float) (e : Expression) : Outcome :=
  match evaluate read 0 e with
  | .error fault => .error fault
  | .ok (.number x) => .ok (some x)
  | .ok (.token _) => .ok none

theorem evaluateAll_length {read : Token → Except StepFault Float} {start : Nat}
    {es : List Expression} {operands : List Operand}
    (h : evaluateAll read start es = .ok operands) : operands.length = es.length := by
  induction es generalizing start operands with
  | nil =>
    cases h
    rfl
  | cons e rest ih =>
    rw [evaluateAll] at h
    split at h
    · cases h
    · split at h
      · cases h
      · rename_i found
        cases h
        simp [ih found]

end Expression

end WordProblem
