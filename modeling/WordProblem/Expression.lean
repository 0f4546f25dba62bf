import WordProblem.Catalog
import WordProblem.Program

/-!
Expressions, the trees that programs stand for. A tree has a nested listing, which names a call
before its arguments, and a linear one, in which the arguments are operations of their own and
the call refers to their numbers.
-/
namespace WordProblem

inductive Expression where
  | leaf (token : Token)
  | call (operator : Token) (arguments : List Expression)

namespace Expression

mutual

def listing : Expression → List Token
  | .leaf t => [t]
  | .call operator arguments => operator :: listings arguments

def listings : List Expression → List Token
  | [] => []
  | e :: rest => listing e ++ listings rest

end

mutual

def calls : Expression → Nat
  | .leaf _ => 0
  | .call _ arguments => totalCalls arguments + 1

def totalCalls : List Expression → Nat
  | [] => 0
  | e :: rest => calls e + totalCalls rest

end

mutual

/-- Each operator has as many arguments as it takes, and each leaf is an admitted token that is
    no operator. -/
def Fits (c : Catalog) (admits : Token → Bool) : Expression → Prop
  | .leaf t => c.arity? t = none ∧ admits t = true
  | .call operator arguments =>
    c.arity? operator = some arguments.length ∧ AllFit c admits arguments

def AllFit (c : Catalog) (admits : Token → Bool) : List Expression → Prop
  | [] => True
  | e :: rest => Fits c admits e ∧ AllFit c admits rest

end

/-- The token that stands for an expression whose operations are numbered from `start`. Its own
    call comes last. -/
def operand (start : Nat) : Expression → Token
  | .leaf t => t
  | .call _ arguments => Token.reference (start + totalCalls arguments)

def operands (start : Nat) : List Expression → List Token
  | [] => []
  | e :: rest => operand start e :: operands (start + calls e) rest

mutual

def operations (start : Nat) : Expression → Program
  | .leaf _ => []
  | .call operator arguments =>
    allOperations start arguments ++ [⟨operator, operands start arguments⟩]

def allOperations (start : Nat) : List Expression → Program
  | [] => []
  | e :: rest => operations start e ++ allOperations (start + calls e) rest

end

mutual

theorem operations_length (start : Nat) : (e : Expression) → (operations start e).length = calls e
  | .leaf _ => rfl
  | .call _ arguments => by
    simp [operations, calls, allOperations_length start arguments]

theorem allOperations_length (start : Nat) :
    (es : List Expression) → (allOperations start es).length = totalCalls es
  | [] => rfl
  | e :: rest => by
    simp [allOperations, totalCalls, operations_length start e,
      allOperations_length (start + calls e) rest]

end

theorem operands_length (start : Nat) (es : List Expression) :
    (operands start es).length = es.length := by
  induction es generalizing start with
  | nil => rfl
  | cons e rest ih => simp [operands, ih]

theorem listings_append (es fs : List Expression) :
    listings (es ++ fs) = listings es ++ listings fs := by
  induction es with
  | nil => rfl
  | cons e rest ih => simp [listings, ih]

theorem totalCalls_append (es fs : List Expression) :
    totalCalls (es ++ fs) = totalCalls es + totalCalls fs := by
  induction es with
  | nil => simp [totalCalls]
  | cons e rest ih => simp [totalCalls, ih, Nat.add_assoc]

theorem operands_append (start : Nat) (es fs : List Expression) :
    operands start (es ++ fs) = operands start es ++ operands (start + totalCalls es) fs := by
  induction es generalizing start with
  | nil => simp [operands, totalCalls]
  | cons e rest ih => simp [operands, totalCalls, ih, Nat.add_assoc]

theorem allOperations_append (start : Nat) (es fs : List Expression) :
    allOperations start (es ++ fs) =
      allOperations start es ++ allOperations (start + totalCalls es) fs := by
  induction es generalizing start with
  | nil => simp [allOperations, totalCalls]
  | cons e rest ih => simp [allOperations, totalCalls, ih, Nat.add_assoc]

end Expression

def Token.referent? (t : Token) : Option Nat :=
  match t.toList with
  | '#' :: index => if Digits.isNumeric index then some (Digits.value index) else none
  | _ => none

namespace Program

def unfoldArgument (earlier : List Expression) (t : Token) : Expression :=
  ((Token.referent? t).bind fun index => earlier[index]?).getD (.leaf t)

def unfoldOperation (earlier : List Expression) (op : Operation) : Expression :=
  .call op.operator (op.arguments.map (unfoldArgument earlier))

/-- One expression for each operation, built from those before it. -/
def expressions (p : Program) : List Expression :=
  p.foldl (fun earlier op => earlier ++ [unfoldOperation earlier op]) []

def expression? (p : Program) : Option Expression := (expressions p).getLast?

def unfolding (p : Program) (k : Nat) : List Token :=
  match (expressions p)[k]? with
  | some e => e.listing
  | none => []

def unfoldToken (p : Program) (t : Token) : List Token :=
  match t.referent? with
  | some i => p.unfolding i
  | none => [t]

theorem expressions_concat (p : Program) (op : Operation) :
    expressions (p ++ [op]) = expressions p ++ [unfoldOperation (expressions p) op] := by
  simp [expressions]

end Program

theorem Token.referent?_reference (index : Nat) :
    Token.referent? (Token.reference index) = some index := by
  simp [Token.referent?, Token.reference, Digits.isNumeric_text, Digits.value_text]

end WordProblem
