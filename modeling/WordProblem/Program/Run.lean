import WordProblem.Catalog
import WordProblem.Numeral
import WordProblem.Program

/-!
Running a program. Each operation looks its formula up, resolves its arguments from the left,
applies the formula and stores the result; the first fault ends the run and leaves the memory as
it stands. The answer is the last result, and a program without operations has none.
-/
namespace WordProblem

/-- The results of the operations that have run, oldest first. -/
structure Memory where
  results : List Float
  deriving DecidableEq, Repr

namespace Memory

def empty : Memory := ⟨[]⟩

def push (m : Memory) (x : Float) : Memory := ⟨m.results ++ [x]⟩

def size (m : Memory) : Nat := m.results.length

def last? (m : Memory) : Option Float := m.results.getLast?

/-- Follows a reference, whose index is digits alone. One that no result has yet is out of bounds
    while it is a machine word, and malformed beyond. -/
def resolve (m : Memory) (index : String) : Except StepFault Float :=
  if Digits.isNumeric index.toList then
    let i := Digits.value index.toList
    match m.results[i]? with
    | some x => .ok x
    | none =>
      if i < Digits.wordLimit then .error (.referenceOutOfBounds i m.size)
      else .error (.malformedReference ("#" ++ index))
  else .error (.malformedReference ("#" ++ index))

/-- Every memory a machine can hold has fewer results than there are machine words, so the index
    is first read as a word and then looked up. -/
theorem resolve_of_size_le {m : Memory} (held : m.size ≤ Digits.wordLimit) (index : String) :
    m.resolve index =
      match Digits.word? index.toList with
      | none => .error (.malformedReference ("#" ++ index))
      | some i =>
        match m.results[i]? with
        | some x => .ok x
        | none => .error (.referenceOutOfBounds i m.size) := by
  by_cases numeric : Digits.isNumeric index.toList = true
  · by_cases word : Digits.value index.toList < Digits.wordLimit
    · simp [resolve, Digits.word?, numeric, word]
    · have absent : m.results[Digits.value index.toList]? = none :=
        List.getElem?_eq_none (Nat.le_trans held (Nat.le_of_not_lt word))
      simp [resolve, Digits.word?, numeric, word, absent]
  · simp [resolve, Digits.word?, numeric]

theorem last?_push (m : Memory) (x : Float) : (m.push x).last? = some x := by
  simp [last?, push]

theorem size_push (m : Memory) (x : Float) : (m.push x).size = m.size + 1 := by
  simp [size, push]

end Memory

def constantPi : Float := 3.14159

/-- A constant is written with an underscore in place of the point. -/
def constantChars : List Char → List Char
  | [] => []
  | c :: rest => if c = '_' then '.' :: rest else c :: constantChars rest

def Memory.valueOf (m : Memory) (t : Token) : Except StepFault Float :=
  match Argument.ofToken t with
  | .reference index => m.resolve index
  | .constant name =>
    if name = "pi" then .ok constantPi
    else
      match Numeral.valueOf? (constantChars name.toList) with
      | some x => .ok x
      | none => .error (.invalidConstant t)
  | .placeholder _ => .error (.unboundPlaceholder t)
  | .literal text =>
    match Numeral.valueOf? text.toList with
    | some x => .ok x
    | none => .error (.invalidLiteral t)

def Memory.valuesOf (m : Memory) : List Token → Except StepFault (List Float)
  | [] => .ok []
  | t :: rest =>
    match m.valueOf t with
    | .error fault => .error fault
    | .ok x =>
      match m.valuesOf rest with
      | .error fault => .error fault
      | .ok xs => .ok (x :: xs)

def Formula.finite (f : Formula) (values : List Float) : Except StepFault Float :=
  match f.apply values with
  | .error fault => .error fault
  | .ok x => if x.isFinite then .ok x else .error (.refused f.name .nonFinite)

def Operation.value (op : Operation) (m : Memory) : Except StepFault Float :=
  match Formula.find? op.operator with
  | none => .error (.unknownOperator op.operator)
  | some f =>
    if op.arguments.length = f.arity then
      match m.valuesOf op.arguments with
      | .error fault => .error fault
      | .ok values => f.finite values
    else .error (.arityMismatch op.operator f.arity op.arguments.length)

theorem Operation.value_ok {op : Operation} {m : Memory} {x : Float} (given : op.value m = .ok x) :
    ∃ f xs, Formula.find? op.operator = some f ∧ op.arguments.length = f.arity ∧
      m.valuesOf op.arguments = .ok xs ∧ f.finite xs = .ok x := by
  unfold value at given
  split at given
  · cases given
  · rename_i f found
    split at given
    · rename_i count
      split at given
      · cases given
      · rename_i xs resolved
        exact ⟨f, xs, found, count, resolved, given⟩
    · cases given

abbrev Outcome := Except Fault (Option Float)

namespace Program

def execute (step : Nat) (m : Memory) : Program → Memory × Option Fault
  | [] => (m, none)
  | op :: rest =>
    match op.value m with
    | .error fault => (m, some (.step step fault))
    | .ok x => execute (step + 1) (m.push x) rest

def runFrom (m : Memory) (p : Program) : Memory × Outcome :=
  match p with
  | [] => (m, .ok none)
  | _ =>
    match execute 0 m p with
    | (left, some fault) => (left, .error fault)
    | (left, none) => (left, .ok left.last?)

def run (p : Program) : Outcome := (runFrom .empty p).2

theorem runFrom_of_ne_nil {p : Program} (nonempty : p ≠ []) (m : Memory) :
    runFrom m p =
      match execute 0 m p with
      | (left, some fault) => (left, .error fault)
      | (left, none) => (left, .ok left.last?) := by
  cases p with
  | nil => exact absurd rfl nonempty
  | cons op rest => rfl

theorem runFrom_of_fault {m left : Memory} {p : Program} {fault : Fault}
    (failed : execute 0 m p = (left, some fault)) : runFrom m p = (left, .error fault) := by
  cases p with
  | nil => cases failed
  | cons op rest => rw [runFrom_of_ne_nil (List.cons_ne_nil op rest), failed]

theorem runFrom_of_end {m left : Memory} {p : Program} (run : execute 0 m p = (left, none)) :
    runFrom m p = (left, .ok (if p = [] then none else left.last?)) := by
  cases p with
  | nil =>
    cases run
    rfl
  | cons op rest =>
    rw [runFrom_of_ne_nil (List.cons_ne_nil op rest), run, if_neg (List.cons_ne_nil op rest)]

theorem execute_append (step : Nat) (m : Memory) (p q : Program) :
    execute step m (p ++ q) =
      match execute step m p with
      | (left, some fault) => (left, some fault)
      | (left, none) => execute (step + p.length) left q := by
  induction p generalizing step m with
  | nil => simp [execute]
  | cons op rest ih =>
    simp only [List.cons_append, execute]
    cases op.value m with
    | error fault => rfl
    | ok x =>
      simp only [ih, List.length_cons]
      rw [show step + 1 + rest.length = step + (rest.length + 1) by omega]

end Program

end WordProblem
