import WordProblem.Program
import WordProblem.Program.Grouping
import WordProblem.Program.Nested
import WordProblem.Program.Run

/-!
Solving: a program text and the problem text that its placeholders refer to give an outcome. A
batch keeps one outcome for each program, unless one of them was misused.
-/
namespace WordProblem

inductive Form where
  | nested
  | linear
  deriving DecidableEq, Repr

/-- The linear form is checked against the set of arguments first, and then grouped. -/
def Form.read (form : Form) (c : Catalog) (allowed : Option ArgumentSet) (source : String) :
    Except ReadingFault Program :=
  match form with
  | .nested => (Program.ofNestedSource c allowed source).mapError NestedFault.fault
  | .linear =>
    match Program.check c allowed (Token.ofSource source) with
    | .error fault => .error fault
    | .ok () => Program.ofSource c source

structure Problem where
  program : String
  text : String
  deriving DecidableEq, Repr

def Problem.solve (p : Problem) (form : Form) (c : Catalog) (allowed : Option ArgumentSet) :
    Outcome :=
  match form.read c allowed p.program with
  | .error fault => .error (.reading fault)
  | .ok program => (program.bind (Binding.numerals p.text)).run

namespace Outcome

def misuse? : Outcome → Option Fault
  | .ok _ => none
  | .error fault => if fault.isMisuse then some fault else none

def settle (outcomes : List Outcome) : Except Fault (List Outcome) :=
  match outcomes.findSome? misuse? with
  | some fault => .error fault
  | none => .ok outcomes

end Outcome

/-- Programs share nothing, so they may run in parallel. Their outcomes are collected in the order
    of the programs, which is all that shows of it, so a batch is taken as a map. -/
def runBatch (programs : List Program) : Except Fault (List Outcome) :=
  Outcome.settle (programs.map Program.run)

/-- A map again: the problems are solved in parallel, and their outcomes stand in their order. -/
def solveBatch (problems : List Problem) (form : Form) (c : Catalog)
    (allowed : Option ArgumentSet) : Except Fault (List Outcome) :=
  Outcome.settle (problems.map fun p => p.solve form c allowed)

end WordProblem
