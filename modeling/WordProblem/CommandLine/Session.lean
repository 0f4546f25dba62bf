import WordProblem.CommandLine.Request
import WordProblem.Number
import WordProblem.Options
import WordProblem.Solve

/-!
A session: what a request writes, line by line, given the files that it may read. The operators
are read first, then the arguments, then the input; the first that cannot be read ends the
session. Each input contributes one line. The pages of help, the complaints about a command line
that is not understood, and the log are left out, so that a request for help and a misused command
line show only in the exit code.
-/
namespace WordProblem.CommandLine

inductive Line where
  | output (text : String)
  | error (text : String)
  deriving DecidableEq, Repr

structure Transcript where
  exitCode : Nat
  lines : List Line
  deriving DecidableEq, Repr

namespace Transcript

def output (t : Transcript) : String :=
  String.join (t.lines.map fun line => match line with
    | .output text => text ++ "\n"
    | .error _ => "")

def errors (t : Transcript) : String :=
  String.join (t.lines.map fun line => match line with
    | .output _ => ""
    | .error text => text ++ "\n")

end Transcript

def versionText : String := "mathqa 0.1.0"

def unreadable (path : String) : String :=
  s!"Failed to read the input file '{path}'. Perhaps this file does not exist?"

def Request.inputs (r : Request) (read : String → FileText) : Except String (List String) :=
  if r.fromFile then
    match read r.contents with
    | .ok text => .ok ((Text.entries text.toList).map String.ofList)
    | .error _ => .error (unreadable r.contents)
  else .ok [r.contents]

def Request.catalog (r : Request) (read : String → FileText) : Except String Catalog :=
  match r.operators with
  | none => .ok .builtin
  | some path => (Catalog.ofFile path (read path)).mapError CatalogFault.message

def Request.allowed (r : Request) (read : String → FileText) :
    Except String (Option ArgumentSet) :=
  match r.arguments with
  | none => .ok none
  | some path =>
    match read path with
    | .ok text => .ok (some (.ofSource text))
    | .error _ => .error (unreadable path)

def linearizeLine (c : Catalog) (allowed : Option ArgumentSet) (source : String) : Line :=
  match Program.ofNestedSource c allowed source with
  | .ok program => .output program.text
  | .error failure => .error failure.fault.message

def validateLine (c : Catalog) (allowed : Option ArgumentSet) (source : String) : Line :=
  match Program.check c allowed (Token.ofSource source) with
  | .ok () => .output "valid"
  | .error fault => .output ("invalid: " ++ fault.message)

def outcomeLine : Outcome → Line
  | .ok (some answer) => .output (Number.rounded answer).text
  | .ok none => .output "no result: empty program"
  | .error fault => .output ("no result: " ++ fault.message)

def optionsLine (text : String) : Line :=
  match OptionSet.ofText text with
  | .ok options => .output options.text
  | .error fault => .error fault.message

def Task.lines (task : Task) (c : Catalog) (allowed : Option ArgumentSet) (inputs : List String) :
    Except String (List Line) :=
  match task with
  | .linearize => .ok (inputs.map (linearizeLine c allowed))
  | .validate => .ok (inputs.map (validateLine c allowed))
  | .options => .ok (inputs.map optionsLine)
  | .solve problem nested =>
    let form := if nested then Form.nested else Form.linear
    match solveBatch (inputs.map fun program => ⟨program, problem⟩) form c allowed with
    | .ok outcomes => .ok (outcomes.map outcomeLine)
    | .error fault => .error fault.message

def Request.lines (r : Request) (read : String → FileText) : Except String (List Line) := do
  let c ← r.catalog read
  let allowed ← r.allowed read
  let inputs ← r.inputs read
  r.task.lines c allowed inputs

def Request.answer (r : Request) (read : String → FileText) : Transcript :=
  match r.lines read with
  | .ok lines => ⟨0, lines⟩
  | .error message => ⟨1, [.error message]⟩

def session (words : List String) (read : String → FileText) : Transcript :=
  match Invocation.ofWords words with
  | .request r => r.answer read
  | .notice .version => ⟨0, [.output versionText]⟩
  | .notice .help => ⟨0, []⟩
  | .misused => ⟨2, []⟩

end WordProblem.CommandLine
