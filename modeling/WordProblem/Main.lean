import WordProblem.CommandLine.Session

namespace WordProblem.CommandLine

def readFile (path : String) : IO FileText := do
  try
    return FileText.ofBytes (← IO.FS.readBinFile path)
  catch
    | .noFileOrDirectory .. => return .error .missing
    | .permissionDenied .. => return .error .denied
    | .inappropriateType .. => return .error .directory
    | failure => return .error (.refused failure.toString)

def Request.paths (r : Request) : List String :=
  r.operators.toList ++ r.arguments.toList ++ if r.fromFile then [r.contents] else []

def readFiles (words : List String) : IO (List (String × FileText)) :=
  match Invocation.ofWords words with
  | .request r => r.paths.mapM fun path => do return (path, ← readFile path)
  | _ => return []

end WordProblem.CommandLine

open WordProblem.CommandLine in
def main (words : List String) : IO UInt32 := do
  let files ← readFiles words
  let t := session words fun path => (files.lookup path).getD (.error .missing)
  for line in t.lines do
    match line with
    | .output text => IO.println text
    | .error text => IO.eprintln text
  return t.exitCode.toUInt32
