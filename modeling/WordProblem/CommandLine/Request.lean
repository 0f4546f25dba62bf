/-!
What a command line asks for. Flags that concern every task stand before or after its name, the
later place winning; each flag is given at most once in a place. Short flags may be run together,
and a value is attached to its flag or is the next word, which then does not begin with a dash.
-/
namespace WordProblem.CommandLine

inductive Flag where
  | operators
  | arguments
  | file
  | verbose
  | help
  | version
  | problem
  | nested
  deriving DecidableEq, Repr

inductive Notice where
  | help
  | version
  deriving DecidableEq, Repr

namespace Flag

def short : Flag → Char
  | .operators => 'o'
  | .arguments => 'a'
  | .file => 'f'
  | .verbose => 'v'
  | .help => 'h'
  | .version => 'V'
  | .problem => 'p'
  | .nested => 'n'

def long : Flag → String
  | .operators => "operators"
  | .arguments => "arguments"
  | .file => "file"
  | .verbose => "verbose"
  | .help => "help"
  | .version => "version"
  | .problem => "problem"
  | .nested => "nested"

def takesValue : Flag → Bool
  | .operators | .arguments | .problem => true
  | .file | .verbose | .help | .version | .nested => false

def notice? : Flag → Option Notice
  | .help => some .help
  | .version => some .version
  | _ => none

def accepts : Flag → String → Bool
  | .operators, value => value != ""
  | .arguments, value => value != ""
  | _, _ => true

def shared : List Flag := [.operators, .arguments, .file, .verbose, .help]

end Flag

inductive Task where
  | linearize
  | validate
  | solve (problem : String) (nested : Bool)
  | options
  deriving DecidableEq, Repr

structure Request where
  operators : Option String
  arguments : Option String
  fromFile : Bool
  verbose : Bool
  task : Task
  contents : String
  deriving DecidableEq, Repr

inductive Invocation where
  | request (request : Request)
  | notice (notice : Notice)
  | misused
  deriving DecidableEq, Repr

def Invocation.otherwise : Option Notice → Invocation
  | some told => .notice told
  | none => .misused

/-- The flags of one place with their values; a flag without a value has the empty one. -/
abbrev Settings := List (Flag × String)

def Settings.value? (s : Settings) (flag : Flag) : Option String :=
  (s.find? fun setting => setting.1 == flag).map Prod.snd

def Settings.has (s : Settings) (flag : Flag) : Bool := (Settings.value? s flag).isSome

def Settings.add? (s : Settings) (flag : Flag) (value : String) : Option Settings :=
  if s.has flag || !flag.accepts value then none else some (s ++ [(flag, value)])

/-- The shape of a word: a dash alone and the empty word are plain. -/
inductive Word where
  | plain (text : String)
  | separator
  | long (name : String) (value : Option String)
  | short (letters : List Char)
  deriving DecidableEq, Repr

def splitAssignment : List Char → List Char × Option (List Char)
  | [] => ([], none)
  | c :: rest =>
    if c = '=' then ([], some rest)
    else
      let (name, value) := splitAssignment rest
      (c :: name, value)

def Word.ofText (text : String) : Word :=
  match text.toList with
  | ['-', '-'] => .separator
  | '-' :: '-' :: rest =>
    let (name, value) := splitAssignment rest
    .long (String.ofList name) (value.map String.ofList)
  | '-' :: c :: rest => .short (c :: rest)
  | _ => .plain text

inductive Progress where
  | settled (settings : Settings)
  | awaiting (flag : Flag) (settings : Settings)
  | notice (notice : Notice)
  | refused
  deriving DecidableEq, Repr

def Progress.ofSettings : Option Settings → Progress
  | some settings => .settled settings
  | none => .refused

def readShort (known : List Flag) (s : Settings) : List Char → Progress
  | [] => .settled s
  | c :: rest =>
    match known.find? fun flag => flag.short == c with
    | none => .refused
    | some flag =>
      match flag.notice? with
      | some told => .notice told
      | none =>
        if flag.takesValue then
          match rest with
          | [] => .awaiting flag s
          | '=' :: value => .ofSettings (s.add? flag (String.ofList value))
          | value => .ofSettings (s.add? flag (String.ofList value))
        else
          match s.add? flag "" with
          | some settings => readShort known settings rest
          | none => .refused

def readLong (known : List Flag) (s : Settings) (name : String) (value : Option String) :
    Progress :=
  match known.find? fun flag => flag.long == name with
  | none => .refused
  | some flag =>
    match flag.notice?, value with
    | some told, none => .notice told
    | _, some text => if flag.takesValue then .ofSettings (s.add? flag text) else .refused
    | none, none => if flag.takesValue then .awaiting flag s else .ofSettings (s.add? flag "")

inductive Stop where
  | plain (settings : Settings) (text : String) (rest : List String)
  | separator (settings : Settings) (rest : List String)
  | finished (settings : Settings)
  | notice (notice : Notice)
  | refused
  deriving DecidableEq, Repr

def Stop.notice? : Stop → Option Notice
  | .notice told => some told
  | _ => none

/-- Reads flags up to the first plain word; `waiting` is a flag whose value comes next. -/
def readFlags (known : List Flag) (waiting : Option Flag) (s : Settings) : List String → Stop
  | [] => if waiting.isSome then .refused else .finished s
  | word :: rest =>
    match waiting, Word.ofText word with
    | some flag, .plain text =>
      match s.add? flag text with
      | some settings => readFlags known none settings rest
      | none => .refused
    | some _, _ => .refused
    | none, .plain text => .plain s text rest
    | none, .separator => .separator s rest
    | none, .long name value =>
      match readLong known s name value with
      | .settled settings => readFlags known none settings rest
      | .awaiting flag settings => readFlags known (some flag) settings rest
      | .notice told => .notice told
      | .refused => .refused
    | none, .short letters =>
      match readShort known s letters with
      | .settled settings => readFlags known none settings rest
      | .awaiting flag settings => readFlags known (some flag) settings rest
      | .notice told => .notice told
      | .refused => .refused

/-- After the contents only flags may follow, or the bare separator. -/
def readContents (known : List Flag) (words : List String) :
    Except (Option Notice) (Settings × String) :=
  match readFlags known none [] words with
  | .plain settings text rest =>
    match readFlags known none settings rest with
    | .finished settings => .ok (settings, text)
    | .separator settings [] => .ok (settings, text)
    | stop => .error stop.notice?
  | .separator settings [text] => .ok (settings, text)
  | stop => .error stop.notice?

def taskFlags (name : String) : Option (List Flag) :=
  match name with
  | "linearize" | "validate" | "options" => some Flag.shared
  | "solve" => some (Flag.shared ++ [.problem, .nested])
  | _ => none

def taskOf (name : String) (s : Settings) : Task :=
  match name with
  | "linearize" => .linearize
  | "validate" => .validate
  | "solve" => .solve ((s.value? .problem).getD "") (s.has .nested)
  | _ => .options

/-- The word `help` asks about all tasks or about one of them, itself included. -/
def helpOn? : List String → Option Notice
  | [] => some .help
  | [topic] => if topic = "help" ∨ (taskFlags topic).isSome then some .help else none
  | _ => none

def Invocation.ofWords (words : List String) : Invocation :=
  match readFlags (Flag.shared ++ [.version]) none [] words with
  | .plain outer name rest =>
    if name = "help" then .otherwise (helpOn? rest)
    else
      match taskFlags name with
      | none => .misused
      | some known =>
        match readContents known rest with
        | .error told => .otherwise told
        | .ok (inner, contents) =>
          .request
            { operators := (inner.value? .operators).or (outer.value? .operators)
              arguments := (inner.value? .arguments).or (outer.value? .arguments)
              fromFile := inner.has .file || outer.has .file
              verbose := inner.has .verbose || outer.has .verbose
              task := taskOf name inner
              contents }
  | stop => .otherwise stop.notice?

example :
    Invocation.ofWords ["solve", "-nh", "add(1,2)"] = .notice .help ∧
      Invocation.ofWords ["help", "solve"] = .notice .help ∧
      Invocation.ofWords ["--help=solve"] = .misused ∧
      Invocation.ofWords ["-o", "--help"] = .misused := by
  decide +kernel

end WordProblem.CommandLine
