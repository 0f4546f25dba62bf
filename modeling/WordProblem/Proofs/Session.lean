import WordProblem.CommandLine.Session
import WordProblem.Proofs.Batch
import WordProblem.Proofs.Forms
import WordProblem.Proofs.Invocation
import WordProblem.Proofs.Quoting

namespace WordProblem
open Text

/-- A line end separates tokens, so it is in none of them. -/
theorem Token.oneLine_of_mem_ofSource {source : String} {t : Token} (mem : t ∈ ofSource source) :
    OneLine t := by
  obtain ⟨run, member, rfl⟩ := List.mem_map.mp mem
  have clean := not_sep_of_mem_splitOnP (List.mem_filter.mp member).1
  rw [oneLine_ofList]
  intro inside
  exact absurd (clean '\n' inside) (by decide)

theorem Token.oneLine_reference (index : Nat) : OneLine (reference index) := by
  rw [reference, oneLine_ofList, List.mem_cons, not_or]
  exact ⟨by decide, newline_not_mem_toDigits index⟩

theorem Binding.oneLine_of_isPlain {t : Token} (plain : isPlain t.toList = true) : OneLine t := by
  intro inside
  rcases digit_or_point_of_isPlain plain '\n' inside with digit | point
  · exact absurd digit (by decide)
  · exact absurd point (by decide)

namespace Program

theorem bind_tokens {numerals : List Token} (plain : Binding.AllPlain numerals) {p : Program}
    (lines : ∀ t ∈ p.tokens, OneLine t) : ∀ t ∈ (p.bind numerals).tokens, OneLine t := by
  have argument : ∀ t, OneLine t → OneLine (Binding.bind numerals t) := by
    intro t own
    rcases Binding.bind_cases plain t with ⟨_, same⟩ | bound
    · rwa [same]
    · exact Binding.oneLine_of_isPlain bound
  intro t mem
  obtain ⟨op, member, inside⟩ := List.mem_flatMap.mp mem
  obtain ⟨unbound, own, rfl⟩ := List.mem_map.mp member
  have before : ∀ u ∈ unbound.tokens, OneLine u := by
    intro u of
    exact lines u (List.mem_flatMap.mpr ⟨unbound, own, of⟩)
  rcases List.mem_cons.mp inside with rfl | given
  · exact before unbound.operator (by simp [Operation.tokens])
  · obtain ⟨u, of, rfl⟩ := List.mem_map.mp given
    exact argument u (before u (by simp [Operation.tokens, of]))

theorem oneLine_text {p : Program} (lines : ∀ t ∈ p.tokens, OneLine t) : OneLine p.text := by
  rw [text, oneLine_ofList]
  apply newline_not_mem_intercalate (by decide)
  intro printed mem
  obtain ⟨op, member, rfl⟩ := List.mem_map.mp mem
  have own : ∀ t ∈ op.tokens, '\n' ∉ t.toList := by
    intro t inside
    exact lines t (List.mem_flatMap.mpr ⟨op, member, inside⟩)
  have operator : '\n' ∉ op.operator.toList := own op.operator (by simp [Operation.tokens])
  have arguments : '\n' ∉ [','].intercalate (op.arguments.map String.toList) := by
    apply newline_not_mem_intercalate (by decide)
    intro argument given
    obtain ⟨t, inside, rfl⟩ := List.mem_map.mp given
    exact own t (by simp [Operation.tokens, inside])
  simp [Operation.chars, operator, arguments]

end Program

section
variable {c : Catalog} {allowed : Option ArgumentSet} {source : String}

theorem Program.ofNestedSource_tokens {p : Program}
    (read : ofNestedSource c allowed source = .ok p) : ∀ t ∈ p.tokens, OneLine t := by
  apply ofNested_tokens Token.oneLine_reference _ read
  intro t mem
  exact Token.oneLine_of_mem_ofSource mem

theorem Program.ofNestedSource_quotes {fault : NestedFault}
    (failed : ofNestedSource c allowed source = .error fault) :
    ∀ t ∈ fault.fault.quoted, OneLine t := by
  apply ofNested_quotes Token.oneLine_reference _ failed
  intro t mem
  exact Token.oneLine_of_mem_ofSource mem

theorem Program.checkSource_quotes {fault : ReadingFault}
    (failed : check c allowed (Token.ofSource source) = .error fault) :
    ∀ t ∈ fault.quoted, OneLine t :=
  check_quotes (fun _ mem => Token.oneLine_of_mem_ofSource mem) failed

theorem Form.read_tokens {form : Form} {p : Program} (read : form.read c allowed source = .ok p) :
    ∀ t ∈ p.tokens, OneLine t := by
  cases form with
  | nested => exact Program.ofNestedSource_tokens (read_nested_eq_ok_iff.mp read)
  | linear =>
    rw [(read_linear_eq_ok_iff.mp read).listing]
    intro t mem
    exact Token.oneLine_of_mem_ofSource mem

theorem Form.read_quotes {form : Form} {fault : ReadingFault}
    (failed : form.read c allowed source = .error fault) : ∀ t ∈ fault.quoted, OneLine t := by
  cases form with
  | nested =>
    rw [Form.read] at failed
    cases built : Program.ofNestedSource c allowed source with
    | ok q => simp [built, Except.mapError] at failed
    | error first =>
      simp only [built, Except.mapError, Except.error.injEq] at failed
      subst fault
      exact Program.ofNestedSource_quotes built
  | linear => exact Program.checkSource_quotes (read_linear_eq_error_iff.mp failed)

end

theorem Problem.solve_quotes {p : Problem} {form : Form} {c : Catalog}
    {allowed : Option ArgumentSet} {fault : Fault}
    (failed : p.solve form c allowed = .error fault) : ∀ t ∈ fault.quoted, OneLine t := by
  unfold solve at failed
  split at failed
  · rename_i refused
    cases failed
    exact Form.read_quotes refused
  · rename_i program read
    intro t mem
    exact Program.bind_tokens (Binding.numerals_plain p.text) (Form.read_tokens read) t
      (Program.run_quotes failed t mem)

theorem OptionSet.oneLine_text (s : OptionSet) : OneLine s.text := by
  have slot : ∀ value, '\n' ∉ slotChars value := by
    intro value
    cases value with
    | none => decide
    | some number =>
      have shown := Number.oneLine_text number
      rwa [Number.text, oneLine_ofList] at shown
  rw [text, oneLine_ofList]
  apply newline_not_mem_intercalate (by decide)
  intro printed mem
  obtain ⟨⟨label, value⟩, member, rfl⟩ := List.mem_map.mp mem
  have known : label ∈ labels := (List.of_mem_zip member).1
  have letter : '\n' ≠ label := by
    rintro rfl
    exact absurd known (by decide)
  simp [letter, slot]

theorem OptionSet.oneLine_fault {text : String} {fault : OptionFault}
    (failed : ofText text = .error fault) : OneLine fault.message := by
  unfold ofText ofChars at failed
  dsimp only at failed
  split at failed
  · cases failed
  · cases failed
    unfold OptionFault.message
    simp +decide only [oneLine_append, oneLine_nat]

namespace CommandLine

def Line.text : Line → String
  | .output text => text
  | .error text => text

def Task.line (task : Task) (c : Catalog) (allowed : Option ArgumentSet) (source : String) : Line :=
  match task with
  | .linearize => linearizeLine c allowed source
  | .validate => validateLine c allowed source
  | .options => optionsLine source
  | .solve problem nested =>
    let form := if nested then Form.nested else Form.linear
    outcomeLine (Problem.solve ⟨source, problem⟩ form c allowed)

theorem Task.lines_eq_map (task : Task) (c : Catalog) (allowed : Option ArgumentSet)
    (inputs : List String) :
    task.lines c allowed inputs = .ok (inputs.map (task.line c allowed)) := by
  cases task with
  | solve problem nested =>
    have bound : ∀ o ∈ (inputs.map fun program => Problem.mk program problem).map
        (fun p => p.solve (if nested then .nested else .linear) c allowed), ¬ o.Misused := by
      intro o mem
      obtain ⟨p, _, rfl⟩ := List.mem_map.mp mem
      exact p.solve_bound _ c allowed
    simp only [lines, solveBatch]
    rw [Outcome.settle_of_bound bound]
    simp only [List.map_map]
    rfl
  | _ => rfl

theorem linearizeLine_oneLine (c : Catalog) (allowed : Option ArgumentSet) (source : String) :
    OneLine (linearizeLine c allowed source).text := by
  unfold linearizeLine
  split
  · rename_i program built
    exact Program.oneLine_text (Program.ofNestedSource_tokens built)
  · rename_i failure built
    exact ReadingFault.oneLine_message (Program.ofNestedSource_quotes built)

theorem validateLine_oneLine (c : Catalog) (allowed : Option ArgumentSet) (source : String) :
    OneLine (validateLine c allowed source).text := by
  unfold validateLine
  split
  · decide
  · rename_i fault refused
    have told := ReadingFault.oneLine_message (Program.checkSource_quotes refused)
    simp +decide only [Line.text, oneLine_append, told]

theorem outcomeLine_oneLine {o : Outcome}
    (lines : ∀ fault, o = .error fault → ∀ t ∈ fault.quoted, OneLine t) :
    OneLine (outcomeLine o).text := by
  cases o with
  | ok answer =>
    cases answer with
    | none => decide
    | some x => exact Number.oneLine_text (Number.rounded x)
  | error fault =>
    have told : OneLine fault.message := Fault.oneLine_message (lines fault rfl)
    simp +decide only [outcomeLine, Line.text, oneLine_append, told]

theorem optionsLine_oneLine (text : String) : OneLine (optionsLine text).text := by
  unfold optionsLine
  cases read : OptionSet.ofText text with
  | ok options => exact OptionSet.oneLine_text options
  | error fault => exact OptionSet.oneLine_fault read

theorem Task.line_oneLine (task : Task) (c : Catalog) (allowed : Option ArgumentSet)
    (source : String) : OneLine (task.line c allowed source).text := by
  cases task with
  | linearize => exact linearizeLine_oneLine c allowed source
  | validate => exact validateLine_oneLine c allowed source
  | options => exact optionsLine_oneLine source
  | solve problem nested =>
    apply outcomeLine_oneLine
    intro fault failed
    exact Problem.solve_quotes failed

/-- Answers of programs are output, whatever they are. -/
def Task.reports : Task → Bool
  | .validate | .solve _ _ => true
  | .linearize | .options => false

theorem Task.line_output {task : Task} (reports : task.reports = true) (c : Catalog)
    (allowed : Option ArgumentSet) (source : String) :
    ∃ body, task.line c allowed source = .output body := by
  cases task with
  | linearize => cases reports
  | options => cases reports
  | validate =>
    simp only [line, validateLine]
    split
    · exact ⟨_, rfl⟩
    · exact ⟨_, rfl⟩
  | solve problem nested =>
    simp only [line]
    unfold outcomeLine
    split
    · exact ⟨_, rfl⟩
    · exact ⟨_, rfl⟩
    · exact ⟨_, rfl⟩

namespace Transcript

theorem output_eq_join (code : Nat) (lines : List Line) :
    output ⟨code, lines⟩ = String.join (lines.map fun line => output ⟨0, [line]⟩) := by
  simp only [output, List.map_cons, List.map_nil, String.join_cons, String.join_nil,
    String.append_empty]

theorem errors_eq_join (code : Nat) (lines : List Line) :
    errors ⟨code, lines⟩ = String.join (lines.map fun line => errors ⟨0, [line]⟩) := by
  simp only [errors, List.map_cons, List.map_nil, String.join_cons, String.join_nil,
    String.append_empty]

end Transcript

def Request.direct (r : Request) (entry : String) : Request :=
  { r with fromFile := false, contents := entry }

theorem Request.answer_direct {r : Request} {read : String → FileText} {c : Catalog}
    {allowed : Option ArgumentSet} (operators : r.catalog read = .ok c)
    (arguments : r.allowed read = .ok allowed) (entry : String) :
    (r.direct entry).answer read = ⟨0, [r.task.line c allowed entry]⟩ := by
  have catalog : (r.direct entry).catalog read = .ok c := operators
  have members : (r.direct entry).allowed read = .ok allowed := arguments
  have inputs : (r.direct entry).inputs read = .ok [entry] := rfl
  simp only [answer, lines, catalog, members, inputs, bind, Except.bind, Task.lines_eq_map]
  rfl

theorem Request.answer_file {r : Request} {read : String → FileText} {c : Catalog}
    {allowed : Option ArgumentSet} {text : String} (operators : r.catalog read = .ok c)
    (arguments : r.allowed read = .ok allowed) (file : r.fromFile = true)
    (held : read r.contents = .ok text) :
    r.answer read =
      ⟨0, ((entries text.toList).map String.ofList).map (r.task.line c allowed)⟩ := by
  have inputs : r.inputs read = .ok ((entries text.toList).map String.ofList) := by
    simp [Request.inputs, file, held]
  simp only [answer, lines, operators, arguments, inputs, bind, Except.bind, Task.lines_eq_map]

/-- The entries of a file are answered one after the other as if each were given directly, every
    one of them with exactly one line; programs that are checked or solved have theirs on the
    output channel. -/
theorem session_of_file {words : List String} {r : Request} {read : String → FileText}
    {c : Catalog} {allowed : Option ArgumentSet} {text : String}
    (asked : Invocation.ofWords words = .request r) (file : r.fromFile = true)
    (operators : r.catalog read = .ok c) (arguments : r.allowed read = .ok allowed)
    (held : read r.contents = .ok text) :
    let inputs := (entries text.toList).map String.ofList
    (session words read).exitCode = 0 ∧
      (session words read).output =
        String.join (inputs.map fun entry => (session (r.direct entry).words read).output) ∧
      (session words read).errors =
        String.join (inputs.map fun entry => (session (r.direct entry).words read).errors) ∧
      ∀ entry ∈ inputs,
        Invocation.ofWords (r.direct entry).words = .request (r.direct entry) ∧
        (session (r.direct entry).words read).exitCode = 0 ∧
        ∃ body, OneLine body ∧
          ((session (r.direct entry).words read).output = body ++ "\n" ∧
              (session (r.direct entry).words read).errors = "" ∨
            r.task.reports = false ∧ (session (r.direct entry).words read).output = "" ∧
              (session (r.direct entry).words read).errors = body ++ "\n") := by
  have whole : session words read =
      ⟨0, ((entries text.toList).map String.ofList).map (r.task.line c allowed)⟩ := by
    simp only [session, asked]
    exact Request.answer_file operators arguments file held
  have understood : ∀ entry,
      Invocation.ofWords (r.direct entry).words = .request (r.direct entry) := by
    intro entry
    have named : r.NamesFiles := Request.namesFiles_of_ofWords asked
    exact Request.ofWords_words (r := r.direct entry) named
  have alone : ∀ entry, session (r.direct entry).words read =
      ⟨0, [r.task.line c allowed entry]⟩ := by
    intro entry
    simp only [session, understood]
    exact Request.answer_direct operators arguments entry
  refine ⟨by rw [whole], ?_, ?_, ?_⟩
  · simp only [whole, alone, Transcript.output_eq_join 0 (List.map _ _), List.map_map,
      Function.comp_def]
  · simp only [whole, alone, Transcript.errors_eq_join 0 (List.map _ _), List.map_map,
      Function.comp_def]
  · intro entry _
    have single := r.task.line_oneLine c allowed entry
    rw [alone]
    refine ⟨understood entry, rfl, (r.task.line c allowed entry).text, single, ?_⟩
    cases told : r.task.line c allowed entry with
    | output body =>
      exact .inl ⟨by simp [Transcript.output, Line.text], by simp [Transcript.errors]⟩
    | error body =>
      have silent : r.task.reports = false := by
        by_contra reports
        obtain ⟨other, output⟩ := Task.line_output (by simpa using reports) c allowed entry
        rw [told] at output
        cases output
      exact .inr ⟨silent, by simp [Transcript.output], by simp [Transcript.errors, Line.text]⟩

def everywhere (text : String) : String → FileText := fun _ => .ok text

theorem session_of_file_with_orphan :
    (session ["linearize", "-f", "in"] (everywhere "add(n0, add(n1, n2))\n\n n0\n")).exitCode = 0 ∧
      (session ["linearize", "-f", "in"] (everywhere "add(n0, add(n1, n2))\n\n n0\n")).output =
        "add(n1,n2)|add(n0,#0)\n" ∧
      (session ["linearize", "-f", "in"] (everywhere "add(n0, add(n1, n2))\n\n n0\n")).errors =
        "Token 0: argument 'n0' has no operator to bind to.\n" := by
  have asked : Invocation.ofWords ["linearize", "-f", "in"] =
      .request ⟨none, none, true, false, .linearize, "in"⟩ := by rfl
  have held : everywhere "add(n0, add(n1, n2))\n\n n0\n" "in" = .ok _ := rfl
  obtain ⟨code, output, errors, _⟩ := session_of_file asked rfl (c := .builtin) rfl rfl held
  exact ⟨code, output.trans (by decide +kernel), errors.trans (by decide +kernel)⟩

end CommandLine

end WordProblem
