import WordProblem.Proofs.Failure
import WordProblem.Proofs.References

/-!
Programs of the built-in operators run in shape. Reading, in whichever form, gives every operator as
many arguments as the catalog says; the catalog has its arities from the formulas, and a formula
takes exactly as many values as its arity. Binding changes arguments but not their number. So no
step of a run fails for its operator or for the number of its arguments.
-/
namespace WordProblem

/-- The operator or the number of its arguments is at fault, not what the arguments are. -/
def StepFault.OfShape : StepFault → Prop
  | .unknownOperator _ => True
  | .arityMismatch _ _ _ => True
  | _ => False

theorem Memory.not_ofShape_of_valueOf {m : Memory} {t : Token} {cause : StepFault}
    (failed : m.valueOf t = .error cause) : ¬ cause.OfShape := by
  rcases valueOf_error failed with ⟨_, rfl⟩ | rfl | rfl | rfl | ⟨i, rfl, _⟩
  · exact id
  · exact id
  · exact id
  · exact id
  · exact id

namespace Operation

def Operable (op : Operation) : Prop :=
  ∃ f, Formula.find? op.operator = some f ∧ f.arity = op.arguments.length ∧
    ∀ values : List Float, (f.rule.result? values).isSome = true ↔
      values.length = op.arguments.length

theorem operable_of_arity? {op : Operation}
    (known : Catalog.builtin.arity? op.operator = some op.arguments.length) : op.Operable := by
  rw [Catalog.arity?_builtin] at known
  obtain ⟨f, found, arity⟩ := Option.map_eq_some_iff.mp known
  refine ⟨f, found, arity, ?_⟩
  intro values
  rw [Rule.result?_isSome_iff, arity]

theorem Operable.value_error {op : Operation} (operable : op.Operable) {m : Memory}
    {cause : StepFault} (failed : op.value m = .error cause) : ¬ cause.OfShape := by
  obtain ⟨f, found, arity, _⟩ := operable
  rcases Operation.value_error failed with
    ⟨unknown, _⟩ | ⟨g, foundToo, mismatch, _⟩ | ⟨t, _, unresolved⟩ | ⟨why, rfl⟩
  · rw [found] at unknown
    cases unknown
  · rw [found, Option.some.injEq] at foundToo
    subst foundToo
    exact absurd arity.symm mismatch
  · exact Memory.not_ofShape_of_valueOf unresolved
  · exact id

end Operation

namespace Program

def Shaped (c : Catalog) (p : Program) : Prop :=
  ∀ op ∈ p, c.arity? op.operator = some op.arguments.length

/-- The ways to read a program under a catalog: from tokens or from a text, in the linear form or
    in the nested one, there with any set of arguments or with none. -/
inductive ReadUnder (c : Catalog) (p : Program) : Prop
  | tokens (tokens : List Token) (read : ofTokens c tokens = .ok p)
  | source (source : String) (read : ofSource c source = .ok p)
  | nested (allowed : Option ArgumentSet) (tokens : List Token)
      (read : ofNested c allowed tokens = .ok p)
  | nestedSource (allowed : Option ArgumentSet) (source : String)
      (read : ofNestedSource c allowed source = .ok p)

variable {c : Catalog} {p : Program}

theorem shaped_of_ofTokens {tokens : List Token} (read : ofTokens c tokens = .ok p) :
    p.Shaped c := by
  intro op mem
  exact ((ofTokens_eq_ok_iff.mp read).fit op mem).1

theorem shaped_of_ofNested (positive : c.Positive) {allowed : Option ArgumentSet}
    {tokens : List Token} (read : ofNested c allowed tokens = .ok p) : p.Shaped c := by
  intro op mem
  rcases ofNested_eq_ok positive read with ⟨_, rfl⟩ | ⟨e, listed, rfl⟩
  · cases mem
  · exact (Expression.operations_operator e listed.fits 0 op mem).2

theorem ReadUnder.shaped (positive : c.Positive) (read : p.ReadUnder c) : p.Shaped c := by
  cases read with
  | tokens tokens read => exact shaped_of_ofTokens read
  | source source read => exact shaped_of_ofTokens read
  | nested allowed tokens read => exact shaped_of_ofNested positive read
  | nestedSource allowed source read => exact shaped_of_ofNested positive read

theorem Shaped.mapArguments (shaped : p.Shaped c) (f : Token → Token) :
    (p.mapArguments f).Shaped c := by
  intro op mem
  obtain ⟨before, inside, rfl⟩ := List.mem_map.mp mem
  rw [List.length_map]
  exact shaped before inside

theorem runFrom_error_of_operable (operable : ∀ op ∈ p, op.Operable) {m : Memory} {fault : Fault}
    (failed : (runFrom m p).2 = .error fault) :
    ∃ step cause, fault = .step step cause ∧ ¬ cause.OfShape := by
  obtain ⟨op, mem, left, step, cause, stopped, rfl⟩ := runFrom_error failed
  exact ⟨step, cause, rfl, (operable op mem).value_error stopped⟩

/-- However a program was read under the built-in catalog, and whatever its placeholders are bound
    to, each of its operations has a formula for as many values as it has arguments; and from any
    memory the run fails, if it does, at a step whose operator is known and has the right number
    of arguments. -/
theorem builtin_runs_in_shape (read : p.ReadUnder .builtin) (numerals : List Token) (m : Memory) :
    (∀ op ∈ p.bind numerals, op.Operable) ∧
      ∀ fault, (runFrom m (p.bind numerals)).2 = .error fault →
        ∃ step cause, fault = .step step cause ∧ ¬ cause.OfShape := by
  have shaped := (read.shaped Catalog.builtin_positive).mapArguments (Binding.bind numerals)
  have operable : ∀ op ∈ p.bind numerals, op.Operable := by
    intro op mem
    exact Operation.operable_of_arity? (shaped op mem)
  refine ⟨operable, ?_⟩
  intro fault failed
  exact runFrom_error_of_operable operable failed

theorem builtin_runs_in_shape_with_odd_tokens :
    ofNestedSource .builtin (some ⟨["#5", "n0"]⟩) "add(#5, sqrt(n0))" =
        .ok [⟨"sqrt", ["n0"]⟩, ⟨"add", ["#5", "#0"]⟩] ∧
      runFrom ⟨[1.0]⟩ (bind ["add"] [⟨"sqrt", ["n0"]⟩, ⟨"add", ["#5", "#0"]⟩]) =
        (⟨[1.0]⟩, .error (.step 0 (.invalidLiteral "add"))) ∧
      (∀ op ∈ bind ["add"] [⟨"sqrt", ["n0"]⟩, ⟨"add", ["#5", "#0"]⟩], op.Operable) ∧
      ∃ step cause, Fault.step 0 (.invalidLiteral "add") = .step step cause ∧
        ¬ cause.OfShape := by
  have read : ofNestedSource .builtin (some ⟨["#5", "n0"]⟩) "add(#5, sqrt(n0))" =
      .ok [⟨"sqrt", ["n0"]⟩, ⟨"add", ["#5", "#0"]⟩] := by
    decide +kernel
  have run : runFrom ⟨[1.0]⟩ (bind ["add"] [⟨"sqrt", ["n0"]⟩, ⟨"add", ["#5", "#0"]⟩]) =
      (⟨[1.0]⟩, .error (.step 0 (.invalidLiteral "add"))) := by
    decide +kernel
  obtain ⟨operable, faults⟩ :=
    builtin_runs_in_shape (.nestedSource _ _ read) ["add"] ⟨[1.0]⟩
  exact ⟨read, run, operable, faults _ (by rw [run])⟩

end Program

end WordProblem
