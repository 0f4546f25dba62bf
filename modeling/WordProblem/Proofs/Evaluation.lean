import WordProblem.Expression.Value
import WordProblem.Proofs.Binding
import WordProblem.Proofs.NestedForm
import WordProblem.Solve

/-!
Running the linear listing of a call gives what the call itself is worth. The run from a memory
of some size numbers its operations from that size, so each finds the results of the calls among
its arguments at their own numbers; the first operation that fails is the first call that does.
-/
namespace WordProblem

namespace Memory

def Extends (m later : Memory) : Prop := m.results <+: later.results

theorem extends_push (m : Memory) (x : Float) : m.Extends (m.push x) := List.prefix_append _ _

theorem extends_trans {m middle later : Memory} (first : m.Extends middle)
    (second : middle.Extends later) : m.Extends later := List.IsPrefix.trans first second

theorem getElem?_push (m : Memory) (x : Float) : (m.push x).results[m.size]? = some x := by
  simp [push, size]

theorem getElem?_of_extends {m later : Memory} {i : Nat} {x : Float} (grown : m.Extends later)
    (held : m.results[i]? = some x) : later.results[i]? = some x := by
  obtain ⟨more, eq⟩ := grown
  obtain ⟨inside, _⟩ := List.getElem?_eq_some_iff.mp held
  rw [← eq, List.getElem?_append_left inside, held]

theorem valueOf_reference {m : Memory} {i : Nat} {x : Float} (held : m.results[i]? = some x) :
    m.valueOf (Token.reference i) = .ok x := by
  have kind : Argument.ofToken (Token.reference i) =
      .reference (String.ofList (Digits.text i)) := by
    rw [Argument.ofToken, Token.placeholder?_reference]
    simp [Token.reference]
  rw [valueOf, kind]
  simp [resolve, Digits.isNumeric_text, Digits.value_text, held]

end Memory

namespace Program

theorem execute_append_of_ok {step : Nat} {m left : Memory} {p : Program}
    (run : execute step m p = (left, none)) (q : Program) :
    execute step m (p ++ q) = execute (step + p.length) left q := by
  rw [execute_append, run]

theorem execute_append_of_fault {step : Nat} {m left : Memory} {p : Program} {fault : Fault}
    (run : execute step m p = (left, some fault)) (q : Program) :
    execute step m (p ++ q) = (left, some fault) := by
  rw [execute_append, run]

end Program

theorem Memory.valuesOf_cons {m : Memory} {t : Token} {ts : List Token} {operand : Operand}
    {operands : List Operand} {read : Token → Except StepFault Float}
    (first : m.valueOf t = operand.value read)
    (others : m.valuesOf ts = Operand.values read operands) :
    m.valuesOf (t :: ts) = Operand.values read (operand :: operands) := by
  cases value : operand.value read with
  | error fault => simp [valuesOf, Operand.values, first, value]
  | ok x =>
    cases values : Operand.values read operands with
    | error fault => simp [valuesOf, Operand.values, first, value, others, values]
    | ok xs => simp [valuesOf, Operand.values, first, value, others, values]

theorem Operation.value_eq_apply {op : Operation} {m : Memory} {operands : List Operand}
    {read : Token → Except StepFault Float} (count : op.arguments.length = operands.length)
    (resolved : m.valuesOf op.arguments = Operand.values read operands) :
    op.value m = Operand.apply read op.operator operands := by
  cases found : Formula.find? op.operator with
  | none => simp [value, Operand.apply, found]
  | some f =>
    by_cases arity : operands.length = f.arity
    · cases values : Operand.values read operands with
      | error fault => simp [value, Operand.apply, found, count, arity, resolved, values]
      | ok xs => simp [value, Operand.apply, found, count, arity, resolved, values]
    · simp [value, Operand.apply, found, count, arity]

namespace Expression
open Program

/-- Bound leaves resolve as `read` tells, whatever the memory holds, and references stay. -/
structure Reads (admits : Token → Bool) (bound : Token → Token)
    (read : Token → Except StepFault Float) : Prop where
  leaf : ∀ t, admits t = true → ∀ m : Memory, m.valueOf (bound t) = read t
  reference : ∀ i, bound (Token.reference i) = Token.reference i

section
variable {c : Catalog} {admits : Token → Bool} {bound : Token → Token}
  {read : Token → Except StepFault Float}

theorem value_of_resolved {start : Nat} {operator : Token} {arguments : List Expression}
    {values : List Operand} {left : Memory} (inner : evaluateAll read start arguments = .ok values)
    (resolved : left.valuesOf ((operands start arguments).map bound) = Operand.values read values) :
    Operation.value ⟨operator, (operands start arguments).map bound⟩ left =
      Operand.apply read operator values := by
  have count : ((operands start arguments).map bound).length = values.length := by
    rw [List.length_map, operands_length, evaluateAll_length inner]
  exact Operation.value_eq_apply count resolved

mutual

/-- The operations of an expression that has a value run to their end, and from then on its
    operand resolves to this value. The result of a call is the last one. -/
theorem execute_operations (reads : Reads admits bound read) :
    (e : Expression) → Fits c admits e → ∀ (m : Memory) (value : Operand),
      evaluate read m.size e = .ok value →
      ∃ left, execute m.size m (mapArguments bound (operations m.size e)) = (left, none) ∧
        m.Extends left ∧ left.size = m.size + calls e ∧
        (∀ later : Memory, left.Extends later →
          later.valueOf (bound (operand m.size e)) = value.value read) ∧
        ∀ x, value = .number x → left.last? = some x
  | .leaf t, fits, m, value, evaluated => by
    cases evaluated
    refine ⟨m, rfl, List.prefix_rfl, rfl, ?_, ?_⟩
    · intro later _
      exact reads.leaf t fits.2 later
    · intro x number
      cases number
  | .call operator arguments, fits, m, value, evaluated => by
    rw [evaluate] at evaluated
    cases inner : evaluateAll read m.size arguments with
    | error fault => simp [inner] at evaluated
    | ok values =>
      cases applied : Operand.apply read operator values with
      | error fault => simp [inner, applied] at evaluated
      | ok x =>
        simp only [inner, applied, Except.ok.injEq] at evaluated
        subst value
        obtain ⟨left, run, grown, size, resolved⟩ :=
          execute_allOperations reads arguments fits.2 m values inner
        have own := (value_of_resolved inner (resolved left List.prefix_rfl)).trans applied
        refine ⟨left.push x, ?_, Memory.extends_trans grown (Memory.extends_push left x), ?_, ?_,
          ?_⟩
        · rw [operations, mapArguments_append, execute_append_of_ok run]
          simp [mapArguments, execute, own]
        · rw [Memory.size_push, size, calls, Nat.add_assoc]
        · intro later after
          rw [operand, reads.reference, Operand.value, ← size]
          exact Memory.valueOf_reference
            (Memory.getElem?_of_extends after (Memory.getElem?_push left x))
        · intro y number
          cases number
          exact Memory.last?_push left x

theorem execute_allOperations (reads : Reads admits bound read) :
    (es : List Expression) → AllFit c admits es → ∀ (m : Memory) (values : List Operand),
      evaluateAll read m.size es = .ok values →
      ∃ left, execute m.size m (mapArguments bound (allOperations m.size es)) = (left, none) ∧
        m.Extends left ∧ left.size = m.size + totalCalls es ∧
        ∀ later : Memory, left.Extends later →
          later.valuesOf ((operands m.size es).map bound) = Operand.values read values
  | [], _, m, values, evaluated => by
    cases evaluated
    exact ⟨m, rfl, List.prefix_rfl, rfl, fun later _ => rfl⟩
  | e :: rest, fits, m, values, evaluated => by
    rw [evaluateAll] at evaluated
    cases first : evaluate read m.size e with
    | error fault => simp [first] at evaluated
    | ok value =>
      cases others : evaluateAll read (m.size + calls e) rest with
      | error fault => simp [first, others] at evaluated
      | ok more =>
        simp only [first, others, Except.ok.injEq] at evaluated
        subst values
        obtain ⟨middle, run, grown, size, resolved, _⟩ :=
          execute_operations reads e fits.1 m value first
        rw [← size] at others
        obtain ⟨left, run', grown', size', resolved'⟩ :=
          execute_allOperations reads rest fits.2 middle more others
        refine ⟨left, ?_, Memory.extends_trans grown grown', ?_, ?_⟩
        · rw [allOperations, mapArguments_append, execute_append_of_ok run, mapArguments_length,
            operations_length, ← size, run']
        · rw [size', size, totalCalls, Nat.add_assoc]
        · intro later after
          rw [operands, ← size, List.map_cons]
          exact Memory.valuesOf_cons (resolved later (Memory.extends_trans grown' after))
            (resolved' later after)

end

mutual

theorem execute_operations_fault (reads : Reads admits bound read) :
    (e : Expression) → Fits c admits e → ∀ (m : Memory) (fault : Fault),
      evaluate read m.size e = .error fault →
      ∃ left, execute m.size m (mapArguments bound (operations m.size e)) = (left, some fault)
  | .leaf t, _, m, fault, evaluated => by cases evaluated
  | .call operator arguments, fits, m, fault, evaluated => by
    rw [operations, mapArguments_append]
    rw [evaluate] at evaluated
    cases inner : evaluateAll read m.size arguments with
    | error earlier =>
      simp only [inner, Except.error.injEq] at evaluated
      subst fault
      obtain ⟨left, failed⟩ := execute_allOperations_fault reads arguments fits.2 m earlier inner
      exact ⟨left, execute_append_of_fault failed _⟩
    | ok values =>
      cases applied : Operand.apply read operator values with
      | ok x => simp [inner, applied] at evaluated
      | error refusal =>
        simp only [inner, applied, Except.error.injEq] at evaluated
        subst fault
        obtain ⟨left, run, _, _, resolved⟩ :=
          execute_allOperations reads arguments fits.2 m values inner
        have own := (value_of_resolved inner (resolved left List.prefix_rfl)).trans applied
        rw [execute_append_of_ok run, mapArguments_length, allOperations_length]
        exact ⟨left, by simp [mapArguments, execute, own]⟩

theorem execute_allOperations_fault (reads : Reads admits bound read) :
    (es : List Expression) → AllFit c admits es → ∀ (m : Memory) (fault : Fault),
      evaluateAll read m.size es = .error fault →
      ∃ left, execute m.size m (mapArguments bound (allOperations m.size es)) = (left, some fault)
  | [], _, m, fault, evaluated => by cases evaluated
  | e :: rest, fits, m, fault, evaluated => by
    rw [allOperations, mapArguments_append]
    rw [evaluateAll] at evaluated
    cases first : evaluate read m.size e with
    | error earlier =>
      simp only [first, Except.error.injEq] at evaluated
      subst fault
      obtain ⟨left, failed⟩ := execute_operations_fault reads e fits.1 m earlier first
      exact ⟨left, execute_append_of_fault failed _⟩
    | ok value =>
      cases others : evaluateAll read (m.size + calls e) rest with
      | ok more => simp [first, others] at evaluated
      | error later =>
        simp only [first, others, Except.error.injEq] at evaluated
        subst fault
        obtain ⟨middle, run, _, size, _, _⟩ := execute_operations reads e fits.1 m value first
        rw [execute_append_of_ok run, mapArguments_length, operations_length, ← size]
        rw [← size] at others
        exact execute_allOperations_fault reads rest fits.2 middle later others

end

theorem evaluate_call_number {start : Nat} {operator : Token} {arguments : List Expression}
    {value : Operand} (evaluated : evaluate read start (.call operator arguments) = .ok value) :
    ∃ x, value = .number x := by
  rw [evaluate] at evaluated
  split at evaluated
  · cases evaluated
  · split at evaluated
    · cases evaluated
    · cases evaluated
      exact ⟨_, rfl⟩

theorem operations_ne_nil {e : Expression} (call : e.IsCall) (start : Nat) :
    operations start e ≠ [] := by
  cases e with
  | leaf t => exact call.elim
  | call operator arguments => simp [operations]

theorem run_operations (reads : Reads admits bound read) {e : Expression} (call : e.IsCall)
    (fits : Fits c admits e) :
    Program.run (mapArguments bound (operations 0 e)) = outcome read e := by
  have nonempty : mapArguments bound (operations 0 e) ≠ [] := by
    have := operations_ne_nil call 0
    simpa [mapArguments] using this
  rw [Program.run, runFrom_of_ne_nil nonempty, outcome]
  cases evaluated : evaluate read 0 e with
  | error fault =>
    obtain ⟨left, failed⟩ := execute_operations_fault reads e fits .empty fault evaluated
    rw [show execute 0 .empty (mapArguments bound (operations 0 e)) = (left, some fault) from failed]
  | ok value =>
    obtain ⟨left, run, _, _, _, last⟩ := execute_operations reads e fits .empty value evaluated
    cases e with
    | leaf t => exact call.elim
    | call operator arguments =>
      obtain ⟨x, rfl⟩ := evaluate_call_number evaluated
      rw [show execute 0 .empty (mapArguments bound (operations 0 (.call operator arguments))) =
        (left, none) from run]
      simp [last x rfl]

end

end Expression

def Problem.reader (p : Problem) (t : Token) : Except StepFault Float :=
  Memory.empty.valueOf (Binding.bind (Binding.numerals p.text) t)

theorem Problem.reads {allowed : Option ArgumentSet}
    (plain : ∀ set, allowed = some set → ∀ t ∈ set.members, t.isReference = false)
    (p : Problem) :
    Expression.Reads (Assembly.admits allowed) (Binding.bind (Binding.numerals p.text)) p.reader where
  leaf _ admitted m :=
    Memory.valueOf_eq_of_not_reference m .empty
      (Binding.isReference_bind (Binding.numerals_plain p.text)
        (Assembly.isReference_of_admits plain admitted))
  reference := Binding.bind_reference _

theorem Form.read_nested_of_ok {c : Catalog} {allowed : Option ArgumentSet} {source : String}
    {p : Program} (read : Program.ofNestedSource c allowed source = .ok p) :
    Form.nested.read c allowed source = .ok p := by
  rw [Form.read, read]
  rfl

theorem Problem.solve_of_read {p : Problem} {form : Form} {c : Catalog}
    {allowed : Option ArgumentSet} {program : Program}
    (read : form.read c allowed p.program = .ok program) :
    p.solve form c allowed = (program.bind (Binding.numerals p.text)).run := by
  rw [solve, read]

theorem Problem.solve_of_listedBy {c : Catalog} (positive : c.Positive)
    {allowed : Option ArgumentSet}
    (plain : ∀ set, allowed = some set → ∀ t ∈ set.members, t.isReference = false) {p : Problem}
    {e : Expression} (listed : e.ListedBy c allowed (Token.ofSource p.program)) :
    p.solve .nested c allowed = e.outcome p.reader := by
  have read : Program.ofNestedSource c allowed p.program = .ok (e.operations 0) :=
    Program.ofNested_listing positive listed
  rw [solve_of_read (Form.read_nested_of_ok read), Program.bind]
  exact Expression.run_operations (p.reads plain) listed.call listed.fits

/-- Solving a nested program that can be read evaluates the one call that it lists, and an empty
    program has no answer. -/
theorem Problem.solve_nested_evaluates {c : Catalog} (positive : c.Positive)
    {allowed : Option ArgumentSet}
    (plain : ∀ set, allowed = some set → ∀ t ∈ set.members, t.isReference = false) (p : Problem)
    {program : Program} (read : Program.ofNestedSource c allowed p.program = .ok program) :
    (Token.ofSource p.program = [] ∧ p.solve .nested c allowed = .ok none) ∨
      ∃ e : Expression, e.ListedBy c allowed (Token.ofSource p.program) ∧
        (∀ f : Expression, f.ListedBy c allowed (Token.ofSource p.program) → f = e) ∧
        p.solve .nested c allowed = e.outcome p.reader := by
  rcases Program.ofNested_eq_ok positive read with ⟨empty, rfl⟩ | ⟨e, listed, _⟩
  · refine .inl ⟨empty, ?_⟩
    rw [solve_of_read (Form.read_nested_of_ok read)]
    rfl
  · refine .inr ⟨e, listed, ?_, solve_of_listedBy positive plain listed⟩
    intro f other
    exact Program.listedBy_unique other listed

/-- The division is the first call of the listing that fails, though the addition is read first. -/
theorem Problem.solve_nested_of_zero_divisor :
    Catalog.builtin.Positive ∧
      (∀ t ∈ ["n0", "n1", "const_pi"], Token.isReference t = false) ∧
      (Program.ofNestedSource .builtin (some ⟨["n0", "n1", "const_pi"]⟩)
        "add(negate(n0), divide(n0, n1))" =
        .ok [⟨"negate", ["n0"]⟩, ⟨"divide", ["n0", "n1"]⟩, ⟨"add", ["#0", "#1"]⟩]) ∧
      Problem.solve ⟨"add(negate(n0), divide(n0, n1))", "7 of 0"⟩ .nested .builtin
        (some ⟨["n0", "n1", "const_pi"]⟩) =
        .error (.step 1 (.refused "divide" .divisionByZero)) := by
  have plain : ∀ set, some (ArgumentSet.mk ["n0", "n1", "const_pi"]) = some set →
      ∀ t ∈ set.members, t.isReference = false := by
    intro set same
    cases same
    decide +kernel
  have read : Program.ofNestedSource .builtin (some ⟨["n0", "n1", "const_pi"]⟩)
      "add(negate(n0), divide(n0, n1))" =
      .ok [⟨"negate", ["n0"]⟩, ⟨"divide", ["n0", "n1"]⟩, ⟨"add", ["#0", "#1"]⟩] := by
    decide +kernel
  refine ⟨Catalog.builtin_positive, plain _ rfl, read, ?_⟩
  have listed : Expression.ListedBy .builtin (some ⟨["n0", "n1", "const_pi"]⟩)
      (Token.ofSource "add(negate(n0), divide(n0, n1))")
      (.call "add" [.call "negate" [.leaf "n0"], .call "divide" [.leaf "n0", .leaf "n1"]]) := by
    refine ⟨trivial, ?_, by decide +kernel⟩
    simp only [Expression.Fits, Expression.AllFit, and_true]
    decide +kernel
  rcases solve_nested_evaluates Catalog.builtin_positive plain
    ⟨"add(negate(n0), divide(n0, n1))", "7 of 0"⟩ read with ⟨empty, _⟩ | ⟨e, _, unique, same⟩
  · exact absurd empty (by decide +kernel)
  · rw [same, ← unique _ listed]
    decide +kernel

end WordProblem
