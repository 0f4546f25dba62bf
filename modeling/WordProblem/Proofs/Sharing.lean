import WordProblem.Proofs.Evaluation
import WordProblem.Proofs.Unfolding

/-!
A program that runs to its end is worth what its last operation unfolds to. Results are shared: an
operation is run once however often it is referred to. Unfolding writes it out at each place, so
the expression may be much larger than the program; its value is the same, and the order, the
numbers and the repetitions of the operations leave no trace in it.
-/
namespace WordProblem

/-- What the expression is worth on its own, from whatever number its calls are counted. -/
def Expression.Worth (e : Expression) (x : Float) : Prop :=
  ∀ start, evaluate Memory.empty.valueOf start e = .ok (.number x)

namespace Memory

/-- Each result is what the expression at its number is worth. -/
structure Tells (m : Memory) (es : List Expression) : Prop where
  size : m.size = es.length
  worth : ∀ (i : Nat) (x : Float), m.results[i]? = some x → ∃ e, es[i]? = some e ∧ e.Worth x

theorem tells_empty : Tells empty [] where
  size := rfl
  worth i x held := by simp [empty] at held

theorem Tells.push {m : Memory} {es : List Expression} (tells : m.Tells es) {e : Expression}
    {x : Float} (worth : e.Worth x) : (m.push x).Tells (es ++ [e]) where
  size := by rw [size_push, tells.size, List.length_append, List.length_singleton]
  worth i y held := by
    have length : m.results.length = es.length := tells.size
    rcases Nat.lt_trichotomy i es.length with inside | rfl | outside
    · rw [Memory.push, List.getElem?_append_left (by omega)] at held
      obtain ⟨f, found, own⟩ := tells.worth i y held
      exact ⟨f, by rw [List.getElem?_append_left inside, found], own⟩
    · rw [← tells.size, getElem?_push] at held
      cases held
      exact ⟨e, by simp, worth⟩
    · rw [Memory.push, List.getElem?_eq_none (by simp; omega)] at held
      cases held

theorem valueOf_reference_ok {m : Memory} {t : Token} (refers : t.isReference = true) {x : Float}
    (resolved : m.valueOf t = .ok x) : ∃ i, t.referent? = some i ∧ m.results[i]? = some x := by
  obtain ⟨index, shape⟩ : ∃ index, t.toList = '#' :: index := by
    cases chars : t.toList with
    | nil => simp [Token.isReference, chars] at refers
    | cons c rest => exact ⟨rest, by simpa [Token.isReference, chars] using refers⟩
  have kind : Argument.ofToken t = .reference (String.ofList index) := by
    simp [Argument.ofToken, Token.placeholder?_of_head_ne shape (by decide), shape]
  rw [valueOf, kind] at resolved
  simp only [resolve, String.toList_ofList] at resolved
  split at resolved
  · rename_i numeric
    split at resolved
    · rename_i y held
      cases resolved
      exact ⟨Digits.value index, by simp [Token.referent?, shape, numeric], held⟩
    · split at resolved <;> cases resolved
  · cases resolved

theorem valuesOf_ok {m : Memory} {ts : List Token} {xs : List Float}
    (resolved : m.valuesOf ts = .ok xs) : ∀ t ∈ ts, ∃ x, m.valueOf t = .ok x := by
  induction ts generalizing xs with
  | nil => simp
  | cons t rest ih =>
    rw [valuesOf] at resolved
    cases first : m.valueOf t with
    | error fault => simp [first] at resolved
    | ok x =>
      cases others : m.valuesOf rest with
      | error fault => simp [first, others] at resolved
      | ok ys => exact List.forall_mem_cons.mpr ⟨⟨x, first⟩, ih others⟩

end Memory

theorem Operation.argument_ok {op : Operation} {m : Memory} {x : Float}
    (given : op.value m = .ok x) : ∀ t ∈ op.arguments, ∃ y, m.valueOf t = .ok y := by
  obtain ⟨_, xs, _, _, resolved, _⟩ := value_ok given
  exact Memory.valuesOf_ok resolved

namespace Program
open Expression

section
variable {m : Memory} {es : List Expression}

theorem evaluate_unfoldArgument (tells : m.Tells es) {t : Token} {x : Float}
    (resolved : m.valueOf t = .ok x) (start : Nat) :
    ∃ operand, evaluate Memory.empty.valueOf start (unfoldArgument es t) = .ok operand ∧
      operand.value Memory.empty.valueOf = .ok x := by
  by_cases refers : t.isReference = true
  · obtain ⟨i, referent, held⟩ := Memory.valueOf_reference_ok refers resolved
    obtain ⟨e, found, worth⟩ := tells.worth i x held
    have unfolds : unfoldArgument es t = e := by simp [unfoldArgument, referent, found]
    exact ⟨.number x, by rw [unfolds, worth start], rfl⟩
  · have own : t.isReference = false := by simpa using refers
    have unfolds : unfoldArgument es t = .leaf t := by
      simp [unfoldArgument, Token.referent?_of_not_reference own]
    refine ⟨.token t, by rw [unfolds, evaluate], ?_⟩
    rw [Operand.value, Memory.valueOf_eq_of_not_reference .empty m own, resolved]

theorem evaluateAll_unfoldArgument (tells : m.Tells es) {ts : List Token}
    (resolved : ∀ t ∈ ts, ∃ x, m.valueOf t = .ok x) (start : Nat) :
    ∃ operands, evaluateAll Memory.empty.valueOf start (ts.map (unfoldArgument es)) =
        .ok operands ∧ m.valuesOf ts = Operand.values Memory.empty.valueOf operands := by
  induction ts generalizing start with
  | nil => exact ⟨[], rfl, rfl⟩
  | cons t rest ih =>
    obtain ⟨⟨x, first⟩, others⟩ := List.forall_mem_cons.mp resolved
    obtain ⟨operand, evaluated, value⟩ := evaluate_unfoldArgument tells first start
    obtain ⟨operands, evaluatedAll, values⟩ :=
      ih others (start + calls (unfoldArgument es t))
    refine ⟨operand :: operands, ?_, Memory.valuesOf_cons (first.trans value.symm) values⟩
    rw [List.map_cons, evaluateAll, evaluated, evaluatedAll]

theorem worth_unfoldOperation (tells : m.Tells es) {op : Operation} {x : Float}
    (given : op.value m = .ok x) : (unfoldOperation es op).Worth x := by
  intro start
  obtain ⟨operands, evaluated, same⟩ :=
    evaluateAll_unfoldArgument tells (Operation.argument_ok given) start
  have count : op.arguments.length = operands.length := by
    rw [evaluateAll_length evaluated, List.length_map]
  have applied : Operand.apply Memory.empty.valueOf op.operator operands = .ok x := by
    rw [← Operation.value_eq_apply count same, given]
  rw [unfoldOperation, evaluate, evaluated]
  simp only [applied]

theorem execute_tells {step : Nat} {left : Memory} {p : Program} (tells : m.Tells es)
    (run : execute step m p = (left, none)) : left.Tells (unfoldFrom es p) := by
  induction p generalizing step m es with
  | nil =>
    cases run
    exact tells
  | cons op rest ih =>
    rw [execute] at run
    cases value : op.value m with
    | error cause => simp [value] at run
    | ok x =>
      simp only [value] at run
      exact ih (tells.push (worth_unfoldOperation tells value)) run

theorem execute_reference {step : Nat} {left : Memory} {p : Program}
    (run : execute step m p = (left, none)) {k : Nat} {op : Operation} (found : p[k]? = some op)
    {t : Token} (argument : t ∈ op.arguments) (refers : t.isReference = true) :
    ∃ i, i < m.size + k ∧ t.referent? = some i := by
  induction p generalizing step m k with
  | nil => simp at found
  | cons first rest ih =>
    rw [execute] at run
    cases value : first.value m with
    | error cause => simp [value] at run
    | ok x =>
      simp only [value] at run
      cases k with
      | zero =>
        obtain rfl : first = op := by simpa using found
        obtain ⟨y, resolved⟩ := Operation.argument_ok value t argument
        obtain ⟨i, referent, held⟩ := Memory.valueOf_reference_ok refers resolved
        exact ⟨i, (List.getElem?_eq_some_iff.mp held).1, referent⟩
      | succ k =>
        obtain ⟨i, earlier, referent⟩ := ih run (by simpa using found)
        rw [Memory.size_push] at earlier
        exact ⟨i, by omega, referent⟩

end

theorem run_ok {p : Program} (nonempty : p ≠ []) {answer : Option Float}
    (ran : p.run = .ok answer) :
    ∃ left, execute 0 .empty p = (left, none) ∧ answer = left.last? := by
  rcases executed : execute 0 .empty p with ⟨left, _ | fault⟩
  · rw [run, runFrom_of_end executed, if_neg nonempty] at ran
    cases ran
    exact ⟨left, rfl, rfl⟩
  · rw [run, runFrom_of_fault executed] at ran
    cases ran

theorem reference_of_run {p : Program} (nonempty : p ≠ []) {answer : Option Float}
    (ran : p.run = .ok answer) {k : Nat} {op : Operation} (found : p[k]? = some op) {t : Token}
    (argument : t ∈ op.arguments) (refers : t.isReference = true) :
    ∃ i, i < k ∧ t.referent? = some i := by
  obtain ⟨left, executed, _⟩ := run_ok nonempty ran
  obtain ⟨i, back, referent⟩ := execute_reference executed found argument refers
  exact ⟨i, by simpa [Memory.empty, Memory.size] using back, referent⟩

theorem outcome_of_run {p : Program} (nonempty : p ≠ []) {answer : Option Float}
    (ran : p.run = .ok answer) :
    ∃ e x, p.expression? = some e ∧ e.outcome Memory.empty.valueOf = .ok (some x) ∧
      answer = some x := by
  obtain ⟨left, executed, rfl⟩ := run_ok nonempty ran
  have tells : left.Tells (expressions p) := execute_tells Memory.tells_empty executed
  have size := tells.size
  rw [expressions_length] at size
  have held : 0 < left.results.length := by
    have some_operation := List.length_pos_iff.mpr nonempty
    rw [Memory.size] at size
    omega
  have last : left.last? = left.results[left.size - 1]? := List.getLast?_eq_getElem?
  obtain ⟨x, answered⟩ : ∃ x, left.results[left.size - 1]? = some x :=
    ⟨_, List.getElem?_eq_getElem (by rw [Memory.size]; omega)⟩
  obtain ⟨e, found, worth⟩ := tells.worth _ x answered
  refine ⟨e, x, ?_, ?_, by rw [last, answered]⟩
  · rw [expression?, List.getLast?_eq_getElem?, ← tells.size, found]
  · rw [outcome, worth 0]

theorem ne_nil_of_expression? {p : Program} {e : Expression} (last : p.expression? = some e) :
    p ≠ [] := by
  rintro rfl
  simp [expression?, expressions] at last

/-- A program that runs to its end refers only to earlier results, so that unfolding its last
    operation comes to an end. The answer is what this expression is worth on its own, and any
    other program that runs to its end and unfolds to the same expression has the same answer. -/
theorem run_evaluates_unfolding {p : Program} (nonempty : p ≠ []) {answer : Option Float}
    (ran : p.run = .ok answer) :
    (∀ (k : Nat) (op : Operation), p[k]? = some op →
        (∀ t ∈ op.arguments, t.isReference = true → ∃ i, i < k ∧ t.referent? = some i) ∧
          (expressions p)[k]? = some (unfoldOperation (expressions p) op)) ∧
      (∃ e x, p.expression? = some e ∧ e.outcome Memory.empty.valueOf = .ok (some x) ∧
        answer = some x) ∧
      ∀ (q : Program) (other : Option Float), q.run = .ok other →
        q.expression? = p.expression? → other = answer := by
  obtain ⟨e, x, last, worth, rfl⟩ := outcome_of_run nonempty ran
  refine ⟨?_, ⟨e, x, last, worth, rfl⟩, ?_⟩
  · intro k op found
    refine ⟨fun t argument => reference_of_run nonempty ran found argument, ?_⟩
    refine expressions_getElem?_of_back found ?_
    intro t argument i referent
    by_cases refers : t.isReference = true
    · obtain ⟨j, back, same⟩ := reference_of_run nonempty ran found argument refers
      rw [referent, Option.some.injEq] at same
      omega
    · rw [Token.referent?_of_not_reference (by simpa using refers)] at referent
      cases referent
  · intro q other ranToo same
    rw [last] at same
    obtain ⟨f, y, lastToo, worthToo, rfl⟩ := outcome_of_run (ne_nil_of_expression? same) ranToo
    rw [same, Option.some.injEq] at lastToo
    rw [← lastToo, worth] at worthToo
    exact (Except.ok.inj worthToo).symm

/-- The sum is shared by the first program, behind an operation that nothing needs, and written
    out twice by the second. -/
theorem run_of_shared_and_copied_sum :
    run [⟨"sqrt", ["9"]⟩, ⟨"add", ["2", "3"]⟩, ⟨"multiply", ["#1", "#001"]⟩] = .ok (some 25.0) ∧
      (∃ e x, expression? [⟨"sqrt", ["9"]⟩, ⟨"add", ["2", "3"]⟩, ⟨"multiply", ["#1", "#001"]⟩] =
        some e ∧ e.outcome Memory.empty.valueOf = .ok (some x) ∧ some 25.0 = some x) ∧
      ∀ other, run [⟨"add", ["2", "3"]⟩, ⟨"add", ["2", "3"]⟩, ⟨"multiply", ["#1", "#0"]⟩] =
        .ok other → other = some 25.0 := by
  have ran : run [⟨"sqrt", ["9"]⟩, ⟨"add", ["2", "3"]⟩, ⟨"multiply", ["#1", "#001"]⟩] =
      .ok (some 25.0) := by
    decide +kernel
  have same : expression? [⟨"add", ["2", "3"]⟩, ⟨"add", ["2", "3"]⟩, ⟨"multiply", ["#1", "#0"]⟩] =
      expression? [⟨"sqrt", ["9"]⟩, ⟨"add", ["2", "3"]⟩, ⟨"multiply", ["#1", "#001"]⟩] := rfl
  have law := run_evaluates_unfolding (List.cons_ne_nil _ _) ran
  exact ⟨ran, law.2.1, fun other ranToo => law.2.2 _ other ranToo same⟩

end Program

end WordProblem
