import WordProblem.Proofs.Binding

/-!
How runs fail. A step fails for its operator, for the number of its arguments, for the first
argument that does not resolve, or because its formula refuses; a run fails at its first failing
step, and everything before that step has run to its end.
-/
namespace WordProblem

namespace Memory

theorem resolve_error {m : Memory} {index : String} {fault : StepFault}
    (failed : m.resolve index = .error fault) :
    fault = .malformedReference ("#" ++ index) ∨
      ∃ i, fault = .referenceOutOfBounds i m.size ∧ m.size ≤ i := by
  unfold resolve at failed
  split at failed
  · dsimp only at failed
    split at failed
    · cases failed
    · rename_i absent
      split at failed
      · cases failed
        exact .inr ⟨_, rfl, List.getElem?_eq_none_iff.mp absent⟩
      · cases failed
        exact .inl rfl
  · cases failed
    exact .inl rfl

/-- Only a placeholder fails as one; a fault that names a token names the argument as it stands. -/
theorem valueOf_error {m : Memory} {t : Token} {fault : StepFault}
    (failed : m.valueOf t = .error fault) :
    (t.placeholder?.isSome = true ∧ fault = .unboundPlaceholder t) ∨
      fault = .invalidConstant t ∨ fault = .invalidLiteral t ∨ fault = .malformedReference t ∨
      ∃ i, fault = .referenceOutOfBounds i m.size ∧ m.size ≤ i := by
  rcases Argument.ofToken_cases t with
    ⟨index, bound, kind⟩ | ⟨_, ⟨index, shape, kind⟩ | ⟨name, _, kind⟩ | kind⟩
  · rw [valueOf, kind] at failed
    cases failed
    exact .inl ⟨by rw [bound, Option.isSome_some], rfl⟩
  · rw [valueOf, kind] at failed
    -- the text behind the mark is quoted with the mark again
    have same : "#" ++ String.ofList index = t := by
      rw [← String.toList_inj, shape]
      simp
    rw [← same]
    exact .inr (.inr (.inr (resolve_error failed)))
  · simp only [valueOf, kind] at failed
    split at failed
    · cases failed
    · split at failed
      · cases failed
      · cases failed
        exact .inr (.inl rfl)
  · simp only [valueOf, kind] at failed
    split at failed
    · cases failed
    · cases failed
      exact .inr (.inr (.inl rfl))

theorem valuesOf_error {m : Memory} {ts : List Token} {fault : StepFault}
    (failed : m.valuesOf ts = .error fault) : ∃ t ∈ ts, m.valueOf t = .error fault := by
  induction ts with
  | nil => cases failed
  | cons t rest ih =>
    rw [valuesOf] at failed
    cases value : m.valueOf t with
    | error first =>
      simp only [value, Except.error.injEq] at failed
      exact ⟨t, by simp, by rw [value, failed]⟩
    | ok x =>
      cases values : m.valuesOf rest with
      | ok xs => simp [value, values] at failed
      | error later =>
        simp only [value, values, Except.error.injEq] at failed
        obtain ⟨u, mem, cause⟩ := ih (by rw [values, failed])
        exact ⟨u, List.mem_cons_of_mem t mem, cause⟩

theorem valuesOf_length {m : Memory} {ts : List Token} {xs : List Float}
    (resolved : m.valuesOf ts = .ok xs) : xs.length = ts.length := by
  induction ts generalizing xs with
  | nil =>
    cases resolved
    rfl
  | cons t rest ih =>
    rw [valuesOf] at resolved
    split at resolved
    · cases resolved
    · split at resolved
      · cases resolved
      · rename_i others
        cases resolved
        simp [ih others]

end Memory

theorem Formula.finite_cases {f : Formula} {values : List Float}
    (count : values.length = f.arity) :
    (∃ x, f.finite values = .ok x ∧ x.isFinite = true) ∨
      ∃ why, f.finite values = .error (.refused f.name why) := by
  obtain ⟨result, defined⟩ :=
    Option.isSome_iff_exists.mp ((Rule.result?_isSome_iff f.rule values).mpr count)
  rw [finite, apply, defined]
  cases result with
  | error why => exact .inr ⟨why, rfl⟩
  | ok x =>
    by_cases small : x.isFinite = true
    · exact .inl ⟨x, by simp [small], small⟩
    · exact .inr ⟨.nonFinite, by simp [small]⟩

theorem Operation.value_error {op : Operation} {m : Memory} {fault : StepFault}
    (failed : op.value m = .error fault) :
    (Formula.find? op.operator = none ∧ fault = .unknownOperator op.operator) ∨
      (∃ f, Formula.find? op.operator = some f ∧ op.arguments.length ≠ f.arity ∧
        fault = .arityMismatch op.operator f.arity op.arguments.length) ∨
      (∃ t ∈ op.arguments, m.valueOf t = .error fault) ∨
      ∃ why, fault = .refused op.operator why := by
  unfold value at failed
  cases found : Formula.find? op.operator with
  | none =>
    simp only [found, Except.error.injEq] at failed
    exact .inl ⟨rfl, failed.symm⟩
  | some f =>
    simp only [found] at failed
    by_cases count : op.arguments.length = f.arity
    · rw [if_pos count] at failed
      cases values : m.valuesOf op.arguments with
      | error cause =>
        simp only [values, Except.error.injEq] at failed
        exact .inr (.inr (.inl (Memory.valuesOf_error (by rw [values, failed]))))
      | ok xs =>
        simp only [values] at failed
        rcases Formula.finite_cases (f := f) ((Memory.valuesOf_length values).trans count) with
          ⟨x, given, _⟩ | ⟨why, refused⟩
        · rw [given] at failed
          cases failed
        · rw [refused] at failed
          cases failed
          exact .inr (.inr (.inr ⟨why, by rw [Formula.find?_name found]⟩))
    · rw [if_neg count] at failed
      cases failed
      exact .inr (.inl ⟨f, rfl, count, rfl⟩)

theorem Program.execute_fault {step : Nat} {m left : Memory} {p : Program} {fault : Fault}
    (failed : execute step m p = (left, some fault)) :
    ∃ before op after cause, p = before ++ op :: after ∧
      execute step m before = (left, none) ∧ op.value left = .error cause ∧
      fault = .step (step + before.length) cause := by
  induction p generalizing step m with
  | nil => cases failed
  | cons op rest ih =>
    rw [execute] at failed
    cases value : op.value m with
    | error cause =>
      rw [value] at failed
      cases failed
      exact ⟨[], op, rest, cause, rfl, rfl, value, rfl⟩
    | ok x =>
      simp only [value] at failed
      obtain ⟨before, last, after, cause, rfl, run, stopped, rfl⟩ := ih failed
      refine ⟨op :: before, last, after, cause, rfl, ?_, stopped, ?_⟩
      · rw [execute, value]
        exact run
      · rw [List.length_cons, Nat.add_assoc, Nat.add_comm 1]

theorem Program.runFrom_error {m : Memory} {p : Program} {fault : Fault}
    (failed : (runFrom m p).2 = .error fault) :
    ∃ op ∈ p, ∃ left step cause, op.value left = .error cause ∧ fault = .step step cause := by
  rcases executed : execute 0 m p with ⟨left, _ | first⟩
  · rw [runFrom_of_end executed] at failed
    cases failed
  · rw [runFrom_of_fault executed] at failed
    cases failed
    obtain ⟨before, op, after, cause, rfl, _, stopped, rfl⟩ := execute_fault executed
    exact ⟨op, by simp, left, _, cause, stopped, rfl⟩

end WordProblem
