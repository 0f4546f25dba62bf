import WordProblem.Proofs.Failure

namespace WordProblem

theorem Operation.value_finite {op : Operation} {m : Memory} {x : Float}
    (given : op.value m = .ok x) : x.isFinite = true := by
  obtain ⟨f, xs, _, count, resolved, applied⟩ := value_ok given
  rcases Formula.finite_cases ((Memory.valuesOf_length resolved).trans count) with
    ⟨y, same, finite⟩ | ⟨why, refused⟩
  · rw [applied, Except.ok.injEq] at same
    rw [same, finite]
  · rw [applied] at refused
    cases refused

theorem Operation.value_outOfBounds {op : Operation} {m : Memory} {index held : Nat}
    (failed : op.value m = .error (.referenceOutOfBounds index held)) :
    held = m.size ∧ held ≤ index := by
  rcases value_error failed with ⟨_, other⟩ | ⟨_, _, _, other⟩ | ⟨t, _, unresolved⟩ | ⟨_, other⟩
  · cases other
  · cases other
  · rcases Memory.valueOf_error unresolved with
      ⟨_, other⟩ | other | other | other | ⟨i, same, beyond⟩
    · cases other
    · cases other
    · cases other
    · cases other
    · cases same
      exact ⟨rfl, beyond⟩
  · cases other

namespace Program

theorem execute_records {step : Nat} {m left : Memory} {p : Program}
    (run : execute step m p = (left, none)) :
    ∃ recorded : List Float, left = ⟨m.results ++ recorded⟩ ∧ recorded.length = p.length ∧
      ∀ x ∈ recorded, x.isFinite = true := by
  induction p generalizing step m with
  | nil =>
    cases run
    exact ⟨[], by simp⟩
  | cons op rest ih =>
    rw [execute] at run
    cases value : op.value m with
    | error fault => simp [value] at run
    | ok x =>
      simp only [value] at run
      obtain ⟨later, appended, count, finite⟩ := ih run
      refine ⟨x :: later, ?_, by simp [count], ?_⟩
      · rw [appended, Memory.push]
        simp
      · exact List.forall_mem_cons.mpr ⟨Operation.value_finite value, finite⟩

theorem execute_fault_records {step : Nat} {m left : Memory} {p : Program} {fault : Fault}
    (failed : execute step m p = (left, some fault)) :
    ∃ (recorded : List Float) (op : Operation) (cause : StepFault),
      left = ⟨m.results ++ recorded⟩ ∧ (∀ x ∈ recorded, x.isFinite = true) ∧
      p[recorded.length]? = some op ∧ op.value left = .error cause ∧
      fault = .step (step + recorded.length) cause ∧
      execute step m (p.take recorded.length) = (left, none) := by
  obtain ⟨before, op, after, cause, rfl, run, stopped, rfl⟩ := execute_fault failed
  obtain ⟨recorded, same, count, finite⟩ := execute_records run
  refine ⟨recorded, op, cause, same, finite, by simp [count], stopped, by rw [count], ?_⟩
  rw [count, List.take_left, run]

theorem runFrom_of_execute_ok {m left : Memory} {p : Program}
    (run : execute 0 m p = (left, none)) :
    (runFrom m p).1 = left ∧ ∃ answer, (runFrom m p).2 = .ok answer := by
  rw [runFrom_of_end run]
  exact ⟨rfl, _, rfl⟩

theorem last?_of_recorded (m : Memory) {recorded : List Float} (nonempty : recorded ≠ []) :
    ∃ x, recorded.getLast? = some x ∧ Memory.last? ⟨m.results ++ recorded⟩ = some x := by
  have last := List.getLast?_eq_some_getLast nonempty
  exact ⟨recorded.getLast nonempty, last, by simp [Memory.last?, List.getLast?_append, last]⟩

/-- A run appends finite results to the memory it finds: one for each operation when it ends
    well, and then the last of them is the answer. When it fails, the step of the fault counts
    the results recorded before, the operation at that step is the one that failed, and the
    operations before it record the same results on their own. The operators are looked up among
    the formulas, so no catalog has a say in it. -/
theorem runFrom_records (m : Memory) (p : Program) :
    ∃ recorded : List Float,
      (runFrom m p).1.results = m.results ++ recorded ∧
      (∀ x ∈ recorded, x.isFinite = true) ∧
      (p = [] → recorded = [] ∧ (runFrom m p).2 = .ok none) ∧
      (p ≠ [] → ∀ answer, (runFrom m p).2 = .ok answer →
        recorded.length = p.length ∧ ∃ x, recorded.getLast? = some x ∧ answer = some x) ∧
      ∀ fault, (runFrom m p).2 = .error fault →
        ∃ op cause, p[recorded.length]? = some op ∧
          op.value ⟨m.results ++ recorded⟩ = .error cause ∧ fault = .step recorded.length cause ∧
          (runFrom m (p.take recorded.length)).1.results = m.results ++ recorded ∧
          (∃ answer, (runFrom m (p.take recorded.length)).2 = .ok answer) ∧
          ∀ index held, cause = .referenceOutOfBounds index held →
            held = m.size + recorded.length ∧ held ≤ index := by
  by_cases empty : p = []
  · subst empty
    refine ⟨[], by simp [runFrom], by simp, fun _ => ⟨rfl, rfl⟩, fun nonempty => ?_, ?_⟩
    · exact absurd rfl nonempty
    · intro fault failed
      cases failed
  · rw [runFrom_of_ne_nil empty]
    rcases executed : execute 0 m p with ⟨left, _ | fault⟩
    · obtain ⟨recorded, rfl, count, finite⟩ := execute_records executed
      have nonempty : recorded ≠ [] := by
        intro none_recorded
        subst none_recorded
        exact empty (List.length_eq_zero_iff.mp count.symm)
      obtain ⟨x, last, answer⟩ := last?_of_recorded m nonempty
      refine ⟨recorded, rfl, finite, fun none => absurd none empty, ?_, ?_⟩
      · intro _ answered same
        cases same
        exact ⟨count, x, last, answer⟩
      · intro fault failed
        cases failed
    · obtain ⟨recorded, op, cause, rfl, finite, found, stopped, rfl, alone⟩ :=
        execute_fault_records executed
      obtain ⟨same, answered⟩ := runFrom_of_execute_ok alone
      refine ⟨recorded, rfl, finite, fun none => absurd none empty, ?_, ?_⟩
      · intro _ answer impossible
        cases impossible
      · intro fault failed
        cases failed
        refine ⟨op, cause, found, stopped, by rw [Nat.zero_add], by rw [same], answered, ?_⟩
        intro index held outside
        subst outside
        obtain ⟨rfl, beyond⟩ := Operation.value_outOfBounds stopped
        exact ⟨by simp [Memory.size], beyond⟩

example :
    runFrom ⟨[2.0]⟩ [⟨"negate", ["#0"]⟩, ⟨"add", ["#1", "#2"]⟩, ⟨"sqrt", ["#0"]⟩] =
      (⟨[2.0, -2.0]⟩, .error (.step 1 (.referenceOutOfBounds 2 2))) := by
  decide +kernel

end Program

end WordProblem
