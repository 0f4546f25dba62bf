import WordProblem.Proofs.Failure
import WordProblem.Solve

namespace WordProblem

def Outcome.Misused (o : Outcome) : Prop :=
  ∃ step token, o = .error (.step step (.unboundPlaceholder token))

theorem Fault.isMisuse_iff {fault : Fault} :
    fault.isMisuse = true ↔ ∃ step token, fault = .step step (.unboundPlaceholder token) := by
  cases fault with
  | reading fault => simp [isMisuse, kind]
  | step number fault => cases fault <;> simp [isMisuse, kind, StepFault.kind]

namespace Outcome

theorem misuse?_eq_some_iff {o : Outcome} {fault : Fault} :
    misuse? o = some fault ↔ o = .error fault ∧ o.Misused := by
  cases o with
  | ok answer => simp [misuse?, Misused]
  | error other =>
    by_cases misused : other.isMisuse = true
    · have bare := Fault.isMisuse_iff.mp misused
      simp [misuse?, misused, Misused, bare]
    · have bare := mt Fault.isMisuse_iff.mpr misused
      simp [misuse?, misused, Misused, bare]

theorem misuse?_eq_none_iff {o : Outcome} : misuse? o = none ↔ ¬ o.Misused := by
  constructor
  · rintro none ⟨step, token, rfl⟩
    cases none
  · intro bound
    cases spoken : misuse? o with
    | none => rfl
    | some fault => exact absurd (misuse?_eq_some_iff.mp spoken).2 bound

theorem settle_of_bound {outcomes : List Outcome} (bound : ∀ o ∈ outcomes, ¬ o.Misused) :
    settle outcomes = .ok outcomes := by
  have silent : outcomes.findSome? misuse? = none := by
    rw [List.findSome?_eq_none_iff]
    intro o mem
    exact misuse?_eq_none_iff.mpr (bound o mem)
  unfold settle
  rw [silent]

theorem settle_eq_error_iff {outcomes : List Outcome} {fault : Fault} :
    settle outcomes = .error fault ↔
      ∃ i : Nat, outcomes[i]? = some (.error fault) ∧ Misused (.error fault) ∧
        ∀ (j : Nat) (o : Outcome), j < i → outcomes[j]? = some o → ¬ o.Misused := by
  have spoken : settle outcomes = .error fault ↔ outcomes.findSome? misuse? = some fault := by
    unfold settle
    cases outcomes.findSome? misuse? <;> simp
  rw [spoken, List.findSome?_eq_some_iff]
  constructor
  · rintro ⟨before, o, after, rfl, misuse, silent⟩
    obtain ⟨rfl, misused⟩ := misuse?_eq_some_iff.mp misuse
    refine ⟨before.length, by simp, misused, ?_⟩
    intro j o less held
    rw [List.getElem?_append_left less] at held
    exact misuse?_eq_none_iff.mp (silent o (List.mem_of_getElem? held))
  · rintro ⟨i, held, misused, earlier⟩
    obtain ⟨inside, same⟩ := List.getElem?_eq_some_iff.mp held
    refine ⟨outcomes.take i, .error fault, outcomes.drop (i + 1), ?_,
      misuse?_eq_some_iff.mpr ⟨rfl, misused⟩, ?_⟩
    · rw [← same, List.getElem_cons_drop, List.take_append_drop]
    · intro o mem
      obtain ⟨j, less, eq⟩ := List.mem_take_iff_getElem.mp mem
      exact misuse?_eq_none_iff.mpr
        (earlier j o (by omega) (List.getElem?_eq_some_iff.mpr ⟨by omega, eq⟩))

end Outcome

def Program.Bound (p : Program) : Prop :=
  ∀ op ∈ p, ∀ t ∈ op.arguments, Token.placeholder? t = none

theorem Program.bound_bind {numerals : List Token} (plain : Binding.AllPlain numerals)
    (p : Program) : (p.bind numerals).Bound := by
  intro op mem t argument
  simp only [bind, mapArguments, List.mem_map] at mem
  obtain ⟨unbound, _, rfl⟩ := mem
  obtain ⟨u, _, rfl⟩ := List.mem_map.mp argument
  exact Binding.placeholder?_bind plain u

theorem Program.run_bound {p : Program} (bound : p.Bound) : ¬ Outcome.Misused p.run := by
  rintro ⟨step, token, misused⟩
  obtain ⟨op, member, left, number, cause, stopped, same⟩ := runFrom_error misused
  obtain ⟨_, rfl⟩ := Fault.step.inj same
  rcases Operation.value_error stopped with
    ⟨_, other⟩ | ⟨_, _, _, other⟩ | ⟨t, argument, unresolved⟩ | ⟨_, other⟩
  · cases other
  · cases other
  · rcases Memory.valueOf_error unresolved with
      ⟨placeholder, _⟩ | other | other | other | ⟨i, other, _⟩
    · rw [bound op member t argument] at placeholder
      cases placeholder
    · cases other
    · cases other
    · cases other
    · cases other
  · cases other

theorem Problem.solve_bound (p : Problem) (form : Form) (c : Catalog)
    (allowed : Option ArgumentSet) : ¬ (p.solve form c allowed).Misused := by
  unfold solve
  cases form.read c allowed p.program with
  | error fault =>
    rintro ⟨step, token, misused⟩
    cases misused
  | ok program => exact Program.run_bound (Program.bound_bind (Binding.numerals_plain p.text) program)

/-- A batch of problems has the outcome of each problem alone, in their order. A batch of programs
    has theirs unless one was misused, and then the fault of the first that was. -/
theorem batches_keep_every_outcome :
    (∀ (problems : List Problem) (form : Form) (c : Catalog) (allowed : Option ArgumentSet),
      solveBatch problems form c allowed = .ok (problems.map fun p => p.solve form c allowed)) ∧
    (∀ (p : Problem) (form : Form) (c : Catalog) (allowed : Option ArgumentSet),
      ¬ (p.solve form c allowed).Misused) ∧
    ∀ programs : List Program,
      (∀ fault, runBatch programs = .error fault ↔
        ∃ (i : Nat) (p : Program), programs[i]? = some p ∧ p.run = .error fault ∧
          Outcome.Misused p.run ∧
          ∀ (j : Nat) (q : Program), j < i → programs[j]? = some q → ¬ Outcome.Misused q.run) ∧
      ((∀ p ∈ programs, ¬ Outcome.Misused p.run) →
        runBatch programs = .ok (programs.map Program.run)) := by
  refine ⟨?_, Problem.solve_bound, ?_⟩
  · intro problems form c allowed
    refine Outcome.settle_of_bound ?_
    intro o mem
    obtain ⟨p, _, rfl⟩ := List.mem_map.mp mem
    exact p.solve_bound form c allowed
  · intro programs
    constructor
    · intro fault
      rw [runBatch, Outcome.settle_eq_error_iff]
      constructor
      · rintro ⟨i, held, misused, earlier⟩
        rw [List.getElem?_map] at held
        obtain ⟨p, found, run⟩ := Option.map_eq_some_iff.mp held
        refine ⟨i, p, found, run, by rwa [run], ?_⟩
        intro j q less other
        exact earlier j q.run less (by rw [List.getElem?_map, other, Option.map_some])
      · rintro ⟨i, p, found, run, misused, earlier⟩
        refine ⟨i, by rw [List.getElem?_map, found, Option.map_some, run], by rwa [← run], ?_⟩
        intro j o less held
        rw [List.getElem?_map] at held
        obtain ⟨q, other, rfl⟩ := Option.map_eq_some_iff.mp held
        exact earlier j q less other
    · intro bound
      refine Outcome.settle_of_bound ?_
      intro o mem
      obtain ⟨p, member, rfl⟩ := List.mem_map.mp mem
      exact bound p member

end WordProblem
