import WordProblem.Proofs.Failure

/-!
Runs that are taken up again. References count from the first result in memory and not from the
operation at which a run began, so a program may be run in two parts: the second finds the results
of the first and goes on as if it had never stopped. Only the numbers of its steps tell the
difference.
-/
namespace WordProblem

def Fault.later (steps : Nat) : Fault → Fault
  | .reading fault => .reading fault
  | .step number cause => .step (number + steps) cause

namespace Program

theorem execute_later (delay step : Nat) (m : Memory) (p : Program) :
    execute (step + delay) m p =
      ((execute step m p).1, (execute step m p).2.map (Fault.later delay)) := by
  induction p generalizing step m with
  | nil => rfl
  | cons op rest ih =>
    have next := ih (step + 1)
    rw [Nat.add_right_comm] at next
    cases value : op.value m with
    | error cause => simp [execute, value, Fault.later]
    | ok x => simp [execute, value, next]

/-- Two programs that are run one after the other are one program. Where the first fails nothing
    of the second is run; otherwise the second runs from the memory that the first leaves, and
    its fault comes as many steps later as the first has operations. -/
theorem runFrom_append (m : Memory) (p q : Program) :
    runFrom m (p ++ q) =
      match runFrom m p with
      | (left, .error fault) => (left, .error fault)
      | (left, .ok answer) =>
        match runFrom left q with
        | (last, .error fault) => (last, .error (fault.later p.length))
        | (last, .ok other) => (last, .ok (if q = [] then answer else other)) := by
  have whole := execute_append 0 m p q
  rcases first : execute 0 m p with ⟨left, _ | fault⟩
  · simp only [first] at whole
    rw [execute_later p.length 0 left q] at whole
    rw [runFrom_of_end first]
    rcases second : execute 0 left q with ⟨last, _ | fault⟩
    · simp only [second, Option.map_none] at whole
      simp only [runFrom_of_end whole, runFrom_of_end second]
      by_cases empty : q = []
      · subst empty
        cases second
        simp
      · simp [empty]
    · simp only [second, Option.map_some] at whole
      simp only [runFrom_of_fault whole, runFrom_of_fault second]
  · simp only [first] at whole
    rw [runFrom_of_fault whole, runFrom_of_fault first]

example :
    runFrom .empty ([⟨"add", ["2", "3"]⟩] ++ [⟨"negate", ["#0"]⟩, ⟨"divide", ["#1", "0"]⟩]) =
        (⟨[5.0, -5.0]⟩, .error (.step 2 (.refused "divide" .divisionByZero))) ∧
      runFrom ⟨[5.0]⟩ [⟨"negate", ["#0"]⟩, ⟨"divide", ["#1", "0"]⟩] =
        (⟨[5.0, -5.0]⟩, .error (.step 1 (.refused "divide" .divisionByZero))) := by
  decide +kernel

end Program

end WordProblem
