import WordProblem.Program.Grouping

/-!
The check of a listing as a run over its tokens. As long as it runs, what has been read is some
complete operations and one operator with the first of its arguments, and the check keeps nothing
of it but the operator and the number of arguments that it lacks. Every fault but the one for the
first token comes from such a fragment and the token behind it.
-/
namespace WordProblem

namespace Program

section
variable {c : Catalog} {allowed : Option ArgumentSet}

theorem checkFrom_operations {p : Program} (fit : ∀ op ∈ p, op.Fits c allowed) {t : Token}
    {arity : Nat} (known : c.arity? t = some arity) (operator : Token) (position : Nat)
    (rest : List Token) :
    checkFrom c allowed operator 0 position (p.tokens ++ t :: rest) =
      checkFrom c allowed t arity (position + p.tokens.length + 1) rest := by
  induction p generalizing operator position with
  | nil => simp [tokens, checkFrom, known]
  | cons op more ih =>
    obtain ⟨takes, arguments⟩ := fit op (by simp)
    have next := ih fun other mem => fit other (List.mem_cons_of_mem op mem)
    rw [tokens_cons, List.cons_append, List.append_assoc, checkFrom]
    simp only [takes, ↓reduceIte, checkFrom_all_arguments arguments, next]
    congr 1
    simp only [List.length_cons, List.length_append]
    omega

theorem check_operations {p : Program} (fit : ∀ op ∈ p, op.Fits c allowed) {t : Token}
    {arity : Nat} (known : c.arity? t = some arity) (rest : List Token) :
    check c allowed (p.tokens ++ t :: rest) =
      checkFrom c allowed t arity (p.tokens.length + 1) rest := by
  -- a listing that begins with an operator is checked as if nothing were lacking before it
  have start : check c allowed (p.tokens ++ t :: rest) =
      checkFrom c allowed t 0 0 (p.tokens ++ t :: rest) := by
    cases p with
    | nil => simp [tokens, check, checkFrom, known]
    | cons op more =>
      obtain ⟨takes, _⟩ := fit op (by simp)
      simp [tokens_cons, check, checkFrom, takes]
  rw [start, checkFrom_operations fit known, Nat.zero_add]

end

end Program

/-- Complete operations, and behind them an operator with the first of its arguments. -/
structure Fragment where
  complete : Program
  operator : Token
  arguments : List Token

namespace Fragment

def tokens (f : Fragment) : List Token := f.complete.tokens ++ f.operator :: f.arguments

def addArgument (f : Fragment) (t : Token) : Fragment := { f with arguments := f.arguments ++ [t] }

def addOperator (f : Fragment) (t : Token) : Fragment :=
  ⟨f.complete ++ [⟨f.operator, f.arguments⟩], t, []⟩

theorem tokens_addArgument (f : Fragment) (t : Token) :
    (f.addArgument t).tokens = f.tokens ++ [t] := by
  simp [tokens, addArgument]

theorem tokens_addOperator (f : Fragment) (t : Token) :
    (f.addOperator t).tokens = f.tokens ++ [t] := by
  simp [tokens, addOperator, Program.tokens, Operation.tokens]

theorem tokens_ne_nil (f : Fragment) : f.tokens ≠ [] := by
  simp [tokens]

theorem operator_mem_tokens (f : Fragment) : f.operator ∈ f.tokens := by
  simp [tokens]

structure Lacks (c : Catalog) (allowed : Option ArgumentSet) (f : Fragment) (lacking : Nat) :
    Prop where
  fit : ∀ op ∈ f.complete, op.Fits c allowed
  arguments : ∀ t ∈ f.arguments, c.arity? t = none ∧ admitted allowed t = true
  arity : c.arity? f.operator = some (f.arguments.length + lacking)

/-- How the check ends behind a fragment. With arguments lacking it ends at the end of the listing,
    at an operator or at a token that is not admitted, and with none lacking at any argument. -/
inductive Stops (c : Catalog) (allowed : Option ArgumentSet) (f : Fragment) (lacking : Nat) :
    List Token → ReadingFault → Prop
  | ended (incomplete : lacking ≠ 0) :
      Stops c allowed f lacking [] (.missingArguments f.operator lacking f.tokens.length)
  | interrupted (incomplete : lacking ≠ 0) (t : Token) (known : c.arity? t ≠ none)
      (rest : List Token) :
      Stops c allowed f lacking (t :: rest)
        (.missingArguments f.operator lacking f.tokens.length)
  | outside (incomplete : lacking ≠ 0) (t : Token) (argument : c.arity? t = none)
      (refused : admitted allowed t = false) (rest : List Token) :
      Stops c allowed f lacking (t :: rest) (.invalidArgument t f.tokens.length)
  | surplus (complete : lacking = 0) (t : Token) (argument : c.arity? t = none)
      (rest : List Token) :
      Stops c allowed f lacking (t :: rest) (.unexpectedArgument t f.tokens.length)

section
variable {c : Catalog} {allowed : Option ArgumentSet} {f : Fragment} {lacking : Nat}

theorem lacks_operator {t : Token} {arity : Nat} (known : c.arity? t = some arity) :
    Lacks c allowed ⟨[], t, []⟩ arity :=
  ⟨by simp, by simp, by simpa using known⟩

theorem Lacks.addArgument (lacks : f.Lacks c allowed (lacking + 1)) {t : Token}
    (argument : c.arity? t = none) (admits : admitted allowed t = true) :
    (f.addArgument t).Lacks c allowed lacking where
  fit := lacks.fit
  arguments u mem := by
    rcases List.mem_append.mp mem with old | new
    · exact lacks.arguments u old
    · rw [List.mem_singleton.mp new]
      exact ⟨argument, admits⟩
  arity := by
    rw [Fragment.addArgument, List.length_append, List.length_singleton, lacks.arity]
    congr 1
    omega

theorem Lacks.addOperator (lacks : f.Lacks c allowed 0) {t : Token} {arity : Nat}
    (known : c.arity? t = some arity) : (f.addOperator t).Lacks c allowed arity where
  fit op mem := by
    rcases List.mem_append.mp mem with old | new
    · exact lacks.fit op old
    · rw [List.mem_singleton.mp new]
      exact ⟨lacks.arity, lacks.arguments⟩
  arguments := by simp [Fragment.addOperator]
  arity := by simpa [Fragment.addOperator] using known

theorem Lacks.check (lacks : f.Lacks c allowed lacking) (more : List Token) :
    Program.check c allowed (f.tokens ++ more) =
      Program.checkFrom c allowed f.operator lacking f.tokens.length more := by
  rw [tokens, List.append_assoc, List.cons_append,
    Program.check_operations lacks.fit lacks.arity, Program.checkFrom_arguments lacks.arguments]
  congr 1
  simp only [List.length_append, List.length_cons]
  omega

theorem Lacks.stops (lacks : f.Lacks c allowed lacking) {more : List Token} {fault : ReadingFault}
    (failed : Program.checkFrom c allowed f.operator lacking f.tokens.length more =
      .error fault) :
    ∃ (g : Fragment) (still : Nat) (after : List Token), f.tokens ++ more = g.tokens ++ after ∧
      g.Lacks c allowed still ∧ g.Stops c allowed still after fault := by
  induction more generalizing f lacking with
  | nil =>
    rw [Program.checkFrom] at failed
    split at failed
    · cases failed
    · rename_i incomplete
      cases failed
      exact ⟨f, lacking, [], rfl, lacks, .ended incomplete⟩
  | cons t rest ih =>
    rw [Program.checkFrom] at failed
    cases known : c.arity? t with
    | some arity =>
      simp only [known] at failed
      split at failed
      · rename_i complete
        subst complete
        have next := lacks.addOperator known
        have here : (f.addOperator t).tokens.length = f.tokens.length + 1 := by
          simp [tokens_addOperator]
        rw [← here] at failed
        obtain ⟨g, still, after, split, reached, stops⟩ := ih next failed
        exact ⟨g, still, after, by simpa [tokens_addOperator] using split, reached, stops⟩
      · rename_i incomplete
        cases failed
        exact ⟨f, lacking, t :: rest, rfl, lacks, .interrupted incomplete t (by simp [known]) rest⟩
    | none =>
      simp only [known] at failed
      cases lacking with
      | zero =>
        cases failed
        exact ⟨f, 0, t :: rest, rfl, lacks, .surplus rfl t known rest⟩
      | succ fewer =>
        rw [if_neg (Nat.succ_ne_zero fewer)] at failed
        split at failed
        · rename_i admits
          have next := lacks.addArgument known admits
          have here : (f.addArgument t).tokens.length = f.tokens.length + 1 := by
            simp [tokens_addArgument]
          rw [Nat.add_one_sub_one, ← here] at failed
          obtain ⟨g, still, after, split, reached, stops⟩ := ih next failed
          exact ⟨g, still, after, by simpa [tokens_addArgument] using split, reached, stops⟩
        · rename_i refused
          cases failed
          exact ⟨f, fewer + 1, t :: rest, rfl, lacks,
            .outside (Nat.succ_ne_zero fewer) t known (by simpa using refused) rest⟩

end

end Fragment

theorem Program.check_error {c : Catalog} {allowed : Option ArgumentSet} {tokens : List Token}
    {fault : ReadingFault} (failed : check c allowed tokens = .error fault) :
    (∃ t rest, tokens = t :: rest ∧ c.arity? t = none ∧ fault = .expectedOperator t 0) ∨
      ∃ (f : Fragment) (lacking : Nat) (after : List Token), tokens = f.tokens ++ after ∧
        f.Lacks c allowed lacking ∧ f.Stops c allowed lacking after fault := by
  cases tokens with
  | nil => cases failed
  | cons t rest =>
    rw [check] at failed
    cases known : c.arity? t with
    | none =>
      rw [known] at failed
      cases failed
      exact .inl ⟨t, rest, rfl, known, rfl⟩
    | some arity =>
      rw [known] at failed
      exact .inr ((Fragment.lacks_operator known).stops failed)

end WordProblem
