import WordProblem.Catalog
import WordProblem.Fault
import WordProblem.Program

/-!
The linear form: every operator is followed by exactly as many arguments as it takes, and no
argument is an operator. A listing is checked from the left, and the first fault is reported; an
accepted listing is cut into its operations, each as long as its operator tells.
-/
namespace WordProblem

/-- Without a set every token that is no operator may be an argument. -/
def admitted (allowed : Option ArgumentSet) (t : Token) : Bool :=
  match allowed with
  | none => true
  | some set => set.admits t

theorem admitted_iff {allowed : Option ArgumentSet} {t : Token} :
    admitted allowed t = true ↔ ∀ set ∈ allowed, t ∈ set.members := by
  cases allowed with
  | none => simp [admitted]
  | some set => simp [admitted, ArgumentSet.admits_iff]

/-- The operator takes exactly these arguments, and none of them is an operator or left out of
    the set. -/
def Operation.Fits (c : Catalog) (allowed : Option ArgumentSet) (op : Operation) : Prop :=
  c.arity? op.operator = some op.arguments.length ∧
    ∀ t ∈ op.arguments, c.arity? t = none ∧ admitted allowed t = true

instance (c : Catalog) (allowed : Option ArgumentSet) (op : Operation) :
    Decidable (op.Fits c allowed) :=
  inferInstanceAs (Decidable (_ ∧ ∀ t ∈ op.arguments, _))

/-- What ends the cutting of a listing: a token that is no operator where an operation should
    begin, or arguments that lie past the end of the listing. -/
inductive CutFault where
  | expectedOperator (token : Token) (position : Nat)
  | outOfRange (stop length : Nat)
  deriving DecidableEq, Repr

namespace Program

/-- The check from `position` on, where `operator` still lacks some arguments. -/
def checkFrom (c : Catalog) (allowed : Option ArgumentSet) (operator : Token)
    (lacking position : Nat) : List Token → Except ReadingFault Unit
  | [] => if lacking = 0 then .ok () else .error (.missingArguments operator lacking position)
  | t :: rest =>
    match c.arity? t with
    | some arity =>
      if lacking = 0 then checkFrom c allowed t arity (position + 1) rest
      else .error (.missingArguments operator lacking position)
    | none =>
      if lacking = 0 then .error (.unexpectedArgument t position)
      else if admitted allowed t then checkFrom c allowed operator (lacking - 1) (position + 1) rest
      else .error (.invalidArgument t position)

def check (c : Catalog) (allowed : Option ArgumentSet) : List Token → Except ReadingFault Unit
  | [] => .ok ()
  | t :: rest =>
    match c.arity? t with
    | some arity => checkFrom c allowed t arity 1 rest
    | none => .error (.expectedOperator t 0)

/-- The operations from `position` on. Each takes the tokens behind its operator, as many as the
    operator has arguments, whatever they are, and the next one begins after them. -/
def cutFrom (c : Catalog) (position : Nat) : List Token → Except CutFault Program
  | [] => .ok []
  | t :: rest =>
    match c.arity? t with
    | none => .error (.expectedOperator t position)
    | some arity =>
      if arity ≤ rest.length then
        match cutFrom c (position + arity + 1) (rest.drop arity) with
        | .error fault => .error fault
        | .ok operations => .ok (⟨t, rest.take arity⟩ :: operations)
      else .error (.outOfRange (position + 1 + arity) (position + 1 + rest.length))
termination_by tokens => tokens.length
decreasing_by
  simp only [List.length_drop, List.length_cons]
  omega

structure Groups (c : Catalog) (allowed : Option ArgumentSet) (p : Program)
    (tokens : List Token) : Prop where
  fit : ∀ op ∈ p, op.Fits c allowed
  listing : p.tokens = tokens

section
variable {c : Catalog} {allowed : Option ArgumentSet}

theorem checkFrom_arguments {arguments : List Token}
    (fit : ∀ t ∈ arguments, c.arity? t = none ∧ admitted allowed t = true) (operator : Token)
    (lacking position : Nat) (rest : List Token) :
    checkFrom c allowed operator (arguments.length + lacking) position (arguments ++ rest) =
      checkFrom c allowed operator lacking (position + arguments.length) rest := by
  induction arguments generalizing position with
  | nil => simp
  | cons t more ih =>
    obtain ⟨argument, admits⟩ := fit t (by simp)
    have next := ih (fun u mem => fit u (List.mem_cons_of_mem t mem)) (position + 1)
    have counted : more.length + 1 + lacking - 1 = more.length + lacking := by omega
    have more_lacking : more.length + 1 + lacking ≠ 0 := by omega
    simp only [List.cons_append, checkFrom, argument, admits, List.length_cons, ↓reduceIte,
      more_lacking, counted, next]
    rw [Nat.add_assoc, Nat.add_comm 1]

theorem checkFrom_all_arguments {arguments : List Token}
    (fit : ∀ t ∈ arguments, c.arity? t = none ∧ admitted allowed t = true) (operator : Token)
    (position : Nat) (rest : List Token) :
    checkFrom c allowed operator arguments.length position (arguments ++ rest) =
      checkFrom c allowed operator 0 (position + arguments.length) rest :=
  checkFrom_arguments fit operator 0 position rest

theorem checkFrom_tokens {p : Program} (fit : ∀ op ∈ p, op.Fits c allowed) (operator : Token)
    (position : Nat) : checkFrom c allowed operator 0 position p.tokens = .ok () := by
  induction p generalizing operator position with
  | nil => rfl
  | cons op rest ih =>
    obtain ⟨arity, arguments⟩ := fit op (by simp)
    simp only [tokens_cons, checkFrom, arity, ↓reduceIte, checkFrom_all_arguments arguments]
    exact ih (fun other mem => fit other (List.mem_cons_of_mem op mem)) _ _

theorem groups_of_checkFrom {operator : Token} {lacking position : Nat} {tokens : List Token}
    (accepted : checkFrom c allowed operator lacking position tokens = .ok ()) :
    ∃ (arguments rest : List Token) (p : Program), tokens = arguments ++ rest ∧
      arguments.length = lacking ∧
      (∀ t ∈ arguments, c.arity? t = none ∧ admitted allowed t = true) ∧
      p.Groups c allowed rest := by
  induction tokens generalizing operator lacking position with
  | nil =>
    rw [checkFrom] at accepted
    split at accepted
    · rename_i complete
      exact ⟨[], [], [], rfl, complete.symm, by simp, by simp, rfl⟩
    · cases accepted
  | cons t rest ih =>
    rw [checkFrom] at accepted
    cases known : c.arity? t with
    | some arity =>
      simp only [known] at accepted
      split at accepted
      · rename_i complete
        -- the operator opens the next operation
        obtain ⟨arguments, left, p, rfl, count, fit, groups⟩ := ih accepted
        refine ⟨[], t :: (arguments ++ left), ⟨t, arguments⟩ :: p, rfl, complete.symm, by simp, ?_, ?_⟩
        · exact List.forall_mem_cons.mpr ⟨⟨by rw [known, count], fit⟩, groups.fit⟩
        · rw [tokens_cons, groups.listing]
      · cases accepted
    | none =>
      simp only [known] at accepted
      split at accepted
      · cases accepted
      · rename_i incomplete
        split at accepted
        · rename_i admits
          obtain ⟨arguments, left, p, rfl, count, fit, groups⟩ := ih accepted
          refine ⟨t :: arguments, left, p, rfl, ?_, ?_, groups⟩
          · rw [List.length_cons, count]
            omega
          · exact List.forall_mem_cons.mpr ⟨⟨known, admits⟩, fit⟩
        · cases accepted

theorem check_eq_ok_iff {tokens : List Token} :
    check c allowed tokens = .ok () ↔ ∃ p : Program, p.Groups c allowed tokens := by
  constructor
  · intro accepted
    cases tokens with
    | nil => exact ⟨[], by simp, rfl⟩
    | cons t rest =>
      rw [check] at accepted
      cases known : c.arity? t with
      | none => simp [known] at accepted
      | some arity =>
        simp only [known] at accepted
        obtain ⟨arguments, left, p, rfl, count, fit, groups⟩ := groups_of_checkFrom accepted
        refine ⟨⟨t, arguments⟩ :: p, ?_, ?_⟩
        · exact List.forall_mem_cons.mpr ⟨⟨by rw [known, count], fit⟩, groups.fit⟩
        · rw [tokens_cons, groups.listing]
  · rintro ⟨p, fit, rfl⟩
    cases p with
    | nil => rfl
    | cons op rest =>
      obtain ⟨arity, arguments⟩ := fit op (by simp)
      simp only [tokens_cons, check, arity, checkFrom_all_arguments arguments]
      exact checkFrom_tokens (fun other mem => fit other (List.mem_cons_of_mem op mem)) _ _

theorem cutFrom_tokens {p : Program}
    (arities : ∀ op ∈ p, c.arity? op.operator = some op.arguments.length) (position : Nat) :
    cutFrom c position p.tokens = .ok p := by
  induction p generalizing position with
  | nil => simp [tokens, cutFrom]
  | cons op rest ih =>
    have arity := arities op (by simp)
    have inside : op.arguments.length ≤ (op.arguments ++ tokens rest).length := by simp
    have next := ih fun other mem => arities other (List.mem_cons_of_mem op mem)
    rw [tokens_cons, cutFrom]
    simp only [arity, inside, ↓reduceIte, List.drop_left, List.take_left, next]

theorem Groups.cutFrom {p : Program} {tokens : List Token} (groups : p.Groups c allowed tokens)
    (position : Nat) : cutFrom c position tokens = .ok p := by
  rw [← groups.listing]
  exact cutFrom_tokens (fun op mem => (groups.fit op mem).1) position

theorem cutFrom_ne_error {tokens : List Token} (accepted : check c allowed tokens = .ok ())
    (position : Nat) (fault : CutFault) : cutFrom c position tokens ≠ .error fault := by
  obtain ⟨p, groups⟩ := check_eq_ok_iff.mp accepted
  rw [groups.cutFrom position]
  simp

end

def ofTokens (c : Catalog) (tokens : List Token) : Except ReadingFault Program :=
  match accepted : check c none tokens with
  | .error fault => .error fault
  | .ok () =>
    match cut : cutFrom c 0 tokens with
    | .ok p => .ok p
    | .error fault => absurd cut (cutFrom_ne_error accepted 0 fault)

def ofSource (c : Catalog) (source : String) : Except ReadingFault Program :=
  ofTokens c (Token.ofSource source)

theorem ofTokens_of_check_error {c : Catalog} {tokens : List Token} {fault : ReadingFault}
    (refused : check c none tokens = .error fault) : ofTokens c tokens = .error fault := by
  unfold ofTokens
  split
  · rename_i other same
    rw [refused] at same
    cases same
    rfl
  · rename_i accepted
    rw [refused] at accepted
    cases accepted

theorem Groups.ofTokens {c : Catalog} {tokens : List Token} {p : Program}
    (groups : p.Groups c none tokens) : ofTokens c tokens = .ok p := by
  unfold Program.ofTokens
  split
  · rename_i fault refused
    rw [check_eq_ok_iff.mpr ⟨p, groups⟩] at refused
    cases refused
  · split
    · rename_i q cut
      rw [groups.cutFrom 0] at cut
      cases cut
      rfl
    · rename_i fault cut
      rw [groups.cutFrom 0] at cut
      cases cut

theorem ofTokens_eq_ok_iff {c : Catalog} {tokens : List Token} {p : Program} :
    ofTokens c tokens = .ok p ↔ p.Groups c none tokens := by
  constructor
  · intro grouped
    cases checked : check c none tokens with
    | error fault =>
      rw [ofTokens_of_check_error checked] at grouped
      cases grouped
    | ok _ =>
      obtain ⟨q, groups⟩ := check_eq_ok_iff.mp checked
      rw [groups.ofTokens] at grouped
      cases grouped
      exact groups
  · exact Groups.ofTokens

end Program

end WordProblem
