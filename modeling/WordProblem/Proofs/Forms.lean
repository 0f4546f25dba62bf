import WordProblem.Proofs.Evaluation
import WordProblem.Proofs.Lines
import WordProblem.Proofs.Listing

namespace WordProblem

theorem ArgumentSet.admits_of_subset {S T : ArgumentSet} (within : S.members ⊆ T.members)
    {t : Token} (admitted : S.admits t = true) : T.admits t = true := by
  rw [ArgumentSet.admits_iff] at admitted ⊢
  exact within admitted

/-- A set that is read from a text has a token for each of its lines that is not blank. -/
theorem ArgumentSet.admits_ofSource_iff {source : String} {t : Token} :
    (ofSource source).admits t = true ↔
      ∃ line ∈ Text.filled (Text.lines source.toList), Text.trim line = t.toList := by
  rw [ofSource, admits_ofList_iff, Text.entries_eq, List.map_map, List.mem_map]
  simp only [Function.comp_apply, String.ext_iff, String.toList_ofList]

namespace Expression

def flat (op : Operation) : Expression := .call op.operator (op.arguments.map .leaf)

theorem listings_leaves (ts : List Token) : listings (ts.map .leaf) = ts := by
  induction ts with
  | nil => rfl
  | cons t rest ih => simp [listings, listing, ih]

theorem operands_leaves (start : Nat) (ts : List Token) : operands start (ts.map .leaf) = ts := by
  induction ts with
  | nil => rfl
  | cons t rest ih => simp [operands, operand, calls, ih]

theorem allOperations_leaves (start : Nat) (ts : List Token) :
    allOperations start (ts.map .leaf) = [] := by
  induction ts with
  | nil => rfl
  | cons t rest ih => simp [allOperations, operations, calls, ih]

theorem listing_flat (op : Operation) : listing (flat op) = op.tokens := by
  rw [flat, listing, listings_leaves, Operation.tokens]

theorem operations_flat (start : Nat) (op : Operation) : operations start (flat op) = [op] := by
  rw [flat, operations, operands_leaves, allOperations_leaves, List.nil_append]

theorem fits_flat {c : Catalog} {allowed : Option ArgumentSet} {op : Operation}
    (fits : op.Fits c allowed) : Fits c (admitted allowed) (flat op) := by
  obtain ⟨arity, arguments⟩ := fits
  refine ⟨by rw [List.length_map, arity], allFit_iff.mpr ?_⟩
  intro e mem
  obtain ⟨t, argument, rfl⟩ := List.mem_map.mp mem
  exact arguments t argument

end Expression

namespace Program

theorem eq_nil_of_tokens {p : Program} (empty : p.tokens = []) : p = [] := by
  cases p with
  | nil => rfl
  | cons op rest => simp [tokens_cons] at empty

theorem eq_flat_of_groups {c : Catalog} {allowed other : Option ArgumentSet} {tokens : List Token}
    {e : Expression} (listed : e.ListedBy c allowed tokens) {q : Program}
    (groups : q.Groups c other tokens) : ∃ op, e = .flat op ∧ q = [op] := by
  obtain ⟨call, fits, listing⟩ := listed
  cases q with
  | nil =>
    have empty : e.listing = [] := listing.trans groups.listing.symm
    cases e with
    | leaf t => exact call.elim
    | call operator arguments => simp [Expression.listing] at empty
  | cons op rest =>
    -- the first operation is a call by itself, so no other call begins in the same way
    have same : e.listing ++ [] = (Expression.flat op).listing ++ Program.tokens rest := by
      rw [List.append_nil, listing, ← groups.listing, Expression.listing_flat]
      rfl
    obtain ⟨rfl, nothing⟩ := Expression.listing_unique e (.flat op) fits
      (Expression.fits_flat (groups.fit op (by simp))) same
    exact ⟨op, rfl, by rw [eq_nil_of_tokens nothing.symm]⟩

theorem ofNested_agrees {c : Catalog} (positive : c.Positive) {allowed other : Option ArgumentSet}
    {tokens : List Token} {p q : Program} (nested : ofNested c allowed tokens = .ok p)
    (groups : q.Groups c other tokens) : p = q ∧ p.length ≤ 1 := by
  rcases ofNested_eq_ok positive nested with ⟨rfl, rfl⟩ | ⟨e, listed, rfl⟩
  · rw [eq_nil_of_tokens groups.listing]
    exact ⟨rfl, Nat.zero_le _⟩
  · obtain ⟨op, rfl, rfl⟩ := eq_flat_of_groups listed groups
    rw [Expression.operations_flat]
    exact ⟨rfl, Nat.le_refl _⟩

theorem Groups.wider {c : Catalog} {allowed other : Option ArgumentSet}
    (wider : ∀ t, admitted allowed t = true → admitted other t = true) {p : Program}
    {tokens : List Token} (groups : p.Groups c allowed tokens) : p.Groups c other tokens where
  fit op mem := by
    obtain ⟨arity, arguments⟩ := groups.fit op mem
    refine ⟨arity, ?_⟩
    intro t argument
    exact ⟨(arguments t argument).1, wider t (arguments t argument).2⟩
  listing := groups.listing

theorem Groups.unrestricted {c : Catalog} {allowed : Option ArgumentSet} {p : Program}
    {tokens : List Token} (groups : p.Groups c allowed tokens) : p.Groups c none tokens :=
  groups.wider fun _ _ => rfl

end Program

namespace Assembly
variable {c : Catalog} {allowed other : Option ArgumentSet}

/-- What is admitted decides whether a token is taken, but not what the stacks become. -/
theorem take_wider (wider : ∀ t, admits allowed t = true → admits other t = true)
    {position : Nat} {a b : Assembly} {t : Token} (taken : take c allowed position a t = .ok b) :
    take c other position a t = .ok b := by
  unfold take at taken ⊢
  cases known : c.arity? t with
  | some arity => simpa only [known] using taken
  | none =>
    simp only [known] at taken ⊢
    by_cases admitted : admits allowed t = true
    · simp only [admitted] at taken
      simpa only [wider t admitted] using taken
    · simp [admitted] at taken

theorem takeAll_wider (wider : ∀ t, admits allowed t = true → admits other t = true)
    {position : Nat} {a b : Assembly} {tokens : List Token}
    (taken : takeAll c allowed position a tokens = .ok b) :
    takeAll c other position a tokens = .ok b := by
  induction tokens generalizing position a with
  | nil => exact taken
  | cons t rest ih =>
    rw [takeAll] at taken ⊢
    cases next : take c allowed position a t with
    | error fault => simp [next] at taken
    | ok middle =>
      rw [next] at taken
      rw [take_wider wider next]
      exact ih taken

end Assembly

theorem Program.ofNested_wider {c : Catalog} {allowed other : Option ArgumentSet}
    (wider : ∀ t, Assembly.admits allowed t = true → Assembly.admits other t = true)
    {tokens : List Token} {p : Program} (read : ofNested c allowed tokens = .ok p) :
    ofNested c other tokens = .ok p := by
  unfold ofNested at read ⊢
  cases taken : Assembly.takeAll c allowed 0 .empty tokens with
  | error fault => simp [taken] at read
  | ok a =>
    rw [taken] at read
    rw [Assembly.takeAll_wider wider taken]
    exact read

namespace Form
variable {c : Catalog} {allowed : Option ArgumentSet} {source : String} {p : Program}

theorem read_nested_eq_ok_iff :
    Form.nested.read c allowed source = .ok p ↔ Program.ofNestedSource c allowed source = .ok p := by
  constructor
  · intro read
    rw [Form.read] at read
    cases built : Program.ofNestedSource c allowed source with
    | error fault =>
      rw [built] at read
      cases read
    | ok q =>
      rw [built] at read
      cases read
      rfl
  · exact read_nested_of_ok

/-- A listing that passes the check against the set is grouped, so the second check, without a set,
    never refuses anything. -/
theorem read_linear_of_check (accepted : Program.check c allowed (Token.ofSource source) = .ok ()) :
    ∃ q : Program, q.Groups c allowed (Token.ofSource source) ∧
      Form.linear.read c allowed source = .ok q := by
  obtain ⟨q, groups⟩ := Program.check_eq_ok_iff.mp accepted
  refine ⟨q, groups, ?_⟩
  rw [Form.read, accepted]
  exact groups.unrestricted.ofTokens

theorem read_linear_of_check_error {fault : ReadingFault}
    (refused : Program.check c allowed (Token.ofSource source) = .error fault) :
    Form.linear.read c allowed source = .error fault := by
  rw [Form.read, refused]

theorem read_linear_eq_error_iff {fault : ReadingFault} :
    Form.linear.read c allowed source = .error fault ↔
      Program.check c allowed (Token.ofSource source) = .error fault := by
  refine ⟨?_, read_linear_of_check_error⟩
  intro refused
  cases checked : Program.check c allowed (Token.ofSource source) with
  | error first =>
    rw [read_linear_of_check_error checked] at refused
    cases refused
    rfl
  | ok _ =>
    obtain ⟨q, _, read⟩ := read_linear_of_check checked
    rw [read] at refused
    cases refused

theorem read_linear_eq_ok_iff :
    Form.linear.read c allowed source = .ok p ↔ p.Groups c allowed (Token.ofSource source) := by
  constructor
  · intro read
    cases checked : Program.check c allowed (Token.ofSource source) with
    | error fault =>
      rw [read_linear_of_check_error checked] at read
      cases read
    | ok _ =>
      obtain ⟨q, groups, again⟩ := read_linear_of_check checked
      rw [again] at read
      cases read
      exact groups
  · intro groups
    obtain ⟨q, same, read⟩ := read_linear_of_check (Program.check_eq_ok_iff.mpr ⟨p, groups⟩)
    rw [read, Program.groups_unique same groups]

theorem read_of_subset {S T : ArgumentSet} (within : S.members ⊆ T.members) (form : Form)
    (read : form.read c (some S) source = .ok p) : form.read c (some T) source = .ok p := by
  cases form with
  | nested =>
    rw [read_nested_eq_ok_iff] at read ⊢
    have wider : ∀ t, Assembly.admits (some S) t = true → Assembly.admits (some T) t = true :=
      fun _ => ArgumentSet.admits_of_subset within
    exact Program.ofNested_wider wider read
  | linear =>
    rw [read_linear_eq_ok_iff] at read ⊢
    have wider : ∀ t, admitted (some S) t = true → admitted (some T) t = true := by
      simp only [admitted_iff, Option.mem_some_iff, forall_eq']
      intro t mem
      exact within mem
    exact read.wider wider

end Form

theorem Problem.solve_eq_of_read {form other : Form} {c : Catalog}
    {allowed under : Option ArgumentSet} {source : String} {p : Program}
    (read : form.read c allowed source = .ok p) (again : other.read c under source = .ok p)
    (text : String) :
    Problem.solve ⟨source, text⟩ form c allowed = Problem.solve ⟨source, text⟩ other c under := by
  simp only [Problem.solve, read, again]

/-- Where the nested and the linear form both accept a text, they read the same program, of at most
    one operation; so the text has one outcome. -/
theorem Program.forms_agree {c : Catalog} (positive : c.Positive) {source : String}
    {p q : Program} (nested : ofNestedSource c none source = .ok p)
    (linear : ofSource c source = .ok q) :
    p = q ∧ p.length ≤ 1 ∧
      ∀ text : String, Problem.solve ⟨source, text⟩ .nested c none =
        Problem.solve ⟨source, text⟩ .linear c none := by
  have groups := ofTokens_eq_ok_iff.mp linear
  obtain ⟨rfl, short⟩ := ofNested_agrees positive nested groups
  refine ⟨rfl, short, ?_⟩
  exact Problem.solve_eq_of_read (Form.read_nested_eq_ok_iff.mpr nested)
    (Form.read_linear_eq_ok_iff.mpr groups)

theorem Program.forms_agree_on_one_call :
    Catalog.builtin.Positive ∧ ofNestedSource .builtin none "subtract(n1,n0)|" =
        .ok [⟨"subtract", ["n1", "n0"]⟩] ∧
      ofSource .builtin "subtract(n1,n0)|" = .ok [⟨"subtract", ["n1", "n0"]⟩] ∧
      Problem.solve ⟨"subtract(n1,n0)|", "from 3 to 5"⟩ .nested .builtin none =
        Problem.solve ⟨"subtract(n1,n0)|", "from 3 to 5"⟩ .linear .builtin none := by
  have nested : ofNestedSource .builtin none "subtract(n1,n0)|" =
      .ok [⟨"subtract", ["n1", "n0"]⟩] := by
    decide +kernel
  have linear : ofSource .builtin "subtract(n1,n0)|" = .ok [⟨"subtract", ["n1", "n0"]⟩] :=
    ofTokens_eq_ok_iff.mpr ⟨by decide +kernel, by decide +kernel⟩
  exact ⟨Catalog.builtin_positive, nested, linear,
    (forms_agree Catalog.builtin_positive nested linear).2.2 "from 3 to 5"⟩

/-- A set of arguments can refuse a text, and no more than that. What is accepted under one set is
    read as the same program under every larger one, and solved alike. In the linear form this holds
    without a set too, since a listing that passes the check under a set also passes the check
    without one that comes before the grouping. -/
theorem Program.larger_set_reads_alike (c : Catalog) {S T : ArgumentSet}
    (within : S.members ⊆ T.members) (source : String) :
    (∀ (form : Form) (p : Program), form.read c (some S) source = .ok p →
        form.read c (some T) source = .ok p ∧
          ∀ text : String, Problem.solve ⟨source, text⟩ form c (some T) =
            Problem.solve ⟨source, text⟩ form c (some S)) ∧
      (∀ p : Program, Form.linear.read c (some S) source = .ok p →
        Form.linear.read c none source = .ok p ∧
          ∀ text : String, Problem.solve ⟨source, text⟩ .linear c none =
            Problem.solve ⟨source, text⟩ .linear c (some S)) ∧
      ∀ tokens, check c (some S) tokens = .ok () →
        check c none tokens = .ok () ∧ ∃ p, ofTokens c tokens = .ok p := by
  refine ⟨?_, ?_, ?_⟩
  · intro form p read
    have again := Form.read_of_subset within form read
    exact ⟨again, Problem.solve_eq_of_read again read⟩
  · intro p read
    have groups := Form.read_linear_eq_ok_iff.mp read
    have again := Form.read_linear_eq_ok_iff.mpr groups.unrestricted
    exact ⟨again, Problem.solve_eq_of_read again read⟩
  · intro tokens accepted
    obtain ⟨p, groups⟩ := check_eq_ok_iff.mp accepted
    exact ⟨check_eq_ok_iff.mpr ⟨p, groups.unrestricted⟩, p, groups.unrestricted.ofTokens⟩

theorem Program.larger_set_with_odd_members :
    ["sqrt", "#0", "n0"] ⊆ ["n0", "#0", "const_pi", "sqrt"] ∧
      Form.linear.read .builtin (some ⟨["sqrt", "#0", "n0"]⟩) "sqrt(n0)|add(#0,n0)" =
        .ok [⟨"sqrt", ["n0"]⟩, ⟨"add", ["#0", "n0"]⟩] ∧
      Form.linear.read .builtin (some ⟨["n0", "#0", "const_pi", "sqrt"]⟩) "sqrt(n0)|add(#0,n0)" =
        .ok [⟨"sqrt", ["n0"]⟩, ⟨"add", ["#0", "n0"]⟩] ∧
      Form.linear.read .builtin none "sqrt(n0)|add(#0,n0)" =
        .ok [⟨"sqrt", ["n0"]⟩, ⟨"add", ["#0", "n0"]⟩] := by
  have within : (ArgumentSet.mk ["sqrt", "#0", "n0"]).members ⊆
      (ArgumentSet.mk ["n0", "#0", "const_pi", "sqrt"]).members := by
    decide
  have read : Form.linear.read .builtin (some ⟨["sqrt", "#0", "n0"]⟩) "sqrt(n0)|add(#0,n0)" =
      .ok [⟨"sqrt", ["n0"]⟩, ⟨"add", ["#0", "n0"]⟩] :=
    Form.read_linear_eq_ok_iff.mpr ⟨by decide +kernel, by decide +kernel⟩
  obtain ⟨larger, unrestricted, _⟩ :=
    larger_set_reads_alike .builtin within "sqrt(n0)|add(#0,n0)"
  exact ⟨within, read, (larger .linear _ read).1, (unrestricted _ read).1⟩

end WordProblem
