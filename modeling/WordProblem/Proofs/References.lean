import Mathlib.Data.List.Perm.Basic
import WordProblem.Proofs.Listing
import WordProblem.Proofs.NestedForm

/-!
References in a linear listing. Each operation draws on leaves of the expression and on earlier
results; every result but the last is drawn on once, and the last one never. Where no operator is
named like a reference the operations fit, so the listing falls apart into them again.
-/
namespace WordProblem

def Catalog.NoReference (c : Catalog) : Prop :=
  ∀ name, c.contains name = true → Token.isReference name = false

theorem Catalog.builtin_noReference : builtin.NoReference := by
  have plain : ∀ f ∈ Formula.table, Token.isReference f.name = false := by decide +kernel
  intro name known
  obtain ⟨f, mem, rfl⟩ := formula_of_builtin known
  exact plain f mem

theorem Catalog.arity?_reference {c : Catalog} (apart : c.NoReference) (i : Nat) :
    c.arity? (Token.reference i) = none := by
  cases known : c.arity? (Token.reference i) with
  | none => rfl
  | some arity =>
    have named := apart (Token.reference i) (by rw [contains, known, Option.isSome_some])
    simp [Token.isReference, Token.reference] at named

namespace Token

theorem referent?_of_not_reference {t : Token} (own : t.isReference = false) :
    t.referent? = none := by
  unfold referent?
  split
  · rename_i index shape
    simp [isReference, shape] at own
  · rfl

def referents (ts : List Token) : List Nat := ts.filterMap referent?

theorem referents_append (ts us : List Token) :
    referents (ts ++ us) = referents ts ++ referents us :=
  List.filterMap_append

theorem referents_reference (i : Nat) : referents [reference i] = [i] := by
  simp [referents, referent?_reference]

end Token

namespace Program

def arguments (p : Program) : List Token := p.flatMap Operation.arguments

theorem arguments_append (p q : Program) : arguments (p ++ q) = arguments p ++ arguments q := by
  simp [arguments]

/-- The operations are numbered from `start`, and what an argument draws on is a token of its own
    or the result of an earlier operation. -/
def LooksBack (own : Token → Prop) (start : Nat) (p : Program) : Prop :=
  ∀ k op, p[k]? = some op →
    ∀ t ∈ op.arguments, own t ∨ ∃ i, i < start + k ∧ t = Token.reference i

variable {own : Token → Prop}

theorem looksBack_nil (start : Nat) : LooksBack own start [] := by
  intro k op found
  simp at found

theorem looksBack_singleton {start : Nat} {op : Operation}
    (arguments : ∀ t ∈ op.arguments, own t ∨ ∃ i, i < start ∧ t = Token.reference i) :
    LooksBack own start [op] := by
  intro k other found
  obtain ⟨rfl, rfl⟩ : k = 0 ∧ op = other := by
    cases k with
    | zero => simpa using found
    | succ k => simp at found
  exact arguments

theorem looksBack_append {start : Nat} {p q : Program} (first : LooksBack own start p)
    (second : LooksBack own (start + p.length) q) : LooksBack own start (p ++ q) := by
  intro k op found t mem
  by_cases inside : k < p.length
  · rw [List.getElem?_append_left inside] at found
    exact first k op found t mem
  · rw [List.getElem?_append_right (by omega)] at found
    rcases second (k - p.length) op found t mem with leaf | ⟨i, earlier, rfl⟩
    · exact .inl leaf
    · exact .inr ⟨i, by omega, rfl⟩

end Program

namespace Expression
open Program

section
variable {c : Catalog} {admits : Token → Bool}

mutual

theorem calls_eq_countP : (e : Expression) → Fits c admits e →
    calls e = (listing e).countP c.contains
  | .leaf t, fits => by simp [calls, listing, Catalog.contains, fits.1]
  | .call operator arguments, fits => by
    simp [calls, listing, Catalog.contains, fits.1, totalCalls_eq_countP arguments fits.2]

theorem totalCalls_eq_countP : (es : List Expression) → AllFit c admits es →
    totalCalls es = (listings es).countP c.contains
  | [], _ => rfl
  | e :: rest, fits => by
    rw [totalCalls, listings, List.countP_append, calls_eq_countP e fits.1,
      totalCalls_eq_countP rest fits.2]

end

mutual

theorem operations_operator : (e : Expression) → Fits c admits e → ∀ start,
    ∀ op ∈ operations start e,
      op.operator ∈ listing e ∧ c.arity? op.operator = some op.arguments.length
  | .leaf t, _, _, op, mem => by cases mem
  | .call operator arguments, fits, start, op, mem => by
    rw [operations, List.mem_append, List.mem_singleton] at mem
    rcases mem with inner | rfl
    · obtain ⟨listed, arity⟩ := allOperations_operator arguments fits.2 start op inner
      exact ⟨List.mem_cons_of_mem operator listed, arity⟩
    · exact ⟨List.mem_cons_self, by rw [fits.1, operands_length]⟩

theorem allOperations_operator : (es : List Expression) → AllFit c admits es → ∀ start,
    ∀ op ∈ allOperations start es,
      op.operator ∈ listings es ∧ c.arity? op.operator = some op.arguments.length
  | [], _, _, op, mem => by cases mem
  | e :: rest, fits, start, op, mem => by
    rw [allOperations, List.mem_append] at mem
    rcases mem with first | others
    · obtain ⟨listed, arity⟩ := operations_operator e fits.1 start op first
      exact ⟨List.mem_append_left _ listed, arity⟩
    · obtain ⟨listed, arity⟩ := allOperations_operator rest fits.2 _ op others
      exact ⟨List.mem_append_right _ listed, arity⟩

end

def LeafOf (c : Catalog) (admits : Token → Bool) (tokens : List Token) (t : Token) : Prop :=
  t ∈ tokens ∧ c.arity? t = none ∧ admits t = true

theorem operand_looksBack {tokens : List Token} {e : Expression} (fits : Fits c admits e)
    (inside : listing e ⊆ tokens) (start : Nat) :
    LeafOf c admits tokens (operand start e) ∨
      ∃ i, i < start + calls e ∧ operand start e = Token.reference i := by
  cases e with
  | leaf t => exact .inl ⟨inside (by simp [listing, operand]), fits⟩
  | call operator arguments =>
    refine .inr ⟨start + totalCalls arguments, ?_, rfl⟩
    rw [calls]
    omega

theorem operands_lookBack {tokens : List Token} {es : List Expression}
    (fits : AllFit c admits es) (inside : listings es ⊆ tokens) (start : Nat) :
    ∀ t ∈ operands start es, LeafOf c admits tokens t ∨
      ∃ i, i < start + totalCalls es ∧ t = Token.reference i := by
  induction es generalizing start with
  | nil => simp [operands]
  | cons e rest ih =>
    rw [listings, List.append_subset] at inside
    intro t mem
    rw [operands, List.mem_cons] at mem
    rw [totalCalls]
    rcases mem with rfl | later
    · rcases operand_looksBack fits.1 inside.1 start with leaf | ⟨i, earlier, same⟩
      · exact .inl leaf
      · exact .inr ⟨i, by omega, same⟩
    · rcases ih fits.2 inside.2 (start + calls e) t later with leaf | ⟨i, earlier, same⟩
      · exact .inl leaf
      · exact .inr ⟨i, by omega, same⟩

mutual

theorem operations_lookBack {tokens : List Token} : (e : Expression) → Fits c admits e →
    listing e ⊆ tokens → ∀ start, LooksBack (LeafOf c admits tokens) start (operations start e)
  | .leaf t, _, _, start => looksBack_nil start
  | .call operator arguments, fits, inside, start => by
    have tail := (List.cons_subset.mp inside).2
    refine looksBack_append (allOperations_lookBack arguments fits.2 tail start) ?_
    rw [allOperations_length]
    exact looksBack_singleton (operands_lookBack fits.2 tail start)

theorem allOperations_lookBack {tokens : List Token} : (es : List Expression) →
    AllFit c admits es → listings es ⊆ tokens →
      ∀ start, LooksBack (LeafOf c admits tokens) start (allOperations start es)
  | [], _, _, start => looksBack_nil start
  | e :: rest, fits, inside, start => by
    rw [listings, List.append_subset] at inside
    refine looksBack_append (operations_lookBack e fits.1 inside.1 start) ?_
    rw [operations_length]
    exact allOperations_lookBack rest fits.2 inside.2 (start + calls e)

end

mutual

/-- The operations of an expression and the token that stands for it refer to each of their own
    results once, and to no other. -/
theorem referents_operations (plain : ∀ t, admits t = true → t.isReference = false) :
    (e : Expression) → Fits c admits e → ∀ start,
      (Token.referents (operations start e).arguments ++
        Token.referents [operand start e]).Perm (List.range' start (calls e))
  | .leaf t, fits, start => by
    have own := Token.referent?_of_not_reference (plain t fits.2)
    simp [operations, Program.arguments, operand, Token.referents, own, calls]
  | .call operator arguments, fits, start => by
    have inner := referents_allOperations plain arguments fits.2 start
    have own : Program.arguments [⟨operator, operands start arguments⟩] =
        operands start arguments := by
      simp [Program.arguments]
    rw [operations, arguments_append, own, Token.referents_append, operand,
      Token.referents_reference, calls, List.range'_1_concat]
    exact inner.append_right _

theorem referents_allOperations (plain : ∀ t, admits t = true → t.isReference = false) :
    (es : List Expression) → AllFit c admits es → ∀ start,
      (Token.referents (allOperations start es).arguments ++
        Token.referents (operands start es)).Perm (List.range' start (totalCalls es))
  | [], _, start => .nil
  | e :: rest, fits, start => by
    have first := referents_operations plain e fits.1 start
    have others := referents_allOperations plain rest fits.2 (start + calls e)
    have split : Token.referents (operands start (e :: rest)) =
        Token.referents [operand start e] ++
          Token.referents (operands (start + calls e) rest) :=
      Token.referents_append [operand start e] _
    rw [allOperations, arguments_append, Token.referents_append, split, totalCalls,
      ← List.range'_append_1]
    refine .trans ?_ (first.append others)
    -- the token for the first expression moves in front of the other operations
    simp only [List.append_assoc]
    refine .append_left _ ?_
    simp only [← List.append_assoc]
    exact .append_right _ List.perm_append_comm

end

theorem referents_of_call (plain : ∀ t, admits t = true → t.isReference = false)
    {e : Expression} (call : e.IsCall) (fits : Fits c admits e) :
    (Token.referents (operations 0 e).arguments).Perm
      (List.range ((operations 0 e).length - 1)) := by
  cases e with
  | leaf t => exact call.elim
  | call operator arguments =>
    have all := referents_operations plain (.call operator arguments) fits 0
    rw [operand, Token.referents_reference, calls, List.range'_1_concat,
      List.perm_append_right_iff] at all
    rw [operations_length, calls, Nat.add_sub_cancel, List.range_eq_range']
    exact all

theorem operations_fit (apart : c.NoReference) {e : Expression} (fits : Fits c admits e) :
    ∀ op ∈ operations 0 e, op.Fits c none := by
  intro op mem
  refine ⟨(operations_operator e fits 0 op mem).2, ?_⟩
  obtain ⟨k, found⟩ := List.mem_iff_getElem?.mp mem
  intro t argument
  refine ⟨?_, rfl⟩
  rcases operations_lookBack e fits (List.Subset.refl _) 0 k op found t argument with
    ⟨_, unknown, _⟩ | ⟨i, _, rfl⟩
  · exact unknown
  · exact Catalog.arity?_reference apart i

end

end Expression

namespace Program

theorem groups_of_ofNested {c : Catalog} (positive : c.Positive) (apart : c.NoReference)
    {tokens : List Token} {p : Program} (read : ofNested c none tokens = .ok p) :
    p.Groups c none p.tokens := by
  rcases ofNested_eq_ok positive read with ⟨_, rfl⟩ | ⟨e, listed, rfl⟩
  · exact ⟨by simp, rfl⟩
  · exact ⟨Expression.operations_fit apart listed.fits, rfl⟩

theorem length_of_ofNested {c : Catalog} (positive : c.Positive) {tokens : List Token}
    {p : Program} (read : ofNested c none tokens = .ok p) :
    p.length = tokens.countP c.contains := by
  rcases ofNested_eq_ok positive read with ⟨rfl, rfl⟩ | ⟨e, ⟨_, fits, rfl⟩, rfl⟩
  · rfl
  · rw [Expression.operations_length, Expression.calls_eq_countP e fits]

theorem operator_of_ofNested {c : Catalog} (positive : c.Positive) {tokens : List Token}
    {p : Program} (read : ofNested c none tokens = .ok p) {op : Operation} (mem : op ∈ p) :
    op.operator ∈ tokens := by
  rcases ofNested_eq_ok positive read with ⟨_, rfl⟩ | ⟨e, ⟨_, fits, rfl⟩, rfl⟩
  · cases mem
  · exact (Expression.operations_operator e fits 0 op mem).1

theorem looksBack_of_ofNested {c : Catalog} (positive : c.Positive) {tokens : List Token}
    {p : Program} (read : ofNested c none tokens = .ok p) :
    p.LooksBack (Expression.LeafOf c (Assembly.admits none) tokens) 0 := by
  rcases ofNested_eq_ok positive read with ⟨_, rfl⟩ | ⟨e, ⟨_, fits, rfl⟩, rfl⟩
  · exact looksBack_nil 0
  · exact Expression.operations_lookBack e fits (List.Subset.refl _) 0

/-- Reading the nested form gives operations that fit, one for each operator of the listing. What
    an argument draws on is a leaf of the listing or the result of an earlier operation, and every
    result but the last is drawn on once. -/
theorem ofNested_draws_once {c : Catalog} (positive : c.Positive) (apart : c.NoReference)
    {tokens : List Token} {p : Program} (read : ofNested c none tokens = .ok p) :
    (check c none p.tokens = .ok () ∧ ofTokens c p.tokens = .ok p) ∧
      p.length = tokens.countP c.contains ∧
      (∀ k op, p[k]? = some op → ∀ t ∈ op.arguments,
        (t ∈ tokens ∧ c.contains t = false ∧ t.hasArgumentShape = true) ∨
          ∃ i, i < k ∧ t = Token.reference i) ∧
      (Token.referents p.arguments).Perm (List.range (p.length - 1)) := by
  have groups := groups_of_ofNested positive apart read
  refine ⟨⟨check_eq_ok_iff.mpr ⟨p, groups⟩, groups.ofTokens⟩,
    length_of_ofNested positive read, ?_, ?_⟩
  · intro k op found t argument
    rcases looksBack_of_ofNested positive read k op found t argument with
      ⟨listed, unknown, shaped⟩ | ⟨i, earlier, same⟩
    · exact .inl ⟨listed, by rw [Catalog.contains, unknown, Option.isSome_none], shaped⟩
    · exact .inr ⟨i, by omega, same⟩
  · rcases ofNested_eq_ok positive read with ⟨_, rfl⟩ | ⟨e, listed, rfl⟩
    · exact .nil
    · exact Expression.referents_of_call (fun _ => Assembly.isReference_of_shape) listed.call
        listed.fits

theorem ofNested_of_crossing_references :
    Catalog.builtin.Positive ∧ Catalog.builtin.NoReference ∧
      ofNested .builtin none ["add", "multiply", "n0", "sqrt", "n1", "subtract", "sqrt", "n1",
        "const_2"] =
        .ok [⟨"sqrt", ["n1"]⟩, ⟨"multiply", ["n0", "#0"]⟩, ⟨"sqrt", ["n1"]⟩,
          ⟨"subtract", ["#2", "const_2"]⟩, ⟨"add", ["#1", "#3"]⟩] ∧
      Token.referents ["n1", "n0", "#0", "n1", "#2", "const_2", "#1", "#3"] = [0, 2, 1, 3] ∧
      (Token.referents ["n1", "n0", "#0", "n1", "#2", "const_2", "#1", "#3"]).Perm
        (List.range 4) := by
  have read : ofNested .builtin none ["add", "multiply", "n0", "sqrt", "n1", "subtract", "sqrt",
      "n1", "const_2"] =
      .ok [⟨"sqrt", ["n1"]⟩, ⟨"multiply", ["n0", "#0"]⟩, ⟨"sqrt", ["n1"]⟩,
        ⟨"subtract", ["#2", "const_2"]⟩, ⟨"add", ["#1", "#3"]⟩] := by
    decide +kernel
  refine ⟨Catalog.builtin_positive, Catalog.builtin_noReference, read, by decide +kernel, ?_⟩
  exact (ofNested_draws_once Catalog.builtin_positive Catalog.builtin_noReference read).2.2.2

end Program

end WordProblem
