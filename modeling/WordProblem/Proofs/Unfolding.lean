import Mathlib.Data.List.Induction
import WordProblem.Proofs.References

/-!
Unfolding undoes the linear listing. When references only look back, the expressions built from
the front satisfy the recursion that starts at the last operation; those of a linear listing are
the calls it was made from, so the last one lists the tokens that were read.
-/
namespace WordProblem

theorem Expression.listings_eq_flatMap (es : List Expression) :
    listings es = es.flatMap listing := by
  induction es with
  | nil => rfl
  | cons e rest ih => rw [listings, ih, List.flatMap_cons]

namespace Program
open Expression

theorem expressions_length (p : Program) : (expressions p).length = p.length := by
  induction p using List.reverseRecOn with
  | nil => rfl
  | append_singleton p op ih => simp [expressions_concat, ih]

theorem expressions_getElem? (p : Program) (k : Nat) :
    (expressions p)[k]? = p[k]?.map (unfoldOperation ((expressions p).take k)) := by
  induction p using List.reverseRecOn with
  | nil => rfl
  | append_singleton p op ih =>
    have length := expressions_length p
    rw [expressions_concat]
    rcases Nat.lt_trichotomy k p.length with inside | rfl | outside
    · rw [List.getElem?_append_left (by omega), List.getElem?_append_left inside, ih,
        List.take_append_of_le_length (by omega)]
    · simp [← length]
    · rw [List.getElem?_eq_none (by simp; omega), List.getElem?_eq_none (by simp; omega)]
      rfl

def unfoldFrom (earlier : List Expression) (p : Program) : List Expression :=
  p.foldl (fun earlier op => earlier ++ [unfoldOperation earlier op]) earlier

theorem unfoldFrom_append (earlier : List Expression) (p q : Program) :
    unfoldFrom earlier (p ++ q) = unfoldFrom (unfoldFrom earlier p) q :=
  List.foldl_append

theorem unfoldArgument_take (es : List Expression) {k : Nat} {t : Token}
    (back : ∀ i, t.referent? = some i → i < k) :
    unfoldArgument (es.take k) t = unfoldArgument es t := by
  unfold unfoldArgument
  cases refers : t.referent? with
  | none => rfl
  | some i => simp [List.getElem?_take_of_lt (back i refers)]

/-- With references that look back, an operation unfolds with the expressions of the whole program
    as it does with those before it. -/
theorem expressions_getElem?_of_back {p : Program} {k : Nat} {op : Operation}
    (found : p[k]? = some op)
    (back : ∀ t ∈ op.arguments, ∀ i, t.referent? = some i → i < k) :
    (expressions p)[k]? = some (unfoldOperation (expressions p) op) := by
  rw [expressions_getElem?, found, Option.map_some, unfoldOperation, unfoldOperation]
  congr 2
  refine List.map_congr_left ?_
  intro t argument
  exact unfoldArgument_take _ (back t argument)

theorem listing_unfoldArgument {p : Program} {t : Token}
    (inside : ∀ i, t.referent? = some i → i < p.length) :
    listing (unfoldArgument (expressions p) t) = unfoldToken p t := by
  unfold unfoldArgument unfoldToken
  cases refers : t.referent? with
  | none => rfl
  | some i =>
    have found : i < (expressions p).length := by
      rw [expressions_length]
      exact inside i refers
    simp [unfolding, List.getElem?_eq_getElem found]

theorem unfolding_eq {p : Program} {k : Nat} {op : Operation} (found : p[k]? = some op)
    (back : ∀ t ∈ op.arguments, ∀ i, t.referent? = some i → i < k) :
    p.unfolding k = op.operator :: op.arguments.flatMap p.unfoldToken := by
  have inside : k < p.length := (List.getElem?_eq_some_iff.mp found).1
  rw [unfolding, expressions_getElem?_of_back found back]
  simp only [unfoldOperation, listing, listings_eq_flatMap, List.flatMap_map, List.cons.injEq,
    true_and]
  refine List.flatMap_congr ?_
  intro t argument
  exact listing_unfoldArgument fun i refers => Nat.lt_trans (back t argument i refers) inside

end Program

namespace Expression
open Program

mutual

def subcalls : Expression → List Expression
  | .leaf _ => []
  | .call operator arguments => allSubcalls arguments ++ [.call operator arguments]

def allSubcalls : List Expression → List Expression
  | [] => []
  | e :: rest => subcalls e ++ allSubcalls rest

end

mutual

theorem subcalls_length : (e : Expression) → (subcalls e).length = calls e
  | .leaf _ => rfl
  | .call _ arguments => by simp [subcalls, calls, allSubcalls_length arguments]

theorem allSubcalls_length : (es : List Expression) → (allSubcalls es).length = totalCalls es
  | [] => rfl
  | e :: rest => by
    simp [allSubcalls, totalCalls, subcalls_length e, allSubcalls_length rest]

end

theorem length_append_subcalls (earlier : List Expression) (e : Expression) :
    (earlier ++ subcalls e).length = earlier.length + calls e := by
  rw [List.length_append, subcalls_length]

section
variable {c : Catalog} {admits : Token → Bool}

/-- The token that stands for an expression unfolds to it, once its calls have been unfolded. -/
theorem unfoldArgument_operand (plain : ∀ t, admits t = true → t.isReference = false)
    {e : Expression} (fits : Fits c admits e) {earlier later : List Expression}
    (unfolded : earlier ++ subcalls e <+: later) :
    unfoldArgument later (operand earlier.length e) = e := by
  cases e with
  | leaf t => simp [unfoldArgument, operand, Token.referent?_of_not_reference (plain t fits.2)]
  | call operator arguments =>
    obtain ⟨more, rfl⟩ := unfolded
    have position : earlier.length + totalCalls arguments =
        (earlier ++ allSubcalls arguments).length := by
      rw [List.length_append, allSubcalls_length]
    rw [unfoldArgument, operand, Token.referent?_reference, position, subcalls,
      ← List.append_assoc, List.append_assoc]
    simp

theorem unfoldArgument_operands (plain : ∀ t, admits t = true → t.isReference = false)
    {es : List Expression} (fits : AllFit c admits es) {earlier later : List Expression}
    (unfolded : earlier ++ allSubcalls es <+: later) :
    (operands earlier.length es).map (unfoldArgument later) = es := by
  induction es generalizing earlier with
  | nil => rfl
  | cons e rest ih =>
    rw [allSubcalls, ← List.append_assoc] at unfolded
    rw [operands, List.map_cons, ← length_append_subcalls, ih fits.2 unfolded,
      unfoldArgument_operand plain fits.1 (List.IsPrefix.trans (List.prefix_append _ _) unfolded)]

mutual

theorem unfoldFrom_operations (plain : ∀ t, admits t = true → t.isReference = false) :
    (e : Expression) → Fits c admits e → ∀ earlier,
      unfoldFrom earlier (operations earlier.length e) = earlier ++ subcalls e
  | .leaf t, _, earlier => by simp [unfoldFrom, operations, subcalls]
  | .call operator arguments, fits, earlier => by
    have inner := unfoldFrom_allOperations plain arguments fits.2 earlier
    have own : unfoldOperation (earlier ++ allSubcalls arguments)
        ⟨operator, operands earlier.length arguments⟩ = .call operator arguments := by
      rw [unfoldOperation, unfoldArgument_operands plain fits.2 List.prefix_rfl]
    rw [operations, unfoldFrom_append, inner, unfoldFrom, List.foldl_cons, own, subcalls,
      List.append_assoc]
    rfl

theorem unfoldFrom_allOperations (plain : ∀ t, admits t = true → t.isReference = false) :
    (es : List Expression) → AllFit c admits es → ∀ earlier,
      unfoldFrom earlier (allOperations earlier.length es) = earlier ++ allSubcalls es
  | [], _, earlier => by simp [unfoldFrom, allOperations, allSubcalls]
  | e :: rest, fits, earlier => by
    rw [allOperations, unfoldFrom_append, unfoldFrom_operations plain e fits.1 earlier,
      ← length_append_subcalls, unfoldFrom_allOperations plain rest fits.2, allSubcalls,
      List.append_assoc]

end

theorem expressions_operations (plain : ∀ t, admits t = true → t.isReference = false)
    {e : Expression} (fits : Fits c admits e) : expressions (operations 0 e) = subcalls e :=
  unfoldFrom_operations plain e fits []

theorem unfolding_operations (plain : ∀ t, admits t = true → t.isReference = false)
    {e : Expression} (call : e.IsCall) (fits : Fits c admits e) :
    unfolding (operations 0 e) ((operations 0 e).length - 1) = listing e := by
  cases e with
  | leaf t => exact call.elim
  | call operator arguments =>
    rw [unfolding, expressions_operations plain fits, operations_length, calls,
      Nat.add_sub_cancel, subcalls, ← allSubcalls_length]
    simp

end

end Expression

namespace Program

theorem unfolding_ofNested {c : Catalog} (positive : c.Positive) {tokens : List Token}
    {p : Program} (read : ofNested c none tokens = .ok p) :
    p.unfolding (p.length - 1) = tokens := by
  rcases ofNested_eq_ok positive read with ⟨rfl, rfl⟩ | ⟨e, ⟨call, fits, rfl⟩, rfl⟩
  · rfl
  · exact Expression.unfolding_operations (fun _ => Assembly.isReference_of_shape) call fits

theorem referent?_lt_of_ofNested {c : Catalog} (positive : c.Positive) {tokens : List Token}
    {p : Program} (read : ofNested c none tokens = .ok p) {k : Nat} {op : Operation}
    (found : p[k]? = some op) {t : Token} (argument : t ∈ op.arguments) {i : Nat}
    (refers : t.referent? = some i) : i < k := by
  rcases looksBack_of_ofNested positive read k op found t argument with
    ⟨_, _, admitted⟩ | ⟨j, earlier, rfl⟩
  · rw [Token.referent?_of_not_reference (Assembly.isReference_of_shape admitted)] at refers
    cases refers
  · rw [Token.referent?_reference] at refers
    cases refers
    omega

/-- A program that was read from the nested form unfolds, from its last operation backwards, to
    the listing that was read; so no other listing is read as the same program. -/
theorem ofNested_unfolds {c : Catalog} (positive : c.Positive) {tokens : List Token}
    {p : Program} (read : ofNested c none tokens = .ok p) :
    (∀ k op, p[k]? = some op →
        (∀ t ∈ op.arguments, ∀ i, t.referent? = some i → i < k) ∧
          p.unfolding k = op.operator :: op.arguments.flatMap p.unfoldToken) ∧
      p.unfolding (p.length - 1) = tokens ∧
      ∀ others, ofNested c none others = .ok p → others = tokens := by
  refine ⟨?_, unfolding_ofNested positive read, ?_⟩
  · intro k op found
    have back : ∀ t ∈ op.arguments, ∀ i, t.referent? = some i → i < k := by
      intro t argument i refers
      exact referent?_lt_of_ofNested positive read found argument refers
    exact ⟨back, unfolding_eq found back⟩
  · intro others same
    rw [← unfolding_ofNested positive same, unfolding_ofNested positive read]

theorem ofNested_unfolds_of_argument_after_call :
    Catalog.builtin.Positive ∧
      ofNested .builtin none ["subtract", "divide", "n0", "sqrt", "n1", "n0"] =
        .ok [⟨"sqrt", ["n1"]⟩, ⟨"divide", ["n0", "#0"]⟩, ⟨"subtract", ["#1", "n0"]⟩] ∧
      unfolding [⟨"sqrt", ["n1"]⟩, ⟨"divide", ["n0", "#0"]⟩, ⟨"subtract", ["#1", "n0"]⟩] 2 =
        ["subtract", "divide", "n0", "sqrt", "n1", "n0"] := by
  have read : ofNested .builtin none ["subtract", "divide", "n0", "sqrt", "n1", "n0"] =
      .ok [⟨"sqrt", ["n1"]⟩, ⟨"divide", ["n0", "#0"]⟩, ⟨"subtract", ["#1", "n0"]⟩] := by
    decide +kernel
  exact ⟨Catalog.builtin_positive, read, (ofNested_unfolds Catalog.builtin_positive read).2.1⟩

end Program

end WordProblem
