import WordProblem.Program.Nested
import WordProblem.Proofs.Listing

/-!
What the two stacks of the nested reader mean. The waiting arguments stand for expressions that
have been read to their end, oldest first; each open call owns those above its base. From the
open calls and these expressions the tokens read so far can be listed again, and the emitted
operations are the linear listing of the expressions, numbered from zero.
-/
namespace WordProblem

namespace Expression

theorem operands_complete (operator : Token) (before arguments : List Expression) :
    operands 0 (before ++ [.call operator arguments]) =
      operands 0 before ++ [Token.reference (totalCalls (before ++ arguments))] := by
  simp [operands_append, operands, operand, totalCalls_append]

theorem allOperations_complete (operator : Token) (before arguments : List Expression) :
    allOperations 0 (before ++ [.call operator arguments]) =
      allOperations 0 (before ++ arguments) ++
        [⟨operator, operands (totalCalls before) arguments⟩] := by
  simp [allOperations_append, allOperations, operations]

end Expression

namespace Assembly
open Expression

def listed : List Frame → List Expression → List Token
  | [], items => listings items
  | frame :: outer, items =>
    listed outer (items.take frame.base) ++ frame.operator :: listings (items.drop frame.base)

/-- Every open call still lacks an argument between its base and the next one, and below the
    outermost base only calls wait. -/
def Lacking (c : Catalog) : List Frame → List Expression → Prop
  | [], items => ∀ e ∈ items, e.IsCall
  | frame :: outer, items =>
    c.arity? frame.operator = some frame.arity ∧ frame.base ≤ items.length ∧
      items.length < frame.base + frame.arity ∧ Lacking c outer (items.take frame.base)

/-- The same in the middle of a step, when the innermost call may have all its arguments. -/
def Settling (c : Catalog) : List Frame → List Expression → Prop
  | [], items => ∀ e ∈ items, e.IsCall
  | frame :: outer, items =>
    c.arity? frame.operator = some frame.arity ∧ frame.base ≤ items.length ∧
      items.length ≤ frame.base + frame.arity ∧ Lacking c outer (items.take frame.base)

structure Holds (c : Catalog) (admits : Token → Bool) (a : Assembly) (items : List Expression)
    (tokens : List Token) : Prop where
  fit : AllFit c admits items
  waiting : a.waiting = (operands 0 items).reverse
  emitted : a.emitted = allOperations 0 items
  lacking : Lacking c a.frames items
  listed : listed a.frames items = tokens

theorem holds_empty (c : Catalog) (admits : Token → Bool) : Holds c admits .empty [] [] :=
  ⟨trivial, rfl, rfl, by simp [empty, Lacking], rfl⟩

theorem lacking_base_le {c : Catalog} {frame : Frame} {outer : List Frame}
    {items : List Expression} (lacking : Lacking c (frame :: outer) items) :
    frame.base ≤ items.length := lacking.2.1

theorem listed_append {c : Catalog} {frames : List Frame} {items : List Expression}
    (lacking : Lacking c frames items) (more : List Expression) :
    listed frames (items ++ more) = listed frames items ++ listings more := by
  cases frames with
  | nil => simp [listed, listings_append]
  | cons frame outer =>
    have base := lacking_base_le lacking
    simp [listed, List.take_append_of_le_length base, List.drop_append_of_le_length base,
      listings_append]

theorem settling_append {c : Catalog} {frames : List Frame} {items : List Expression}
    {e : Expression} (lacking : Lacking c frames items) (owned : frames ≠ [] ∨ e.IsCall) :
    Settling c frames (items ++ [e]) := by
  cases frames with
  | nil =>
    have isCall : e.IsCall := owned.resolve_left (by simp)
    intro f mem
    rcases List.mem_append.mp mem with old | new
    · exact lacking f old
    · rw [List.mem_singleton.mp new]
      exact isCall
  | cons frame outer =>
    obtain ⟨arity, base, fewer, rest⟩ := lacking
    refine ⟨arity, ?_, ?_, ?_⟩
    · simp only [List.length_append, List.length_singleton]
      omega
    · simp only [List.length_append, List.length_singleton]
      omega
    · rwa [List.take_append_of_le_length base]

/-- A call that has all its arguments becomes one expression, its operation the last one
    emitted, and the reference to it waits in their place. -/
theorem settle_complete {frame : Frame} (outer : List Frame) {before arguments : List Expression}
    (base : before.length = frame.base) (arity : arguments.length = frame.arity) :
    settle (operands 0 (before ++ arguments)).reverse (allOperations 0 (before ++ arguments))
        (frame :: outer) =
      settle (operands 0 (before ++ [.call frame.operator arguments])).reverse
        (allOperations 0 (before ++ [.call frame.operator arguments])) outer := by
  have own : (operands (totalCalls before) arguments).reverse.length = frame.arity := by
    simp [operands_length, arity]
  have enough : frame.arity ≤ (operands 0 (before ++ arguments)).reverse.length - frame.base := by
    simp [operands_length, base, arity]
  rw [settle, if_pos enough, allOperations_complete, operands_complete]
  simp only [operands_append, Nat.zero_add, List.reverse_append, List.take_left' own,
    List.drop_left' own, List.reverse_reverse, allOperations_length, List.reverse_cons,
    List.reverse_nil, List.nil_append, List.singleton_append]

theorem settle_incomplete {frame : Frame} {outer : List Frame} {waiting : List Token}
    {emitted : Program} (fewer : waiting.length < frame.base + frame.arity)
    (base : frame.base ≤ waiting.length) :
    settle waiting emitted (frame :: outer) = ⟨frame :: outer, waiting, emitted⟩ := by
  rw [settle, if_neg (by omega)]

theorem settle_holds {c : Catalog} {admits : Token → Bool} {frames : List Frame}
    {items : List Expression} (fit : AllFit c admits items) (settling : Settling c frames items) :
    ∃ left, Holds c admits (settle (operands 0 items).reverse (allOperations 0 items) frames) left
      (listed frames items) := by
  induction frames generalizing items with
  | nil => exact ⟨items, fit, rfl, rfl, settling, rfl⟩
  | cons frame outer ih =>
    obtain ⟨arity, base, atMost, rest⟩ := settling
    by_cases full : items.length = frame.base + frame.arity
    · -- the arguments above the base become one call, which the next frame may need
      have split := List.take_append_drop frame.base items
      have before : (items.take frame.base).length = frame.base := List.length_take_of_le base
      have arguments : (items.drop frame.base).length = frame.arity := by
        rw [List.length_drop]
        omega
      rw [← split, allFit_append] at fit
      have call : Fits c admits (.call frame.operator (items.drop frame.base)) :=
        ⟨by rw [arguments, arity], fit.2⟩
      have joined : AllFit c admits
          (items.take frame.base ++ [.call frame.operator (items.drop frame.base)]) :=
        allFit_append.mpr ⟨fit.1, call, trivial⟩
      obtain ⟨left, holds⟩ := ih joined (settling_append rest (.inr trivial))
      have complete := settle_complete outer before arguments
      rw [split] at complete
      refine ⟨left, ?_⟩
      rw [complete]
      rw [listed_append rest] at holds
      simpa [listed, listings, listing] using holds
    · have stays : settle (operands 0 items).reverse (allOperations 0 items) (frame :: outer) =
          ⟨frame :: outer, (operands 0 items).reverse, allOperations 0 items⟩ := by
        apply settle_incomplete <;> simp only [List.length_reverse, operands_length] <;> omega
      rw [stays]
      exact ⟨items, fit, rfl, rfl, ⟨arity, base, by omega, rest⟩, rfl⟩

theorem take_holds {c : Catalog} (positive : c.Positive) {allowed : Option ArgumentSet}
    {position : Nat} {a b : Assembly} {items : List Expression} {tokens : List Token} {t : Token}
    (holds : Holds c (admits allowed) a items tokens) (taken : take c allowed position a t = .ok b) :
    ∃ left, Holds c (admits allowed) b left (tokens ++ [t]) := by
  unfold take at taken
  cases known : c.arity? t with
  | some arity =>
    rw [known] at taken
    cases taken
    have height : a.waiting.length = items.length := by
      simp [holds.waiting, operands_length]
    refine ⟨items, holds.fit, holds.waiting, holds.emitted, ⟨known, ?_, ?_, ?_⟩, ?_⟩
    · exact Nat.le_of_eq height
    · have := positive t arity known
      simp only [height]
      omega
    · simpa [height] using holds.lacking
    · simp [listed, height, holds.listed, listings]
  | none =>
    rw [known] at taken
    by_cases admitted : admits allowed t = true
    · by_cases orphan : a.frames = []
      · simp [admitted, orphan] at taken
      · simp only [admitted, Bool.not_true, Bool.false_eq_true, ↓reduceIte,
          List.isEmpty_iff, orphan, Except.ok.injEq] at taken
        have fit : AllFit c (admits allowed) (items ++ [.leaf t]) :=
          allFit_append.mpr ⟨holds.fit, ⟨known, admitted⟩, trivial⟩
        have pushed : (operands 0 (items ++ [.leaf t])).reverse = t :: a.waiting := by
          simp [operands_append, operands, operand, holds.waiting]
        have same : allOperations 0 (items ++ [.leaf t]) = a.emitted := by
          simp [allOperations_append, allOperations, operations, holds.emitted]
        obtain ⟨left, settled⟩ :=
          settle_holds fit (settling_append holds.lacking (.inl orphan))
        rw [pushed, same, taken, listed_append holds.lacking, holds.listed] at settled
        exact ⟨left, by simpa [listings, listing] using settled⟩
    · simp [admitted] at taken

theorem takeAll_holds {c : Catalog} (positive : c.Positive) {allowed : Option ArgumentSet}
    {position : Nat} {a b : Assembly} {items : List Expression} {tokens more : List Token}
    (holds : Holds c (admits allowed) a items tokens)
    (taken : takeAll c allowed position a more = .ok b) :
    ∃ left, Holds c (admits allowed) b left (tokens ++ more) := by
  induction more generalizing position a items tokens with
  | nil =>
    cases taken
    exact ⟨items, by simpa using holds⟩
  | cons t rest ih =>
    rw [takeAll] at taken
    cases next : take c allowed position a t with
    | error fault => simp [next] at taken
    | ok middle =>
      rw [next] at taken
      obtain ⟨between, step⟩ := take_holds positive holds next
      obtain ⟨left, run⟩ := ih step taken
      exact ⟨left, by simpa using run⟩

end Assembly

end WordProblem
