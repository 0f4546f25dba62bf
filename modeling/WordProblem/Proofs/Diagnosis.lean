import WordProblem.Proofs.NestedForm

/-!
Why a nested listing is refused. Reading stops at the first token that is neither an operator nor
admitted, or that no open call can take. A listing without such a token is complete calls and,
behind them, calls that are still open; what they leave over tells the outcome.
-/
namespace WordProblem
open Expression

structure OpenCall where
  operator : Token
  arguments : List Expression

namespace OpenCall

def listing (o : OpenCall) : List Token := o.operator :: listings o.arguments

def Fits (c : Catalog) (admits : Token → Bool) (o : OpenCall) : Prop :=
  (∃ arity, c.arity? o.operator = some arity ∧ o.arguments.length < arity) ∧
    AllFit c admits o.arguments

end OpenCall

/-- Complete calls one after the other, and then calls that are still open, each of them inside
    the one before it. -/
structure Draft where
  complete : List Expression
  opened : List OpenCall

namespace Draft

def listing (d : Draft) : List Token := listings d.complete ++ d.opened.flatMap OpenCall.listing

def items (d : Draft) : List Expression := d.complete ++ d.opened.flatMap OpenCall.arguments

/-- The tokens for what no call has consumed. A result that comes last is the answer and is not
    left over. -/
def leftover (d : Draft) : List Token :=
  match d.items.getLast? with
  | some (.call _ _) => operands 0 d.items.dropLast
  | _ => operands 0 d.items

def outcome (d : Draft) : Except NestedFault Program :=
  if d.leftover ≠ [] then .error ⟨.leftoverArguments d.leftover, []⟩
  else if d.opened ≠ [] then .error ⟨.unfinishedOperators (d.opened.map OpenCall.operator), []⟩
  else .ok (allOperations 0 d.complete)

structure ListedBy (c : Catalog) (allowed : Option ArgumentSet) (tokens : List Token)
    (d : Draft) : Prop where
  calls : ∀ e ∈ d.complete, e.IsCall
  fit : AllFit c (Assembly.admits allowed) d.complete
  opened : ∀ o ∈ d.opened, o.Fits c (Assembly.admits allowed)
  listing : d.listing = tokens

end Draft

namespace Assembly

theorem takeAll_waiting {c : Catalog} (positive : c.Positive) {allowed : Option ArgumentSet}
    {es : List Expression} (fit : AllFit c (admits allowed) es) (frames : List Frame)
    (owned : ∀ e ∈ es, frames ≠ [] ∨ e.IsCall) (position : Nat) (waiting : List Token)
    (emitted : Program) (rest : List Token)
    (incomplete : ∀ w more, waiting.length ≤ w.length → w.length ≤ waiting.length + es.length →
      settle w more frames = ⟨frames, w, more⟩) :
    takeAll c allowed position ⟨frames, waiting, emitted⟩ (listings es ++ rest) =
      takeAll c allowed (position + (listings es).length)
        ⟨frames, (operands emitted.length es).reverse ++ waiting,
          emitted ++ allOperations emitted.length es⟩ rest := by
  induction es generalizing position waiting emitted with
  | nil => simp [listings, operands, allOperations]
  | cons e more ih =>
    have read := takeAll_listing positive e fit.1 frames (owned e (by simp)) position waiting
      emitted (listings more ++ rest)
    have stays := incomplete (operand emitted.length e :: waiting)
      (emitted ++ operations emitted.length e) (by simp) (by simp)
    have later : ∀ w after, (operand emitted.length e :: waiting).length ≤ w.length →
        w.length ≤ (operand emitted.length e :: waiting).length + more.length →
        settle w after frames = ⟨frames, w, after⟩ := by
      intro w after low high
      simp only [List.length_cons] at low high
      exact incomplete w after (by omega) (by simp only [List.length_cons]; omega)
    have next := ih fit.2 (fun f mem => owned f (List.mem_cons_of_mem e mem))
      (position + (listing e).length) (operand emitted.length e :: waiting)
      (emitted ++ operations emitted.length e) later
    rw [listings, List.append_assoc, read, stays, next]
    simp [operands, allOperations, operations_length, Nat.add_assoc]

theorem takeAll_opened {c : Catalog} (positive : c.Positive) {allowed : Option ArgumentSet}
    {opened : List OpenCall} (fit : ∀ o ∈ opened, o.Fits c (admits allowed)) (position : Nat)
    (frames : List Frame) (waiting : List Token) (emitted : Program) :
    ∃ inner, takeAll c allowed position ⟨frames, waiting, emitted⟩
          (opened.flatMap OpenCall.listing) =
        .ok ⟨inner ++ frames,
          (operands emitted.length (opened.flatMap OpenCall.arguments)).reverse ++ waiting,
          emitted ++ allOperations emitted.length (opened.flatMap OpenCall.arguments)⟩ ∧
      inner.map Frame.operator = (opened.map OpenCall.operator).reverse := by
  induction opened generalizing position frames waiting emitted with
  | nil => exact ⟨[], by simp [takeAll, operands, allOperations], rfl⟩
  | cons o more ih =>
    obtain ⟨⟨arity, known, lacking⟩, arguments⟩ := fit o (by simp)
    have step : take c allowed position ⟨frames, waiting, emitted⟩ o.operator =
        .ok ⟨⟨o.operator, arity, waiting.length⟩ :: frames, waiting, emitted⟩ := by
      simp [take, known]
    have stays : ∀ w after, waiting.length ≤ w.length →
        w.length ≤ waiting.length + o.arguments.length →
        settle w after (⟨o.operator, arity, waiting.length⟩ :: frames) =
          ⟨⟨o.operator, arity, waiting.length⟩ :: frames, w, after⟩ := by
      intro w after low high
      exact settle_incomplete (by dsimp only; omega) low
    have own := takeAll_waiting positive arguments (⟨o.operator, arity, waiting.length⟩ :: frames)
      (fun _ _ => .inl (List.cons_ne_nil _ _)) (position + 1) waiting emitted
      (more.flatMap OpenCall.listing) stays
    obtain ⟨inner, read, operators⟩ := ih (fun p mem => fit p (List.mem_cons_of_mem o mem))
      (position + 1 + (listings o.arguments).length)
      (⟨o.operator, arity, waiting.length⟩ :: frames)
      ((operands emitted.length o.arguments).reverse ++ waiting)
      (emitted ++ allOperations emitted.length o.arguments)
    refine ⟨inner ++ [⟨o.operator, arity, waiting.length⟩], ?_, by simp [operators]⟩
    rw [List.flatMap_cons, OpenCall.listing, List.cons_append, takeAll, step]
    simp only [own, read]
    simp [operands_append, allOperations_append, allOperations_length]

theorem takeAll_draft {c : Catalog} (positive : c.Positive) {allowed : Option ArgumentSet}
    {tokens : List Token} {d : Draft} (listed : d.ListedBy c allowed tokens) :
    ∃ frames, takeAll c allowed 0 .empty tokens =
        .ok ⟨frames, (operands 0 d.items).reverse, allOperations 0 d.items⟩ ∧
      frames.map Frame.operator = (d.opened.map OpenCall.operator).reverse := by
  have calls := takeAll_waiting positive listed.fit [] (fun e mem => .inr (listed.calls e mem)) 0
    [] [] (d.opened.flatMap OpenCall.listing) (fun _ _ _ _ => rfl)
  obtain ⟨frames, read, operators⟩ := takeAll_opened positive listed.opened
    (0 + (listings d.complete).length) [] (operands 0 d.complete).reverse
    (allOperations 0 d.complete)
  refine ⟨frames, ?_, operators⟩
  rw [← listed.listing, Draft.listing, Assembly.empty, calls]
  simp only [List.length_nil, List.append_nil, List.nil_append, read]
  simp [Draft.items, operands_append, allOperations_append, allOperations_length]

theorem draft_of_lacking {c : Catalog} {allowed : Option ArgumentSet} {frames : List Frame}
    {items : List Expression} (fit : AllFit c (admits allowed) items)
    (lacking : Lacking c frames items) :
    ∃ d : Draft, d.ListedBy c allowed (listed frames items) := by
  induction frames generalizing items with
  | nil => exact ⟨⟨items, []⟩, lacking, fit, by simp, by simp [Draft.listing, listed]⟩
  | cons frame outer ih =>
    obtain ⟨known, base, fewer, rest⟩ := lacking
    rw [← List.take_append_drop frame.base items, allFit_append] at fit
    obtain ⟨d, draft⟩ := ih fit.1 rest
    have open_call : OpenCall.Fits c (admits allowed)
        ⟨frame.operator, items.drop frame.base⟩ := by
      refine ⟨⟨frame.arity, known, ?_⟩, fit.2⟩
      simp only [List.length_drop]
      omega
    refine ⟨⟨d.complete, d.opened ++ [⟨frame.operator, items.drop frame.base⟩]⟩, draft.calls,
      draft.fit, ?_, ?_⟩
    · intro o mem
      rcases List.mem_append.mp mem with outside | innermost
      · exact draft.opened o outside
      · rw [List.mem_singleton.mp innermost]
        exact open_call
    · have outside := draft.listing
      simp only [Draft.listing] at outside
      simp [Draft.listing, listed, ← outside, OpenCall.listing]

theorem leftover_of_draft {c : Catalog} {allowed : Option ArgumentSet}
    (plain : ∀ set, allowed = some set → ∀ t ∈ set.members, t.isReference = false) {d : Draft}
    {tokens : List Token} (listed : d.ListedBy c allowed tokens) (frames : List Frame)
    (emitted : Program) :
    leftover ⟨frames, (operands 0 d.items).reverse, emitted⟩ = d.leftover.reverse := by
  have fit : AllFit c (admits allowed) d.items := by
    refine allFit_append.mpr ⟨listed.fit, allFit_iff.mpr ?_⟩
    intro e mem
    obtain ⟨o, opened, argument⟩ := List.mem_flatMap.mp mem
    exact allFit_iff.mp (listed.opened o opened).2 e argument
  unfold Draft.leftover
  rcases List.eq_nil_or_concat d.items with empty | ⟨before, last, same⟩
  · simp [empty, leftover, operands]
  · rw [List.concat_eq_append] at same
    rw [same] at fit
    have own : Fits c (admits allowed) last := (allFit_append.mp fit).2.1
    cases last with
    | leaf t =>
      have leaf := isReference_of_admits plain own.2
      simp [same, leftover, operands_append, operands, operand, leaf]
    | call operator arguments =>
      simp [same, leftover, operands_append, operands, operand, Token.isReference, Token.reference]

theorem finish_draft {c : Catalog} {allowed : Option ArgumentSet}
    (plain : ∀ set, allowed = some set → ∀ t ∈ set.members, t.isReference = false) {d : Draft}
    {tokens : List Token} (listed : d.ListedBy c allowed tokens) {frames : List Frame}
    (operators : frames.map Frame.operator = (d.opened.map OpenCall.operator).reverse) :
    finish ⟨frames, (operands 0 d.items).reverse, allOperations 0 d.items⟩ = d.outcome := by
  have left := leftover_of_draft plain listed frames (allOperations 0 d.items)
  have pending : frames.reverse.map Frame.operator = d.opened.map OpenCall.operator := by
    rw [List.map_reverse, operators, List.reverse_reverse]
  have closed : frames = [] ↔ d.opened = [] := by
    rw [← List.map_eq_nil_iff (f := Frame.operator), operators]
    simp
  unfold finish Draft.outcome
  rw [left, List.reverse_reverse]
  by_cases none_left : d.leftover = []
  · by_cases none_open : d.opened = []
    · simp [none_left, none_open, closed.mpr none_open, Draft.items]
    · simp [none_left, none_open, mt closed.mp none_open, pending]
  · simp [none_left]

theorem take_error {c : Catalog} {allowed : Option ArgumentSet} {position : Nat} {a : Assembly}
    {t : Token} {fault : NestedFault} (failed : take c allowed position a t = .error fault) :
    c.arity? t = none ∧
      ((admits allowed t = false ∧ fault = ⟨.invalidArgument t position, []⟩) ∨
        (admits allowed t = true ∧ a.frames = [] ∧
          fault = ⟨.orphanArgument t position, a.emitted⟩)) := by
  unfold take at failed
  cases known : c.arity? t with
  | some arity => simp [known] at failed
  | none =>
    refine ⟨rfl, ?_⟩
    simp only [known] at failed
    by_cases admitted : admits allowed t = true
    · by_cases orphan : a.frames = []
      · simp only [admitted, orphan, Bool.not_true, Bool.false_eq_true, ↓reduceIte,
          List.isEmpty_nil, Except.error.injEq] at failed
        exact .inr ⟨admitted, orphan, failed.symm⟩
      · simp [admitted, orphan] at failed
    · rw [Bool.not_eq_true] at admitted
      simp only [admitted, Bool.not_false, ↓reduceIte, Except.error.injEq] at failed
      exact .inl ⟨admitted, failed.symm⟩

theorem takeAll_error {c : Catalog} {allowed : Option ArgumentSet} {position : Nat} {a : Assembly}
    {tokens : List Token} {fault : NestedFault}
    (failed : takeAll c allowed position a tokens = .error fault) :
    ∃ before t after b, tokens = before ++ t :: after ∧
      takeAll c allowed position a before = .ok b ∧
      take c allowed (position + before.length) b t = .error fault := by
  induction tokens generalizing position a with
  | nil => cases failed
  | cons t rest ih =>
    rw [takeAll] at failed
    cases next : take c allowed position a t with
    | error first =>
      simp only [next, Except.error.injEq] at failed
      subst failed
      exact ⟨[], t, rest, a, rfl, rfl, next⟩
    | ok middle =>
      rw [next] at failed
      obtain ⟨before, u, after, b, rfl, read, stopped⟩ := ih failed
      refine ⟨t :: before, u, after, b, rfl, ?_, ?_⟩
      · rw [takeAll, next]
        exact read
      · rw [List.length_cons, Nat.add_comm before.length, ← Nat.add_assoc]
        exact stopped

theorem takeAll_append {c : Catalog} {allowed : Option ArgumentSet} {position : Nat}
    {a b : Assembly} {before : List Token} (read : takeAll c allowed position a before = .ok b)
    (rest : List Token) :
    takeAll c allowed position a (before ++ rest) =
      takeAll c allowed (position + before.length) b rest := by
  induction before generalizing position a with
  | nil =>
    cases read
    rfl
  | cons t more ih =>
    rw [takeAll] at read
    cases next : take c allowed position a t with
    | error fault => simp [next] at read
    | ok middle =>
      rw [next] at read
      rw [List.cons_append, takeAll, next]
      simp only [ih read, List.length_cons]
      rw [Nat.add_assoc, Nat.add_comm 1]

end Assembly

namespace Program

/-- The token at `position` is no operator, and either it is not admitted or it is an orphan:
    nothing but complete calls comes before it. -/
def StopsAt (c : Catalog) (allowed : Option ArgumentSet) (tokens : List Token) (position : Nat)
    (t : Token) : Prop :=
  tokens[position]? = some t ∧ c.arity? t = none ∧
    (Assembly.admits allowed t = false ∨
      ∃ es, Draft.ListedBy c allowed (tokens.take position) ⟨es, []⟩)

section
variable {c : Catalog} {allowed : Option ArgumentSet} {tokens : List Token}

theorem stopsAt_of_takeAll_error (positive : c.Positive) {fault : NestedFault}
    (failed : Assembly.takeAll c allowed 0 .empty tokens = .error fault) :
    ∃ position t, StopsAt c allowed tokens position t := by
  obtain ⟨before, t, after, b, rfl, read, stopped⟩ := Assembly.takeAll_error failed
  refine ⟨before.length, t, by simp, ?_⟩
  obtain ⟨unknown, ⟨refused, _⟩ | ⟨_, closed, _⟩⟩ := Assembly.take_error stopped
  · exact ⟨unknown, .inl refused⟩
  · obtain ⟨items, holds⟩ := Assembly.takeAll_holds positive (Assembly.holds_empty c _) read
    have calls := holds.lacking
    have listed := holds.listed
    rw [closed] at calls listed
    refine ⟨unknown, .inr ⟨items, calls, holds.fit, by simp, ?_⟩⟩
    rw [List.take_left]
    simpa [Draft.listing, Assembly.listed] using listed

theorem stopsAt_of_take {limit position : Nat} {t : Token}
    (stops : StopsAt c allowed (tokens.take limit) position t) :
    position < limit ∧ StopsAt c allowed tokens position t := by
  obtain ⟨found, unknown, cause⟩ := stops
  have inside : position < limit := by
    have bound := (List.getElem?_eq_some_iff.mp found).1
    rw [List.length_take] at bound
    omega
  refine ⟨inside, by rwa [List.getElem?_take_of_lt inside] at found, unknown, ?_⟩
  rwa [List.take_take, Nat.min_eq_left (Nat.le_of_lt inside)] at cause

theorem takeAll_before_stop (positive : c.Positive) {position : Nat}
    (first : ∀ earlier u, earlier < position → ¬ StopsAt c allowed tokens earlier u) :
    ∃ b, Assembly.takeAll c allowed 0 .empty (tokens.take position) = .ok b := by
  cases read : Assembly.takeAll c allowed 0 .empty (tokens.take position) with
  | ok b => exact ⟨b, rfl⟩
  | error fault =>
    obtain ⟨earlier, u, stops⟩ := stopsAt_of_takeAll_error positive read
    obtain ⟨less, stops⟩ := stopsAt_of_take stops
    exact absurd stops (first earlier u less)

theorem ofNested_of_take_error {position : Nat} {t : Token} (found : tokens[position]? = some t)
    {b : Assembly} (read : Assembly.takeAll c allowed 0 .empty (tokens.take position) = .ok b)
    {fault : NestedFault} (stopped : Assembly.take c allowed position b t = .error fault) :
    ofNested c allowed tokens = .error fault := by
  obtain ⟨inside, same⟩ := List.getElem?_eq_some_iff.mp found
  have split : tokens = tokens.take position ++ t :: tokens.drop (position + 1) := by
    rw [← same, List.getElem_cons_drop, List.take_append_drop]
  have count : (tokens.take position).length = position := List.length_take_of_le (by omega)
  rw [ofNested, split, Assembly.takeAll_append read, Assembly.takeAll, count, Nat.zero_add, stopped]

/-- The outcome of reading a nested listing. If some token stops the reading, the first that does is
    reported: as invalid when it is not admitted, and else as an orphan, together with the linear
    listing of the complete calls before it. If none does, the listing is a draft; the arguments
    that a draft leaves over are reported before the calls that it leaves open, and without either
    it is read successfully. -/
theorem ofNested_diagnosis (positive : c.Positive)
    (plain : ∀ set, allowed = some set → ∀ t ∈ set.members, t.isReference = false)
    (tokens : List Token) :
    (∀ position t, StopsAt c allowed tokens position t →
      (∀ earlier u, earlier < position → ¬ StopsAt c allowed tokens earlier u) →
        (Assembly.admits allowed t = false →
          ofNested c allowed tokens = .error ⟨.invalidArgument t position, []⟩) ∧
        (Assembly.admits allowed t = true →
          ∀ es, Draft.ListedBy c allowed (tokens.take position) ⟨es, []⟩ →
            ofNested c allowed tokens =
              .error ⟨.orphanArgument t position, allOperations 0 es⟩)) ∧
      ((∀ position t, ¬ StopsAt c allowed tokens position t) →
        ∃ d : Draft, d.ListedBy c allowed tokens) ∧
      ∀ d : Draft, d.ListedBy c allowed tokens → ofNested c allowed tokens = d.outcome := by
  refine ⟨?_, ?_, ?_⟩
  · intro position t stops first
    obtain ⟨found, unknown, _⟩ := stops
    obtain ⟨b, read⟩ := takeAll_before_stop positive first
    constructor
    · intro refused
      refine ofNested_of_take_error found read ?_
      simp [Assembly.take, unknown, refused]
    · intro admitted es before
      refine ofNested_of_take_error found read ?_
      obtain ⟨frames, same, closed⟩ := Assembly.takeAll_draft positive before
      rw [read, Except.ok.injEq] at same
      have none_open : frames = [] := by simpa using closed
      simp [Assembly.take, unknown, admitted, same, none_open, Draft.items]
  · intro unstopped
    cases read : Assembly.takeAll c allowed 0 .empty tokens with
    | error fault =>
      obtain ⟨position, t, stops⟩ := stopsAt_of_takeAll_error positive read
      exact absurd stops (unstopped position t)
    | ok a =>
      obtain ⟨items, holds⟩ := Assembly.takeAll_holds positive (Assembly.holds_empty c _) read
      obtain ⟨d, draft⟩ := Assembly.draft_of_lacking holds.fit holds.lacking
      rw [holds.listed, List.nil_append] at draft
      exact ⟨d, draft⟩
  · intro d listed
    obtain ⟨frames, read, operators⟩ := Assembly.takeAll_draft positive listed
    rw [ofNested, read]
    exact Assembly.finish_draft plain listed operators

theorem not_complete_of_open (positive : c.Positive) {b : Assembly}
    (read : Assembly.takeAll c allowed 0 .empty tokens = .ok b) (pending : b.frames ≠ []) :
    ¬ ∃ es, Draft.ListedBy c allowed tokens ⟨es, []⟩ := by
  rintro ⟨es, complete⟩
  obtain ⟨frames, same, closed⟩ := Assembly.takeAll_draft positive complete
  rw [read, Except.ok.injEq] at same
  have none_open : frames = [] := by simpa using closed
  exact pending (by rw [same, none_open])

end

/-- The argument behind the complete call is an orphan, and the last token is never looked at. In
    the second listing the trailing result is the answer, so the one before it is left over. -/
theorem ofNested_of_orphan_and_leftover :
    Catalog.builtin.Positive ∧ (∀ t ∈ ["n0", "n1"], Token.isReference t = false) ∧
      StopsAt .builtin (some ⟨["n0", "n1"]⟩) ["sqrt", "n0", "n1", "x"] 2 "n1" ∧
      (∀ earlier u, earlier < 2 →
        ¬ StopsAt .builtin (some ⟨["n0", "n1"]⟩) ["sqrt", "n0", "n1", "x"] earlier u) ∧
      ofNested .builtin (some ⟨["n0", "n1"]⟩) ["sqrt", "n0", "n1", "x"] =
        .error ⟨.orphanArgument "n1" 2, [⟨"sqrt", ["n0"]⟩]⟩ ∧
      Draft.ListedBy .builtin (some ⟨["n0", "n1"]⟩) ["sqrt", "n0", "add", "sqrt", "n1"]
        ⟨[.call "sqrt" [.leaf "n0"]], [⟨"add", [.call "sqrt" [.leaf "n1"]]⟩]⟩ ∧
      ofNested .builtin (some ⟨["n0", "n1"]⟩) ["sqrt", "n0", "add", "sqrt", "n1"] =
        .error ⟨.leftoverArguments ["#0"], []⟩ := by
  have plain : ∀ set, some (ArgumentSet.mk ["n0", "n1"]) = some set →
      ∀ t ∈ set.members, t.isReference = false := by
    intro set same
    cases same
    decide +kernel
  have first_call : Fits .builtin (Assembly.admits (some ⟨["n0", "n1"]⟩))
      (.call "sqrt" [.leaf "n0"]) := by
    simp only [Fits, AllFit, and_true]
    decide +kernel
  have second_call : Fits .builtin (Assembly.admits (some ⟨["n0", "n1"]⟩))
      (.call "sqrt" [.leaf "n1"]) := by
    simp only [Fits, AllFit, and_true]
    decide +kernel
  have before : Draft.ListedBy .builtin (some ⟨["n0", "n1"]⟩) ["sqrt", "n0"]
      ⟨[.call "sqrt" [.leaf "n0"]], []⟩ :=
    ⟨by simp [IsCall], ⟨first_call, trivial⟩, by simp, rfl⟩
  have stops : StopsAt .builtin (some ⟨["n0", "n1"]⟩) ["sqrt", "n0", "n1", "x"] 2 "n1" :=
    ⟨rfl, by decide +kernel, .inr ⟨_, before⟩⟩
  have first : ∀ earlier u, earlier < 2 →
      ¬ StopsAt .builtin (some ⟨["n0", "n1"]⟩) ["sqrt", "n0", "n1", "x"] earlier u := by
    rintro earlier u less ⟨found, unknown, cause⟩
    obtain rfl | rfl : earlier = 0 ∨ earlier = 1 := by omega
    · cases found
      exact absurd unknown (by decide +kernel)
    · cases found
      rcases cause with refused | complete
      · exact absurd refused (by decide +kernel)
      · have read : Assembly.takeAll .builtin (some ⟨["n0", "n1"]⟩) 0 .empty ["sqrt"] =
            .ok ⟨[⟨"sqrt", 1, 0⟩], [], []⟩ := rfl
        exact not_complete_of_open Catalog.builtin_positive read (by simp) complete
  have draft : Draft.ListedBy .builtin (some ⟨["n0", "n1"]⟩) ["sqrt", "n0", "add", "sqrt", "n1"]
      ⟨[.call "sqrt" [.leaf "n0"]], [⟨"add", [.call "sqrt" [.leaf "n1"]]⟩]⟩ := by
    refine ⟨by simp [IsCall], ⟨first_call, trivial⟩, ?_, rfl⟩
    intro o mem
    cases List.mem_singleton.mp mem
    exact ⟨⟨2, by decide +kernel, by simp⟩, second_call, trivial⟩
  have orphan := ofNested_diagnosis Catalog.builtin_positive plain ["sqrt", "n0", "n1", "x"]
  have leftover := ofNested_diagnosis Catalog.builtin_positive plain
    ["sqrt", "n0", "add", "sqrt", "n1"]
  refine ⟨Catalog.builtin_positive, plain _ rfl, stops, first, ?_, draft, ?_⟩
  · exact (orphan.1 2 "n1" stops first).2 (by decide +kernel) _ before
  · exact leftover.2.2 _ draft

end Program

end WordProblem
