import Mathlib.Logic.ExistsUnique
import WordProblem.Proofs.Assembly

namespace WordProblem

structure Expression.ListedBy (c : Catalog) (allowed : Option ArgumentSet) (tokens : List Token)
    (e : Expression) : Prop where
  call : e.IsCall
  fits : e.Fits c (Assembly.admits allowed)
  listing : e.listing = tokens

namespace Assembly
open Expression

mutual

/-- A complete listing becomes one waiting argument, whatever follows it. A leaf needs a call
    that it belongs to. -/
theorem takeAll_listing {c : Catalog} (positive : c.Positive) {allowed : Option ArgumentSet} :
    (e : Expression) → Fits c (admits allowed) e →
      ∀ (frames : List Frame), frames ≠ [] ∨ e.IsCall →
      ∀ (position : Nat) (waiting : List Token) (emitted : Program) (rest : List Token),
        takeAll c allowed position ⟨frames, waiting, emitted⟩ (listing e ++ rest) =
          takeAll c allowed (position + (listing e).length)
            (settle (operand emitted.length e :: waiting)
              (emitted ++ operations emitted.length e) frames) rest
  | .leaf t, fits, frames, owned, position, waiting, emitted, rest => by
    have pending : frames ≠ [] := owned.resolve_right id
    have step : take c allowed position ⟨frames, waiting, emitted⟩ t =
        .ok (settle (t :: waiting) emitted frames) := by
      simp [take, fits.1, fits.2, pending]
    simp [listing, takeAll, step, operand, operations]
  | .call operator arguments, fits, frames, _, position, waiting, emitted, rest => by
    have count := operands_length emitted.length arguments
    have nonempty : arguments ≠ [] := List.ne_nil_of_length_pos (positive operator _ fits.1)
    have step : take c allowed position ⟨frames, waiting, emitted⟩ operator =
        .ok ⟨⟨operator, arguments.length, waiting.length⟩ :: frames, waiting, emitted⟩ := by
      simp [take, fits.1]
    have inner := takeAll_listings positive arguments fits.2 nonempty
      ⟨operator, arguments.length, waiting.length⟩ frames (position + 1) waiting emitted rest
      (Nat.le_refl _) rfl
    have complete : settle ((operands emitted.length arguments).reverse ++ waiting)
        (emitted ++ allOperations emitted.length arguments)
        (⟨operator, arguments.length, waiting.length⟩ :: frames) =
      settle (operand emitted.length (.call operator arguments) :: waiting)
        (emitted ++ operations emitted.length (.call operator arguments)) frames := by
      have own : (operands emitted.length arguments).reverse.length = arguments.length := by
        simp [count]
      rw [settle, if_pos (by simp [count])]
      simp only [List.take_left' own, List.drop_left' own, List.reverse_reverse, operand,
        operations, List.length_append, allOperations_length, List.append_assoc]
    rw [listing, List.cons_append, takeAll, step]
    simp only [inner, complete, List.length_cons]
    rw [Nat.add_assoc, Nat.add_comm 1]

theorem takeAll_listings {c : Catalog} (positive : c.Positive) {allowed : Option ArgumentSet} :
    (es : List Expression) → AllFit c (admits allowed) es → es ≠ [] →
      ∀ (frame : Frame) (outer : List Frame) (position : Nat) (waiting : List Token)
        (emitted : Program) (rest : List Token), frame.base ≤ waiting.length →
        waiting.length + es.length = frame.base + frame.arity →
        takeAll c allowed position ⟨frame :: outer, waiting, emitted⟩ (listings es ++ rest) =
          takeAll c allowed (position + (listings es).length)
            (settle ((operands emitted.length es).reverse ++ waiting)
              (emitted ++ allOperations emitted.length es) (frame :: outer)) rest
  | [e], fits, _, frame, outer, position, waiting, emitted, rest, _, _ => by
    have read := takeAll_listing positive e fits.1 (frame :: outer)
      (.inl (List.cons_ne_nil frame outer)) position waiting emitted rest
    simpa [listings, operands, allOperations] using read
  | e :: f :: more, fits, _, frame, outer, position, waiting, emitted, rest, base, lacking => by
    have read := takeAll_listing positive e fits.1 (frame :: outer)
      (.inl (List.cons_ne_nil frame outer)) position waiting emitted (listings (f :: more) ++ rest)
    simp only [List.length_cons] at lacking
    have stays : settle (operand emitted.length e :: waiting)
        (emitted ++ operations emitted.length e) (frame :: outer) =
      ⟨frame :: outer, operand emitted.length e :: waiting,
        emitted ++ operations emitted.length e⟩ := by
      apply settle_incomplete <;> simp only [List.length_cons] <;> omega
    have next := takeAll_listings positive (f :: more) fits.2 (List.cons_ne_nil f more) frame outer
      (position + (listing e).length)
      (operand emitted.length e :: waiting) (emitted ++ operations emitted.length e) rest
      (by simp only [List.length_cons]; omega) (by simp only [List.length_cons]; omega)
    rw [listings, List.append_assoc, read, stays, next]
    simp [operands, allOperations, operations_length, Nat.add_assoc]

end

theorem isReference_of_admits {allowed : Option ArgumentSet}
    (plain : ∀ set, allowed = some set → ∀ t ∈ set.members, t.isReference = false) {t : Token}
    (admitted : admits allowed t = true) : t.isReference = false := by
  rcases admits_iff.mp admitted with ⟨set, given, mem⟩ | ⟨_, shaped⟩
  · exact plain set given t mem
  · obtain ⟨digits, _, _, placeholder | constant⟩ := Token.hasArgumentShape_iff.mp shaped
    · simp [Token.isReference, placeholder]
    · simp [Token.isReference, constant, Token.constantMark_chars]

theorem isReference_of_shape {t : Token} (admitted : admits none t = true) :
    t.isReference = false := by
  refine isReference_of_admits ?_ admitted
  intro set impossible
  cases impossible

theorem finish_holds {c : Catalog} {admits : Token → Bool} {a : Assembly}
    {items : List Expression} {tokens : List Token} {p : Program}
    (holds : Holds c admits a items tokens) (finished : a.finish = .ok p) :
    (tokens = [] ∧ p = []) ∨
      ∃ e, e.IsCall ∧ Fits c admits e ∧ listing e = tokens ∧ operations 0 e = p := by
  unfold finish at finished
  split at finished
  · cases finished
  · rename_i noLeftover
    split at finished
    · cases finished
    · rename_i noFrame
      cases finished
      have closed : a.frames = [] := by simpa using noFrame
      have calls := holds.lacking
      have listed := holds.listed
      rw [closed] at calls listed
      rcases items with _ | ⟨e, _ | ⟨f, more⟩⟩
      · exact .inl ⟨listed.symm, holds.emitted⟩
      · refine .inr ⟨e, calls e (by simp), holds.fit.1, ?_, ?_⟩
        · simpa [Assembly.listed, listings] using listed
        · simp [holds.emitted, allOperations]
      · -- two trees leave at least one argument that nothing takes
        have two : 2 ≤ a.waiting.length := by simp [holds.waiting, operands_length]
        have empty : a.leftover = [] := by simpa using noLeftover
        rcases shape : a.waiting with _ | ⟨x, _ | ⟨y, rest⟩⟩
        · simp [shape] at two
        · simp [shape] at two
        · simp only [leftover, shape] at empty
          split at empty <;> cases empty

end Assembly

namespace Program
open Expression

theorem ofNested_listing {c : Catalog} (positive : c.Positive) {allowed : Option ArgumentSet}
    {tokens : List Token} {e : Expression} (listed : e.ListedBy c allowed tokens) :
    ofNested c allowed tokens = .ok (operations 0 e) := by
  have read := Assembly.takeAll_listing positive e listed.fits [] (.inr listed.call) 0 [] [] []
  obtain ⟨call, _, rfl⟩ := listed
  cases e with
  | leaf t => exact call.elim
  | call operator arguments =>
    simp only [List.append_nil] at read
    rw [ofNested, Assembly.empty, read]
    simp [Assembly.settle, Assembly.takeAll, Assembly.finish, Assembly.leftover, operand,
      Token.isReference, Token.reference]

theorem ofNested_eq_ok {c : Catalog} (positive : c.Positive) {allowed : Option ArgumentSet}
    {tokens : List Token} {p : Program} (read : ofNested c allowed tokens = .ok p) :
    (tokens = [] ∧ p = []) ∨ ∃ e : Expression, e.ListedBy c allowed tokens ∧ operations 0 e = p := by
  unfold ofNested at read
  cases taken : Assembly.takeAll c allowed 0 .empty tokens with
  | error fault => simp [taken] at read
  | ok a =>
    rw [taken] at read
    obtain ⟨items, holds⟩ := Assembly.takeAll_holds positive (Assembly.holds_empty c _) taken
    rcases Assembly.finish_holds holds read with empty | ⟨e, call, fits, listed, same⟩
    · exact .inl empty
    · exact .inr ⟨e, ⟨call, fits, listed⟩, same⟩

theorem listedBy_unique {c : Catalog} {allowed : Option ArgumentSet} {tokens : List Token}
    {e f : Expression} (one : e.ListedBy c allowed tokens) (other : f.ListedBy c allowed tokens) :
    e = f :=
  listing_injective one.fits other.fits (one.listing.trans other.listing.symm)

/-- Reading the nested form succeeds for the empty listing and for the listing of one call, which
    is then the only one; the program is the linear listing of that call. -/
theorem ofNested_ok_iff_one_call {c : Catalog} (positive : c.Positive)
    (allowed : Option ArgumentSet) (tokens : List Token) :
    ((∃ p, ofNested c allowed tokens = .ok p) ↔
        tokens = [] ∨ ∃! e : Expression, e.ListedBy c allowed tokens) ∧
      (tokens = [] → ofNested c allowed tokens = .ok []) ∧
      ∀ e : Expression, e.ListedBy c allowed tokens →
        ofNested c allowed tokens = .ok (operations 0 e) := by
  have empty : tokens = [] → ofNested c allowed tokens = .ok [] := by
    rintro rfl
    rfl
  refine ⟨?_, empty, ?_⟩
  · constructor
    · rintro ⟨p, read⟩
      rcases ofNested_eq_ok positive read with ⟨none, _⟩ | ⟨e, listed, _⟩
      · exact .inl none
      · refine .inr ⟨e, listed, ?_⟩
        intro f other
        exact listedBy_unique other listed
    · rintro (none | ⟨e, listed, _⟩)
      · exact ⟨[], empty none⟩
      · exact ⟨operations 0 e, ofNested_listing positive listed⟩
  · intro e listed
    exact ofNested_listing positive listed

theorem ofNested_of_sibling_calls :
    Catalog.builtin.Positive ∧
      ofNested .builtin none ["add", "sqrt", "n0", "multiply", "n1", "negate", "const_2"] =
        .ok [⟨"sqrt", ["n0"]⟩, ⟨"negate", ["const_2"]⟩, ⟨"multiply", ["n1", "#1"]⟩,
          ⟨"add", ["#0", "#2"]⟩] := by
  have listed : Expression.ListedBy .builtin none
      ["add", "sqrt", "n0", "multiply", "n1", "negate", "const_2"]
      (.call "add" [.call "sqrt" [.leaf "n0"],
        .call "multiply" [.leaf "n1", .call "negate" [.leaf "const_2"]]]) := by
    refine ⟨trivial, ?_, rfl⟩
    simp only [Fits, AllFit, and_true]
    decide +kernel
  refine ⟨Catalog.builtin_positive, ?_⟩
  rw [(ofNested_ok_iff_one_call Catalog.builtin_positive none _).2.2 _ listed]
  rfl

end Program

end WordProblem
