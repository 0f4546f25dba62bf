import Mathlib.Data.Fintype.EquivFin
import WordProblem.Proofs.Fragment

namespace WordProblem

def ReadingFault.position? : ReadingFault → Option Nat
  | .invalidArgument _ position => some position
  | .orphanArgument _ position => some position
  | .leftoverArguments _ => none
  | .unfinishedOperators _ => none
  | .expectedOperator _ position => some position
  | .missingArguments _ _ position => some position
  | .unexpectedArgument _ position => some position

theorem Catalog.exists_not_operator (c : Catalog) : ∃ t : Token, c.arity? t = none := by
  obtain ⟨t, other⟩ := Infinite.exists_notMem_finset (c.entries.map Prod.fst).toFinset
  refine ⟨t, ?_⟩
  rw [Catalog.arity?, Option.map_eq_none_iff, List.find?_eq_none]
  intro entry mem named
  rw [beq_iff_eq] at named
  exact other (List.mem_toFinset.mpr (List.mem_map.mpr ⟨entry, mem, named⟩))

namespace Program

def Valid (c : Catalog) (tokens : List Token) : Prop := ∃ p : Program, p.Groups c none tokens

def Extendable (c : Catalog) (tokens : List Token) : Prop := ∃ more, Valid c (tokens ++ more)

def LastOperator (c : Catalog) (tokens : List Token) (operator : Token) : Prop :=
  ∃ before arguments, tokens = before ++ operator :: arguments ∧ c.contains operator = true ∧
    ∀ t ∈ arguments, c.arity? t = none

/-- The fault is reported at the first token that leaves no continuation, or at the end when there
    is no such token; and it tells what the tokens before it still need. -/
structure ExactFault (c : Catalog) (tokens : List Token) (fault : ReadingFault)
    (position : Nat) : Prop where
  reported : fault.position? = some position
  inside : position ≤ tokens.length
  before : Extendable c (tokens.take position)
  after : position < tokens.length → ¬ Extendable c (tokens.take (position + 1))
  short : position = tokens.length → ¬ Valid c tokens
  missing_iff : (∃ operator remaining, fault = .missingArguments operator remaining position) ↔
    ¬ Valid c (tokens.take position)
  missing : ∀ operator remaining, fault = .missingArguments operator remaining position →
    LastOperator c (tokens.take position) operator ∧
      ∀ more, (∀ t ∈ more, c.arity? t = none) →
        (Valid c (tokens.take position ++ more) ↔ more.length = remaining)
  expected_iff : ∀ t, fault = .expectedOperator t position ↔
    tokens.head? = some t ∧ c.arity? t = none
  unexpected_iff : ∀ t, fault = .unexpectedArgument t position ↔
    (tokens.take position ≠ [] ∧ Valid c (tokens.take position)) ∧
      tokens[position]? = some t ∧ c.arity? t = none

variable {c : Catalog}

theorem valid_iff {tokens : List Token} : Valid c tokens ↔ check c none tokens = .ok () :=
  check_eq_ok_iff.symm

theorem valid_nil (c : Catalog) : Valid c [] := ⟨[], by simp, rfl⟩

theorem not_valid_of_argument {t : Token} (argument : c.arity? t = none) (rest : List Token) :
    ¬ Valid c (t :: rest) := by
  rw [valid_iff, check, argument]
  simp

end Program

namespace Fragment
variable {c : Catalog} {f : Fragment} {lacking : Nat}

/-- What makes a valid program of a fragment: the arguments that it lacks, and then any valid
    program. -/
theorem Lacks.valid_append_iff (lacks : f.Lacks c none lacking) (more : List Token) :
    Program.Valid c (f.tokens ++ more) ↔ ∃ arguments rest, more = arguments ++ rest ∧
      arguments.length = lacking ∧ (∀ t ∈ arguments, c.arity? t = none) ∧
      Program.Valid c rest := by
  rw [Program.valid_iff, lacks.check]
  constructor
  · intro accepted
    obtain ⟨arguments, rest, p, split, count, fit, groups⟩ := Program.groups_of_checkFrom accepted
    exact ⟨arguments, rest, split, count, fun t mem => (fit t mem).1, p, groups⟩
  · rintro ⟨arguments, rest, rfl, rfl, fit, p, groups⟩
    have admits : ∀ t ∈ arguments, c.arity? t = none ∧ admitted none t = true := by
      intro t mem
      exact ⟨fit t mem, admitted_iff.mpr (by simp)⟩
    rw [Program.checkFrom_all_arguments admits, ← groups.listing]
    exact Program.checkFrom_tokens groups.fit _ _

theorem Lacks.valid_arguments_iff (lacks : f.Lacks c none lacking) {more : List Token}
    (arguments : ∀ t ∈ more, c.arity? t = none) :
    Program.Valid c (f.tokens ++ more) ↔ more.length = lacking := by
  rw [lacks.valid_append_iff]
  constructor
  · rintro ⟨first, rest, rfl, rfl, _, valid⟩
    cases rest with
    | nil => simp
    | cons t others => exact absurd valid (Program.not_valid_of_argument (arguments t (by simp)) _)
  · intro count
    exact ⟨more, [], by simp, count, arguments, Program.valid_nil c⟩

theorem Lacks.valid_iff (lacks : f.Lacks c none lacking) :
    Program.Valid c f.tokens ↔ lacking = 0 := by
  have nothing : ∀ t ∈ ([] : List Token), c.arity? t = none := by simp
  simpa [eq_comm] using lacks.valid_arguments_iff nothing

theorem Lacks.extendable (lacks : f.Lacks c none lacking) : Program.Extendable c f.tokens := by
  obtain ⟨t, argument⟩ := c.exists_not_operator
  refine ⟨List.replicate lacking t, (lacks.valid_arguments_iff ?_).mpr List.length_replicate⟩
  intro u mem
  rw [List.eq_of_mem_replicate mem]
  exact argument

theorem Lacks.lastOperator (lacks : f.Lacks c none lacking) :
    Program.LastOperator c f.tokens f.operator := by
  refine ⟨f.complete.tokens, f.arguments, rfl, by simp [Catalog.contains, lacks.arity], ?_⟩
  intro t mem
  exact (lacks.arguments t mem).1

theorem Lacks.head?_append (lacks : f.Lacks c none lacking) (rest : List Token) :
    ∃ t, (f.tokens ++ rest).head? = some t ∧ c.arity? t ≠ none := by
  obtain ⟨complete, operator, arguments⟩ := f
  cases complete with
  | nil => exact ⟨operator, rfl, by simp [lacks.arity]⟩
  | cons op more =>
    have takes := (lacks.fit op (by simp)).1
    exact ⟨op.operator, rfl, by simp [takes]⟩

section
variable {rest : List Token} {fault : ReadingFault} (stops : f.Stops c none lacking rest fault)
include stops

theorem Stops.not_extendable (lacks : f.Lacks c none lacking) {t : Token} {others : List Token}
    (next : rest = t :: others) : ¬ Program.Extendable c (f.tokens ++ [t]) := by
  rintro ⟨more, valid⟩
  rw [List.append_assoc, lacks.valid_append_iff] at valid
  obtain ⟨arguments, left, split, count, fit, valid⟩ := valid
  cases stops with
  | ended => cases next
  | interrupted incomplete u known _ =>
    cases next
    cases arguments with
    | nil => exact incomplete count.symm
    | cons v _ =>
      obtain ⟨rfl, _⟩ := List.cons.inj split
      exact known (fit t (by simp))
  | outside _ _ _ refused _ => cases refused
  | surplus complete u argument _ =>
    cases next
    have none_left : arguments = [] := List.eq_nil_of_length_eq_zero (count.trans complete)
    rw [none_left, List.nil_append] at split
    rw [← split] at valid
    exact Program.not_valid_of_argument argument more valid

theorem Stops.position? : fault.position? = some f.tokens.length := by
  cases stops <;> rfl

theorem Stops.missing_iff :
    (∃ operator remaining, fault = .missingArguments operator remaining f.tokens.length) ↔
      lacking ≠ 0 := by
  cases stops with
  | ended incomplete => simp [incomplete]
  | interrupted incomplete t known rest => simp [incomplete]
  | outside _ _ _ refused _ => cases refused
  | surplus complete t argument rest => simp [complete]

theorem Stops.of_missing {operator : Token} {remaining position : Nat}
    (missing : fault = .missingArguments operator remaining position) :
    f.operator = operator ∧ lacking = remaining := by
  subst missing
  cases stops <;> exact ⟨rfl, rfl⟩

theorem Stops.unexpected_iff {t : Token} :
    fault = .unexpectedArgument t f.tokens.length ↔
      lacking = 0 ∧ rest.head? = some t ∧ c.arity? t = none := by
  cases stops with
  | ended incomplete => simp
  | interrupted incomplete u known rest => simp [incomplete]
  | outside _ _ _ refused _ => cases refused
  | surplus complete u argument rest =>
    simp only [ReadingFault.unexpectedArgument.injEq, and_true, complete, true_and,
      List.head?_cons, Option.some.injEq]
    constructor
    · rintro rfl
      exact ⟨rfl, argument⟩
    · exact And.left

end

end Fragment

namespace Program

theorem exactFault_of_argument {c : Catalog} {t : Token} (argument : c.arity? t = none)
    (rest : List Token) : ExactFault c (t :: rest) (.expectedOperator t 0) 0 where
  reported := rfl
  inside := Nat.zero_le _
  before := ⟨[], valid_nil c⟩
  after := by
    rintro - ⟨more, valid⟩
    exact not_valid_of_argument argument more (by simpa using valid)
  short := by simp
  missing_iff := by simp [valid_nil c]
  missing := by simp
  expected_iff u := by
    simp only [ReadingFault.expectedOperator.injEq, and_true, List.head?_cons, Option.some.injEq]
    constructor
    · rintro rfl
      exact ⟨rfl, argument⟩
    · exact And.left
  unexpected_iff := by simp

theorem exactFault_of_stops {c : Catalog} {f : Fragment} {lacking : Nat} {rest : List Token}
    {fault : ReadingFault} (lacks : f.Lacks c none lacking)
    (stops : f.Stops c none lacking rest fault) :
    ExactFault c (f.tokens ++ rest) fault f.tokens.length where
  reported := stops.position?
  inside := by simp
  before := by
    rw [List.take_left]
    exact lacks.extendable
  after more := by
    cases rest with
    | nil => simp at more
    | cons t others =>
      rw [List.take_length_add_append, List.take_one, List.head?_cons, Option.toList_some]
      exact stops.not_extendable lacks rfl
  short complete := by
    have nothing : rest = [] := by simpa using complete
    subst nothing
    rw [List.append_nil, lacks.valid_iff]
    cases stops with
    | ended incomplete => exact incomplete
  missing_iff := by rw [List.take_left, lacks.valid_iff, stops.missing_iff]
  missing operator remaining same := by
    obtain ⟨rfl, rfl⟩ := stops.of_missing same
    rw [List.take_left]
    exact ⟨lacks.lastOperator, fun more arguments => lacks.valid_arguments_iff arguments⟩
  expected_iff t := by
    obtain ⟨u, first, known⟩ := lacks.head?_append rest
    constructor
    · rintro rfl
      cases stops
    · rintro ⟨head, argument⟩
      rw [first, Option.some.injEq] at head
      rw [head] at known
      exact absurd argument known
  unexpected_iff t := by
    rw [List.take_left, lacks.valid_iff, stops.unexpected_iff, List.getElem?_append_right
      (Nat.le_refl _), Nat.sub_self, ← List.head?_eq_getElem?]
    simp [f.tokens_ne_nil]

/-- Without a set of arguments a listing is refused at the earliest possible token: what comes before
    it can be continued to a valid program, and with it no longer. The kind of the fault, the
    operator and the number of missing arguments tell exactly what the part before it needs. -/
theorem check_error_exact {c : Catalog} {tokens : List Token} {fault : ReadingFault}
    (refused : check c none tokens = .error fault) :
    ∃ position, ExactFault c tokens fault position := by
  rcases check_error refused with
    ⟨t, rest, rfl, argument, rfl⟩ | ⟨f, lacking, after, rfl, lacks, stops⟩
  · exact ⟨0, exactFault_of_argument argument rest⟩
  · exact ⟨f.tokens.length, exactFault_of_stops lacks stops⟩

/-- An operator where an argument of the sum should stand; the operation before the sum is complete
    and no longer counts. -/
theorem check_error_of_interrupted_sum :
    check .builtin none ["sqrt", "n0", "add", "n1", "sqrt", "n2"] =
        .error (.missingArguments "add" 1 4) ∧
      ExactFault .builtin ["sqrt", "n0", "add", "n1", "sqrt", "n2"]
        (.missingArguments "add" 1 4) 4 := by
  have refused : check .builtin none ["sqrt", "n0", "add", "n1", "sqrt", "n2"] =
      .error (.missingArguments "add" 1 4) := by
    decide +kernel
  obtain ⟨position, exact⟩ := check_error_exact refused
  have same : 4 = position := Option.some.inj exact.reported
  subst same
  exact ⟨refused, exact⟩

end Program

end WordProblem
