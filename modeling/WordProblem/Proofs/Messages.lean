import WordProblem.Fault
import WordProblem.Number
import WordProblem.Token

/-!
Messages take one line. A message quotes some tokens and adds numbers and fixed words to them, so
it has a line end only if one of the tokens has.
-/
namespace WordProblem

namespace Text

def OneLine (s : String) : Prop := '\n' ∉ s.toList

instance (s : String) : Decidable (OneLine s) := inferInstanceAs (Decidable ('\n' ∉ s.toList))

theorem oneLine_append {s t : String} : OneLine (s ++ t) ↔ OneLine s ∧ OneLine t := by
  simp [OneLine]

theorem oneLine_ofList {s : List Char} : OneLine (String.ofList s) ↔ '\n' ∉ s := by
  simp [OneLine]

theorem oneLine_toString {s : String} : OneLine (toString s) ↔ OneLine s := Iff.rfl

theorem newline_not_mem_toDigits (n : Nat) : '\n' ∉ Nat.toDigits 10 n := by
  apply Digits.not_mem_of_digits (by decide)
  intro c mem
  exact Nat.isDigit_of_mem_toDigits (by omega) (by omega) mem

theorem oneLine_nat (n : Nat) : OneLine (toString n) := by
  simpa [OneLine] using newline_not_mem_toDigits n

theorem newline_not_mem_intercalate {sep : List Char} (joint : '\n' ∉ sep)
    {pieces : List (List Char)} (lines : ∀ s ∈ pieces, '\n' ∉ s) :
    '\n' ∉ sep.intercalate pieces := by
  induction pieces with
  | nil => simp
  | cons s rest ih =>
    have first : '\n' ∉ s := lines s (by simp)
    cases rest with
    | nil => simpa using first
    | cons next more =>
      have others := ih fun t mem => lines t (List.mem_cons_of_mem s mem)
      rw [List.intercalate_cons_cons]
      simp only [List.mem_append, not_or]
      exact ⟨⟨first, joint⟩, others⟩

theorem oneLine_intercalate {pieces : List String} (lines : ∀ s ∈ pieces, OneLine s) :
    OneLine (", ".intercalate pieces) := by
  rw [OneLine, String.toList_intercalate]
  refine newline_not_mem_intercalate (by decide) ?_
  intro piece mem
  obtain ⟨s, member, rfl⟩ := List.mem_map.mp mem
  exact lines s member

end Text

open Text

theorem Binary64.newline_not_mem_decimal (d : Decimal) : '\n' ∉ d.chars := by
  have digits := newline_not_mem_toDigits d.digits
  have zeros : ∀ n, '\n' ∉ List.replicate n '0' := by
    intro n mem
    exact absurd (List.eq_of_mem_replicate mem) (by decide)
  simp only [Decimal.chars]
  split
  · simp [digits, zeros]
  · split
    · simp only [List.mem_append, List.mem_cons, not_or]
      exact ⟨fun mem => digits (List.mem_of_mem_take mem), by decide,
        fun mem => digits (List.mem_of_mem_drop mem)⟩
    · simp [digits, zeros]

theorem Binary64.oneLine_text (x : Float) : OneLine (text x) := by
  rw [text, oneLine_ofList, chars]
  split
  · split
    · decide
    · split <;> decide
  · rename_i p _
    have magnitude : '\n' ∉ if p.mantissa = 0 then ['0'] else (shortest p).chars := by
      split
      · decide
      · exact newline_not_mem_decimal _
    dsimp only
    split
    · simpa using magnitude
    · exact magnitude

theorem Number.oneLine_text (n : Number) : OneLine n.text := by
  cases n with
  | integer value =>
    rw [text, oneLine_ofList, chars, Digits.text]
    simp only [List.mem_append, not_or]
    exact ⟨by split <;> decide, newline_not_mem_toDigits _⟩
  | real value => exact Binary64.oneLine_text value

def ReadingFault.quoted : ReadingFault → List Token
  | .invalidArgument token _ => [token]
  | .orphanArgument token _ => [token]
  | .leftoverArguments arguments => arguments
  | .unfinishedOperators operators => operators
  | .expectedOperator token _ => [token]
  | .missingArguments operator _ _ => [operator]
  | .unexpectedArgument token _ => [token]

def StepFault.quoted : StepFault → List Token
  | .unknownOperator name => [name]
  | .arityMismatch operator _ _ => [operator]
  | .invalidConstant token => [token]
  | .invalidLiteral token => [token]
  | .refused operator _ => [operator]
  | .malformedReference token => [token]
  | .referenceOutOfBounds _ _ => []
  | .unboundPlaceholder token => [token]

def Fault.quoted : Fault → List Token
  | .reading fault => fault.quoted
  | .step _ fault => fault.quoted

theorem ReadingFault.oneLine_message {fault : ReadingFault}
    (lines : ∀ t ∈ fault.quoted, OneLine t) : OneLine fault.message := by
  unfold message
  cases fault with
  | leftoverArguments arguments =>
    have joined : OneLine (", ".intercalate arguments) := oneLine_intercalate lines
    simp +decide only [oneLine_append, joined]
  | unfinishedOperators operators =>
    have joined : OneLine (", ".intercalate operators) := oneLine_intercalate lines
    simp +decide only [oneLine_append, joined]
  | _ =>
    simp only [quoted, List.forall_mem_singleton] at lines
    simp +decide only [oneLine_append, oneLine_toString, oneLine_nat, lines]

theorem Unsuitable.oneLine_details (why : Unsuitable) : OneLine why.details := by
  unfold details
  cases why <;>
    simp +decide only [oneLine_append, oneLine_nat, Binary64.oneLine_text]

theorem StepFault.oneLine_message {fault : StepFault} (step : Nat)
    (lines : ∀ t ∈ fault.quoted, OneLine t) : OneLine (fault.message step) := by
  unfold message
  cases fault with
  | refused operator why =>
    simp only [quoted, List.forall_mem_singleton] at lines
    cases why <;>
      simp +decide only [oneLine_append, oneLine_toString, oneLine_nat, lines,
        Unsuitable.oneLine_details]
  | referenceOutOfBounds index held =>
    simp +decide only [oneLine_append, oneLine_nat]
  | _ =>
    simp only [quoted, List.forall_mem_singleton] at lines
    simp +decide only [oneLine_append, oneLine_toString, oneLine_nat, lines]

theorem Fault.oneLine_message {fault : Fault} (lines : ∀ t ∈ fault.quoted, OneLine t) :
    OneLine fault.message := by
  have details : OneLine fault.details := by
    cases fault with
    | reading fault => exact ReadingFault.oneLine_message lines
    | step number fault => exact StepFault.oneLine_message number lines
  unfold message
  split <;> simp +decide only [oneLine_append, details]

end WordProblem
