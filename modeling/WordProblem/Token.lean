import WordProblem.Text

/-!
The words of a program text. Layout is white space, commas, parentheses and bars alike, so a
program reads the same with or without its punctuation. What a word means as an argument shows
in its first characters.
-/
namespace WordProblem

abbrev Token := String

namespace Token

def isDelimiter (c : Char) : Bool :=
  Text.isBlank c || c == ',' || c == '(' || c == ')' || c == '|'

def ofSource (source : String) : List Token :=
  (Text.runs isDelimiter source.toList).map String.ofList

def constantMark : List Char := "const_".toList

theorem constantMark_chars : constantMark = ['c', 'o', 'n', 's', 't', '_'] := by decide

/-- The index of a placeholder `n<digits>`, when it is a machine word. -/
def placeholder? (t : Token) : Option Nat :=
  match t.toList with
  | 'n' :: index => Digits.word? index
  | _ => none

def hasArgumentShape (t : Token) : Bool :=
  match Text.after? constantMark t.toList with
  | some digits => Digits.isNumeric digits
  | none =>
    match t.toList with
    | 'n' :: index => Digits.isNumeric index
    | _ => false

theorem hasArgumentShape_iff {t : Token} :
    t.hasArgumentShape = true ↔
      ∃ digits, digits ≠ [] ∧ (∀ d ∈ digits, d.isDigit = true) ∧
        (t.toList = 'n' :: digits ∨ t.toList = constantMark ++ digits) := by
  constructor
  · intro shaped
    unfold hasArgumentShape at shaped
    split at shaped
    · rename_i digits constant
      obtain ⟨some_digit, all_digits⟩ := Digits.isNumeric_iff.mp shaped
      exact ⟨digits, some_digit, all_digits, .inr (Text.after?_eq_some_iff.mp constant)⟩
    · split at shaped
      · rename_i index placeholder
        obtain ⟨some_digit, all_digits⟩ := Digits.isNumeric_iff.mp shaped
        exact ⟨index, some_digit, all_digits, .inl placeholder⟩
      · cases shaped
  · rintro ⟨digits, some_digit, all_digits, shape⟩
    have numeric := Digits.isNumeric_iff.mpr ⟨some_digit, all_digits⟩
    rcases shape with placeholder | constant
    · simp [hasArgumentShape, placeholder, constantMark_chars, Text.after?, numeric]
    · simp only [hasArgumentShape, Text.after?_eq_some_iff.mpr constant, numeric]

def reference (index : Nat) : Token := String.ofList ('#' :: Digits.text index)

def isReference (t : Token) : Bool := t.toList.head? == some '#'

end Token

inductive Argument where
  | placeholder (index : Nat)
  | reference (index : String)
  | constant (name : String)
  | literal (text : String)
  deriving DecidableEq, Repr

def Argument.ofToken (t : Token) : Argument :=
  match t.placeholder? with
  | some index => .placeholder index
  | none =>
    match t.toList with
    | '#' :: index => .reference (String.ofList index)
    | s =>
      match Text.after? Token.constantMark s with
      | some name => .constant (String.ofList name)
      | none => .literal t

example :
    Argument.ofToken "n007" = .placeholder 7 ∧ Argument.ofToken "n" = .literal "n" ∧
      Argument.ofToken "#x" = .reference "x" ∧ Argument.ofToken "const_pi" = .constant "pi" := by
  decide +kernel

/-- Past the machine words a placeholder is a literal, though it keeps its shape. -/
example :
    Argument.ofToken "n18446744073709551616" = .literal "n18446744073709551616" ∧
      Token.hasArgumentShape "n18446744073709551616" = true := by
  decide +kernel

structure ArgumentSet where
  members : List Token
  deriving DecidableEq, Repr

namespace ArgumentSet

def ofList (tokens : List Token) : ArgumentSet :=
  ⟨tokens.eraseDups.mergeSort fun a b => a ≤ b⟩

def ofSource (source : String) : ArgumentSet :=
  ofList ((Text.entries source.toList).map String.ofList)

def admits (s : ArgumentSet) (t : Token) : Bool := s.members.contains t

theorem admits_iff {s : ArgumentSet} {t : Token} : s.admits t = true ↔ t ∈ s.members := by
  rw [admits, List.contains_iff_mem]

theorem admits_ofList_iff {tokens : List Token} {t : Token} :
    (ofList tokens).admits t = true ↔ t ∈ tokens := by
  rw [admits_iff, ofList, List.mem_mergeSort, List.mem_eraseDups]

end ArgumentSet

end WordProblem
