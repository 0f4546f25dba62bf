import WordProblem.Number
import WordProblem.Numeral
import WordProblem.Text

/-!
Answer options: five groups separated by a comma with a space after it. A group shows a plain
number, a ratio `x : y` or fraction `x / y`, or a mixed number `w x / y`; commas inside it only
group digits. A group that cannot be read leaves its slot empty.
-/
namespace WordProblem

inductive OptionFault where
  | wrongCount (found : Nat)
  | unknownLabel (label : String)
  deriving DecidableEq, Repr

def OptionFault.message : OptionFault → String
  | .wrongCount found => s!"Expected 5 options but found {found}."
  | .unknownLabel label => s!"Invalid option label '{label}', expected one of a, b, c, d, e."

structure OptionSet where
  slots : List (Option Number)
  five : slots.length = 5
  deriving DecidableEq, Repr

namespace OptionSet

def labels : List Char := ['a', 'b', 'c', 'd', 'e']

def empty : OptionSet := ⟨List.replicate 5 none, rfl⟩

def get? (s : OptionSet) (index : Nat) : Option (Option Number) := s.slots[index]?

def byLabel? (s : OptionSet) (label : Char) : Option (Option Number) :=
  (labels.idxOf? label.toLower).bind s.get?

def goldValue (s : OptionSet) (label : String) : Except OptionFault (Option Number) :=
  let slot := match Text.trim label.toList with
    | [c] => s.byLabel? c
    | _ => none
  match slot with
  | some value => .ok value
  | none => .error (.unknownLabel label)

def slotChars : Option Number → List Char
  | none => ['-']
  | some value => value.chars

def chars (s : OptionSet) : List Char :=
  [',', ' '].intercalate
    ((labels.zip s.slots).map fun slot => slot.1 :: ')' :: ' ' :: slotChars slot.2)

def text (s : OptionSet) : String := String.ofList s.chars

/-- The quotient of the first numerals on both sides of the first separator. -/
def ratio (separator : Char) (group : List Char) : Option Number := do
  let (before, after) ← Text.cutAt separator group
  let x ← Numeral.firstValue? before
  let y ← Numeral.firstValue? after
  if y == 0.0 then none else some (.rounded (x / y))

/-- A whole number and a fraction, of which only the denominator follows the separator. -/
def mixed (separator : Char) (group : List Char) : Option Number := do
  let (before, after) ← Text.cutAt separator group
  match Numeral.scan before with
  | w :: x :: _ =>
    let y ← Numeral.firstValue? after
    if y == 0.0 then none else some (.rounded (w.value + x.value / y))
  | _ => none

/-- Two numerals are tried as a ratio before a fraction, three as a mixed number with a slash
    before one with a colon. Anything else counts for its first numeral. -/
def readGroup (group : List Char) : Option Number :=
  match Numeral.scan group with
  | [] => none
  | [x, _] =>
    if ':' ∈ group then ratio ':' group
    else if '/' ∈ group then ratio '/' group
    else some (.canonical x.value)
  | [x, _, _] =>
    if '/' ∈ group then mixed '/' group
    else if ':' ∈ group then mixed ':' group
    else some (.canonical x.value)
  | x :: _ => some (.canonical x.value)

def ofChars (s : List Char) : Except OptionFault OptionSet :=
  let groups := Text.splitOnPair ',' ' ' s
  if h : groups.length = 5 then
    .ok ⟨groups.map fun group => readGroup (group.filter (· != ',')), by simp [h]⟩
  else .error (.wrongCount groups.length)

def ofText (text : String) : Except OptionFault OptionSet := ofChars text.toList

end OptionSet

end WordProblem
