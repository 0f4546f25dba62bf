import WordProblem.Text
import WordProblem.Binary64

/-!
Numerals in running text: an optional minus sign, digits, and an optional point with any number
of digits after it. A numeral is as long as it can be, and everything between two of them is
skipped, a minus sign without a digit after it included.
-/
namespace WordProblem

structure Numeral where
  negative : Bool
  whole : List Char
  fraction : Option (List Char)
  deriving DecidableEq, Repr

namespace Numeral

def chars (n : Numeral) : List Char :=
  (if n.negative then ['-'] else []) ++ n.whole ++
    match n.fraction with
    | none => []
    | some places => '.' :: places

def text (n : Numeral) : String := String.ofList n.chars

def value (n : Numeral) : Float :=
  let places := n.fraction.getD []
  Binary64.nearest n.negative (Digits.value (n.whole ++ places)) (Nat.pow 10 places.length)

def readUnsigned (negative : Bool) (s : List Char) : Option (Numeral × List Char) :=
  let whole := s.takeWhile Char.isDigit
  if whole.isEmpty then none
  else
    match s.dropWhile Char.isDigit with
    | '.' :: rest =>
      some (⟨negative, whole, some (rest.takeWhile Char.isDigit)⟩, rest.dropWhile Char.isDigit)
    | rest => some (⟨negative, whole, none⟩, rest)

/-- The longest numeral at the start of a text, and what follows it. -/
def read? : List Char → Option (Numeral × List Char)
  | '-' :: s => readUnsigned true s
  | s => readUnsigned false s

theorem readUnsigned_parts {negative : Bool} {s rest : List Char} {n : Numeral}
    (h : readUnsigned negative s = some (n, rest)) :
    n.negative = negative ∧ n.whole ≠ [] ∧
      (if negative then '-' :: s else s) = n.chars ++ rest := by
  have split := List.takeWhile_append_dropWhile (p := Char.isDigit) (l := s)
  simp only [readUnsigned] at h
  by_cases none : (s.takeWhile Char.isDigit).isEmpty = true
  · simp [none] at h
  · simp only [none, Bool.false_eq_true, ↓reduceIte] at h
    have nonempty : s.takeWhile Char.isDigit ≠ [] := by simpa using none
    split at h
    · rename_i after eq
      obtain ⟨rfl, rfl⟩ := Prod.mk.inj (Option.some.inj h)
      rw [eq] at split
      have places := List.takeWhile_append_dropWhile (p := Char.isDigit) (l := after)
      refine ⟨rfl, nonempty, ?_⟩
      cases negative <;> simp [chars, places, split]
    · obtain ⟨rfl, rfl⟩ := Prod.mk.inj (Option.some.inj h)
      refine ⟨rfl, nonempty, ?_⟩
      cases negative <;> simp [chars, split]

theorem read?_eq_append {s rest : List Char} {n : Numeral} (h : read? s = some (n, rest)) :
    s = n.chars ++ rest ∧ n.whole ≠ [] := by
  unfold read? at h
  split at h
  · obtain ⟨_, nonempty, eq⟩ := readUnsigned_parts h
    exact ⟨by simpa using eq, nonempty⟩
  · obtain ⟨_, nonempty, eq⟩ := readUnsigned_parts h
    exact ⟨by simpa using eq, nonempty⟩

theorem chars_length_pos {n : Numeral} (h : n.whole ≠ []) : 0 < n.chars.length := by
  have := List.length_pos_iff.mpr h
  simp [chars]
  omega

theorem read?_rest_shorter {s rest : List Char} {n : Numeral} (h : read? s = some (n, rest)) :
    rest.length < s.length := by
  obtain ⟨rfl, nonempty⟩ := read?_eq_append h
  have := chars_length_pos nonempty
  simp only [List.length_append]
  omega

def scan (s : List Char) : List Numeral :=
  match _h : read? s with
  | some (n, rest) => n :: scan rest
  | none =>
    match s with
    | [] => []
    | _ :: rest => scan rest
termination_by s.length
decreasing_by
  · exact read?_rest_shorter _h
  · simp

def ofChars? (s : List Char) : Option Numeral :=
  match read? s with
  | some (n, []) => some n
  | _ => none

def scanText (s : String) : List Numeral := scan s.toList

def valueOf? (s : List Char) : Option Float := (ofChars? s).map value

def firstValue? (s : List Char) : Option Float := (scan s).head?.map value

end Numeral

end WordProblem
