import WordProblem.Token

namespace WordProblem

structure Operation where
  operator : Token
  arguments : List Token
  deriving DecidableEq, Repr

namespace Operation

def tokens (op : Operation) : List Token := op.operator :: op.arguments

def chars (op : Operation) : List Char :=
  op.operator.toList ++ '(' :: ([','].intercalate (op.arguments.map String.toList) ++ [')'])

def text (op : Operation) : String := String.ofList op.chars

end Operation

abbrev Program := List Operation

namespace Program

def tokens (p : Program) : List Token := p.flatMap Operation.tokens

def chars (p : Program) : List Char := ['|'].intercalate (p.map Operation.chars)

def text (p : Program) : String := String.ofList p.chars

def mapArguments (f : Token → Token) (p : Program) : Program :=
  p.map fun op => { op with arguments := op.arguments.map f }

/-- Arguments are counted through the whole program; beyond the last one nothing changes. -/
def setArgument (token : Token) : Nat → Program → Program
  | _, [] => []
  | index, op :: rest =>
    if index < op.arguments.length then
      { op with arguments := op.arguments.set index token } :: rest
    else op :: setArgument token (index - op.arguments.length) rest

theorem tokens_cons (op : Operation) (p : Program) :
    tokens (op :: p) = op.operator :: (op.arguments ++ tokens p) := rfl

theorem tokens_append (p q : Program) : tokens (p ++ q) = tokens p ++ tokens q := by
  simp [tokens]

theorem mapArguments_append (f : Token → Token) (p q : Program) :
    mapArguments f (p ++ q) = mapArguments f p ++ mapArguments f q := by
  simp [mapArguments]

theorem mapArguments_length (f : Token → Token) (p : Program) :
    (mapArguments f p).length = p.length := by
  simp [mapArguments]

end Program

namespace Binding

/-- Digits, or digits on both sides of the first point. -/
def isPlain (s : List Char) : Bool :=
  Digits.isNumeric s ||
    match Text.cutAt '.' s with
    | some (whole, places) => Digits.isNumeric whole && Digits.isNumeric places
    | none => false

/-- The words of a text that are numerals once their commas are dropped. -/
def numerals (text : String) : List Token :=
  (((Text.words text.toList).map fun word => word.filter (· != ',')).filter isPlain).map
    String.ofList

def fallback : Token := "1"

/-- A placeholder counts the numerals from zero. One that counts past the last stands for the
    first, and for 1 when there is none. -/
def bind (numerals : List Token) (t : Token) : Token :=
  match t.placeholder? with
  | none => t
  | some index => (numerals[index]?).getD (numerals.head?.getD fallback)

end Binding

/-- Only arguments are bound, operators never. -/
def Program.bind (numerals : List Token) (p : Program) : Program :=
  p.mapArguments (Binding.bind numerals)

theorem Binding.bind_of_not_placeholder {numerals : List Token} {t : Token}
    (h : t.placeholder? = none) : bind numerals t = t := by
  simp [bind, h]

end WordProblem
