import WordProblem.Catalog
import WordProblem.Fault
import WordProblem.Program

/-!
The nested form: the arguments of a call may be calls. It is read from the left with a stack of
open calls and a stack of arguments that wait for one. A call that has all its arguments becomes
an operation, and a reference to its result waits in their place.
-/
namespace WordProblem

structure NestedFault where
  fault : ReadingFault
  emitted : Program
  deriving DecidableEq, Repr

/-- An open call; `base` arguments were waiting when it was opened. -/
structure Frame where
  operator : Token
  arity : Nat
  base : Nat
  deriving DecidableEq, Repr

/-- Both stacks have their newest element first. -/
structure Assembly where
  frames : List Frame
  waiting : List Token
  emitted : Program
  deriving DecidableEq, Repr

namespace Assembly

def empty : Assembly := ⟨[], [], []⟩

/-- Completes calls from the innermost one outwards, as long as there are enough arguments. -/
def settle (waiting : List Token) (emitted : Program) : List Frame → Assembly
  | [] => ⟨[], waiting, emitted⟩
  | frame :: outer =>
    if frame.arity ≤ waiting.length - frame.base then
      settle (Token.reference emitted.length :: waiting.drop frame.arity)
        (emitted ++ [⟨frame.operator, (waiting.take frame.arity).reverse⟩]) outer
    else ⟨frame :: outer, waiting, emitted⟩

def admits (allowed : Option ArgumentSet) (t : Token) : Bool :=
  match allowed with
  | none => t.hasArgumentShape
  | some set => set.admits t

theorem admits_iff {allowed : Option ArgumentSet} {t : Token} :
    admits allowed t = true ↔
      (∃ set, allowed = some set ∧ t ∈ set.members) ∨
        allowed = none ∧ t.hasArgumentShape = true := by
  cases allowed with
  | none => simp [admits]
  | some set => simp [admits, ArgumentSet.admits_iff]

def take (c : Catalog) (allowed : Option ArgumentSet) (position : Nat) (a : Assembly) (t : Token) :
    Except NestedFault Assembly :=
  match c.arity? t with
  | some arity => .ok { a with frames := ⟨t, arity, a.waiting.length⟩ :: a.frames }
  | none =>
    if !admits allowed t then .error ⟨.invalidArgument t position, []⟩
    else if a.frames.isEmpty then .error ⟨.orphanArgument t position, a.emitted⟩
    else .ok (settle (t :: a.waiting) a.emitted a.frames)

def takeAll (c : Catalog) (allowed : Option ArgumentSet) (position : Nat) (a : Assembly) :
    List Token → Except NestedFault Assembly
  | [] => .ok a
  | t :: rest =>
    match take c allowed position a t with
    | .error fault => .error fault
    | .ok next => takeAll c allowed (position + 1) next rest

/-- The last waiting argument, when it is a reference, is the answer of the program. -/
def leftover (a : Assembly) : List Token :=
  match a.waiting with
  | [] => []
  | last :: rest => if Token.isReference last then rest else last :: rest

def finish (a : Assembly) : Except NestedFault Program :=
  if !a.leftover.isEmpty then .error ⟨.leftoverArguments a.leftover.reverse, []⟩
  else if !a.frames.isEmpty then
    .error ⟨.unfinishedOperators (a.frames.reverse.map Frame.operator), []⟩
  else .ok a.emitted

end Assembly

namespace Program

def ofNested (c : Catalog) (allowed : Option ArgumentSet) (tokens : List Token) :
    Except NestedFault Program :=
  match Assembly.takeAll c allowed 0 .empty tokens with
  | .error fault => .error fault
  | .ok a => a.finish

def ofNestedSource (c : Catalog) (allowed : Option ArgumentSet) (source : String) :
    Except NestedFault Program :=
  ofNested c allowed (Token.ofSource source)

end Program

end WordProblem
