import WordProblem.Formula.Table
import WordProblem.Text

/-!
Operator catalogs: which tokens are operators and how many arguments each takes. A catalog text
has one `name | arity` a line; the first line that breaks a rule is reported.
-/
namespace WordProblem

inductive ReadFault where
  | missing
  | denied
  | directory
  | notUtf8
  | refused (reason : String)
  deriving DecidableEq, Repr

def ReadFault.message : ReadFault → String
  | .missing => "No such file or directory (os error 2)"
  | .denied => "Permission denied (os error 13)"
  | .directory => "Is a directory (os error 21)"
  | .notUtf8 => "stream did not contain valid UTF-8"
  | .refused reason => reason

abbrev FileText := Except ReadFault String

def FileText.ofBytes (bytes : ByteArray) : FileText :=
  match String.fromUTF8? bytes with
  | some text => .ok text
  | none => .error .notUtf8

inductive CatalogFault where
  | malformedLine (content : String) (line : Nat)
  | invalidArity (value : String) (line : Nat)
  | duplicateOperator (name : String) (line : Nat)
  | unreadable (path : String) (fault : ReadFault)
  deriving DecidableEq, Repr

def CatalogFault.message : CatalogFault → String
  | .malformedLine content line =>
    s!"Error on line {line}: expected 'name | arity' but found '{content}'."
  | .invalidArity value line => s!"Error on line {line}: arity '{value}' is not a positive integer."
  | .duplicateOperator name line => s!"Error on line {line}: operator '{name}' is already defined."
  | .unreadable path fault => s!"Failed to read '{path}': " ++ fault.message ++ "."

structure Catalog where
  entries : List (String × Nat)
  distinct : (entries.map Prod.fst).Nodup

namespace Catalog

def empty : Catalog := ⟨[], by simp⟩

def arity? (c : Catalog) (name : String) : Option Nat :=
  (c.entries.find? fun entry => entry.1 == name).map Prod.snd

def contains (c : Catalog) (name : String) : Bool := (c.arity? name).isSome

def size (c : Catalog) : Nat := c.entries.length

theorem put_distinct (c : Catalog) (name : String) (arity : Nat) :
    ((c.entries.filter (fun entry => entry.1 != name) ++ [(name, arity)]).map Prod.fst).Nodup := by
  rw [List.map_append, List.nodup_append]
  refine ⟨(List.filter_sublist.map _).nodup c.distinct, by simp, ?_⟩
  intro a ha b hb
  simp only [List.mem_map, List.mem_filter] at ha
  obtain ⟨entry, ⟨_, other⟩, rfl⟩ := ha
  simp at hb
  subst b
  simpa using other

def put (c : Catalog) (name : String) (arity : Nat) : Catalog :=
  ⟨c.entries.filter (fun entry => entry.1 != name) ++ [(name, arity)], put_distinct c name arity⟩

def ofList (entries : List (String × Nat)) : Catalog :=
  entries.foldl (fun c entry => c.put entry.1 entry.2) empty

def builtin : Catalog := ofList (Formula.table.map fun f => (f.name, f.arity))

def sorted (c : Catalog) : List (String × Nat) := c.entries.mergeSort fun a b => a.1 ≤ b.1

def same (c d : Catalog) : Bool := c.sorted == d.sorted

/-- A positive machine word, with a plus sign or without. -/
def readArity? (s : List Char) : Option Nat :=
  let digits := match s with
    | '+' :: rest => rest
    | _ => s
  (Digits.word? digits).filter (0 < ·)

def readLine (line : List Char) (number : Nat) : Except CatalogFault (String × Nat) :=
  match Text.cutAt '|' line with
  | none => .error (.malformedLine (String.ofList line) number)
  | some (before, after) =>
    let name := Text.trim before
    if name.isEmpty then .error (.malformedLine (String.ofList line) number)
    else
      match readArity? (Text.trim after) with
      | none => .error (.invalidArity (String.ofList (Text.trim after)) number)
      | some arity => .ok (String.ofList name, arity)

/-- Lines are numbered from one, blank lines included. -/
def readLines (c : Catalog) (number : Nat) : List (List Char) → Except CatalogFault Catalog
  | [] => .ok c
  | line :: rest =>
    if (Text.trim line).isEmpty then readLines c (number + 1) rest
    else
      match readLine line number with
      | .error fault => .error fault
      | .ok (name, arity) =>
        if c.contains name then .error (.duplicateOperator name number)
        else readLines (c.put name arity) (number + 1) rest

def ofSource (source : String) : Except CatalogFault Catalog :=
  readLines empty 1 (Text.lines source.toList)

def ofFile (path : String) (text : FileText) : Except CatalogFault Catalog :=
  match text with
  | .ok source => ofSource source
  | .error fault => .error (.unreadable path fault)

theorem find?_without {entries : List (String × Nat)} {name other : String} (h : other ≠ name) :
    (entries.filter fun entry => entry.1 != name).find? (fun entry => entry.1 == other) =
      entries.find? fun entry => entry.1 == other := by
  induction entries with
  | nil => rfl
  | cons entry rest ih =>
    by_cases same : entry.1 = other
    · simp [same, h]
    · by_cases out : entry.1 = name
      · simp [out, Ne.symm h, ih]
      · simp [out, same, ih]

theorem arity?_put (c : Catalog) (name other : String) (arity : Nat) :
    (c.put name arity).arity? other = if other = name then some arity else c.arity? other := by
  simp only [arity?, put, List.find?_append]
  by_cases h : other = name
  · subst h
    have absent : (c.entries.filter fun entry => entry.1 != other).find?
        (fun entry => entry.1 == other) = none := by
      rw [List.find?_eq_none]
      intro entry mem
      simpa using (List.mem_filter.mp mem).2
    simp [absent]
  · rw [find?_without h]
    cases c.entries.find? fun entry => entry.1 == other <;> simp [h, Ne.symm h]

theorem arity?_empty (name : String) : empty.arity? name = none := rfl

def Positive (c : Catalog) : Prop :=
  ∀ name arity, c.arity? name = some arity → 0 < arity

theorem arity?_foldl_put {entries : List (String × Nat)}
    (distinct : (entries.map Prod.fst).Nodup) (c : Catalog) (name : String) :
    (entries.foldl (fun c entry => c.put entry.1 entry.2) c).arity? name =
      ((entries.find? fun entry => entry.1 == name).map Prod.snd).or (c.arity? name) := by
  induction entries generalizing c with
  | nil => rfl
  | cons entry rest ih =>
    simp only [List.map_cons, List.nodup_cons] at distinct
    rw [List.foldl_cons, ih distinct.2, arity?_put]
    by_cases same : entry.1 = name
    · subst same
      have absent : (rest.find? fun other => other.1 == entry.1) = none := by
        rw [List.find?_eq_none]
        intro other mem named
        rw [beq_iff_eq] at named
        exact distinct.1 (named ▸ List.mem_map_of_mem mem)
      simp [absent]
    · simp [same, Ne.symm same]

theorem arity?_builtin (name : String) :
    builtin.arity? name = (Formula.find? name).map Formula.arity := by
  have distinct : ((Formula.table.map fun f => (f.name, f.arity)).map Prod.fst).Nodup := by
    simpa [Function.comp_def] using Formula.table_names_distinct
  rw [builtin, ofList, arity?_foldl_put distinct, arity?_empty, Option.or_none, List.find?_map]
  simp [Formula.find?, Function.comp_def]

theorem formula_of_builtin {name : String} (known : builtin.contains name = true) :
    ∃ f ∈ Formula.table, f.name = name := by
  rw [contains, arity?_builtin, Option.isSome_map] at known
  obtain ⟨f, found⟩ := Option.isSome_iff_exists.mp known
  exact ⟨f, List.mem_of_find?_eq_some found, Formula.find?_name found⟩

theorem builtin_positive : builtin.Positive := by
  intro name arity known
  rw [arity?_builtin] at known
  obtain ⟨f, _, rfl⟩ := Option.map_eq_some_iff.mp known
  exact f.rule.arity_positive

end Catalog

end WordProblem
