namespace WordProblem.Text

def blankRanges : List (Nat × Nat) :=
  [(0x09, 0x0D), (0x20, 0x20), (0x85, 0x85), (0xA0, 0xA0), (0x1680, 0x1680), (0x2000, 0x200A),
    (0x2028, 0x2029), (0x202F, 0x202F), (0x205F, 0x205F), (0x3000, 0x3000)]

def isBlank (c : Char) : Bool :=
  blankRanges.any fun range => range.1 ≤ c.toNat && c.toNat ≤ range.2

theorem isBlank_of_isDigit {d : Char} (digit : d.isDigit = true) : isBlank d = false := by
  have range : 48 ≤ d.toNat ∧ d.toNat ≤ 57 := by
    simp only [Char.isDigit, Bool.and_eq_true, decide_eq_true_eq] at digit
    exact digit
  simp [isBlank, blankRanges]
  omega

/-- The maximal runs of characters outside `sep`, in order. -/
def runs (sep : Char → Bool) (s : List Char) : List (List Char) :=
  (s.splitOnP sep).filter fun run => !run.isEmpty

def words (s : List Char) : List (List Char) := runs isBlank s

def trim (s : List Char) : List Char :=
  ((s.dropWhile isBlank).reverse.dropWhile isBlank).reverse

/-- A line feed ends a line, and so does a carriage return with a line feed after it. What
    stands after the last line end is a line of its own unless it is empty. -/
def lines : List Char → List (List Char)
  | [] => []
  | '\n' :: rest => [] :: lines rest
  | '\r' :: '\n' :: rest => [] :: lines rest
  | c :: rest =>
    match lines rest with
    | [] => [[c]]
    | line :: more => (c :: line) :: more

def entries (s : List Char) : List (List Char) :=
  ((lines s).map trim).filter fun line => !line.isEmpty

def cutAt (sep : Char) : List Char → Option (List Char × List Char)
  | [] => none
  | c :: rest =>
    if c = sep then some ([], rest)
    else (cutAt sep rest).map fun parts => (c :: parts.1, parts.2)

/-- The pieces between the separators of two characters, taken from the left without overlap. -/
def splitOnPair (first second : Char) : List Char → List (List Char)
  | [] => [[]]
  | [c] => [[c]]
  | c :: d :: rest =>
    if c = first ∧ d = second then [] :: splitOnPair first second rest
    else (splitOnPair first second (d :: rest)).modifyHead (c :: ·)

def after? : List Char → List Char → Option (List Char)
  | [], s => some s
  | _ :: _, [] => none
  | p :: start, c :: s => if p = c then after? start s else none

theorem runs_ne_nil {sep : Char → Bool} {s run : List Char} (mem : run ∈ runs sep s) :
    run ≠ [] := by
  simp only [runs, List.mem_filter] at mem
  simpa using mem.2

theorem runs_append_cons {sep : Char → Bool} {d : Char} (hd : sep d = true) (s t : List Char) :
    runs sep (s ++ d :: t) = runs sep s ++ runs sep t := by
  simp [runs, List.splitOnP_append_cons s t hd]

theorem runs_intercalate {sep : Char → Bool} {d : Char} (hd : sep d = true)
    (pieces : List (List Char)) :
    runs sep ([d].intercalate pieces) = pieces.flatMap (runs sep) := by
  induction pieces with
  | nil => rfl
  | cons piece rest ih =>
    cases rest with
    | nil => simp
    | cons next more =>
      rw [List.intercalate_cons_cons, List.append_assoc, List.singleton_append,
        runs_append_cons hd, ih]
      rfl

theorem not_sep_of_mem_splitOnP {sep : Char → Bool} {s piece : List Char}
    (mem : piece ∈ s.splitOnP sep) : ∀ c ∈ piece, sep c = false := by
  induction s generalizing piece with
  | nil =>
    simp only [List.splitOnP_nil, List.mem_singleton] at mem
    simp [mem]
  | cons d rest ih =>
    rw [List.splitOnP_cons_eq_if_modifyHead] at mem
    by_cases ends : sep d = true
    · rw [if_pos ends, List.mem_cons] at mem
      rcases mem with rfl | later
      · simp
      · exact ih later
    · rw [if_neg ends] at mem
      obtain ⟨first, more, split⟩ := List.exists_cons_of_ne_nil (List.splitOnP_ne_nil sep rest)
      rw [split, List.modifyHead_cons, List.mem_cons] at mem
      rcases mem with rfl | later
      · intro c inside
        rcases List.mem_cons.mp inside with rfl | other
        · simpa using ends
        · exact ih (by simp [split]) c other
      · exact ih (by simp [split, later])

theorem runs_eq_singleton {sep : Char → Bool} {s : List Char} (nonempty : s ≠ [])
    (clean : ∀ c ∈ s, sep c = false) : runs sep s = [s] := by
  rw [runs, List.splitOnP_eq_singleton clean]
  simp [nonempty]

theorem runs_of_mem {sep : Char → Bool} {s run : List Char} (mem : run ∈ runs sep s) :
    runs sep run = [run] :=
  runs_eq_singleton (runs_ne_nil mem) (not_sep_of_mem_splitOnP (List.mem_filter.mp mem).1)

theorem cutAt_append {sep : Char} {before : List Char} (clean : sep ∉ before) (after : List Char) :
    cutAt sep (before ++ sep :: after) = some (before, after) := by
  induction before with
  | nil => simp [cutAt]
  | cons c rest ih =>
    rw [List.mem_cons, not_or] at clean
    rw [List.cons_append, cutAt, if_neg (Ne.symm clean.1), ih clean.2]
    rfl

theorem cutAt_eq_none_iff {sep : Char} {s : List Char} : cutAt sep s = none ↔ sep ∉ s := by
  induction s with
  | nil => simp [cutAt]
  | cons c rest ih =>
    rw [cutAt]
    by_cases same : c = sep
    · simp [same]
    · simp [same, Ne.symm same, ih]

theorem cutAt_eq_some_iff {sep : Char} {s before after : List Char} :
    cutAt sep s = some (before, after) ↔ s = before ++ sep :: after ∧ sep ∉ before := by
  constructor
  · intro cut
    induction s generalizing before with
    | nil => cases cut
    | cons c rest ih =>
      rw [cutAt] at cut
      split at cut
      · rename_i same
        cases cut
        simp [same]
      · rename_i other
        obtain ⟨⟨front, back⟩, found, eq⟩ := Option.map_eq_some_iff.mp cut
        cases eq
        obtain ⟨split, clean⟩ := ih found
        simp [split, clean, Ne.symm other]
  · intro split
    rw [split.1, cutAt_append split.2]

theorem splitOnPair_ne_nil (first second : Char) (s : List Char) :
    splitOnPair first second s ≠ [] := by
  fun_induction splitOnPair first second s with
  | case1 => simp
  | case2 => simp
  | case3 => simp
  | case4 c d rest h ih =>
    cases hs : splitOnPair first second (d :: rest) with
    | nil => exact absurd hs ih
    | cons piece more => simp [List.modifyHead]

theorem after?_eq_some_iff {start s rest : List Char} :
    after? start s = some rest ↔ s = start ++ rest := by
  fun_induction after? start s with
  | case1 s => simp [eq_comm]
  | case2 => simp
  | case3 start c s ih => simp [ih]
  | case4 p start c s h =>
    simp only [reduceCtorEq, List.cons_append, List.cons.injEq, false_iff, not_and]
    exact fun eq => absurd eq.symm h

end WordProblem.Text

/- Leading zeros are allowed everywhere, so a value has many spellings; its text is the one
    without them. -/
namespace WordProblem.Digits

def isNumeric (s : List Char) : Bool := !s.isEmpty && s.all Char.isDigit

def value (s : List Char) : Nat := Nat.ofDigitChars 10 s 0

def text (n : Nat) : List Char := Nat.toDigits 10 n

def wordLimit : Nat := 1 <<< 64

def word? (s : List Char) : Option Nat :=
  if isNumeric s ∧ value s < wordLimit then some (value s) else none

theorem value_text (n : Nat) : value (text n) = n := by
  simp [value, text]

theorem isNumeric_iff {s : List Char} :
    isNumeric s = true ↔ s ≠ [] ∧ ∀ c ∈ s, c.isDigit = true := by
  simp [isNumeric]

theorem isNumeric_text (n : Nat) : isNumeric (text n) = true := by
  rw [isNumeric_iff]
  exact ⟨Nat.toDigits_ne_nil, fun c mem => Nat.isDigit_of_mem_toDigits (by omega) (by omega) mem⟩

theorem ne_of_isDigit {c d : Char} (digit : d.isDigit = true) (other : c.isDigit = false) :
    d ≠ c := by
  intro same
  rw [← same, digit] at other
  cases other

theorem not_mem_of_digits {c : Char} (other : c.isDigit = false) {s : List Char}
    (digits : ∀ d ∈ s, d.isDigit = true) : c ∉ s := fun mem =>
  ne_of_isDigit (digits c mem) other rfl

end WordProblem.Digits
