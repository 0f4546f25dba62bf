import Mathlib.Data.List.DropRight
import WordProblem.Text

namespace WordProblem.Text

def Tight (s : List Char) : Prop :=
  (∀ c ∈ s.head?, isBlank c = false) ∧ ∀ c ∈ s.getLast?, isBlank c = false

theorem head_of_dropWhile {s : List Char} :
    ∀ c ∈ (s.dropWhile isBlank).head?, isBlank c = false := by
  intro c mem
  have stop := List.head?_dropWhile_not isBlank s
  rw [Option.mem_def.mp mem] at stop
  exact stop

theorem dropWhile_of_head {s : List Char} (starts : ∀ c ∈ s.head?, isBlank c = false) :
    s.dropWhile isBlank = s := by
  cases s with
  | nil => rfl
  | cons c rest => simp [starts c rfl]

theorem trim_append {front core back : List Char} (before : ∀ c ∈ front, isBlank c = true)
    (tight : Tight core) (behind : ∀ c ∈ back, isBlank c = true) :
    trim (front ++ core ++ back) = core := by
  rw [trim, List.append_assoc, List.dropWhile_append_of_pos before]
  by_cases empty : core = []
  · have nothing : back.dropWhile isBlank = [] := List.dropWhile_eq_nil_iff.mpr behind
    simp [empty, nothing]
  · have starts : (core ++ back).dropWhile isBlank = core ++ back := by
      apply dropWhile_of_head
      rw [List.head?_append_of_ne_nil core empty]
      exact tight.1
    have ends : core.reverse.dropWhile isBlank = core.reverse := by
      apply dropWhile_of_head
      simpa using tight.2
    have reversed : ∀ c ∈ back.reverse, isBlank c = true := by simpa using behind
    rw [starts, List.reverse_append, List.dropWhile_append_of_pos reversed, ends,
      List.reverse_reverse]

theorem trim_parts (s : List Char) :
    ∃ front back, s = front ++ trim s ++ back ∧ (∀ c ∈ front, isBlank c = true) ∧
      ∀ c ∈ back, isBlank c = true := by
  refine ⟨s.takeWhile isBlank, (s.dropWhile isBlank).rtakeWhile isBlank, ?_, ?_, ?_⟩
  · have behind : trim s ++ (s.dropWhile isBlank).rtakeWhile isBlank = s.dropWhile isBlank :=
      List.rdropWhile_append_rtakeWhile
    rw [List.append_assoc, behind, List.takeWhile_append_dropWhile]
  · intro c mem
    exact List.mem_takeWhile_imp mem
  · intro c mem
    exact List.mem_rtakeWhile_imp mem

theorem tight_trim (s : List Char) : Tight (trim s) := by
  constructor
  · intro c first
    obtain ⟨back, split⟩ : trim s <+: s.dropWhile isBlank := List.rdropWhile_prefix isBlank _
    apply @head_of_dropWhile s
    rw [← split, List.head?_append, Option.mem_def.mp first]
    rfl
  · intro c last
    rw [trim, List.getLast?_reverse] at last
    exact head_of_dropWhile c last

theorem trim_eq_iff {s core : List Char} :
    trim s = core ↔ Tight core ∧ ∃ front back, s = front ++ core ++ back ∧
      (∀ c ∈ front, isBlank c = true) ∧ ∀ c ∈ back, isBlank c = true := by
  constructor
  · intro same
    rw [← same]
    exact ⟨tight_trim s, trim_parts s⟩
  · intro apart
    obtain ⟨tight, front, back, split, before, behind⟩ := apart
    rw [split, trim_append before tight behind]

theorem trim_isEmpty (s : List Char) : (trim s).isEmpty = s.all isBlank := by
  rw [Bool.eq_iff_iff, List.isEmpty_iff, List.all_eq_true, trim_eq_iff]
  constructor
  · intro parts
    obtain ⟨-, front, back, split, before, behind⟩ := parts
    intro c mem
    rw [split, List.append_nil, List.mem_append] at mem
    exact mem.elim (before c) (behind c)
  · intro blank
    exact ⟨by simp [Tight], s, [], by simp, blank, by simp⟩

theorem isBlank_space : ∀ c ∈ [' '], isBlank c = true := by
  intro c mem
  rw [List.mem_singleton.mp mem]
  decide

theorem mem_of_mem_trim {s : List Char} {c : Char} (mem : c ∈ trim s) : c ∈ s := by
  obtain ⟨front, back, split, -, -⟩ := trim_parts s
  rw [split]
  simp [mem]

theorem not_mem_of_mem_lines {s line : List Char} (mem : line ∈ lines s) : '\n' ∉ line := by
  fun_induction lines s generalizing line with
  | case1 => cases mem
  | case2 rest ih =>
    rcases List.mem_cons.mp mem with empty | later
    · simp [empty]
    · exact ih later
  | case3 rest ih =>
    rcases List.mem_cons.mp mem with empty | later
    · simp [empty]
    · exact ih later
  | case4 c rest feed _ last ih =>
    rw [List.mem_singleton.mp mem]
    simpa [eq_comm] using feed
  | case5 c rest feed _ first more split ih =>
    rw [split] at ih
    rcases List.mem_cons.mp mem with front | later
    · have clean := ih List.mem_cons_self
      simpa [front, clean, eq_comm] using feed
    · exact ih (List.mem_cons_of_mem first later)

theorem lines_cons {c : Char} {rest line : List Char} {more : List (List Char)} (feed : c ≠ '\n')
    (apart : c = '\r' → rest.head? ≠ some '\n') (split : lines rest = line :: more) :
    lines (c :: rest) = (c :: line) :: more := by
  rw [lines, split]
  · exact feed
  · intro behind same next
    simp [next] at apart
    exact apart same

/-- A line feed ends a line that holds none and has no carriage return at its end. -/
theorem lines_append {line : List Char} (whole : '\n' ∉ line) (ends : '\r' ∉ line.getLast?)
    (rest : List Char) : lines (line ++ '\n' :: rest) = line :: lines rest := by
  induction line with
  | nil => simp [lines]
  | cons c line ih =>
    rw [List.mem_cons, not_or] at whole
    cases line with
    | nil =>
      apply lines_cons (Ne.symm whole.1)
      · intro same
        simp [same] at ends
      · simp [lines]
    | cons d more =>
      apply lines_cons (Ne.symm whole.1)
      · intro _ next
        simp at next
        simp [next] at whole
      · apply ih whole.2
        simpa using ends

def filled (ls : List (List Char)) : List (List Char) := ls.filter fun line => !line.all isBlank

/-- The entries are the lines that are not blank, without the white space around them. -/
theorem entries_eq (s : List Char) : entries s = (filled (lines s)).map trim := by
  rw [entries, filled, List.filter_map]
  simp only [Function.comp_def, trim_isEmpty]

theorem cutAt_of_mem {sep : Char} {s : List Char} (mem : sep ∈ s) :
    cutAt sep s = some (s.takeWhile (· != sep), (s.dropWhile (· != sep)).drop 1) := by
  induction s with
  | nil => cases mem
  | cons c rest ih =>
    rw [cutAt]
    by_cases same : c = sep
    · simp [same]
    · have later : sep ∈ rest := (List.mem_cons.mp mem).resolve_left (Ne.symm same)
      simp [same, ih later]

end WordProblem.Text
