import Mathlib.Data.List.Basic
import WordProblem.Program.Grouping
import WordProblem.Program.Nested

namespace WordProblem

namespace Text

/-- A run that no character next to it extends. -/
structure MaximalRun (sep : Char → Bool) (s : List Char) (i : ℕ) (run : List Char) : Prop where
  nonempty : run ≠ []
  clean : ∀ c ∈ run, sep c = false
  here : run <+: s.drop i
  before : ∀ c, 0 < i → s[i - 1]? = some c → sep c = true
  behind : ∀ c, s[i + run.length]? = some c → sep c = true

/-- Gaps and words in turn. The words are listed with the positions where they begin, of which the
    first character of the text has `start`. Only the first gap and the last may be empty. -/
inductive Laid (sep : Char → Bool) : ℕ → List (ℕ × List Char) → List Char → Prop where
  | gap {start : ℕ} {gap : List Char} (blank : ∀ c ∈ gap, sep c = true) : Laid sep start [] gap
  | word {start : ℕ} {gap run rest : List Char} {found : List (ℕ × List Char)}
      (blank : ∀ c ∈ gap, sep c = true) (nonempty : run ≠ []) (clean : ∀ c ∈ run, sep c = false)
      (ends : ∀ c, rest.head? = some c → sep c = true)
      (later : Laid sep (start + gap.length + run.length) found rest) :
      Laid sep start ((start + gap.length, run) :: found) (gap ++ (run ++ rest))

def Relaid (sep : Char → Bool) (s t : List Char) : Prop :=
  ∃ found moved, Laid sep 0 found s ∧ Laid sep 0 moved t ∧
    found.map Prod.snd = moved.map Prod.snd

section
variable {sep : Char → Bool} {s : List Char} {i j : ℕ} {run other : List Char}

namespace MaximalRun

theorem char_at (run_at : MaximalRun sep s i run) {p : ℕ} (low : i ≤ p)
    (high : p < i + run.length) : ∃ c, s[p]? = some c ∧ sep c = false := by
  obtain ⟨k, rfl⟩ := Nat.exists_eq_add_of_le low
  have inside : k < run.length := by omega
  have same := List.prefix_iff_getElem?.mp run_at.here k inside
  rw [List.getElem?_drop] at same
  exact ⟨run[k], same, run_at.clean _ (List.getElem_mem inside)⟩

theorem length_pos (run_at : MaximalRun sep s i run) : 0 < run.length :=
  List.length_pos_iff.mpr run_at.nonempty

theorem length_le (run_at : MaximalRun sep s i run) (other_at : MaximalRun sep s i other) :
    other.length ≤ run.length := by
  by_contra longer
  obtain ⟨c, found, clean⟩ := other_at.char_at (p := i + run.length) (by omega) (by omega)
  rw [run_at.behind c found] at clean
  cases clean

theorem unique (run_at : MaximalRun sep s i run) (other_at : MaximalRun sep s i other) :
    run = other := by
  have length := Nat.le_antisymm (other_at.length_le run_at) (run_at.length_le other_at)
  exact List.IsPrefix.eq_of_length
    (List.prefix_of_prefix_length_le run_at.here other_at.here (Nat.le_of_eq length)) length

theorem apart (run_at : MaximalRun sep s i run) (other_at : MaximalRun sep s j other)
    (less : i < j) : i + run.length < j := by
  by_contra close
  obtain ⟨c, found, clean⟩ := run_at.char_at (p := j - 1) (by omega) (by omega)
  rw [other_at.before c (by omega) found] at clean
  cases clean

/-- A run begins behind a gap or before it. -/
theorem not_in_gap (run_at : MaximalRun sep s i run) {start : ℕ} {gap rest : List Char}
    (here : s.drop start = gap ++ rest) (blank : ∀ c ∈ gap, sep c = true) (low : start ≤ i) :
    start + gap.length ≤ i := by
  by_contra inside
  obtain ⟨k, rfl⟩ := Nat.exists_eq_add_of_le low
  obtain ⟨c, standing, clean⟩ := run_at.char_at (Nat.le_refl _)
    (Nat.lt_add_of_pos_right run_at.length_pos)
  rw [← List.getElem?_drop, here, List.getElem?_append_left (by omega)] at standing
  rw [blank c (List.mem_of_getElem? standing)] at clean
  cases clean

end MaximalRun

theorem drop_word {start : ℕ} {gap run rest : List Char}
    (here : s.drop start = gap ++ (run ++ rest)) :
    s.drop (start + gap.length) = run ++ rest ∧
      s.drop (start + gap.length + run.length) = rest := by
  have at_word : s.drop (start + gap.length) = run ++ rest := by
    rw [← List.drop_drop, here, List.drop_left]
  exact ⟨at_word, by rw [← List.drop_drop, at_word, List.drop_left]⟩

namespace Laid
variable {start : ℕ} {found : List (ℕ × List Char)} {t : List Char}

theorem separated {c : Char} (separates : sep c = true) (laid : Laid sep (start + 1) found t) :
    Laid sep start found (c :: t) := by
  cases laid with
  | gap blank => exact .gap (List.forall_mem_cons.mpr ⟨separates, blank⟩)
  | @word _ gap run rest found blank nonempty clean ends later =>
    have place : start + (c :: gap).length = start + 1 + gap.length := by
      rw [List.length_cons]
      omega
    rw [← place] at later ⊢
    exact .word (List.forall_mem_cons.mpr ⟨separates, blank⟩) nonempty clean ends later

theorem lengthened {c : Char} (own : sep c = false) (laid : Laid sep (start + 1) found t) :
    ∃ longer, Laid sep start longer (c :: t) := by
  have single : ∀ d ∈ [c], sep d = false := by simp [own]
  have at_once : ∀ d ∈ ([] : List Char), sep d = true := by simp
  have before_gap (gap : ∀ d, t.head? = some d → sep d = true) :
      Laid sep start ((start, [c]) :: found) (c :: t) :=
    .word at_once (List.cons_ne_nil c []) single gap laid
  cases laid with
  | gap blank => exact ⟨_, before_gap fun d first => blank d (List.mem_of_mem_head? first)⟩
  | @word _ gap run rest found blank nonempty clean ends later =>
    cases gap with
    | nil =>
      have place : start + 1 + run.length = start + (c :: run).length := by
        rw [List.length_cons]
        omega
      simp only [List.length_nil, Nat.add_zero, place] at later
      exact ⟨_, .word at_once (List.cons_ne_nil c run)
        (List.forall_mem_cons.mpr ⟨own, clean⟩) ends later⟩
    | cons d more =>
      refine ⟨_, before_gap ?_⟩
      rintro _ ⟨⟩
      exact blank d (by simp)

end Laid

theorem exists_laid (sep : Char → Bool) (start : ℕ) (t : List Char) :
    ∃ found, Laid sep start found t := by
  induction t generalizing start with
  | nil => exact ⟨[], .gap (by simp)⟩
  | cons c rest ih =>
    obtain ⟨found, laid⟩ := ih (start + 1)
    cases own : sep c with
    | true => exact ⟨found, laid.separated own⟩
    | false => exact laid.lengthened own

theorem runs_of_separators {gap : List Char} (blank : ∀ c ∈ gap, sep c = true) (t : List Char) :
    runs sep (gap ++ t) = runs sep t := by
  induction gap with
  | nil => rfl
  | cons c more ih =>
    obtain ⟨separates, others⟩ := List.forall_mem_cons.mp blank
    have cut := runs_append_cons separates [] (more ++ t)
    rwa [ih others] at cut

theorem runs_between {gap : List Char} (nonempty : gap ≠ []) (blank : ∀ c ∈ gap, sep c = true)
    (s t : List Char) : runs sep (s ++ (gap ++ t)) = runs sep s ++ runs sep t := by
  obtain ⟨c, more, rfl⟩ := List.exists_cons_of_ne_nil nonempty
  obtain ⟨separates, others⟩ := List.forall_mem_cons.mp blank
  rw [List.cons_append, runs_append_cons separates, runs_of_separators others]

theorem runs_of_word (nonempty : run ≠ []) (clean : ∀ c ∈ run, sep c = false) {rest : List Char}
    (ends : ∀ c, rest.head? = some c → sep c = true) :
    runs sep (run ++ rest) = run :: runs sep rest := by
  cases rest with
  | nil =>
    rw [List.append_nil, runs_eq_singleton nonempty clean]
    rfl
  | cons d more =>
    have cut := runs_append_cons (ends d rfl) [] more
    rw [runs_append_cons (ends d rfl), runs_eq_singleton nonempty clean]
    exact congrArg (run :: ·) cut.symm

namespace Laid
variable {start : ℕ} {found : List (ℕ × List Char)} {t : List Char}

theorem runs (laid : Laid sep start found t) : Text.runs sep t = found.map Prod.snd := by
  induction laid with
  | gap blank =>
    have none := runs_of_separators blank []
    rwa [List.append_nil] at none
  | word blank nonempty clean ends later ih =>
    rw [runs_of_separators blank, runs_of_word nonempty clean ends, ih, List.map_cons]

theorem flatten (laid : Laid sep start found t) :
    (found.map Prod.snd).flatten = t.filter fun c => !sep c := by
  have dropped {gap : List Char} (blank : ∀ c ∈ gap, sep c = true) :
      gap.filter (fun c => !sep c) = [] := by
    rw [List.filter_eq_nil_iff]
    intro c mem
    simp [blank c mem]
  induction laid with
  | gap blank => rw [dropped blank, List.map_nil, List.flatten_nil]
  | @word _ gap run rest _ blank nonempty clean ends later ih =>
    have kept : run.filter (fun c => !sep c) = run := by
      rw [List.filter_eq_self]
      intro c mem
      simp [clean c mem]
    rw [List.map_cons, List.flatten_cons, ih, List.filter_append, List.filter_append, dropped blank,
      kept, List.nil_append]

theorem start_le (laid : Laid sep start found t) : ∀ q ∈ found, start ≤ q.1 := by
  induction laid with
  | gap => simp
  | word blank nonempty clean ends later ih =>
    intro q mem
    rcases List.mem_cons.mp mem with first | other
    · subst first
      dsimp only
      omega
    · have behind := ih q other
      omega

theorem maximal (laid : Laid sep start found t) (here : s.drop start = t)
    (edge : ∀ c d, 0 < start → s[start - 1]? = some c → t.head? = some d →
      sep c = true ∨ sep d = true) :
    ∀ q ∈ found, MaximalRun sep s q.1 q.2 := by
  induction laid with
  | gap => simp
  | @word start gap run rest found blank nonempty clean ends later ih =>
    obtain ⟨at_word, at_rest⟩ := drop_word here
    have before : ∀ c, 0 < start + gap.length → s[start + gap.length - 1]? = some c →
        sep c = true := by
      intro c inside standing
      rcases List.eq_nil_or_concat' gap with rfl | ⟨front, d, rfl⟩
      · obtain ⟨first, more, rfl⟩ := List.exists_cons_of_ne_nil nonempty
        refine (edge c first inside standing rfl).resolve_right ?_
        simp [clean first (by simp)]
      · have place : start + (front ++ [d]).length - 1 = start + front.length := by simp
        rw [place, ← List.getElem?_drop, here] at standing
        simp only [List.append_assoc, List.getElem?_append_right (Nat.le_refl front.length),
          Nat.sub_self, List.singleton_append, List.getElem?_cons_zero,
          Option.some.injEq] at standing
        rw [← standing]
        exact blank d (by simp)
    refine List.forall_mem_cons.mpr ⟨⟨nonempty, clean, ?_, before, ?_⟩, ?_⟩
    · rw [at_word]
      exact List.prefix_append run rest
    · intro c standing
      rw [← List.head?_drop, at_rest] at standing
      exact ends c standing
    · apply ih at_rest
      intro c d _ _ first
      exact .inr (ends d first)

theorem complete (laid : Laid sep start found t) (here : s.drop start = t)
    (words : ∀ q ∈ found, MaximalRun sep s q.1 q.2) (low : start ≤ i)
    (run_at : MaximalRun sep s i run) : (i, run) ∈ found := by
  induction laid with
  | @gap start gap blank =>
    have ending : s.drop start = gap ++ [] := by rwa [List.append_nil]
    have beyond := run_at.not_in_gap ending blank low
    obtain ⟨c, standing, _⟩ := run_at.char_at (Nat.le_refl i)
      (Nat.lt_add_of_pos_right run_at.length_pos)
    have inside := (List.getElem?_eq_some_iff.mp standing).1
    have length := congrArg List.length here
    rw [List.length_drop] at length
    omega
  | @word start gap first rest found blank nonempty clean ends later ih =>
    obtain ⟨first_at, others⟩ := List.forall_mem_cons.mp words
    dsimp only at first_at
    have behind_gap := run_at.not_in_gap here blank low
    rcases Nat.eq_or_lt_of_le behind_gap with rfl | more
    · rw [run_at.unique first_at]
      exact List.mem_cons_self
    · have apart := first_at.apart run_at more
      exact List.mem_cons_of_mem _ (ih (drop_word here).2 others (by omega))

theorem pairwise (laid : Laid sep start found t)
    (words : ∀ q ∈ found, MaximalRun sep s q.1 q.2) :
    found.Pairwise fun p q => p.1 + p.2.length < q.1 := by
  induction laid with
  | gap => exact .nil
  | word blank nonempty clean ends later ih =>
    obtain ⟨run_at, others⟩ := List.forall_mem_cons.mp words
    refine .cons ?_ (ih others)
    intro q mem
    have low := later.start_le q mem
    have length := run_at.length_pos
    dsimp only at length ⊢
    exact run_at.apart (others q mem) (by omega)

end Laid

theorem runs_maximal (sep : Char → Bool) (s : List Char) :
    ∃ found : List (ℕ × List Char), runs sep s = found.map Prod.snd ∧
      found.Pairwise (fun p q => p.1 + p.2.length < q.1) ∧
      ∀ i run, (i, run) ∈ found ↔ MaximalRun sep s i run := by
  obtain ⟨found, laid⟩ := exists_laid sep 0 s
  have words := laid.maximal (s := s) rfl (by simp)
  refine ⟨found, laid.runs, laid.pairwise words, ?_⟩
  intro i run
  exact ⟨words (i, run), laid.complete rfl words (Nat.zero_le i)⟩

theorem relaid_iff {t : List Char} : Relaid sep s t ↔ runs sep s = runs sep t := by
  constructor
  · rintro ⟨found, moved, one, two, same⟩
    rw [one.runs, two.runs, same]
  · intro same
    obtain ⟨found, one⟩ := exists_laid sep 0 s
    obtain ⟨moved, two⟩ := exists_laid sep 0 t
    exact ⟨found, moved, one, two, by rw [← one.runs, ← two.runs, same]⟩

theorem flatten_runs (sep : Char → Bool) (s : List Char) :
    (runs sep s).flatten = s.filter fun c => !sep c := by
  obtain ⟨found, laid⟩ := exists_laid sep 0 s
  rw [laid.runs, laid.flatten]

end

end Text

namespace Token

theorem ofSource_eq_iff {a b : String} :
    ofSource a = ofSource b ↔ Text.Relaid isDelimiter a.toList b.toList := by
  rw [Text.relaid_iff]
  exact (List.map_injective_iff.mpr fun s t => String.ofList_inj.mp).eq_iff

theorem not_isDelimiter_of_mem {source : String} {t : Token} (mem : t ∈ ofSource source) :
    t ≠ "" ∧ ∀ c ∈ t.toList, isDelimiter c = false := by
  obtain ⟨run, found, rfl⟩ := List.mem_map.mp mem
  have piece := (List.mem_filter.mp found).1
  rw [String.toList_ofList, Ne, String.ofList_eq_empty_iff]
  exact ⟨Text.runs_ne_nil found, Text.not_sep_of_mem_splitOnP piece⟩

theorem ofSource_append {d : Char} (delimiter : isDelimiter d = true) (a b : String) :
    ofSource (a ++ String.singleton d ++ b) = ofSource a ++ ofSource b := by
  have chars : (a ++ String.singleton d ++ b).toList = a.toList ++ d :: b.toList := by simp
  rw [ofSource, chars, Text.runs_append_cons delimiter, List.map_append]
  rfl

/-- The tokens of a source are its maximal runs of characters that are no delimiters, in order, so
    none is empty or holds a delimiter, and together they are the source without its delimiters. A
    delimiter cuts a source in two that are read apart. Two sources have the same tokens if and only
    if they lay out the same words, and then they are parsed, linearized and checked alike, faults
    included. -/
theorem ofSource_whatever_the_layout :
    (∀ source : String, ∃ found : List (ℕ × List Char),
      ofSource source = found.map (fun q => String.ofList q.2) ∧
      found.Pairwise (fun p q => p.1 + p.2.length < q.1) ∧
      ∀ i run, (i, run) ∈ found ↔ Text.MaximalRun isDelimiter source.toList i run) ∧
    (∀ source : String,
      (∀ t ∈ ofSource source, t ≠ "" ∧ ∀ c ∈ t.toList, isDelimiter c = false) ∧
      (ofSource source).flatMap String.toList = source.toList.filter fun c => !isDelimiter c) ∧
    (∀ (a b : String) (d : Char), isDelimiter d = true →
      ofSource (a ++ String.singleton d ++ b) = ofSource a ++ ofSource b) ∧
    ∀ a b : String,
      (ofSource a = ofSource b ↔ Text.Relaid isDelimiter a.toList b.toList) ∧
      (Text.Relaid isDelimiter a.toList b.toList → ∀ (c : Catalog) (allowed : Option ArgumentSet),
        Program.ofSource c a = Program.ofSource c b ∧
        Program.ofNestedSource c allowed a = Program.ofNestedSource c allowed b ∧
        Program.check c allowed (ofSource a) = Program.check c allowed (ofSource b)) := by
  refine ⟨?_, ?_, fun a b d delimiter => ofSource_append delimiter a b, ?_⟩
  · intro source
    obtain ⟨found, runs, order, all⟩ := Text.runs_maximal isDelimiter source.toList
    refine ⟨found, ?_, order, all⟩
    rw [ofSource, runs, List.map_map, Function.comp_def]
  · intro source
    refine ⟨fun t mem => not_isDelimiter_of_mem mem, ?_⟩
    rw [← Text.flatten_runs, ofSource, List.flatMap_map]
    simp [List.flatMap_def]
  · intro a b
    refine ⟨ofSource_eq_iff, ?_⟩
    intro relaid c allowed
    have same := ofSource_eq_iff.mpr relaid
    simp only [Program.ofSource, Program.ofNestedSource, same, and_self]

theorem ofSource_of_two_layouts :
    isDelimiter '\t' = true ∧
      ofSource ("add(n0, " ++ String.singleton '\t' ++ "sqrt(n1))") = ["add", "n0"] ++ ["sqrt", "n1"] ∧
      Text.Relaid isDelimiter "add(n0, sqrt(n1))".toList "|| add,n0\u3000(sqrt n1".toList ∧
      Program.ofNestedSource .builtin none "add(n0, sqrt(n1))" =
        Program.ofNestedSource .builtin none "|| add,n0\u3000(sqrt n1" := by
  have first : ofSource "add(n0, " = ["add", "n0"] := by decide +kernel
  have second : ofSource "sqrt(n1))" = ["sqrt", "n1"] := by decide +kernel
  have tab : isDelimiter '\t' = true := by decide
  obtain ⟨_, _, cut, layouts⟩ := ofSource_whatever_the_layout
  obtain ⟨same, alike⟩ := layouts "add(n0, sqrt(n1))" "|| add,n0\u3000(sqrt n1"
  have relaid := same.mp (by decide +kernel)
  refine ⟨tab, ?_, relaid, (alike relaid .builtin none).2.1⟩
  rw [← first, ← second]
  exact cut "add(n0, " "sqrt(n1))" '\t' tab

end Token

end WordProblem
