import Mathlib.Computability.RegularExpressions

/-!
The matches of a language in a text, taken from the left: the one that begins first, as long as it
can be, and then those behind it. There is one way to take them, and wherever a match could begin,
exactly one of those taken lies.
-/
namespace WordProblem.Text

open RegularExpression

variable {L : Language Char} {s : List Char}

def MatchAt (L : Language Char) (s : List Char) (i : ℕ) (m : List Char) : Prop :=
  m ∈ L ∧ m <+: s.drop i

/-- The matches from position `k` on, with the positions where they begin. Each begins as early as
    possible and is as long as possible there, and the search goes on behind it. -/
inductive LeftmostLongest (L : Language Char) (s : List Char) :
    ℕ → List (ℕ × List Char) → Prop where
  | none {k : ℕ} (silent : ∀ i, k ≤ i → ∀ m, ¬ MatchAt L s i m) : LeftmostLongest L s k []
  | next {k i : ℕ} {m : List Char} {more : List (ℕ × List Char)} (start : k ≤ i)
      (leftmost : ∀ j, k ≤ j → j < i → ∀ m', ¬ MatchAt L s j m') (here : MatchAt L s i m)
      (longest : ∀ m', MatchAt L s i m' → m'.length ≤ m.length)
      (rest : LeftmostLongest L s (i + m.length) more) : LeftmostLongest L s k ((i, m) :: more)

def covers (p : ℕ) (found : ℕ × List Char) : Bool :=
  found.1 ≤ p && p < found.1 + found.2.length

namespace LeftmostLongest
variable {k : ℕ} {found other : List (ℕ × List Char)}

theorem unique (one : LeftmostLongest L s k found) (two : LeftmostLongest L s k other) :
    found = other := by
  induction one generalizing other with
  | none silent =>
    cases two with
    | none => rfl
    | next start _ here => exact absurd here (silent _ start _)
  | @next k i m more start leftmost here longest rest ih =>
    cases two with
    | none silent => exact absurd here (silent i start m)
    | @next _ j m' _ start' leftmost' here' longest' rest' =>
      rcases Nat.lt_trichotomy i j with less | rfl | less
      · exact absurd here (leftmost' i start less m)
      · have length := Nat.le_antisymm (longest m' here') (longest' m here)
        have same : m' = m := List.IsPrefix.eq_of_length
          (List.prefix_of_prefix_length_le here'.2 here.2 length.le) length
        subst same
        rw [ih rest']
      · exact absurd here' (leftmost j start' less m')

theorem earlier (later : LeftmostLongest L s (k + 1) found)
    (silent : ∀ m, ¬ MatchAt L s k m) : LeftmostLongest L s k found := by
  cases later with
  | none behind =>
    apply LeftmostLongest.none
    intro j low
    rcases Nat.eq_or_lt_of_le low with rfl | less
    · exact silent
    · exact behind j less
  | next start leftmost here longest rest =>
    apply LeftmostLongest.next (by omega) _ here longest rest
    intro j low less
    rcases Nat.eq_or_lt_of_le low with rfl | more
    · exact silent
    · exact leftmost j more less

theorem matchAt (all : LeftmostLongest L s k found) : ∀ q ∈ found, MatchAt L s q.1 q.2 := by
  induction all with
  | none => simp
  | next start leftmost here longest rest ih => exact List.forall_mem_cons.mpr ⟨here, ih⟩

theorem start_le (all : LeftmostLongest L s k found) : ∀ q ∈ found, k ≤ q.1 := by
  induction all with
  | none => simp
  | next start leftmost here longest rest ih =>
    intro q mem
    rcases List.mem_cons.mp mem with first | later
    · subst first
      exact start
    · have behind := ih q later
      omega

/-- Where a match could begin, exactly one of those found lies. -/
theorem countP_covers (all : LeftmostLongest L s k found) {p : ℕ} (behind : k ≤ p)
    {m : List Char} (possible : MatchAt L s p m) : found.countP (covers p) = 1 := by
  induction all with
  | none silent => exact absurd possible (silent p behind m)
  | @next k i n more start leftmost here longest rest ih =>
    have inside : i ≤ p := by
      by_contra outside
      exact leftmost p behind (by omega) m possible
    by_cases first : p < i + n.length
    · have later : more.countP (covers p) = 0 := by
        rw [List.countP_eq_zero]
        intro q mem covered
        have beyond := rest.start_le q mem
        simp only [covers, Bool.and_eq_true, decide_eq_true_eq] at covered
        omega
      rw [List.countP_cons_of_pos (by simp [covers, inside, first]), later]
    · rw [List.countP_cons_of_neg (by simp [covers, first]), ih (by omega)]

end LeftmostLongest

def oneOf (cs : List Char) : RegularExpression Char := cs.foldr (fun c others => char c + others) 0

theorem mem_oneOf {cs : List Char} : s ∈ (oneOf cs).matches' ↔ ∃ c ∈ cs, s = [c] := by
  induction cs with
  | nil => simp [oneOf, Language.notMem_zero]
  | cons c rest ih =>
    have split : oneOf (c :: rest) = char c + oneOf rest := rfl
    rw [split, matches'_add, Language.mem_add, matches'_char, ih]
    simp only [List.mem_cons, exists_eq_or_imp]
    exact Iff.rfl

theorem mem_star_oneOf {cs : List Char} :
    s ∈ (oneOf cs).star.matches' ↔ ∀ c ∈ s, c ∈ cs := by
  rw [matches'_star, Language.mem_kstar]
  constructor
  · rintro ⟨words, rfl, each⟩ c mem
    obtain ⟨word, member, inside⟩ := List.mem_flatten.mp mem
    obtain ⟨d, known, rfl⟩ := mem_oneOf.mp (each word member)
    rw [List.mem_singleton.mp inside]
    exact known
  · intro known
    refine ⟨s.map fun c => [c], ?_, ?_⟩
    · rw [← List.flatMap_def, List.flatMap_singleton']
    · intro word member
      obtain ⟨c, mem, rfl⟩ := List.mem_map.mp member
      exact mem_oneOf.mpr ⟨c, known c mem, rfl⟩

end WordProblem.Text

