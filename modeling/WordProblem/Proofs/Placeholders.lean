import Mathlib.Data.List.Forall2
import WordProblem.Proofs.Progress

/-!
What binding does to a program. Operators stay, and so does every argument that is no placeholder;
a placeholder gives way to the numeral it counts to, and past the last one to the first. This holds
of indices that are machine words. A longer index is no placeholder to the binder, though it has
the shape of one, and its token is left as it is.
-/
namespace WordProblem

namespace Binding

/-- What should stand in the place of an argument: for `n` and digits, however many, the numeral
    with that number, and any other token itself. -/
structure Completes (numerals : List Token) (t bound : Token) : Prop where
  placeholder : ∀ index, t.toList = 'n' :: index → Digits.isNumeric index = true →
    bound = (numerals[Digits.value index]?).getD (numerals.head?.getD fallback)
  other : (∀ index, t.toList = 'n' :: index → Digits.isNumeric index = false) → bound = t

theorem bind_bind {numerals : List Token} (plain : AllPlain numerals) (t : Token) :
    bind numerals (bind numerals t) = bind numerals t :=
  bind_of_not_placeholder (placeholder?_bind plain t)

theorem long_of_not_word {t : Token} (long : ¬ t.IndexIsWord) :
    ∃ index, t.toList = 'n' :: index ∧ Digits.isNumeric index = true ∧
      ¬ Digits.value index < Digits.wordLimit := by
  simpa only [Token.IndexIsWord, Classical.not_forall, exists_prop] using long

theorem bind_eq_self_of_long {t : Token} (long : ¬ t.IndexIsWord) (numerals : List Token) :
    bind numerals t = t := by
  obtain ⟨index, shape, _, beyond⟩ := long_of_not_word long
  refine bind_of_not_placeholder ?_
  simp [Token.placeholder?, shape, Digits.word?, beyond]

theorem completes_bind {t : Token} (word : t.IndexIsWord) (numerals : List Token) :
    Completes numerals t (bind numerals t) where
  placeholder index shape numeric := by
    have bound : t.placeholder? = some (Digits.value index) := by
      simp [Token.placeholder?, shape, Digits.word?, numeric, word index shape numeric]
    rw [bind, bound]
  other plain := by
    refine bind_of_not_placeholder ?_
    unfold Token.placeholder?
    split
    · rename_i index shape
      simp [Digits.word?, plain index shape]
    · rfl

/-- A numeral begins with a digit, so a placeholder never stands for itself. -/
theorem not_completes_self {numerals : List Token} (plain : AllPlain numerals) {t : Token}
    (long : ¬ t.IndexIsWord) : ¬ Completes numerals t t := by
  obtain ⟨index, shape, numeric, _⟩ := long_of_not_word long
  intro completes
  have numeral := isPlain_getD plain (Digits.value index)
  rw [← completes.placeholder index shape numeric] at numeral
  obtain ⟨d, rest, first, digit⟩ := isPlain_cons numeral
  rw [shape, List.cons.injEq] at first
  exact Digits.ne_of_isDigit digit (by decide) first.1.symm

theorem completes_bind_iff {numerals : List Token} (plain : AllPlain numerals) (t : Token) :
    Completes numerals t (bind numerals t) ↔ t.IndexIsWord := by
  constructor
  · intro completes
    by_contra long
    rw [bind_eq_self_of_long long] at completes
    exact not_completes_self plain long completes
  · intro word
    exact completes_bind word numerals

end Binding

namespace Program

def InPlace (related : Token → Token → Prop) (p q : Program) : Prop :=
  List.Forall₂ (fun op other => other.operator = op.operator ∧
    List.Forall₂ related op.arguments other.arguments) p q

theorem inPlace_mapArguments_iff {related : Token → Token → Prop} {f : Token → Token}
    {p : Program} :
    p.InPlace related (p.mapArguments f) ↔ ∀ op ∈ p, ∀ t ∈ op.arguments, related t (f t) := by
  simp [InPlace, mapArguments, List.forall₂_map_right_iff, List.forall₂_same]

theorem bind_bind {numerals : List Token} (plain : Binding.AllPlain numerals) (p : Program) :
    (p.bind numerals).bind numerals = p.bind numerals := by
  simp [bind, mapArguments, Binding.bind_bind plain]

/-- Binding completes exactly the programs whose placeholders have machine words for indices. It
    never moves or adds an operation or an argument; an argument with such an index, or without
    the shape of a placeholder, is completed, and one with a longer index stays. Binding again
    changes nothing. -/
theorem bind_completes_iff (p : Program) (text : String) :
    (p.InPlace (Binding.Completes (Binding.numerals text)) (p.bind (Binding.numerals text)) ↔
        ∀ op ∈ p, ∀ t ∈ op.arguments, t.IndexIsWord) ∧
      p.InPlace (fun t bound => (t.IndexIsWord → Binding.Completes (Binding.numerals text) t bound) ∧
        (¬ t.IndexIsWord → bound = t)) (p.bind (Binding.numerals text)) ∧
      (p.bind (Binding.numerals text)).bind (Binding.numerals text) =
        p.bind (Binding.numerals text) := by
  have plain := Binding.numerals_plain text
  refine ⟨?_, ?_, bind_bind plain p⟩
  · rw [bind, inPlace_mapArguments_iff]
    simp only [Binding.completes_bind_iff plain]
  · rw [bind, inPlace_mapArguments_iff]
    intro op _ t _
    constructor
    · intro word
      exact Binding.completes_bind word _
    · intro long
      exact Binding.bind_eq_self_of_long long _

/-- The first index that is no machine word: its placeholder should become `7` and stays. -/
theorem bind_of_long_placeholder :
    ¬ InPlace (Binding.Completes (Binding.numerals "7 of 9"))
        [⟨"negate", ["n18446744073709551616"]⟩]
        (bind (Binding.numerals "7 of 9") [⟨"negate", ["n18446744073709551616"]⟩]) ∧
      bind (Binding.numerals "7 of 9") [⟨"negate", ["n18446744073709551616"]⟩] =
        [⟨"negate", ["n18446744073709551616"]⟩] := by
  have stays : bind (Binding.numerals "7 of 9") [⟨"negate", ["n18446744073709551616"]⟩] =
      [⟨"negate", ["n18446744073709551616"]⟩] := by
    decide +kernel
  have due : ((Binding.numerals "7 of 9")[18446744073709551616]?).getD
      ((Binding.numerals "7 of 9").head?.getD Binding.fallback) = "7" := by
    decide +kernel
  refine ⟨?_, stays⟩
  rw [stays]
  intro completes
  obtain ⟨⟨_, arguments⟩, _⟩ := List.forall₂_cons.mp completes
  have argument := (List.forall₂_cons.mp arguments).1
  have became := argument.placeholder "18446744073709551616".toList (by decide +kernel)
    (by decide +kernel)
  have value : Digits.value "18446744073709551616".toList = 18446744073709551616 := by
    decide +kernel
  rw [value, due] at became
  exact absurd became (by decide)

end Program

end WordProblem
