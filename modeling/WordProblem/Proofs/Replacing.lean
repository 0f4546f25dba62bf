import Mathlib.Data.List.Basic
import WordProblem.Program.Grouping
import WordProblem.Proofs.Binding

namespace WordProblem

namespace Catalog

structure RespectedBy (c : Catalog) (f : Token → Token) : Prop where
  operator : ∀ t : Token, c.contains t = true → f t = t
  argument : ∀ t : Token, c.arity? t = none → c.arity? (f t) = none

/-- No operator has the name of a placeholder or of anything that binding puts in its place. -/
structure ApartFrom (c : Catalog) (numerals : List Token) : Prop where
  placeholder : ∀ t : Token, c.contains t = true → t.placeholder? = none
  numeral : ∀ n ∈ numerals, c.arity? n = none
  fallback : c.arity? Binding.fallback = none

theorem RespectedBy.of_arity? {c : Catalog} {f : Token → Token} (respected : c.RespectedBy f)
    {t : Token} {arity : Nat} (known : c.arity? t = some arity) : f t = t :=
  respected.operator t (by rw [contains, known, Option.isSome_some])

theorem ApartFrom.respectedBy_bind {c : Catalog} {numerals : List Token}
    (apart : c.ApartFrom numerals) : c.RespectedBy (Binding.bind numerals) where
  operator t known := Binding.bind_of_not_placeholder (apart.placeholder t known)
  argument t argument := by
    cases bound : t.placeholder? with
    | none => rwa [Binding.bind_of_not_placeholder bound]
    | some index =>
      rcases List.mem_cons.mp (Binding.bind_mem bound numerals) with last | mem
      · rw [last]
        exact apart.fallback
      · exact apart.numeral _ mem

theorem builtin_apartFrom {numerals : List Token} (plain : Binding.AllPlain numerals) :
    builtin.ApartFrom numerals := by
  have worded : ∀ f ∈ Formula.table,
      Token.placeholder? f.name = none ∧ Binding.isPlain f.name.toList = false := by
    decide +kernel
  have apart : ∀ n : Token, Binding.isPlain n.toList = true → builtin.arity? n = none := by
    intro n numeral
    rw [← Option.not_isSome_iff_eq_none]
    intro known
    obtain ⟨f, mem, rfl⟩ := formula_of_builtin known
    rw [(worded f mem).2] at numeral
    cases numeral
  refine ⟨?_, ?_, apart _ Binding.isPlain_fallback⟩
  · intro t known
    obtain ⟨f, mem, rfl⟩ := formula_of_builtin known
    exact (worded f mem).1
  · intro n mem
    exact apart n (plain n mem)

end Catalog

namespace Program

theorem tokens_mapArguments {f : Token → Token} {p : Program}
    (fixed : ∀ op ∈ p, f op.operator = op.operator) : (p.mapArguments f).tokens = p.tokens.map f := by
  rw [tokens, tokens, mapArguments, List.flatMap_map, List.map_flatMap]
  refine List.flatMap_congr ?_
  intro op mem
  simp [Operation.tokens, fixed op mem]

section
variable {c : Catalog} {f : Token → Token} (respected : c.RespectedBy f)
include respected

theorem Groups.fixed {p : Program} {tokens : List Token} (groups : p.Groups c none tokens) :
    ∀ op ∈ p, f op.operator = op.operator := by
  intro op mem
  exact respected.of_arity? (groups.fit op mem).1

theorem Groups.map {p : Program} {tokens : List Token} (groups : p.Groups c none tokens) :
    (p.mapArguments f).Groups c none (tokens.map f) where
  fit op mem := by
    obtain ⟨before, inside, rfl⟩ := List.mem_map.mp mem
    obtain ⟨arity, arguments⟩ := groups.fit before inside
    refine ⟨by rw [List.length_map, arity], ?_⟩
    intro t replaced
    obtain ⟨u, argument, rfl⟩ := List.mem_map.mp replaced
    exact ⟨respected.argument u (arguments u argument).1, rfl⟩
  listing := by rw [tokens_mapArguments (groups.fixed respected), groups.listing]

theorem checkFrom_map_eq_ok_iff {operator : Token} {lacking position : Nat}
    {tokens : List Token} :
    checkFrom c none operator lacking position (tokens.map f) = .ok () ↔
      checkFrom c none operator lacking position tokens = .ok () := by
  induction tokens generalizing operator lacking position with
  | nil => rfl
  | cons t rest ih =>
    rw [List.map_cons, checkFrom, checkFrom]
    cases known : c.arity? t with
    | some arity =>
      simp only [respected.of_arity? known, known]
      split
      · exact ih
      · rfl
    | none =>
      simp only [respected.argument t known, admitted, ↓reduceIte]
      split
      · simp
      · exact ih

theorem check_map_eq_ok_iff {tokens : List Token} :
    check c none (tokens.map f) = .ok () ↔ check c none tokens = .ok () := by
  cases tokens with
  | nil => rfl
  | cons t rest =>
    rw [List.map_cons, check, check]
    cases known : c.arity? t with
    | some arity =>
      simp only [respected.of_arity? known, known]
      exact checkFrom_map_eq_ok_iff respected
    | none =>
      simp only [respected.argument t known]
      simp

end

theorem exists_ofTokens_iff {c : Catalog} {tokens : List Token} :
    (∃ p, ofTokens c tokens = .ok p) ↔ check c none tokens = .ok () := by
  simp only [ofTokens_eq_ok_iff, check_eq_ok_iff]

/-- Placeholders may be bound in a listing before it is grouped, or in the arguments of the program
    afterwards: one can be grouped when the other can, and the programs and their listings are the
    same. The built-in catalog allows it with the numerals of any text. -/
theorem binding_commutes_with_grouping :
    (∀ text : String, Catalog.builtin.ApartFrom (Binding.numerals text)) ∧
      ∀ (c : Catalog) (numerals : List Token), c.ApartFrom numerals → ∀ tokens : List Token,
        ((∃ p, ofTokens c tokens = .ok p) ↔
            ∃ q, ofTokens c (tokens.map (Binding.bind numerals)) = .ok q) ∧
          ∀ p, ofTokens c tokens = .ok p →
            ofTokens c (tokens.map (Binding.bind numerals)) = .ok (p.bind numerals) ∧
              (p.bind numerals).tokens = p.tokens.map (Binding.bind numerals) := by
  refine ⟨?_, ?_⟩
  · intro text
    exact Catalog.builtin_apartFrom (Binding.numerals_plain text)
  · intro c numerals apart tokens
    have respected := apart.respectedBy_bind
    refine ⟨?_, ?_⟩
    · rw [exists_ofTokens_iff, exists_ofTokens_iff, check_map_eq_ok_iff respected]
    · intro p grouped
      have groups := ofTokens_eq_ok_iff.mp grouped
      refine ⟨(groups.map respected).ofTokens, ?_⟩
      exact tokens_mapArguments (groups.fixed respected)

/-- The second placeholder counts past the last numeral, and the reference is none. -/
theorem binding_before_grouping_of_short_text :
    Catalog.builtin.ApartFrom (Binding.numerals "of 7 pens") ∧
      ofTokens .builtin ["add", "n0", "n3", "negate", "#0"] =
        .ok [⟨"add", ["n0", "n3"]⟩, ⟨"negate", ["#0"]⟩] ∧
      ["add", "n0", "n3", "negate", "#0"].map (Binding.bind (Binding.numerals "of 7 pens")) =
        ["add", "7", "7", "negate", "#0"] ∧
      ofTokens .builtin ["add", "7", "7", "negate", "#0"] =
        .ok [⟨"add", ["7", "7"]⟩, ⟨"negate", ["#0"]⟩] := by
  obtain ⟨extracted, commutes⟩ := binding_commutes_with_grouping
  have apart := extracted "of 7 pens"
  have grouped : ofTokens .builtin ["add", "n0", "n3", "negate", "#0"] =
      .ok [⟨"add", ["n0", "n3"]⟩, ⟨"negate", ["#0"]⟩] :=
    ofTokens_eq_ok_iff.mpr ⟨by decide +kernel, by decide +kernel⟩
  have bound : ["add", "n0", "n3", "negate", "#0"].map
      (Binding.bind (Binding.numerals "of 7 pens")) = ["add", "7", "7", "negate", "#0"] := by
    decide +kernel
  have program : bind (Binding.numerals "of 7 pens")
      [⟨"add", ["n0", "n3"]⟩, ⟨"negate", ["#0"]⟩] =
        [⟨"add", ["7", "7"]⟩, ⟨"negate", ["#0"]⟩] := by
    decide +kernel
  have again := ((commutes .builtin _ apart _).2 _ grouped).1
  rw [bound, program] at again
  exact ⟨apart, grouped, bound, again⟩

end Program

end WordProblem
