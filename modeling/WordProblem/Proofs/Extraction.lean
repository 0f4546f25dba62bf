import WordProblem.Proofs.Binding
import WordProblem.Proofs.Layout

namespace WordProblem.Binding

theorem not_isBlank_of_isPlain {s : List Char} (plain : isPlain s = true) :
    ∀ c ∈ s, Text.isBlank c = false := by
  intro c mem
  rcases digit_or_point_of_isPlain plain c mem with digit | rfl
  · exact Text.isBlank_of_isDigit digit
  · decide

theorem filter_comma_of_isPlain {s : List Char} (plain : isPlain s = true) :
    s.filter (· != ',') = s := by
  rw [List.filter_eq_self]
  intro c mem
  rw [bne_iff_ne]
  rcases digit_or_point_of_isPlain plain c mem with digit | rfl
  · exact Digits.ne_of_isDigit digit (by decide)
  · decide

theorem words_of_isPlain {s : List Char} (plain : isPlain s = true) : Text.words s = [s] := by
  obtain ⟨d, rest, shape, _⟩ := isPlain_cons plain
  refine Text.runs_eq_singleton ?_ (not_isBlank_of_isPlain plain)
  rw [shape]
  exact List.cons_ne_nil d rest

theorem numerals_append {gap : String} (nonempty : gap ≠ "")
    (blank : ∀ c ∈ gap.toList, Text.isBlank c = true) (s t : String) :
    numerals (s ++ gap ++ t) = numerals s ++ numerals t := by
  have some_gap : gap.toList ≠ [] := by simpa using nonempty
  rw [numerals, String.toList_append, String.toList_append, List.append_assoc, Text.words,
    Text.runs_between some_gap blank, List.map_append, List.filter_append, List.map_append]
  rfl

theorem numerals_of_allPlain {ns : List Token} (plain : AllPlain ns) :
    numerals (" ".intercalate ns) = ns := by
  have space : Text.isBlank ' ' = true := by decide
  have alone : ∀ n ∈ ns, Text.words n.toList = [n.toList] := fun n mem => words_of_isPlain (plain n mem)
  have words : Text.words (" ".intercalate ns).toList = ns.map String.toList := by
    rw [String.toList_intercalate, Text.words]
    change Text.runs Text.isBlank ([' '].intercalate (ns.map String.toList)) = _
    rw [Text.runs_intercalate space, List.flatMap_map, List.map_eq_flatMap]
    exact List.flatMap_congr alone
  have kept : ∀ s ∈ ns.map String.toList, isPlain s = true := by
    intro s mem
    obtain ⟨n, member, rfl⟩ := List.mem_map.mp mem
    exact plain n member
  have whole : (ns.map String.toList).map (fun word => word.filter (· != ',')) =
      ns.map String.toList :=
    (List.map_congr_left fun s mem => filter_comma_of_isPlain (kept s mem)).trans (List.map_id _)
  rw [numerals, words, whole, List.filter_eq_self.mpr kept, List.map_map]
  simp

/-- An extracted numeral is a literal that is read as a number, in a text and in a run alike. Texts
    with white space between them are extracted apart, and what is extracted from the numerals
    themselves are these numerals. -/
theorem numerals_closed (text : String) :
    (∀ n ∈ numerals text, Argument.ofToken n = .literal n ∧
      ∃ x, Numeral.valueOf? n.toList = some x ∧ ∀ m : Memory, m.valueOf n = .ok x) ∧
    (∀ gap more : String, gap ≠ "" → (∀ c ∈ gap.toList, Text.isBlank c = true) →
      numerals (text ++ gap ++ more) = numerals text ++ numerals more) ∧
    numerals (" ".intercalate (numerals text)) = numerals text := by
  have plain := numerals_plain text
  refine ⟨?_, fun gap more nonempty blank => numerals_append nonempty blank text more,
    numerals_of_allPlain plain⟩
  intro n mem
  have literal := Argument.ofToken_of_isPlain (plain n mem)
  obtain ⟨x, value⟩ := valueOf?_of_isPlain (plain n mem)
  refine ⟨literal, x, value, ?_⟩
  intro m
  simp only [Memory.valueOf, literal, value]

theorem numerals_of_two_texts :
    Argument.ofToken "1234.5" = .literal "1234.5" ∧
      numerals ("3 bags of 1,234.5 g" ++ "\u3000 " ++ "and n0 or 8 (of 9)") =
        ["3", "1234.5"] ++ ["8"] ∧
      numerals (" ".intercalate ["3", "1234.5"]) = ["3", "1234.5"] := by
  have first : numerals "3 bags of 1,234.5 g" = ["3", "1234.5"] := rfl
  have second : numerals "and n0 or 8 (of 9)" = ["8"] := rfl
  obtain ⟨literals, apart, again⟩ := numerals_closed "3 bags of 1,234.5 g"
  have wide : ∀ c ∈ "\u3000 ".toList, Text.isBlank c = true := by
    intro c mem
    obtain rfl | rfl : c = '\u3000' ∨ c = ' ' := by simpa using mem
    · decide
    · decide
  have joined := apart "\u3000 " "and n0 or 8 (of 9)" (by decide) wide
  rw [first] at literals joined again
  rw [second] at joined
  exact ⟨(literals "1234.5" (by decide)).1, joined, again⟩

end WordProblem.Binding
