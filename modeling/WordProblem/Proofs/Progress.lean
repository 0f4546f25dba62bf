import WordProblem.Proofs.Evaluation
import WordProblem.Proofs.Failure

namespace WordProblem

/-- A placeholder by its shape has an index that is a machine word. -/
def Token.IndexIsWord (t : Token) : Prop :=
  ∀ index, t.toList = 'n' :: index → Digits.isNumeric index = true →
    Digits.value index < Digits.wordLimit

theorem constantChars_of_isNumeric {s : List Char} (digits : ∀ c ∈ s, c.isDigit = true) :
    constantChars s = s := by
  induction s with
  | nil => rfl
  | cons d rest ih =>
    have point : d ≠ '_' := Digits.ne_of_isDigit (digits d (by simp)) (by decide)
    rw [constantChars, if_neg point, ih fun c mem => digits c (List.mem_cons_of_mem d mem)]

theorem Memory.valueOf_constant (m : Memory) {t : Token} {digits : List Char}
    (shape : t.toList = Token.constantMark ++ digits) (numeric : Digits.isNumeric digits = true) :
    ∃ x, m.valueOf t = .ok x := by
  rw [valueOf, Argument.ofToken_of_constant shape]
  by_cases pi : String.ofList digits = "pi"
  · exact ⟨constantPi, by simp [pi]⟩
  · have chars := constantChars_of_isNumeric (Digits.isNumeric_iff.mp numeric).2
    have value : Numeral.valueOf? digits = some (Numeral.value ⟨false, digits, none⟩) := by
      rw [Numeral.valueOf?, Numeral.ofChars?_of_isNumeric numeric, Option.map_some]
    exact ⟨Numeral.value ⟨false, digits, none⟩, by simp [pi, chars, value]⟩

theorem Memory.valueOf_bind_of_shape (m : Memory) {numerals : List Token}
    (plain : Binding.AllPlain numerals) {t : Token} (shaped : t.hasArgumentShape = true)
    (index : t.IndexIsWord) : ∃ x, m.valueOf (Binding.bind numerals t) = .ok x := by
  obtain ⟨digits, some_digit, all_digits, shape⟩ := Token.hasArgumentShape_iff.mp shaped
  have numeric : Digits.isNumeric digits = true :=
    Digits.isNumeric_iff.mpr ⟨some_digit, all_digits⟩
  rcases shape with placeholder | constant
  · have word : t.placeholder? = some (Digits.value digits) := by
      simp [Token.placeholder?, placeholder, Digits.word?, numeric, index digits placeholder numeric]
    exact valueOf_of_isPlain m (Binding.bind_of_placeholder plain word)
  · rw [Binding.bind_of_not_placeholder (Token.placeholder?_of_constant constant)]
    exact valueOf_constant m constant numeric

namespace Expression

def Sound (read : Token → Except StepFault Float) (value : Operand) : Prop :=
  (∃ x, value.value read = .ok x) ∧ ∀ x, value = .number x → x.isFinite = true

theorem values_of_sound {read : Token → Except StepFault Float} {operands : List Operand}
    (sound : ∀ operand ∈ operands, Sound read operand) :
    ∃ xs, Operand.values read operands = .ok xs ∧ xs.length = operands.length := by
  induction operands with
  | nil => exact ⟨[], rfl, rfl⟩
  | cons operand rest ih =>
    obtain ⟨x, first⟩ := (sound operand (by simp)).1
    obtain ⟨xs, others, count⟩ := ih fun o mem => sound o (List.mem_cons_of_mem operand mem)
    exact ⟨x :: xs, by rw [Operand.values, first, others], by simp [count]⟩

theorem apply_builtin {read : Token → Except StepFault Float} {operator : Token}
    {operands : List Operand} (known : Catalog.builtin.arity? operator = some operands.length)
    (sound : ∀ operand ∈ operands, Sound read operand) :
    (∃ x, Operand.apply read operator operands = .ok x ∧ x.isFinite = true) ∨
      ∃ why, Operand.apply read operator operands = .error (.refused operator why) := by
  rw [Catalog.arity?_builtin] at known
  obtain ⟨f, found, arity⟩ := Option.map_eq_some_iff.mp known
  obtain ⟨xs, values, count⟩ := values_of_sound sound
  have applied : Operand.apply read operator operands = f.finite xs := by
    simp only [Operand.apply, found, arity, ↓reduceIte, values]
  rw [applied, ← Formula.find?_name found]
  exact Formula.finite_cases (by rw [count, arity])

section
variable {admits : Token → Bool} {read : Token → Except StepFault Float}

mutual

theorem evaluate_builtin :
    (e : Expression) → Fits .builtin admits e →
      (∀ t ∈ listing e, admits t = true → ∃ x, read t = .ok x) → ∀ start,
      (∃ value, evaluate read start e = .ok value ∧ Sound read value) ∨
        ∃ fault, evaluate read start e = .error fault ∧ fault.kind = .domain
  | .leaf t, fits, readable, _ => by
    refine .inl ⟨.token t, rfl, readable t (by simp [listing]) fits.2, ?_⟩
    intro x number
    cases number
  | .call operator arguments, fits, readable, start => by
    rw [evaluate]
    rcases evaluateAll_builtin arguments fits.2
      (fun t mem => readable t (List.mem_cons_of_mem operator mem)) start with
      ⟨values, inner, sound⟩ | ⟨fault, inner, domain⟩
    · simp only [inner]
      have known : Catalog.builtin.arity? operator = some values.length := by
        rw [fits.1, evaluateAll_length inner]
      rcases apply_builtin known sound with ⟨x, applied, finite⟩ | ⟨why, applied⟩
      · refine .inl ⟨.number x, by rw [applied], ⟨x, rfl⟩, ?_⟩
        intro y number
        cases number
        exact finite
      · rw [applied]
        exact .inr ⟨_, rfl, rfl⟩
    · rw [inner]
      exact .inr ⟨fault, rfl, domain⟩

theorem evaluateAll_builtin :
    (es : List Expression) → AllFit .builtin admits es →
      (∀ t ∈ listings es, admits t = true → ∃ x, read t = .ok x) → ∀ start,
      (∃ values, evaluateAll read start es = .ok values ∧ ∀ value ∈ values, Sound read value) ∨
        ∃ fault, evaluateAll read start es = .error fault ∧ fault.kind = .domain
  | [], _, _, _ => .inl ⟨[], rfl, by simp⟩
  | e :: rest, fits, readable, start => by
    rw [evaluateAll]
    rcases evaluate_builtin e fits.1 (fun t mem => readable t (List.mem_append_left _ mem))
      start with ⟨value, first, sound⟩ | ⟨fault, first, domain⟩
    · rw [first]
      rcases evaluateAll_builtin rest fits.2
        (fun t mem => readable t (List.mem_append_right _ mem)) (start + calls e) with
        ⟨values, others, allSound⟩ | ⟨fault, others, domain⟩
      · rw [others]
        exact .inl ⟨value :: values, rfl, List.forall_mem_cons.mpr ⟨sound, allSound⟩⟩
      · rw [others]
        exact .inr ⟨fault, rfl, domain⟩
    · rw [first]
      exact .inr ⟨fault, rfl, domain⟩

end

theorem outcome_builtin {e : Expression} (call : e.IsCall) (fits : Fits .builtin admits e)
    (readable : ∀ t ∈ listing e, admits t = true → ∃ x, read t = .ok x) :
    (∃ x, outcome read e = .ok (some x) ∧ x.isFinite = true) ∨
      ∃ fault, outcome read e = .error fault ∧ fault.kind = .domain := by
  unfold outcome
  rcases evaluate_builtin e fits readable 0 with ⟨value, evaluated, sound⟩ | ⟨fault, failed, domain⟩
  · cases e with
    | leaf t => exact call.elim
    | call operator arguments =>
      obtain ⟨x, rfl⟩ := evaluate_call_number evaluated
      rw [evaluated]
      exact .inl ⟨x, rfl, sound.2 x rfl⟩
  · rw [failed]
    exact .inr ⟨fault, rfl, domain⟩

end

end Expression

/-- A nested program of the built-in operators that can be read, with placeholders whose indices
    are machine words, has a finite answer unless the mathematics has none. Only the empty program
    is without an answer. -/
theorem Problem.solve_nested_fails_only_in_mathematics (p : Problem) {program : Program}
    (read : Program.ofNestedSource .builtin none p.program = .ok program)
    (indices : ∀ t ∈ Token.ofSource p.program, t.IndexIsWord) :
    if program = [] then p.solve .nested .builtin none = .ok none
    else
      (∃ x, p.solve .nested .builtin none = .ok (some x) ∧ x.isFinite = true) ∨
        ∃ fault, p.solve .nested .builtin none = .error fault ∧ fault.kind = .domain := by
  have plain : ∀ set : ArgumentSet, none = some set → ∀ t ∈ set.members,
      Token.isReference t = false := by
    intro set impossible
    cases impossible
  rcases Program.ofNested_eq_ok Catalog.builtin_positive read with ⟨_, rfl⟩ | ⟨e, listed, rfl⟩
  · rw [if_pos rfl, solve_of_read (Form.read_nested_of_ok read)]
    rfl
  · rw [if_neg (Expression.operations_ne_nil listed.call 0),
      solve_of_listedBy Catalog.builtin_positive plain listed]
    apply Expression.outcome_builtin listed.call listed.fits
    intro t mem shaped
    rw [listed.listing] at mem
    exact Memory.valueOf_bind_of_shape .empty (Binding.numerals_plain p.text) shaped
      (indices t mem)

theorem Problem.solve_nested_of_largest_index :
    (Program.ofNestedSource .builtin none "choose(n18446744073709551615, divide(const_7, n1))" =
        .ok [⟨"divide", ["const_7", "n1"]⟩, ⟨"choose", ["n18446744073709551615", "#0"]⟩]) ∧
      (∀ t ∈ ["choose", "n18446744073709551615", "divide", "const_7", "n1"],
        Token.IndexIsWord t) ∧
      ((∃ x, Problem.solve ⟨"choose(n18446744073709551615, divide(const_7, n1))", "5 of 0"⟩
          .nested .builtin none = .ok (some x) ∧ x.isFinite = true) ∨
        ∃ fault, Problem.solve ⟨"choose(n18446744073709551615, divide(const_7, n1))", "5 of 0"⟩
          .nested .builtin none = .error fault ∧ fault.kind = .domain) := by
  have read : Program.ofNestedSource .builtin none
      "choose(n18446744073709551615, divide(const_7, n1))" =
      .ok [⟨"divide", ["const_7", "n1"]⟩, ⟨"choose", ["n18446744073709551615", "#0"]⟩] := by
    decide +kernel
  have words : ∀ t ∈ ["choose", "n18446744073709551615", "divide", "const_7", "n1"],
      Token.IndexIsWord t := by
    intro t mem index shape numeric
    have bound : ∀ t ∈ ["choose", "n18446744073709551615", "divide", "const_7", "n1"],
        Digits.value (t.toList.drop 1) < Digits.wordLimit := by decide +kernel
    simpa [shape] using bound t mem
  refine ⟨read, words, ?_⟩
  have safe := solve_nested_fails_only_in_mathematics
    ⟨"choose(n18446744073709551615, divide(const_7, n1))", "5 of 0"⟩ read words
  simpa using safe

end WordProblem
