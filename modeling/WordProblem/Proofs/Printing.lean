import WordProblem.Proofs.Forms
import WordProblem.Proofs.References

namespace WordProblem

namespace Token

def IsWord (t : Token) : Prop := ofSource t = [t]

theorem isWord_of_mem {source : String} {t : Token} (mem : t ∈ ofSource source) : t.IsWord := by
  obtain ⟨run, found, rfl⟩ := List.mem_map.mp mem
  rw [IsWord, ofSource, String.toList_ofList, Text.runs_of_mem found]
  rfl

theorem isDelimiter_of_isDigit {d : Char} (digit : d.isDigit = true) : isDelimiter d = false := by
  have visible : Text.isBlank d = false := Text.isBlank_of_isDigit digit
  have comma : d ≠ ',' := Digits.ne_of_isDigit digit (by decide)
  have opening : d ≠ '(' := Digits.ne_of_isDigit digit (by decide)
  have closing : d ≠ ')' := Digits.ne_of_isDigit digit (by decide)
  have bar : d ≠ '|' := Digits.ne_of_isDigit digit (by decide)
  simp [isDelimiter, visible, comma, opening, closing, bar]

theorem isWord_reference (i : Nat) : (reference i).IsWord := by
  have mark : isDelimiter '#' = false := by decide
  have clean : ∀ c ∈ '#' :: Digits.text i, isDelimiter c = false := by
    refine List.forall_mem_cons.mpr ⟨mark, ?_⟩
    intro d mem
    exact isDelimiter_of_isDigit ((Digits.isNumeric_iff.mp (Digits.isNumeric_text i)).2 d mem)
  rw [IsWord, ofSource, reference, String.toList_ofList,
    Text.runs_eq_singleton (List.cons_ne_nil _ _) clean]
  rfl

theorem flatMap_ofSource {ts : List Token} (words : ∀ t ∈ ts, t.IsWord) :
    ts.flatMap ofSource = ts := by
  induction ts with
  | nil => rfl
  | cons t rest ih =>
    have first : ofSource t = [t] := words t (by simp)
    rw [List.flatMap_cons, first, ih fun u mem => words u (List.mem_cons_of_mem t mem)]
    rfl

end Token

theorem Operation.runs_chars (op : Operation) :
    Text.runs Token.isDelimiter op.chars =
      op.tokens.flatMap fun t => Text.runs Token.isDelimiter t.toList := by
  have opening : Token.isDelimiter '(' = true := by decide
  have closing : Token.isDelimiter ')' = true := by decide
  have comma : Token.isDelimiter ',' = true := by decide
  rw [chars, tokens, Text.runs_append_cons opening, Text.runs_append_cons closing,
    Text.runs_intercalate comma, List.flatMap_cons, List.flatMap_map]
  simp [Text.runs]

namespace Program

theorem runs_chars (p : Program) :
    Text.runs Token.isDelimiter p.chars =
      p.tokens.flatMap fun t => Text.runs Token.isDelimiter t.toList := by
  have bar : Token.isDelimiter '|' = true := by decide
  rw [chars, Text.runs_intercalate bar, tokens, List.flatMap_map, List.flatMap_assoc]
  simp only [Operation.runs_chars]

theorem ofSource_text (p : Program) : Token.ofSource p.text = p.tokens.flatMap Token.ofSource := by
  rw [Token.ofSource, text, String.toList_ofList, runs_chars, List.map_flatMap]
  rfl

theorem Groups.ofSource_text {c : Catalog} {p : Program} (groups : p.Groups c none p.tokens)
    (words : ∀ t ∈ p.tokens, t.IsWord) : ofSource c p.text = .ok p := by
  rw [ofSource, Program.ofSource_text, Token.flatMap_ofSource words, groups.ofTokens]

theorem ofSource_text_of_ofSource {c : Catalog} {source : String} {p : Program}
    (read : ofSource c source = .ok p) : ofSource c p.text = .ok p := by
  have groups := ofTokens_eq_ok_iff.mp read
  have listing := groups.listing
  rw [← listing] at groups
  refine groups.ofSource_text ?_
  intro t mem
  rw [listing] at mem
  exact Token.isWord_of_mem mem

theorem isWord_of_ofNestedSource {c : Catalog} (positive : c.Positive) {source : String}
    {p : Program} (read : ofNestedSource c none source = .ok p) : ∀ t ∈ p.tokens, t.IsWord := by
  intro t mem
  obtain ⟨op, member, token⟩ := List.mem_flatMap.mp mem
  rcases List.mem_cons.mp token with rfl | argument
  · exact Token.isWord_of_mem (operator_of_ofNested positive read member)
  · obtain ⟨k, found⟩ := List.mem_iff_getElem?.mp member
    rcases looksBack_of_ofNested positive read k op found t argument with
      ⟨listed, _, _⟩ | ⟨i, _, rfl⟩
    · exact Token.isWord_of_mem listed
    · exact Token.isWord_reference i

theorem ofSource_text_of_ofNestedSource {c : Catalog} (positive : c.Positive)
    (apart : c.NoReference) {source : String} {p : Program}
    (read : ofNestedSource c none source = .ok p) : ofSource c p.text = .ok p :=
  (groups_of_ofNested positive apart read).ofSource_text (isWord_of_ofNestedSource positive read)

end Program

theorem Form.read_linear_of_ok {c : Catalog} {source : String} {p : Program}
    (read : Program.ofSource c source = .ok p) : Form.linear.read c none source = .ok p :=
  Form.read_linear_eq_ok_iff.mpr (Program.ofTokens_eq_ok_iff.mp read)

/-- A program that was read from either form is printed to a text that is read as the same
    program. So a nested source and the linear text of its program are solved alike. -/
theorem Program.printed_program_reads_back (c : Catalog) :
    (∀ (source : String) (p : Program), ofSource c source = .ok p → ofSource c p.text = .ok p) ∧
      (c.Positive → c.NoReference → ∀ (source : String) (p : Program),
        ofNestedSource c none source = .ok p →
          ofSource c p.text = .ok p ∧
            ∀ text : String, Problem.solve ⟨p.text, text⟩ .linear c none =
              Problem.solve ⟨source, text⟩ .nested c none) := by
  constructor
  · intro source p read
    exact ofSource_text_of_ofSource read
  · intro positive apart source p read
    have back := ofSource_text_of_ofNestedSource positive apart read
    refine ⟨back, ?_⟩
    intro text
    have linear : Form.linear.read c none (Problem.mk p.text text).program = .ok p :=
      Form.read_linear_of_ok back
    have nested : Form.nested.read c none (Problem.mk source text).program = .ok p :=
      Form.read_nested_of_ok read
    rw [Problem.solve_of_read linear, Problem.solve_of_read nested]

theorem Program.printed_program_of_mixed_layout :
    Catalog.builtin.Positive ∧ Catalog.builtin.NoReference ∧
      ofNestedSource .builtin none "add( multiply(n0,const_2) | sqrt n1 )" =
        .ok [⟨"multiply", ["n0", "const_2"]⟩, ⟨"sqrt", ["n1"]⟩, ⟨"add", ["#0", "#1"]⟩] ∧
      text [⟨"multiply", ["n0", "const_2"]⟩, ⟨"sqrt", ["n1"]⟩, ⟨"add", ["#0", "#1"]⟩] =
        "multiply(n0,const_2)|sqrt(n1)|add(#0,#1)" ∧
      ofSource .builtin "multiply(n0,const_2)|sqrt(n1)|add(#0,#1)" =
        .ok [⟨"multiply", ["n0", "const_2"]⟩, ⟨"sqrt", ["n1"]⟩, ⟨"add", ["#0", "#1"]⟩] := by
  have read : ofNestedSource .builtin none "add( multiply(n0,const_2) | sqrt n1 )" =
      .ok [⟨"multiply", ["n0", "const_2"]⟩, ⟨"sqrt", ["n1"]⟩, ⟨"add", ["#0", "#1"]⟩] := by
    decide +kernel
  have printed : text [⟨"multiply", ["n0", "const_2"]⟩, ⟨"sqrt", ["n1"]⟩, ⟨"add", ["#0", "#1"]⟩] =
      "multiply(n0,const_2)|sqrt(n1)|add(#0,#1)" := by
    decide +kernel
  refine ⟨Catalog.builtin_positive, Catalog.builtin_noReference, read, printed, ?_⟩
  rw [← printed]
  exact ((printed_program_reads_back .builtin).2 Catalog.builtin_positive
    Catalog.builtin_noReference _ _ read).1

end WordProblem
