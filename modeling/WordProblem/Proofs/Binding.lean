import Mathlib.Data.List.TakeWhile
import WordProblem.Program.Run

/-!
Arguments once they are bound. A plain numeral is a literal that reads as a number, so binding
puts a number in the place of every placeholder, and neither a placeholder nor a reference comes
out of it that did not go in.
-/
namespace WordProblem

namespace Digits

theorem isNumeric_cons {s : List Char} (numeric : isNumeric s = true) :
    ∃ d rest, s = d :: rest ∧ d.isDigit = true := by
  obtain ⟨nonempty, digits⟩ := isNumeric_iff.mp numeric
  cases s with
  | nil => exact absurd rfl nonempty
  | cons d rest => exact ⟨d, rest, rfl, digits d (by simp)⟩

end Digits

namespace Numeral

theorem read?_unsigned {c : Char} {rest : List Char} (unsigned : c ≠ '-') :
    read? (c :: rest) = readUnsigned false (c :: rest) := by
  simp [read?, unsigned]

theorem read?_of_digit {d : Char} {rest : List Char} (digit : d.isDigit = true) :
    read? (d :: rest) = readUnsigned false (d :: rest) :=
  read?_unsigned (Digits.ne_of_isDigit digit (by decide))

structure Written (n : Numeral) : Prop where
  whole : Digits.isNumeric n.whole = true
  fraction : ∀ places, n.fraction = some places → ∀ c ∈ places, c.isDigit = true

theorem readUnsigned_chars {n : Numeral} (written : n.Written) :
    readUnsigned n.negative (⟨false, n.whole, n.fraction⟩ : Numeral).chars = some (n, []) := by
  obtain ⟨negative, whole, fraction⟩ := n
  obtain ⟨numeric, places⟩ := written
  obtain ⟨nonempty, digits⟩ := Digits.isNumeric_iff.mp numeric
  cases fraction with
  | none =>
    have all := List.takeWhile_eq_self_iff.mpr digits
    have rest := List.dropWhile_eq_nil_iff.mpr digits
    simp only at nonempty
    simp [chars, readUnsigned, all, rest, nonempty]
  | some fraction =>
    have after := places fraction rfl
    have all := List.takeWhile_eq_self_iff.mpr after
    have rest := List.dropWhile_eq_nil_iff.mpr after
    have front : (whole ++ '.' :: fraction).takeWhile Char.isDigit = whole := by
      rw [List.takeWhile_append_of_pos digits]
      simp
    have point : (whole ++ '.' :: fraction).dropWhile Char.isDigit = '.' :: fraction := by
      rw [List.dropWhile_append_of_pos digits]
      simp
    simp only at nonempty
    simp [chars, readUnsigned, front, point, all, rest, nonempty]

theorem read?_chars {n : Numeral} (written : n.Written) : read? n.chars = some (n, []) := by
  have unsigned := readUnsigned_chars written
  cases sign : n.negative with
  | true =>
    have signed : n.chars = '-' :: (⟨false, n.whole, n.fraction⟩ : Numeral).chars := by
      simp [chars, sign]
    rw [signed, read?, ← sign, unsigned]
  | false =>
    obtain ⟨d, rest, first, digit⟩ := Digits.isNumeric_cons written.whole
    have plain : n.chars = (⟨false, n.whole, n.fraction⟩ : Numeral).chars := by
      simp [chars, sign]
    rw [sign] at unsigned
    rw [← unsigned, plain]
    simp only [chars, first, List.cons_append, List.nil_append, Bool.false_eq_true, ↓reduceIte]
    exact read?_of_digit digit

theorem ofChars?_chars {n : Numeral} (written : n.Written) : ofChars? n.chars = some n := by
  rw [ofChars?, read?_chars written]

theorem ofChars?_of_isNumeric {s : List Char} (numeric : Digits.isNumeric s = true) :
    ofChars? s = some ⟨false, s, none⟩ := by
  have written : Written ⟨false, s, none⟩ := ⟨numeric, by simp⟩
  have shown : (⟨false, s, none⟩ : Numeral).chars = s := by simp [chars]
  rw [← ofChars?_chars written, shown]

theorem ofChars?_of_point {whole places : List Char} (left : Digits.isNumeric whole = true)
    (right : Digits.isNumeric places = true) :
    ofChars? (whole ++ '.' :: places) = some ⟨false, whole, some places⟩ := by
  have written : Written ⟨false, whole, some places⟩ := by
    refine ⟨left, ?_⟩
    rintro _ ⟨⟩
    exact (Digits.isNumeric_iff.mp right).2
  have shown : (⟨false, whole, some places⟩ : Numeral).chars = whole ++ '.' :: places := by
    simp [chars]
  rw [← ofChars?_chars written, shown]

end Numeral

namespace Binding

theorem isPlain_cons {s : List Char} (plain : isPlain s = true) :
    ∃ d rest, s = d :: rest ∧ d.isDigit = true := by
  rw [isPlain, Bool.or_eq_true] at plain
  rcases plain with numeric | point
  · exact Digits.isNumeric_cons numeric
  · split at point
    · rename_i whole places cut
      obtain ⟨d, rest, rfl, digit⟩ := Digits.isNumeric_cons (Bool.and_eq_true_iff.mp point).1
      exact ⟨d, rest ++ '.' :: places, (Text.cutAt_eq_some_iff.mp cut).1, digit⟩
    · cases point

theorem digit_or_point_of_isPlain {s : List Char} (plain : isPlain s = true) :
    ∀ c ∈ s, c.isDigit = true ∨ c = '.' := by
  rw [isPlain, Bool.or_eq_true] at plain
  rcases plain with numeric | point
  · exact fun c mem => .inl ((Digits.isNumeric_iff.mp numeric).2 c mem)
  · split at point
    · rename_i whole places cut
      obtain ⟨left, right⟩ := Bool.and_eq_true_iff.mp point
      rw [(Text.cutAt_eq_some_iff.mp cut).1, List.forall_mem_append, List.forall_mem_cons]
      exact ⟨fun c mem => .inl ((Digits.isNumeric_iff.mp left).2 c mem), .inr rfl,
        fun c mem => .inl ((Digits.isNumeric_iff.mp right).2 c mem)⟩
    · cases point

theorem valueOf?_of_isPlain {s : List Char} (plain : isPlain s = true) :
    ∃ x, Numeral.valueOf? s = some x := by
  rw [isPlain, Bool.or_eq_true] at plain
  rcases plain with numeric | point
  · exact ⟨_, by rw [Numeral.valueOf?, Numeral.ofChars?_of_isNumeric numeric, Option.map_some]⟩
  · split at point
    · rename_i whole places cut
      obtain ⟨left, right⟩ := Bool.and_eq_true_iff.mp point
      rw [(Text.cutAt_eq_some_iff.mp cut).1, Numeral.valueOf?, Numeral.ofChars?_of_point left right]
      exact ⟨_, rfl⟩
    · cases point

def AllPlain (numerals : List Token) : Prop := ∀ n ∈ numerals, isPlain n.toList = true

theorem numerals_plain (text : String) : AllPlain (numerals text) := by
  intro n mem
  simp only [numerals, List.mem_map, List.mem_filter] at mem
  obtain ⟨word, ⟨_, plain⟩, rfl⟩ := mem
  simpa using plain

theorem isPlain_fallback : isPlain fallback.toList = true := by decide

/-- What a placeholder may stand for: a numeral with that number, the first one, or the fallback. -/
theorem bound_mem (numerals : List Token) (index : Nat) :
    (numerals[index]?).getD (numerals.head?.getD fallback) ∈ fallback :: numerals := by
  cases found : numerals[index]? with
  | some n => exact List.mem_cons_of_mem fallback (List.mem_of_getElem? found)
  | none =>
    cases numerals with
    | nil => simp
    | cons first rest => simp

theorem bind_mem {t : Token} {index : Nat} (bound : t.placeholder? = some index)
    (numerals : List Token) : bind numerals t ∈ fallback :: numerals := by
  rw [bind, bound]
  exact bound_mem numerals index

theorem isPlain_getD {numerals : List Token} (plain : AllPlain numerals) (index : Nat) :
    isPlain ((numerals[index]?).getD (numerals.head?.getD fallback)).toList = true := by
  rcases List.mem_cons.mp (bound_mem numerals index) with last | mem
  · rw [last]
    exact isPlain_fallback
  · exact plain _ mem

theorem bind_of_placeholder {numerals : List Token} (plain : AllPlain numerals) {t : Token}
    {index : Nat} (bound : t.placeholder? = some index) :
    isPlain (bind numerals t).toList = true := by
  rw [bind, bound]
  exact isPlain_getD plain index

theorem bind_cases {numerals : List Token} (plain : AllPlain numerals) (t : Token) :
    (t.placeholder? = none ∧ bind numerals t = t) ∨
      isPlain (bind numerals t).toList = true := by
  cases bound : t.placeholder? with
  | none => exact .inl ⟨rfl, bind_of_not_placeholder bound⟩
  | some index => exact .inr (bind_of_placeholder plain bound)

end Binding

namespace Token

theorem placeholder?_of_head_ne {t : Token} {c : Char} {rest : List Char}
    (shape : t.toList = c :: rest) (other : c ≠ 'n') : t.placeholder? = none := by
  simp [placeholder?, shape, other]

theorem placeholder?_of_constant {t : Token} {name : List Char}
    (shape : t.toList = constantMark ++ name) : t.placeholder? = none := by
  rw [constantMark_chars, List.cons_append] at shape
  exact placeholder?_of_head_ne shape (by decide)

theorem placeholder?_of_isPlain {t : Token} (plain : Binding.isPlain t.toList = true) :
    t.placeholder? = none := by
  obtain ⟨d, rest, shape, digit⟩ := Binding.isPlain_cons plain
  exact placeholder?_of_head_ne shape (Digits.ne_of_isDigit digit (by decide))

theorem isReference_of_isPlain {t : Token} (plain : Binding.isPlain t.toList = true) :
    t.isReference = false := by
  obtain ⟨d, rest, shape, digit⟩ := Binding.isPlain_cons plain
  have other : d ≠ '#' := Digits.ne_of_isDigit digit (by decide)
  simp [isReference, shape, other]

theorem placeholder?_reference (index : Nat) : (reference index).placeholder? = none :=
  placeholder?_of_head_ne (String.toList_ofList) (by decide)

end Token

theorem Argument.ofToken_cases (t : Token) :
    (∃ index, t.placeholder? = some index ∧ ofToken t = .placeholder index) ∨
      t.placeholder? = none ∧
        ((∃ index, t.toList = '#' :: index ∧ ofToken t = .reference (String.ofList index)) ∨
          (∃ name, t.toList = Token.constantMark ++ name ∧
            ofToken t = .constant (String.ofList name)) ∨
          ofToken t = .literal t) := by
  cases bound : t.placeholder? with
  | some index => exact .inl ⟨index, rfl, by simp only [ofToken, bound]⟩
  | none =>
    refine .inr ⟨rfl, ?_⟩
    simp only [ofToken, bound]
    split
    · rename_i index shape
      exact .inl ⟨index, shape, rfl⟩
    · cases named : Text.after? Token.constantMark t.toList with
      | some name => exact .inr (.inl ⟨name, Text.after?_eq_some_iff.mp named, rfl⟩)
      | none => exact .inr (.inr rfl)

theorem Argument.ofToken_of_constant {t : Token} {name : List Char}
    (shape : t.toList = Token.constantMark ++ name) :
    ofToken t = .constant (String.ofList name) := by
  have named := Text.after?_eq_some_iff.mpr shape
  simp only [ofToken, Token.placeholder?_of_constant shape]
  split
  · rename_i other
    simp [shape, Token.constantMark_chars] at other
  · rw [named]

theorem Argument.ofToken_of_isPlain {t : Token} (plain : Binding.isPlain t.toList = true) :
    ofToken t = .literal t := by
  have unbound := Token.placeholder?_of_isPlain plain
  obtain ⟨d, rest, shape, digit⟩ := Binding.isPlain_cons plain
  rcases ofToken_cases t with
    ⟨index, bound, _⟩ | ⟨_, ⟨index, mark, _⟩ | ⟨name, mark, _⟩ | literal⟩
  · rw [unbound] at bound
    cases bound
  · rw [shape, List.cons.injEq] at mark
    exact absurd mark.1 (Digits.ne_of_isDigit digit (by decide))
  · rw [shape, Token.constantMark_chars, List.cons_append, List.cons.injEq] at mark
    exact absurd mark.1 (Digits.ne_of_isDigit digit (by decide))
  · exact literal

namespace Binding

theorem bind_reference (numerals : List Token) (index : Nat) :
    bind numerals (Token.reference index) = Token.reference index :=
  bind_of_not_placeholder (Token.placeholder?_reference index)

theorem placeholder?_bind {numerals : List Token} (plain : AllPlain numerals) (t : Token) :
    (bind numerals t).placeholder? = none := by
  rcases bind_cases plain t with ⟨unbound, same⟩ | bound
  · rw [same, unbound]
  · exact Token.placeholder?_of_isPlain bound

theorem isReference_bind {numerals : List Token} (plain : AllPlain numerals) {t : Token}
    (own : t.isReference = false) : (bind numerals t).isReference = false := by
  rcases bind_cases plain t with ⟨_, same⟩ | bound
  · rw [same, own]
  · exact Token.isReference_of_isPlain bound

end Binding

namespace Memory

theorem valueOf_of_isPlain (m : Memory) {t : Token} (plain : Binding.isPlain t.toList = true) :
    ∃ x, m.valueOf t = .ok x := by
  obtain ⟨x, value⟩ := Binding.valueOf?_of_isPlain plain
  exact ⟨x, by simp [valueOf, Argument.ofToken_of_isPlain plain, value]⟩

theorem valueOf_eq_of_not_reference (m later : Memory) {t : Token} (own : t.isReference = false) :
    m.valueOf t = later.valueOf t := by
  rcases Argument.ofToken_cases t with
    ⟨index, _, kind⟩ | ⟨_, ⟨index, shape, _⟩ | ⟨name, _, kind⟩ | kind⟩
  · simp only [valueOf, kind]
  · simp [Token.isReference, shape] at own
  · simp only [valueOf, kind]
  · simp only [valueOf, kind]

end Memory

end WordProblem
