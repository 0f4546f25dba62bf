import WordProblem.Proofs.Matching
import WordProblem.Proofs.Numeral

/-!
The scan for numerals against their regular expression. What it finds are the leftmost-longest
matches. So no digit is missed or read twice, a minus sign with a digit behind it begins a numeral,
and a text is a number when the scan finds it all in one piece.
-/
namespace WordProblem

open RegularExpression

namespace Digits

theorem mem_digits_iff {c : Char} : c ∈ "0123456789".toList ↔ c.isDigit = true := by
  constructor
  · intro mem
    have each : ∀ d ∈ "0123456789".toList, d.isDigit = true := by simp
    exact each c mem
  · intro digit
    rw [Char.isDigit, Bool.and_eq_true, decide_eq_true_eq, decide_eq_true_eq] at digit
    have low : 48 ≤ c.toNat := digit.1
    have high : c.toNat ≤ 57 := digit.2
    rw [← Char.ofNat_toNat c]
    generalize c.toNat = n at low high ⊢
    interval_cases n <;> decide

end Digits

namespace Numeral

def digit : RegularExpression Char := Text.oneOf "0123456789".toList

/-- The expression `-?[0-9]+(\.[0-9]*)?`. -/
def pattern : RegularExpression Char :=
  (1 + char '-') * (digit * digit.star) * (1 + char '.' * digit.star)

theorem mem_digits {s : List Char} : s ∈ digit.star.matches' ↔ ∀ c ∈ s, c.isDigit = true := by
  simp only [digit, Text.mem_star_oneOf, Digits.mem_digits_iff]

theorem mem_sign {s : List Char} :
    s ∈ (1 + char '-').matches' ↔ ∃ negative : Bool, s = if negative then ['-'] else [] := by
  rw [matches'_add, Language.mem_add, matches'_epsilon, Language.mem_one, matches'_char,
    Bool.exists_bool]
  exact Iff.rfl

theorem mem_whole {s : List Char} :
    s ∈ (digit * digit.star).matches' ↔ Digits.isNumeric s = true := by
  rw [matches'_mul, Language.mem_mul, Digits.isNumeric_iff]
  simp only [mem_digits]
  simp only [digit, Text.mem_oneOf, Digits.mem_digits_iff]
  constructor
  · rintro ⟨_, ⟨d, digit, rfl⟩, rest, more, rfl⟩
    exact ⟨by simp, List.forall_mem_cons.mpr ⟨digit, more⟩⟩
  · rintro ⟨nonempty, all⟩
    cases s with
    | nil => exact absurd rfl nonempty
    | cons d rest =>
      obtain ⟨digit, more⟩ := List.forall_mem_cons.mp all
      exact ⟨[d], ⟨d, digit, rfl⟩, rest, more, rfl⟩

theorem mem_fraction {s : List Char} :
    s ∈ (1 + char '.' * digit.star).matches' ↔
      s = [] ∨ ∃ places, (∀ c ∈ places, c.isDigit = true) ∧ s = '.' :: places := by
  rw [matches'_add, Language.mem_add, matches'_epsilon, Language.mem_one, matches'_mul,
    Language.mem_mul]
  simp only [matches'_char, mem_digits]
  constructor
  · rintro (empty | ⟨_, point, places, all, rfl⟩)
    · exact .inl empty
    · cases point
      exact .inr ⟨places, all, rfl⟩
  · rintro (empty | ⟨places, all, rfl⟩)
    · exact .inl empty
    · exact .inr ⟨['.'], rfl, places, all, rfl⟩

theorem mem_pattern_iff {s : List Char} :
    s ∈ pattern.matches' ↔ ∃ n : Numeral, n.Written ∧ n.chars = s := by
  rw [pattern, matches'_mul, Language.mem_mul, matches'_mul]
  simp only [Language.mem_mul, mem_sign, mem_whole, mem_fraction]
  constructor
  · rintro ⟨_, ⟨_, ⟨negative, rfl⟩, whole, numeric, rfl⟩, _, rfl | ⟨places, all, rfl⟩, rfl⟩
    · exact ⟨⟨negative, whole, none⟩, ⟨numeric, by simp⟩, rfl⟩
    · refine ⟨⟨negative, whole, some places⟩, ⟨numeric, ?_⟩, rfl⟩
      rintro _ ⟨⟩
      exact all
  · rintro ⟨⟨negative, whole, fraction⟩, written, rfl⟩
    refine ⟨_, ⟨_, ⟨negative, rfl⟩, whole, written.whole, rfl⟩, _, ?_, rfl⟩
    cases fraction with
    | none => exact .inl rfl
    | some places => exact .inr ⟨places, written.fraction places rfl, rfl⟩

theorem readUnsigned_written {negative : Bool} {s rest : List Char} {n : Numeral}
    (read : readUnsigned negative s = some (n, rest)) : n.Written := by
  have inside : ∀ (t : List Char), ∀ c ∈ t.takeWhile Char.isDigit, c.isDigit = true := by
    intro t c mem
    exact List.mem_takeWhile_imp mem
  simp only [readUnsigned] at read
  split at read
  · cases read
  · rename_i nonempty
    have whole : Digits.isNumeric (s.takeWhile Char.isDigit) = true :=
      Digits.isNumeric_iff.mpr ⟨by simpa using nonempty, inside s⟩
    split at read
    · rename_i after _
      cases read
      refine ⟨whole, ?_⟩
      intro places shown
      cases shown
      exact inside after
    · cases read
      exact ⟨whole, by simp⟩

theorem read?_written {s rest : List Char} {n : Numeral} (read : read? s = some (n, rest)) :
    n.Written := by
  unfold read? at read
  split at read
  · exact readUnsigned_written read
  · exact readUnsigned_written read

/-- A numeral at the front is read, or a longer one that begins with it. -/
theorem readUnsigned_longest {n : Numeral} (written : n.Written) (t : List Char) :
    ∃ m rest, readUnsigned n.negative (chars ⟨false, n.whole, n.fraction⟩ ++ t) = some (m, rest) ∧
      n.chars.length ≤ m.chars.length := by
  obtain ⟨negative, whole, fraction⟩ := n
  obtain ⟨nonempty, digits⟩ := Digits.isNumeric_iff.mp written.whole
  simp only at nonempty digits
  cases fraction with
  | none =>
    have front : (whole ++ t).takeWhile Char.isDigit = whole ++ t.takeWhile Char.isDigit :=
      List.takeWhile_append_of_pos digits
    have filled : (whole ++ t.takeWhile Char.isDigit).isEmpty = false := by simp [nonempty]
    simp only [chars, Bool.false_eq_true, ↓reduceIte, List.nil_append, List.append_nil,
      readUnsigned, front, filled]
    split
    · exact ⟨_, _, rfl, by simp⟩
    · exact ⟨_, _, rfl, by simp⟩
  | some places =>
    have front : (whole ++ '.' :: places ++ t).takeWhile Char.isDigit = whole := by
      rw [List.append_assoc, List.takeWhile_append_of_pos digits]
      simp
    have back : (whole ++ '.' :: places ++ t).dropWhile Char.isDigit = '.' :: (places ++ t) := by
      rw [List.append_assoc, List.dropWhile_append_of_pos digits]
      simp
    have after : (places ++ t).takeWhile Char.isDigit = places ++ t.takeWhile Char.isDigit :=
      List.takeWhile_append_of_pos (written.fraction places rfl)
    have filled : whole.isEmpty = false := by simp [nonempty]
    simp only [chars, Bool.false_eq_true, ↓reduceIte, List.nil_append, readUnsigned, front, back,
      after, filled]
    exact ⟨_, _, rfl, by simp⟩

theorem read?_longest {n : Numeral} (written : n.Written) {s : List Char} (start : n.chars <+: s) :
    ∃ m rest, read? s = some (m, rest) ∧ n.chars.length ≤ m.chars.length := by
  obtain ⟨t, rfl⟩ := start
  obtain ⟨m, rest, read, length⟩ := readUnsigned_longest written t
  refine ⟨m, rest, ?_, length⟩
  rw [← read]
  cases sign : n.negative with
  | true => rw [chars_signed, sign, if_pos rfl, List.singleton_append, List.cons_append, read?]
  | false =>
    obtain ⟨d, more, first, digit⟩ := Digits.isNumeric_cons written.whole
    simp only [chars, sign, first, List.cons_append, List.nil_append, Bool.false_eq_true,
      ↓reduceIte]
    exact read?_of_digit digit

theorem read?_of_matchAt {text word : List Char} {i : ℕ}
    (possible : Text.MatchAt pattern.matches' text i word) :
    ∃ n rest, read? (text.drop i) = some (n, rest) ∧ word.length ≤ n.chars.length := by
  obtain ⟨m, written, rfl⟩ := mem_pattern_iff.mp possible.1
  exact read?_longest written possible.2

def locate (start : ℕ) (s : List Char) : List (ℕ × Numeral) :=
  match _h : read? s with
  | some (n, rest) => (start, n) :: locate (start + n.chars.length) rest
  | none =>
    match s with
    | [] => []
    | _ :: rest => locate (start + 1) rest
termination_by s.length
decreasing_by
  · exact read?_rest_shorter _h
  · simp

theorem map_locate (start : ℕ) (s : List Char) : (locate start s).map Prod.snd = scan s := by
  fun_induction locate start s with
  | case1 start s n rest read ih => rw [List.map_cons, ih, scan_of_read? read]
  | case2 => rw [List.map_nil, scan_nil]
  | case3 start c rest none ih => rw [ih, scan_skip none]

theorem locate_of_read? {start : ℕ} {s rest : List Char} {n : Numeral}
    (read : read? s = some (n, rest)) :
    locate start s = (start, n) :: locate (start + n.chars.length) rest := by
  rw [locate]
  split
  · rename_i other
    rw [read] at other
    cases other
    rfl
  · rename_i other
    rw [read] at other
    cases other

theorem locate_skip {start : ℕ} {c : Char} {s : List Char} (none : read? (c :: s) = none) :
    locate start (c :: s) = locate (start + 1) s := by
  rw [locate]
  split
  · rename_i other
    rw [none] at other
    cases other
  · rfl

theorem locate_bounds (start : ℕ) (s : List Char) :
    ∀ q ∈ locate start s, start ≤ q.1 ∧ q.1 < start + s.length := by
  fun_induction locate start s with
  | case1 start s n rest read ih =>
    obtain ⟨split, nonempty⟩ := read?_eq_append read
    have length := chars_length_pos nonempty
    intro q mem
    rw [split, List.length_append]
    rcases List.mem_cons.mp mem with first | later
    · subst first
      dsimp only
      omega
    · have inside := ih q later
      omega
  | case2 => simp
  | case3 start c rest none ih =>
    intro q mem
    have inside := ih q mem
    rw [List.length_cons]
    omega

theorem scan_written (s : List Char) : ∀ n ∈ scan s, n.Written := by
  fun_induction scan s with
  | case1 s n rest read ih => exact List.forall_mem_cons.mpr ⟨read?_written read, ih⟩
  | case2 => simp
  | case3 c rest none ih => exact ih

theorem leftmostLongest_locate {text s : List Char} {start : ℕ} (behind : text.drop start = s) :
    Text.LeftmostLongest pattern.matches' text start
      ((locate start s).map fun q => (q.1, q.2.chars)) := by
  fun_induction locate start s with
  | case1 start s n rest read ih =>
    obtain ⟨split, _⟩ := read?_eq_append read
    have next := ih (by rw [← List.drop_drop, behind, split, List.drop_left])
    have here : Text.MatchAt pattern.matches' text start n.chars :=
      ⟨mem_pattern_iff.mpr ⟨n, read?_written read, rfl⟩, by simp [behind, split]⟩
    refine .next (Nat.le_refl start) (by omega) here ?_ next
    intro word possible
    obtain ⟨m, _, again, length⟩ := read?_of_matchAt possible
    rw [behind, read] at again
    cases again
    exact length
  | case2 start none =>
    refine .none ?_
    intro i later word possible
    obtain ⟨_, _, read, _⟩ := read?_of_matchAt possible
    rw [List.drop_eq_nil_iff.mpr (Nat.le_trans (List.drop_eq_nil_iff.mp behind) later)] at read
    cases read
  | case3 start c rest none ih =>
    have next := ih (by rw [← List.drop_drop, behind, List.drop_one, List.tail_cons])
    apply next.earlier
    intro word possible
    obtain ⟨_, _, read, _⟩ := read?_of_matchAt possible
    rw [behind, none] at read
    cases read

theorem minus_first {n : Numeral} (written : n.Written) {j : ℕ}
    (minus : n.chars[j]? = some '-') : j = 0 := by
  have unsigned := not_mem_unsigned written (c := '-') (by decide) (by decide)
  rw [chars_signed] at minus
  cases sign : n.negative with
  | false =>
    simp only [sign, Bool.false_eq_true, ↓reduceIte, List.nil_append] at minus
    exact absurd (List.mem_of_getElem? minus) unsigned
  | true =>
    cases j with
    | zero => rfl
    | succ j =>
      simp only [sign, ↓reduceIte, List.singleton_append, List.getElem?_cons_succ] at minus
      exact absurd (List.mem_of_getElem? minus) unsigned

theorem ofChars?_eq_some_iff {s : List Char} {n : Numeral} :
    ofChars? s = some n ↔ n.Written ∧ n.chars = s := by
  constructor
  · intro whole
    unfold ofChars? at whole
    split at whole
    · rename_i m read
      cases whole
      exact ⟨read?_written read, by simpa using (read?_eq_append read).1.symm⟩
    · cases whole
  · intro written
    rw [← written.2, ofChars?_chars written.1]

theorem ofChars?_isSome_iff {s : List Char} :
    (ofChars? s).isSome = true ↔ (scan s).map chars = [s] := by
  rw [Option.isSome_iff_exists]
  constructor
  · rintro ⟨n, whole⟩
    obtain ⟨written, rfl⟩ := ofChars?_eq_some_iff.mp whole
    rw [scan_chars written, List.map_singleton]
  · intro single
    obtain ⟨n, found, shown⟩ := List.map_eq_singleton_iff.mp single
    exact ⟨n, ofChars?_eq_some_iff.mpr ⟨scan_written s n (by simp [found]), shown⟩⟩

theorem matchAt_digit {s : List Char} {p : ℕ} {c : Char} (here : s[p]? = some c)
    (digit : c.isDigit = true) : Text.MatchAt pattern.matches' s p [c] := by
  have written : Written ⟨false, [c], none⟩ := ⟨by simp [Digits.isNumeric_iff, digit], by simp⟩
  have word : [c] ∈ pattern.matches' := mem_pattern_iff.mpr ⟨_, written, rfl⟩
  have split : s.drop p = c :: s.drop (p + 1) := by
    rw [List.drop_eq_getElem?_toList_append, here]
    rfl
  exact ⟨word, by simp [split]⟩

theorem matchAt_minus {s : List Char} {p : ℕ} {d : Char} (here : s[p]? = some '-')
    (next : s[p + 1]? = some d) (digit : d.isDigit = true) :
    Text.MatchAt pattern.matches' s p ['-', d] := by
  have written : Written ⟨true, [d], none⟩ := ⟨by simp [Digits.isNumeric_iff, digit], by simp⟩
  have word : ['-', d] ∈ pattern.matches' := mem_pattern_iff.mpr ⟨_, written, rfl⟩
  have split : s.drop p = '-' :: d :: s.drop (p + 1 + 1) := by
    rw [List.drop_eq_getElem?_toList_append, here, List.drop_eq_getElem?_toList_append, next]
    rfl
  exact ⟨word, by simp [split]⟩

/-- The numeral that a minus sign with a digit lies in cannot have begun before. -/
theorem begins_of_minus {s : List Char} {found : List (ℕ × List Char)}
    (all : Text.LeftmostLongest pattern.matches' s 0 found) {p : ℕ} {d : Char}
    (here : s[p]? = some '-') (next : s[p + 1]? = some d) (digit : d.isDigit = true) :
    ∃ m, (p, m) ∈ found := by
  have once := all.countP_covers (Nat.zero_le p) (matchAt_minus here next digit)
  have some_covers : 0 < found.countP (Text.covers p) := by omega
  obtain ⟨⟨i, m⟩, mem, covered⟩ := List.countP_pos_iff.mp some_covers
  simp only [Text.covers, Bool.and_eq_true, decide_eq_true_eq] at covered
  obtain ⟨word, front⟩ := all.matchAt _ mem
  obtain ⟨n, written, rfl⟩ := mem_pattern_iff.mp word
  have minus : n.chars[p - i]? = some '-' := by
    have inside : p - i < n.chars.length := by omega
    have same := List.prefix_iff_getElem?.mp front (p - i) inside
    rw [List.getElem?_drop, show i + (p - i) = p by omega, here] at same
    rw [List.getElem?_eq_getElem inside, same]
  have first := minus_first written minus
  rw [show p = i by omega]
  exact ⟨_, mem⟩

/-- The scan of a text finds the leftmost-longest matches of `-?[0-9]+(\.[0-9]*)?` and nothing
    else. Each digit of the text is in exactly one of them, and a minus sign with a digit behind it
    begins one. A text is read as a number when the scan finds it all in one piece, which is when
    it matches as a whole, and then the number is the first that the scan finds. Each piece that
    the scan finds is read as a number too. -/
theorem scan_leftmost_longest (text : String) :
    ∃ found : List (ℕ × List Char),
      (∀ other, Text.LeftmostLongest pattern.matches' text.toList 0 other ↔ other = found) ∧
      (scanText text).map Numeral.text = found.map (fun q => String.ofList q.2) ∧
      (∀ p d, text.toList[p]? = some d → d.isDigit = true → found.countP (Text.covers p) = 1) ∧
      (∀ p d, text.toList[p]? = some '-' → text.toList[p + 1]? = some d → d.isDigit = true →
        ∃ m, (p, m) ∈ found) ∧
      ((valueOf? text.toList).isSome = true ↔ (scanText text).map Numeral.text = [text]) ∧
      ((valueOf? text.toList).isSome = true ↔ text.toList ∈ pattern.matches') ∧
      (∀ x, valueOf? text.toList = some x → firstValue? text.toList = some x) ∧
      ∀ n ∈ scanText text, valueOf? n.text.toList = some n.value := by
  have all : Text.LeftmostLongest pattern.matches' text.toList 0
      ((locate 0 text.toList).map fun q => (q.1, q.2.chars)) := leftmostLongest_locate rfl
  have accepted : (valueOf? text.toList).isSome = (ofChars? text.toList).isSome := by
    simp [valueOf?]
  refine ⟨(locate 0 text.toList).map fun q => (q.1, q.2.chars), ?_, ?_, ?_, ?_, ?_, ?_, ?_, ?_⟩
  · intro other
    constructor
    · intro found
      exact found.unique all
    · intro same
      rwa [same]
  · rw [scanText, ← map_locate 0, List.map_map, List.map_map]
    rfl
  · intro p d here digit
    exact all.countP_covers (Nat.zero_le p) (matchAt_digit here digit)
  · intro p d here next digit
    exact begins_of_minus all here next digit
  · rw [accepted, ofChars?_isSome_iff]
    simp only [List.map_eq_singleton_iff, scanText, Numeral.text, ← String.toList_inj,
      String.toList_ofList]
  · rw [accepted, Option.isSome_iff_exists, mem_pattern_iff]
    simp only [ofChars?_eq_some_iff]
  · intro x value
    obtain ⟨n, whole, rfl⟩ := Option.map_eq_some_iff.mp value
    obtain ⟨written, shown⟩ := ofChars?_eq_some_iff.mp whole
    rw [← shown, firstValue?, scan_chars written, List.head?_cons, Option.map_some]
  · intro n mem
    rw [Numeral.text, String.toList_ofList, valueOf?, ofChars?_chars (scan_written _ n mem),
      Option.map_some]

example :
    (scanText "rs . --3.50.7- or 7.").map Numeral.text = ["-3.50", "7", "7."] := by
  decide +kernel

end Numeral

end WordProblem
