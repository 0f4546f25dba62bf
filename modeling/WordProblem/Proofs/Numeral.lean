import WordProblem.Number
import WordProblem.Proofs.Binding
import WordProblem.Proofs.Decimal

namespace WordProblem

namespace Numeral

theorem scan_of_read? {s rest : List Char} {n : Numeral} (read : read? s = some (n, rest)) :
    scan s = n :: scan rest := by
  rw [scan]
  split
  · rename_i other
    rw [read] at other
    cases other
    rfl
  · rename_i other
    rw [read] at other
    cases other

theorem scan_skip {c : Char} {s : List Char} (none : read? (c :: s) = none) :
    scan (c :: s) = scan s := by
  rw [scan]
  split
  · rename_i other
    rw [none] at other
    cases other
  · rfl

theorem scan_nil : scan [] = [] := by
  rw [scan]
  rfl

theorem scan_chars {n : Numeral} (written : n.Written) : scan n.chars = [n] := by
  rw [scan_of_read? (read?_chars written), scan_nil]

theorem chars_signed (n : Numeral) :
    n.chars = (if n.negative then ['-'] else []) ++ chars ⟨false, n.whole, n.fraction⟩ := by
  simp [chars]

theorem not_mem_unsigned {n : Numeral} (written : n.Written) {c : Char}
    (other : c.isDigit = false) (point : c ≠ '.') :
    c ∉ chars ⟨false, n.whole, n.fraction⟩ := by
  have whole := Digits.not_mem_of_digits other (Digits.isNumeric_iff.mp written.whole).2
  cases shown : n.fraction with
  | none => simp [chars, whole]
  | some places =>
    have after := Digits.not_mem_of_digits other (written.fraction places shown)
    simp [chars, whole, point, after]

end Numeral

namespace Binary64

def Decimal.numeral (negative : Bool) (d : Decimal) : Numeral :=
  let digits := Nat.toDigits 10 d.digits
  if 0 ≤ d.place then ⟨negative, digits ++ List.replicate d.place.toNat '0', none⟩
  else
    let places := (-d.place).toNat
    if places < digits.length then
      ⟨negative, digits.take (digits.length - places), some (digits.drop (digits.length - places))⟩
    else ⟨negative, ['0'], some (List.replicate (places - digits.length) '0' ++ digits)⟩

theorem numeral_chars (negative : Bool) (d : Decimal) :
    (d.numeral negative).chars = (if negative then ['-'] else []) ++ d.chars := by
  simp only [Decimal.numeral, Decimal.chars]
  split
  · simp [Numeral.chars]
  · split
    · simp [Numeral.chars]
    · simp [Numeral.chars]

theorem numeral_written (negative : Bool) (d : Decimal) : (d.numeral negative).Written := by
  have digits : ∀ c ∈ Nat.toDigits 10 d.digits, c.isDigit = true := by
    intro c mem
    exact Nat.isDigit_of_mem_toDigits (by omega) (by omega) mem
  have zeros : ∀ (k : ℕ), ∀ c ∈ List.replicate k '0', c.isDigit = true := by
    intro k c mem
    rw [List.eq_of_mem_replicate mem]
    decide
  simp only [Decimal.numeral]
  split
  · constructor
    · apply Digits.isNumeric_iff.mpr
      constructor
      · simp [Nat.toDigits_ne_nil]
      · intro c mem
        rcases List.mem_append.mp mem with own | zero
        · exact digits c own
        · exact zeros _ c zero
    · rintro _ ⟨⟩
  · split
    · constructor
      · apply Digits.isNumeric_iff.mpr
        constructor
        · rw [← List.length_pos_iff, List.length_take]
          omega
        · intro c mem
          exact digits c (List.mem_of_mem_take mem)
      · rintro _ ⟨⟩ c mem
        exact digits c (List.mem_of_mem_drop mem)
    · constructor
      · exact (by decide : Digits.isNumeric ['0'] = true)
      · rintro _ ⟨⟩ c mem
        rcases List.mem_append.mp mem with zero | own
        · exact zeros _ c zero
        · exact digits c own

theorem numeral_value (negative : Bool) (d : Decimal) :
    (d.numeral negative).value =
      nearest negative (d.digits * 10 ^ d.place.toNat) (10 ^ (-d.place).toNat) := by
  have digits : Digits.value (Nat.toDigits 10 d.digits) = d.digits := Digits.value_text d.digits
  simp only [Decimal.numeral]
  split
  · rename_i whole
    have none : (-d.place).toNat = 0 := by omega
    have value : Digits.value (Nat.toDigits 10 d.digits ++ List.replicate d.place.toNat '0') =
        d.digits * 10 ^ d.place.toNat := by
      rw [Digits.value, Nat.ofDigitChars_append, Nat.ofDigitChars_replicate_zero, Nat.mul_comm]
      exact congrArg (· * _) digits
    simp [Numeral.value, value, none]
  · rename_i part
    have none : d.place.toNat = 0 := by omega
    split
    · rename_i inside
      have length : (Nat.toDigits 10 d.digits).length -
          ((Nat.toDigits 10 d.digits).length - (-d.place).toNat) = (-d.place).toNat := by omega
      simp [Numeral.value, digits, none, length]
    · rename_i outside
      have length : (-d.place).toNat - (Nat.toDigits 10 d.digits).length +
          (Nat.toDigits 10 d.digits).length = (-d.place).toNat := by omega
      have value : Digits.value ('0' :: (List.replicate
          ((-d.place).toNat - (Nat.toDigits 10 d.digits).length) '0' ++
            Nat.toDigits 10 d.digits)) = d.digits := by
        rw [Digits.value, Nat.ofDigitChars_cons, Nat.ofDigitChars_append,
          Nat.ofDigitChars_replicate_zero]
        exact digits
      simp [Numeral.value, value, none, length]

theorem nearest_zero (negative : Bool) : nearest negative 0 1 = ofParts ⟨negative, 0, -1074⟩ := by
  cases negative <;> rfl

theorem chars_numeral {x : Float} (finite : x.isFinite = true) :
    ∃ n : Numeral, n.Written ∧ n.chars = chars x ∧ n.value = x := by
  obtain ⟨p, shown⟩ := parts?_of_isFinite finite
  obtain ⟨canonical, same⟩ := ofParts_of_parts? shown
  have text : chars x = (if p.negative then ['-'] else []) ++
      if p.mantissa = 0 then ['0'] else (shortest p).chars := by
    simp only [chars, shown]
    cases p.negative <;> simp
  rcases Nat.eq_zero_or_pos p.mantissa with zero | positive
  · refine ⟨Decimal.numeral p.negative ⟨0, 0⟩, numeral_written _ _, ?_, ?_⟩
    · rw [numeral_chars, text, if_pos zero]
      rfl
    · have bare : p = ⟨p.negative, 0, p.exponent⟩ := by rw [← zero]
      have value := numeral_value p.negative ⟨0, 0⟩
      rw [value, ← same, bare, ofParts_zero]
      exact nearest_zero p.negative
  · refine ⟨(shortest p).numeral p.negative, numeral_written _ _, ?_, ?_⟩
    · rw [numeral_chars, text, if_neg positive.ne']
    · have near := shortest_contains canonical
      rw [numeral_value, ← same]
      apply nearest_of_contains canonical positive (by positivity)
      rw [zpow_eq_div (by norm_num) (shortest p).place] at near
      push_cast
      rw [mul_div_assoc, mul_div_assoc]
      exact near

theorem contains_middle {p : Parts} (nonzero : 0 < p.mantissa) :
    (Interval.around p).Contains (4 * p.mantissa) := by
  have low : (Interval.around p).low < 4 * p.mantissa := by
    simp only [Interval.around]
    split <;> omega
  have high : 4 * p.mantissa < (Interval.around p).high := by
    simp only [Interval.around]
    omega
  have strict : ((Interval.around p).low : ℚ) < 4 * p.mantissa ∧
      (4 * p.mantissa : ℚ) < (Interval.around p).high := by
    exact_mod_cast And.intro low high
  exact ⟨strict.1.le, strict.2.le, fun _ => strict⟩

def Parts.ofNat (negative : Bool) (n : ℕ) : Parts :=
  ⟨negative, n * 2 ^ (52 - n.log2), (n.log2 : ℤ) - 52⟩

theorem ofNat_canonical (negative : Bool) {n : ℕ} (positive : 0 < n) (small : n < 2 ^ 53) :
    (Parts.ofNat negative n).Canonical := by
  have bits : n.log2 < 53 := (Nat.log2_lt positive.ne').mpr small
  have scale : 2 ^ n.log2 * 2 ^ (52 - n.log2) = 2 ^ 52 := by
    rw [← Nat.pow_add]
    congr 1
    omega
  have low : 2 ^ n.log2 * 2 ^ (52 - n.log2) ≤ n * 2 ^ (52 - n.log2) :=
    Nat.mul_le_mul_right _ (Nat.log2_self_le positive.ne')
  have high : n * 2 ^ (52 - n.log2) < 2 ^ (n.log2 + 1) * 2 ^ (52 - n.log2) :=
    Nat.mul_lt_mul_of_pos_right Nat.lt_log2_self (by positivity)
  rw [Nat.pow_succ, Nat.mul_right_comm, scale] at high
  rw [scale] at low
  rw [← leadingBit_eq] at low high
  constructor <;> simp only [Parts.ofNat] <;> omega

theorem nearest_ofNat (negative : Bool) {n : ℕ} (positive : 0 < n) (small : n < 2 ^ 53) :
    nearest negative n 1 = ofParts (.ofNat negative n) := by
  have bits : n.log2 < 53 := (Nat.log2_lt positive.ne').mpr small
  have nonzero : 0 < (Parts.ofNat negative n).mantissa := Nat.mul_pos positive (by positivity)
  have exact_value : ((n : ℚ) / (1 : ℕ) / 2 ^ ((Parts.ofNat negative n).exponent - 2)) =
      4 * ((Parts.ofNat negative n).mantissa : ℚ) := by
    have back : (Parts.ofNat negative n).exponent - 2 = -((52 - n.log2 : ℕ) + 2 : ℤ) := by
      simp only [Parts.ofNat]
      omega
    rw [back, zpow_neg, zpow_add₀ two_ne_zero, zpow_natCast]
    simp only [Parts.ofNat]
    push_cast
    field_simp
  apply nearest_of_contains (p := .ofNat negative n) (ofNat_canonical negative positive small)
    nonzero one_pos
  rw [exact_value]
  exact contains_middle nonzero

theorem toInt?_nearest (negative : Bool) {n : ℕ} (small : n < 2 ^ 53) :
    toInt? (nearest negative n 1) = some (if negative then -(n : ℤ) else n) := by
  rcases Nat.eq_zero_or_pos n with rfl | positive
  · cases negative <;> rfl
  · rw [nearest_ofNat negative positive small, toInt?,
      parts?_ofParts (ofNat_canonical negative positive small)]
    have bits : n.log2 < 53 := (Nat.log2_lt positive.ne').mpr small
    have back : (-((n.log2 : ℤ) - 52)).toNat = 52 - n.log2 := by omega
    by_cases whole : (0 : ℤ) ≤ (n.log2 : ℤ) - 52
    · have top : n.log2 = 52 := by omega
      simp [Parts.ofNat, top]
    · have divides : n * 2 ^ (52 - n.log2) % (1 <<< (52 - n.log2)) = 0 := by
        rw [Nat.one_shiftLeft, Nat.mul_mod_left]
      have shifted : (n * 2 ^ (52 - n.log2)) >>> (52 - n.log2) = n := by
        rw [Nat.shiftRight_eq_div_pow, Nat.mul_div_cancel _ (by positivity)]
      simp only [Parts.ofNat, whole, back, divides, shifted, ↓reduceIte, bind, Option.bind, pure]

theorem exactInt?_nearest (negative : Bool) {n : ℕ} (small : n ≤ largestExact) :
    exactInt? (nearest negative n 1) = some (if negative then -(n : ℤ) else n) := by
  have bits : n < 2 ^ 53 := by
    have largest : largestExact = 2 ^ 53 - 1 := by decide
    omega
  rw [exactInt?, toInt?_nearest negative bits]
  cases negative <;> simp [Option.filter, small]

end Binary64

end WordProblem
