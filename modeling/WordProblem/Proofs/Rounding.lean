import WordProblem.Binary64
import WordProblem.Proofs.Parts
import WordProblem.Shortest

/-!
Rounding a quotient. The spacing around a quotient is told by its binary logarithm, and whatever
lies in the interval of a double is rounded to that double.
-/
namespace WordProblem.Binary64

theorem zpow_eq_div {b : ℚ} (nonzero : b ≠ 0) (e : ℤ) :
    b ^ e = b ^ e.toNat / b ^ (-e).toNat := by
  rw [← zpow_natCast, ← zpow_natCast, ← zpow_sub₀ nonzero, Int.toNat_sub_toNat_neg]

theorem quotient_shift (n d : ℕ) (e : ℤ) :
    ((n <<< (-e).toNat : ℕ) : ℚ) / ((d <<< e.toNat : ℕ) : ℚ) = n / d / 2 ^ e := by
  rw [zpow_eq_div two_ne_zero e, Nat.shiftLeft_eq, Nat.shiftLeft_eq]
  push_cast
  field_simp

theorem log_quotient_bounds {n d : ℕ} (hn : 0 < n) (hd : 0 < d) :
    (2 : ℚ) ^ ((n.log2 : ℤ) - d.log2 - 1) ≤ n / d ∧
      (n / d : ℚ) < 2 ^ ((n.log2 : ℤ) - d.log2 + 1) := by
  have n_low : (2 : ℚ) ^ n.log2 ≤ n := by exact_mod_cast Nat.log2_self_le hn.ne'
  have n_high : (n : ℚ) < 2 ^ (n.log2 + 1) := by exact_mod_cast Nat.lt_log2_self
  have d_low : (2 : ℚ) ^ d.log2 ≤ d := by exact_mod_cast Nat.log2_self_le hd.ne'
  have d_high : (d : ℚ) < 2 ^ (d.log2 + 1) := by exact_mod_cast Nat.lt_log2_self
  have positive : (0 : ℚ) < d := by exact_mod_cast hd
  have power : ∀ a b : ℕ, (2 : ℚ) ^ ((a : ℤ) - b) = 2 ^ a / 2 ^ b := by
    intro a b
    rw [zpow_sub₀ (by norm_num), zpow_natCast, zpow_natCast]
  constructor
  · have split : (n.log2 : ℤ) - d.log2 - 1 = (n.log2 : ℤ) - (d.log2 + 1 : ℕ) := by omega
    rw [split, power, div_le_div_iff₀ (by positivity) positive]
    exact mul_le_mul n_low d_high.le positive.le (by positivity)
  · have split : (n.log2 : ℤ) - d.log2 + 1 = (n.log2 + 1 : ℕ) - (d.log2 : ℤ) := by omega
    rw [split, power, div_lt_div_iff₀ positive (by positivity)]
    exact mul_lt_mul n_high d_low (by positivity) (by positivity)

theorem log_lt_iff {x : ℚ} (positive : 0 < x) {e : ℤ} : Int.log 2 x < e ↔ x < 2 ^ e := by
  have law := Int.lt_zpow_iff_log_lt (b := 2) (x := e) one_lt_two positive
  exact_mod_cast law.symm

theorem le_log_iff {x : ℚ} (positive : 0 < x) {e : ℤ} : e ≤ Int.log 2 x ↔ 2 ^ e ≤ x := by
  have law := Int.zpow_le_iff_le_log (b := 2) (x := e) one_lt_two positive
  exact_mod_cast law.symm

theorem spacing_eq {n d : ℕ} (hn : 0 < n) (hd : 0 < d) :
    spacing n d = max (Int.log 2 (n / d : ℚ) - 52) (-1074) := by
  have positive : (0 : ℚ) < n / d := by positivity
  obtain ⟨low, high⟩ := log_quotient_bounds hn hd
  rw [← le_log_iff positive] at low
  rw [← log_lt_iff positive] at high
  have short : ∀ e : ℤ, n <<< (-e).toNat < (d <<< e.toNat) * leadingBit ↔
      Int.log 2 (n / d : ℚ) < e + 52 := by
    intro e
    have below : (0 : ℚ) < (d <<< e.toNat : ℕ) := by
      rw [Nat.shiftLeft_eq]
      positivity
    rw [log_lt_iff positive, ← Nat.cast_lt (α := ℚ), Nat.cast_mul, mul_comm, ← div_lt_iff₀ below,
      quotient_shift, div_lt_iff₀ (by positivity), leadingBit_eq, zpow_add₀ (by norm_num),
      mul_comm (2 ^ e)]
    norm_cast
  unfold spacing
  dsimp only
  simp only [short]
  split <;> omega

/-- In its spacing a number has a mantissa of 53 bits, or fewer in the finest spacing. -/
theorem spacing_of_mantissa {n d : ℕ} (hn : 0 < n) (hd : 0 < d) {e : ℤ} (least : -1074 ≤ e)
    (high : (n / d / 2 ^ e : ℚ) < 2 ^ 53)
    (low : -1074 < e → (2 : ℚ) ^ 52 ≤ n / d / 2 ^ e) : spacing n d = e := by
  have positive : (0 : ℚ) < n / d := by positivity
  have unit : (0 : ℚ) < 2 ^ e := by positivity
  have split : ∀ k : ℕ, (2 : ℚ) ^ (e + k) = 2 ^ k * 2 ^ e := by
    intro k
    rw [zpow_add₀ (by norm_num), zpow_natCast, mul_comm]
  have below : Int.log 2 (n / d : ℚ) < e + (53 : ℕ) := by
    rw [log_lt_iff positive, split]
    exact (div_lt_iff₀ unit).mp high
  have above : -1074 < e → e + (52 : ℕ) ≤ Int.log 2 (n / d : ℚ) := by
    intro fine
    rw [le_log_iff positive, split]
    exact (le_div_iff₀ unit).mp (low fine)
  rw [spacing_eq hn hd]
  omega

/-- A whole number within a half of the quotient is the nearest, an odd one if it is no further
    than less than a half. -/
theorem nearestQuotient_eq {n d q : ℕ} (hd : 0 < d) (low : 2 * (q * d) ≤ 2 * n + d)
    (high : 2 * n ≤ 2 * (q * d) + d)
    (odd : q % 2 = 1 → 2 * (q * d) < 2 * n + d ∧ 2 * n < 2 * (q * d) + d) :
    nearestQuotient n d = q := by
  have whole := Nat.div_add_mod n d
  have rest := Nat.mod_lt n hd
  rw [Nat.mul_comm] at whole
  -- the quotient is cut to `q` or to the number below it
  have near : n / d = q ∨ n / d + 1 = q := by
    have least : n / d ≤ q := by
      by_contra above
      have next : (q + 1) * d ≤ n / d * d := Nat.mul_le_mul_right d (by omega)
      rw [Nat.add_mul] at next
      omega
    have greatest : q ≤ n / d + 1 := by
      by_contra above
      have next : (n / d + 2) * d ≤ q * d := Nat.mul_le_mul_right d (by omega)
      rw [Nat.add_mul] at next
      omega
    omega
  unfold nearestQuotient
  dsimp only
  rcases near with same | next
  · rw [same] at whole ⊢
    rw [if_pos]
    omega
  · rw [next, if_neg]
    rw [← next, Nat.add_mul] at odd low
    omega

structure Interval.Contains (i : Interval) (x : ℚ) : Prop where
  low : (i.low : ℚ) ≤ x
  high : x ≤ i.high
  inside : i.closed = false → (i.low : ℚ) < x ∧ x < i.high

theorem nearest_of_spacing {negative : Bool} {n d m : ℕ} {e : ℤ} (hd : 0 < d)
    (unit : spacing n d = e) (range : e ≤ 971) (low : (m : ℚ) - 1 / 2 ≤ n / d / 2 ^ e)
    (high : n / d / 2 ^ e ≤ (m : ℚ) + 1 / 2)
    (odd : m % 2 = 1 → (m : ℚ) - 1 / 2 < n / d / 2 ^ e ∧ n / d / 2 ^ e < (m : ℚ) + 1 / 2) :
    nearest negative n d = ofParts ⟨negative, m, e⟩ := by
  have positive : (0 : ℚ) < (d <<< e.toNat : ℕ) := by
    rw [Nat.shiftLeft_eq]
    positivity
  have quotient : nearestQuotient (n <<< (-e).toNat) (d <<< e.toNat) = m := by
    rw [← quotient_shift] at low high odd
    generalize n <<< (-e).toNat = k at low high odd ⊢
    generalize d <<< e.toNat = l at low high odd positive ⊢
    rw [le_div_iff₀ positive] at low
    rw [div_le_iff₀ positive] at high
    rw [lt_div_iff₀ positive, div_lt_iff₀ positive] at odd
    apply nearestQuotient_eq
    · exact_mod_cast positive
    · have twice : (2 : ℚ) * (m * l) ≤ 2 * k + l := by linarith
      exact_mod_cast twice
    · have twice : (2 : ℚ) * k ≤ 2 * (m * l) + l := by linarith
      exact_mod_cast twice
    · intro parity
      obtain ⟨above, below⟩ := odd parity
      have twice : (2 : ℚ) * (m * l) < 2 * k + l ∧ (2 : ℚ) * k < 2 * (m * l) + l := by
        constructor <;> linarith
      exact_mod_cast twice
  unfold nearest
  dsimp only
  rw [unit, quotient, if_neg (by omega)]

theorem bounds_of_contains {p : Parts} {y : ℚ} (near : (Interval.around p).Contains (4 * y)) :
    (p.mantissa : ℚ) - 1 / 2 ≤ y ∧ y ≤ (p.mantissa : ℚ) + 1 / 2 ∧
      (p.mantissa % 2 = 1 → (p.mantissa : ℚ) - 1 / 2 < y ∧ y < (p.mantissa : ℚ) + 1 / 2) ∧
      (p.mantissa = leadingBit → -1074 < p.exponent → (p.mantissa : ℚ) - 1 / 4 ≤ y) := by
  obtain ⟨low, high, inside⟩ := near
  have half : (4 * p.mantissa : ℚ) - 2 ≤ (Interval.around p).low := by
    have cut : 4 * p.mantissa ≤ (Interval.around p).low + 2 := by
      simp only [Interval.around]
      split <;> omega
    have cast : (4 * p.mantissa : ℚ) ≤ (Interval.around p).low + 2 := by exact_mod_cast cut
    linarith
  have top : ((Interval.around p).high : ℚ) = 4 * p.mantissa + 2 := by
    simp only [Interval.around]
    push_cast
    rfl
  refine ⟨by linarith, by linarith, ?_, ?_⟩
  · intro parity
    obtain ⟨above, below⟩ := inside (by simp [Interval.around, parity])
    constructor <;> linarith
  · intro leading above
    have quarter : (4 * p.mantissa : ℚ) ≤ (Interval.around p).low + 1 := by
      have cut : 4 * p.mantissa ≤ (Interval.around p).low + 1 := by
        simp only [Interval.around, leading, above, and_self, ↓reduceIte]
        omega
      exact_mod_cast cut
    linarith

theorem quotient_finer (x : ℚ) (e : ℤ) (k : ℕ) : x / 2 ^ (e - k) = 2 ^ k * (x / 2 ^ e) := by
  rw [zpow_sub₀ two_ne_zero, zpow_natCast]
  field_simp

/-- Just below a power of two the spacing is the finer one, and rounding up carries. -/
theorem nearest_of_carry {negative : Bool} {n d : ℕ} {e : ℤ} (hn : 0 < n) (hd : 0 < d)
    (least : -1074 < e) (greatest : e ≤ 971) (low : (2 : ℚ) ^ 52 - 1 / 4 ≤ n / d / 2 ^ e)
    (high : (n / d / 2 ^ e : ℚ) < 2 ^ 52) :
    nearest negative n d = ofParts ⟨negative, leadingBit, e⟩ := by
  have halves : (n / d / 2 ^ (e - 1) : ℚ) = 2 * (n / d / 2 ^ e) := by
    have finer := quotient_finer (n / d) e 1
    rwa [Nat.cast_one, pow_one] at finer
  have unit : spacing n d = e - 1 := by
    apply spacing_of_mantissa hn hd (by omega)
    · rw [halves]
      linarith
    · intro _
      rw [halves]
      linarith
  have carried : nearest negative n d = ofParts ⟨negative, 2 * leadingBit, e - 1⟩ := by
    have double : ((2 * leadingBit : ℕ) : ℚ) = 2 * 2 ^ 52 := by
      rw [leadingBit_eq]
      norm_num
    apply nearest_of_spacing hd unit (by omega) <;> rw [halves, double]
    · linarith
    · linarith
    · intro parity
      omega
  rw [carried, ofParts_carry negative least]

theorem nearest_of_contains {p : Parts} (canonical : p.Canonical) (nonzero : 0 < p.mantissa)
    {n d : ℕ} (hd : 0 < d)
    (near : (Interval.around p).Contains (n / d / 2 ^ (p.exponent - 2))) :
    nearest p.negative n d = ofParts p := by
  obtain ⟨negative, m, e⟩ := p
  obtain ⟨least, greatest, fits, full⟩ := canonical
  dsimp only at nonzero least greatest fits full near ⊢
  have quarters : (n / d / 2 ^ (e - 2) : ℚ) = 4 * (n / d / 2 ^ e) := by
    have finer := quotient_finer (n / d) e 2
    norm_num at finer
    exact finer
  rw [quarters] at near
  obtain ⟨low, high, odd, edge⟩ := bounds_of_contains near
  dsimp only at low high odd edge
  have one : (1 : ℚ) ≤ m := by exact_mod_cast nonzero
  have hn : 0 < n := by
    rcases Nat.eq_zero_or_pos n with rfl | pos
    · norm_num at low
      linarith
    · exact pos
  rw [leadingBit_eq] at fits full edge
  by_cases drop : -1074 < e ∧ (n / d / 2 ^ e : ℚ) < 2 ^ 52
  · obtain ⟨above, less⟩ := drop
    have leading : m = 2 ^ 52 := by
      by_contra other
      have := full above
      have more : (2 : ℚ) ^ 52 + 1 ≤ m := by exact_mod_cast (show 2 ^ 52 + 1 ≤ m by omega)
      linarith
    have quarter := edge leading above
    subst leading
    push_cast at quarter
    rw [nearest_of_carry hn hd above greatest quarter less, leadingBit_eq]
  · have size : (m : ℚ) + 1 ≤ 2 ^ 53 := by exact_mod_cast (show m + 1 ≤ 2 ^ 53 by omega)
    have unit : spacing n d = e := by
      apply spacing_of_mantissa hn hd least
      · linarith
      · intro above
        by_contra less
        exact drop ⟨above, not_le.mp less⟩
    exact nearest_of_spacing hd unit greatest low high odd

end WordProblem.Binary64
