import WordProblem.Numeral
import WordProblem.Proofs.Rounding

/-!
The decimal text of a double reads back to it. The search for the shortest digits always comes to
a grid that is fine enough, so what it finds lies in the interval of reals that round to the
number, and the text of the digits is a numeral with that value.
-/
namespace WordProblem.Binary64

theorem weights_ratio (exponent place : ℤ) :
    0 < (weights exponent place).1 ∧
      ((weights exponent place).2 : ℚ) / (weights exponent place).1 =
        10 ^ place / 2 ^ (exponent - 2) := by
  have back : 2 - exponent = -(exponent - 2) := by ring
  simp only [weights, Nat.pow_eq, Nat.shiftLeft_eq, back]
  constructor
  · positivity
  · rw [zpow_eq_div (by norm_num) place, zpow_eq_div two_ne_zero (exponent - 2)]
    push_cast
    field_simp

theorem Interval.holds_iff {i : Interval} {quarter step point : ℕ} (positive : 0 < quarter) :
    i.holds quarter step point = true ↔ i.Contains (point * (step / quarter)) := by
  have unit : (0 : ℚ) < quarter := by exact_mod_cast positive
  have measured : (point * (step / quarter) : ℚ) = (point * step : ℕ) / (quarter : ℚ) := by
    push_cast
    ring
  have lower : (i.low : ℚ) ≤ point * (step / quarter) ↔ i.low * quarter ≤ point * step := by
    rw [measured, le_div_iff₀ unit]
    norm_cast
  have upper : (point * (step / quarter) : ℚ) ≤ i.high ↔ point * step ≤ i.high * quarter := by
    rw [measured, div_le_iff₀ unit]
    norm_cast
  have above : (i.low : ℚ) < point * (step / quarter) ↔ i.low * quarter < point * step := by
    rw [measured, lt_div_iff₀ unit]
    norm_cast
  have below : (point * (step / quarter) : ℚ) < i.high ↔ point * step < i.high * quarter := by
    rw [measured, div_lt_iff₀ unit]
    norm_cast
  unfold holds
  constructor
  · intro held
    cases closed : i.closed with
    | true =>
      simp only [closed, ↓reduceIte, Bool.and_eq_true, decide_eq_true_eq] at held
      exact ⟨lower.mpr held.1, upper.mpr held.2, by simp [closed]⟩
    | false =>
      simp only [closed, Bool.false_eq_true, ↓reduceIte, Bool.and_eq_true,
        decide_eq_true_eq] at held
      have strict := And.intro (above.mpr held.1) (below.mpr held.2)
      exact ⟨strict.1.le, strict.2.le, fun _ => strict⟩
  · rintro ⟨low, high, inside⟩
    cases closed : i.closed with
    | true => simp [lower.mp low, upper.mp high]
    | false =>
      obtain ⟨left, right⟩ := inside closed
      simp [above.mp left, below.mp right]

theorem gridPoint?_contains {p : Parts} {place : ℤ} {k : ℕ} (hit : gridPoint? p place = some k) :
    (Interval.around p).Contains (k * (10 ^ place / 2 ^ (p.exponent - 2))) := by
  obtain ⟨positive, ratio⟩ := weights_ratio p.exponent place
  rw [← ratio, ← Interval.holds_iff positive]
  unfold gridPoint? at hit
  dsimp only at hit
  split at hit
  · rename_i left right
    split at hit
    · cases hit
      exact right
    · cases hit
      exact left
  · rename_i left _
    cases hit
    exact left
  · rename_i _ right
    cases hit
    exact right
  · cases hit

theorem Interval.holds_next (p : Parts) {quarter step : ℕ} (some_step : 0 < step)
    (small : step < 2 * quarter) :
    (around p).holds quarter step ((around p).middle * quarter / step + 1) = true := by
  have low : (around p).low * quarter ≤ (around p).middle * quarter :=
    Nat.mul_le_mul_right quarter (Nat.sub_le _ _)
  have high : (around p).high * quarter = (around p).middle * quarter + 2 * quarter :=
    Nat.add_mul _ _ _
  have whole := Nat.div_add_mod ((around p).middle * quarter) step
  have rest := Nat.mod_lt ((around p).middle * quarter) some_step
  rw [Nat.mul_comm] at whole
  unfold holds
  rw [Nat.add_mul]
  split <;> simp only [Bool.and_eq_true, decide_eq_true_eq] <;> omega

theorem gridPoint?_of_fine {p : Parts} {place : ℤ}
    (fine : (10 : ℚ) ^ place < 2 ^ (p.exponent - 1)) : ∃ k, gridPoint? p place = some k := by
  obtain ⟨positive, ratio⟩ := weights_ratio p.exponent place
  have unit : (0 : ℚ) < (weights p.exponent place).1 := by exact_mod_cast positive
  have grid : (0 : ℚ) < 10 ^ place / 2 ^ (p.exponent - 2) := by positivity
  have some_step : 0 < (weights p.exponent place).2 := by
    rw [← ratio, div_pos_iff_of_pos_right unit] at grid
    exact_mod_cast grid
  have small : (weights p.exponent place).2 < 2 * (weights p.exponent place).1 := by
    have halves : (2 : ℚ) ^ (p.exponent - 1) = 2 * 2 ^ (p.exponent - 2) := by
      rw [← zpow_one_add₀ two_ne_zero]
      congr 1
      ring
    rw [halves, ← div_lt_iff₀ (by positivity), ← ratio, div_lt_iff₀ unit] at fine
    exact_mod_cast fine
  unfold gridPoint?
  dsimp only
  rw [Interval.holds_next p some_step small]
  split
  · split
    · exact ⟨_, rfl⟩
    · exact ⟨_, rfl⟩
  · exact ⟨_, rfl⟩
  · exact ⟨_, rfl⟩
  · rename_i missed
    cases missed

theorem searchFrom_hit {p : Parts} {place : ℤ} {fuel : ℕ}
    (last : ∃ k, gridPoint? p (place - fuel) = some k) :
    ∃ d : Decimal, searchFrom p place (fuel + 1) = d ∧ gridPoint? p d.place = some d.digits := by
  induction fuel generalizing place with
  | zero =>
    obtain ⟨k, hit⟩ := last
    rw [Nat.cast_zero, Int.sub_zero] at hit
    rw [searchFrom, hit]
    exact ⟨_, rfl, hit⟩
  | succ more ih =>
    rw [searchFrom]
    cases hit : gridPoint? p place with
    | some k => exact ⟨_, rfl, hit⟩
    | none =>
      apply ih
      rwa [show place - 1 - (more : ℤ) = place - (more + 1 : ℕ) by omega]

theorem ten_le_two {k l : ℕ} (nonzero : k ≠ 0) {t e : ℤ} (bound : l * t ≤ k * e)
    (base : ((10 : ℚ) ^ k) ^ t ≤ (2 ^ l) ^ t) : (10 : ℚ) ^ t ≤ 2 ^ e := by
  have powers : ((10 : ℚ) ^ t) ^ k ≤ (2 ^ e) ^ k := by
    calc ((10 : ℚ) ^ t) ^ k = (10 ^ k) ^ t := by
          rw [← zpow_natCast, ← zpow_mul, mul_comm, zpow_mul, zpow_natCast]
      _ ≤ (2 ^ l) ^ t := base
      _ = 2 ^ (l * t) := by rw [zpow_mul, zpow_natCast]
      _ ≤ 2 ^ (k * e) := zpow_le_zpow_right₀ one_le_two bound
      _ = (2 ^ e) ^ k := by rw [mul_comm, zpow_mul, zpow_natCast]
  exact le_of_pow_le_pow_left₀ nonzero (by positivity) powers

/-- Seventeen digits are finer than the spacing, over the whole range of exponents. -/
theorem grid_fine {t e : ℤ} (bound : 100000 * t ≤ 30103 * (e + 53)) (least : -1074 ≤ e)
    (greatest : e ≤ 971) : (10 : ℚ) ^ (t - 18) < 2 ^ (e - 1) := by
  have coarse : (10 : ℚ) ^ t ≤ 2 ^ (e + 58) := by
    rcases Int.le_total 0 t with whole | part
    · have base : ((10 : ℚ) ^ 3) ^ t ≤ (2 ^ 10) ^ t :=
        zpow_le_zpow_left₀ whole (by norm_num) (by norm_num)
      exact ten_le_two (by norm_num) (by omega) base
    · obtain ⟨s, rfl⟩ : ∃ s : ℕ, t = -s := ⟨t.natAbs, by omega⟩
      have base : ((10 : ℚ) ^ 28) ^ (-s : ℤ) ≤ (2 ^ 93) ^ (-s : ℤ) := by
        rw [zpow_neg, zpow_neg, zpow_natCast, zpow_natCast]
        exact inv_anti₀ (by positivity) (pow_le_pow_left₀ (by norm_num) (by norm_num) s)
      exact ten_le_two (by norm_num) (by omega) base
  calc (10 : ℚ) ^ (t - 18) = 10 ^ t / 10 ^ 18 := by
        rw [zpow_sub₀ (by norm_num)]
        norm_cast
    _ ≤ 2 ^ (e + 58) / 10 ^ 18 := by gcongr
    _ = 2 ^ (e - 1) * (2 ^ 59 / 10 ^ 18) := by
        rw [show e + 58 = e - 1 + 59 by ring, zpow_add₀ two_ne_zero, mul_div_assoc]
        norm_cast
    _ < 2 ^ (e - 1) * 1 := by
        gcongr
        norm_num
    _ = 2 ^ (e - 1) := mul_one _

theorem shortest_contains {p : Parts} (canonical : p.Canonical) :
    (Interval.around p).Contains
      ((shortest p).digits * (10 ^ (shortest p).place / 2 ^ (p.exponent - 2))) := by
  obtain ⟨least, greatest, fits, _⟩ := id canonical
  have bits : p.mantissa.log2 ≤ 52 := by
    rw [leadingBit_eq] at fits
    rcases Nat.eq_zero_or_pos p.mantissa with zero | positive
    · rw [zero]
      decide
    · have small := (Nat.log2_lt positive.ne').mpr (show p.mantissa < 2 ^ 53 by omega)
      omega
  have fine : (10 : ℚ) ^ (topPlace (p.mantissa.log2 + 1 + p.exponent) - (19 : ℕ)) <
      2 ^ (p.exponent - 1) := by
    have top : topPlace (p.mantissa.log2 + 1 + p.exponent) - (19 : ℕ) =
        (p.mantissa.log2 + 1 + p.exponent) * 30103 / 100000 - 18 := by
      rw [topPlace]
      omega
    rw [top]
    exact grid_fine (by omega) least greatest
  obtain ⟨d, found, hit⟩ := searchFrom_hit (gridPoint?_of_fine fine)
  have same : shortest p = d := found
  rw [same]
  exact gridPoint?_contains hit

end WordProblem.Binary64
