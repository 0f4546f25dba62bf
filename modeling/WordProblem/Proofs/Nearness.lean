import WordProblem.Proofs.Arithmetic

/-!
How far rounding moves a number. No double lies between a number and the double it is rounded to,
and for a number that is not tiny the distance is at most a part in `2 ^ 53`.
-/
namespace WordProblem.Binary64

/-- The largest part of a number by which rounding changes it, unless it is tiny. -/
def roundoff : ℚ := 1 / 2 ^ 53

/-- From here on numbers are rounded out of the doubles: half a step above the largest one. -/
def overflow : ℚ := (2 ^ 54 - 1) * 2 ^ (970 : ℤ)

theorem lt_mul_ratio_iff {a f s t k : ℕ} (positive : 0 < t) :
    (a : ℚ) < f * ((s : ℚ) / t) ^ k ↔ a * t ^ k < f * s ^ k := by
  rw [div_pow, mul_div_assoc', lt_div_iff₀ (by positivity)]
  exact_mod_cast Iff.rfl

structure Near (v q : ℚ) : Prop where
  keeps_low : ∀ {s : Bool} {w : ℚ} {y : Float}, Stands s w y → w ≤ v → w ≤ q
  keeps_high : ∀ {s : Bool} {w : ℚ} {y : Float}, Stands s w y → v ≤ w → q ≤ w
  error : 2 ^ (-1022 : ℤ) ≤ v → |q - v| ≤ v * roundoff

theorem Near.bounds {v q : ℚ} (near : Near v q) (normal : 1 ≤ v) :
    v * (1 - roundoff) ≤ q ∧ q ≤ v * (1 + roundoff) := by
  have tiny : (2 : ℚ) ^ (-1022 : ℤ) ≤ 1 := zpow_le_one_of_nonpos₀ one_le_two (by norm_num)
  obtain ⟨low, high⟩ := abs_le.mp (near.error (tiny.trans normal))
  constructor <;> linarith

theorem Near.half_le {v q : ℚ} (near : Near v q) (normal : 2 ^ (-1022 : ℤ) ≤ v) : v / 2 ≤ q := by
  have positive : 0 < v := lt_of_lt_of_le (by positivity) normal
  have part : v * roundoff ≤ v / 2 := by
    rw [div_eq_mul_inv]
    exact mul_le_mul_of_nonneg_left (by norm_num [roundoff]) positive.le
  have low := (abs_le.mp (near.error normal)).1
  linarith

theorem Near.le_double {v q bound : ℚ} (near : Near v q) (below : v ≤ bound) (one : 1 ≤ bound) :
    q ≤ 2 * bound := by
  rcases le_total v 1 with small | normal
  · have least := near.keeps_high one_stands small
    linarith
  · have part : v * (1 + roundoff) ≤ v * 2 :=
      mul_le_mul_of_nonneg_left (by norm_num [roundoff]) (by linarith)
    linarith [(near.bounds normal).2]

theorem Near.eq_of_stands {v q : ℚ} (near : Near v q) {s : Bool} {y : Float}
    (shown : Stands s v y) : q = v :=
  le_antisymm (near.keeps_high shown le_rfl) (near.keeps_low shown le_rfl)

section
variable {n d : ℕ} {e : ℤ}

theorem spacing_bounds (hn : 0 < n) (hd : 0 < d) (unit : spacing n d = e) :
    -1074 ≤ e ∧ (n / d : ℚ) < 2 ^ (e + 53) ∧ (-1074 < e → (2 : ℚ) ^ (e + 52) ≤ n / d) := by
  have positive : (0 : ℚ) < n / d := by positivity
  rw [spacing_eq hn hd] at unit
  refine ⟨by omega, ?_, fun fine => ?_⟩
  · rw [← log_lt_iff positive]
    omega
  · rw [← le_log_iff positive]
    omega

theorem nearestQuotient_near (hd : 0 < d) :
    |(nearestQuotient (n <<< (-e).toNat) (d <<< e.toNat) : ℚ) - n / d / 2 ^ e| ≤ 1 / 2 := by
  have positive : 0 < d <<< e.toNat := by
    rw [Nat.shiftLeft_eq]
    positivity
  obtain ⟨above, below⟩ := nearestQuotient_within_half (n <<< (-e).toNat) positive
  rw [← quotient_shift]
  generalize n <<< (-e).toNat = k at above below ⊢
  generalize d <<< e.toNat = l at above below positive ⊢
  have size : (0 : ℚ) < l := by exact_mod_cast positive
  have high : (2 : ℚ) * k ≤ 2 * (nearestQuotient k l * l) + l := by exact_mod_cast above
  have low : (2 : ℚ) * (nearestQuotient k l * l) ≤ 2 * k + l := by exact_mod_cast below
  rw [abs_le]
  constructor
  · rw [neg_le_sub_iff_le_add, div_le_iff₀ size]
    linarith
  · rw [sub_le_iff_le_add, ← sub_le_iff_le_add', le_div_iff₀ size]
    linarith

theorem natCast_le_of_near {k m : ℕ} {y : ℚ} (near : |(k : ℚ) - y| ≤ 1 / 2) (below : (m : ℚ) ≤ y) :
    m ≤ k := by
  obtain ⟨low, high⟩ := abs_le.mp near
  have close : (m : ℚ) < k + 1 := by linarith
  exact Nat.le_of_lt_succ (by exact_mod_cast close)

theorem le_natCast_of_near {k m : ℕ} {y : ℚ} (near : |(k : ℚ) - y| ≤ 1 / 2) (above : y ≤ m) :
    k ≤ m := by
  obtain ⟨low, high⟩ := abs_le.mp near
  have close : (k : ℚ) < m + 1 := by linarith
  exact Nat.le_of_lt_succ (by exact_mod_cast close)

/-- A double is a multiple of the spacing, or smaller than everything that has this spacing. -/
theorem multiple_or_small (hn : 0 < n) (hd : 0 < d) (unit : spacing n d = e) {s : Bool} {w : ℚ}
    {y : Float} (shown : Stands s w y) :
    (∃ m : ℕ, w = m * 2 ^ e) ∨ (w < 2 ^ (e + 52) ∧ (2 : ℚ) ^ (e + 52) ≤ n / d) := by
  obtain ⟨p, parts, -, rfl⟩ := shown
  obtain ⟨canonical, -⟩ := ofParts_of_parts? parts
  obtain ⟨-, -, above⟩ := spacing_bounds hn hd unit
  by_cases coarse : e ≤ p.exponent
  · exact .inl ⟨_, magnitude_units p coarse⟩
  · right
    rw [not_le] at coarse
    refine ⟨(magnitude_lt canonical).trans_le ?_, above (canonical.least.trans_lt coarse)⟩
    exact zpow_le_zpow_right₀ one_le_two (by omega)

theorem near_of_spacing (hn : 0 < n) (hd : 0 < d) (unit : spacing n d = e) {k : ℕ}
    (close : |(k : ℚ) - n / d / 2 ^ e| ≤ 1 / 2) : Near (n / d) (k * 2 ^ e) := by
  obtain ⟨least, below, above⟩ := spacing_bounds hn hd unit
  have size : (0 : ℚ) < 2 ^ e := by positivity
  have split : (2 : ℚ) ^ (e + 52) = (2 ^ 52 : ℕ) * 2 ^ e := by
    rw [zpow_add₀ two_ne_zero, mul_comm, Nat.cast_pow, Nat.cast_ofNat]
    rfl
  have kept {m : ℕ} (under : m * 2 ^ e ≤ (n / d : ℚ)) : (m * 2 ^ e : ℚ) ≤ k * 2 ^ e := by
    rw [← le_div_iff₀ size] at under
    have whole := natCast_le_of_near close under
    exact mul_le_mul_of_nonneg_right (by exact_mod_cast whole) size.le
  -- a smaller double lies below the multiple `2 ^ 52` of the spacing, which is not passed either
  constructor
  · intro s w y shown under
    rcases multiple_or_small hn hd unit shown with ⟨m, rfl⟩ | ⟨less, most⟩
    · exact kept under
    · rw [split] at less most
      exact less.le.trans (kept most)
  · intro s w y shown beyond
    rcases multiple_or_small hn hd unit shown with ⟨m, rfl⟩ | ⟨less, most⟩
    · rw [← div_le_iff₀ size] at beyond
      have whole := le_natCast_of_near close beyond
      exact mul_le_mul_of_nonneg_right (by exact_mod_cast whole) size.le
    · exact absurd (most.trans beyond) (not_le.mpr less)
  · intro normal
    have full : (2 : ℚ) ^ (e + 52) ≤ n / d := by
      rcases lt_or_eq_of_le least with fine | bottom
      · exact above fine
      · rwa [← bottom]
    have moved : (k * 2 ^ e - n / d : ℚ) = (k - n / d / 2 ^ e) * 2 ^ e := by
      rw [sub_mul, div_mul_cancel₀ _ size.ne']
    rw [moved, abs_mul, abs_of_pos size]
    calc |(k : ℚ) - n / d / 2 ^ e| * 2 ^ e ≤ 1 / 2 * 2 ^ e :=
          mul_le_mul_of_nonneg_right close size.le
      _ = 2 ^ (e + 52) * roundoff := by
        rw [split, roundoff]
        push_cast
        ring
      _ ≤ n / d * roundoff := mul_le_mul_of_nonneg_right full (by norm_num [roundoff])

theorem largest_eq : (largest : ℚ) = (2 ^ 53 - 1) * 2 ^ (971 : ℤ) := by
  rw [largest, cast_shiftLeft, leadingBit_eq]
  norm_num

theorem ofParts_overflow (negative : Bool) :
    ofParts ⟨negative, 2 ^ 53, 971⟩ = signedInfinity negative := by
  cases negative <;> rfl

/-- A mantissa rounded up to the next power of two carries, and from the largest exponent it
    carries out of the doubles. -/
theorem ofParts_rounded (negative : Bool) {k : ℕ} (fits : k ≤ 2 ^ 53) (least : -1074 ≤ e)
    (greatest : e ≤ 971) :
    Stands negative (k * 2 ^ e) (ofParts ⟨negative, k, e⟩) ∨
      (k = 2 ^ 53 ∧ e = 971 ∧ ofParts ⟨negative, k, e⟩ = signedInfinity negative) := by
  rcases Nat.lt_or_eq_of_le fits with small | rfl
  · left
    have placed : k < 2 * leadingBit := by
      rw [leadingBit_eq]
      omega
    exact ofParts_stands (p := ⟨negative, k, e⟩) least greatest placed
  · have carry : ofParts ⟨negative, 2 * leadingBit, e + 1 - 1⟩ =
        ofParts ⟨negative, leadingBit, e + 1⟩ := ofParts_carry negative (by omega)
    rw [leadingBit_eq, Int.add_sub_cancel] at carry
    have carried : ofParts ⟨negative, 2 ^ 53, e⟩ = ofParts ⟨negative, 2 ^ 52, e + 1⟩ := carry
    rw [carried]
    rcases Int.lt_or_eq_of_le greatest with room | rfl
    · left
      have value : ((2 ^ 53 : ℕ) * 2 ^ e : ℚ) = Parts.magnitude ⟨negative, 2 ^ 52, e + 1⟩ := by
        rw [Parts.magnitude, zpow_add₀ two_ne_zero]
        push_cast
        ring
      rw [value]
      exact ofParts_stands (p := ⟨negative, 2 ^ 52, e + 1⟩) (by dsimp only; omega)
        (by dsimp only; omega) (by simp [leadingBit_eq])
    · exact .inr ⟨rfl, rfl, carried.symm.trans (ofParts_overflow negative)⟩

theorem nearest_zero_cases (negative : Bool) (d : ℕ) :
    Near 0 0 ∧ Stands negative 0 (nearest negative 0 d) := by
  refine ⟨⟨fun _ => id, fun _ => id, fun _ => by simp⟩, ?_⟩
  have zero : (0 : ℚ) = Parts.magnitude ⟨negative, 0, 0⟩ := by simp [Parts.magnitude]
  rw [nearest_zero_div, ← ofParts_zero negative 0, zero]
  exact ofParts_stands (by simp) (by simp) (by simp [leadingBit_eq])

theorem two_pow_half_steps (k : ℕ) : (2 : ℚ) ^ ((k : ℤ) + 970) = 2 ^ k * 2 ^ (970 : ℤ) := by
  rw [zpow_add₀ two_ne_zero, zpow_natCast]

theorem largest_lt_overflow : (largest : ℚ) < overflow := by
  rw [largest_eq, overflow, show (971 : ℤ) = (1 : ℕ) + 970 from rfl, two_pow_half_steps,
    ← mul_assoc]
  exact mul_lt_mul_of_pos_right (by norm_num) (by positivity)

theorem overflow_le : overflow ≤ 2 ^ (1024 : ℤ) := by
  rw [overflow, show (1024 : ℤ) = (54 : ℕ) + 970 from rfl, two_pow_half_steps]
  exact mul_le_mul_of_nonneg_right (by norm_num) (by positivity)

theorem le_overflow : (2 : ℚ) ^ (1023 : ℤ) ≤ overflow := by
  rw [overflow, show (1023 : ℤ) = (53 : ℕ) + 970 from rfl, two_pow_half_steps]
  exact mul_le_mul_of_nonneg_right (by norm_num) (by positivity)

theorem overflow_le_iff {y : ℚ} :
    overflow ≤ y ↔ ((2 ^ 53 : ℕ) : ℚ) - 1 / 2 ≤ y / 2 ^ (971 : ℤ) := by
  have steps : (((2 ^ 53 : ℕ) : ℚ) - 1 / 2) * 2 ^ (971 : ℤ) = overflow := by
    rw [overflow, show (971 : ℤ) = (1 : ℕ) + 970 from rfl, two_pow_half_steps, ← mul_assoc]
    norm_num
  rw [le_div_iff₀ (by positivity), steps]

theorem nearest_of_overflow (negative : Bool) (hd : 0 < d) (large : overflow ≤ (n / d : ℚ)) :
    nearest negative n d = signedInfinity negative := by
  have hn : 0 < n := by
    refine numerator_pos rfl (lt_of_lt_of_le ?_ (le_overflow.trans large))
    positivity
  obtain ⟨e, unit⟩ : ∃ e, spacing n d = e := ⟨_, rfl⟩
  obtain ⟨-, below, -⟩ := spacing_bounds hn hd unit
  have coarse : 1023 < e + 53 :=
    (zpow_lt_zpow_iff_right₀ one_lt_two).mp ((le_overflow.trans large).trans_lt below)
  by_cases beyond : 971 < e
  · simp only [nearest, unit, if_pos beyond, signedInfinity]
  · obtain rfl : e = 971 := by omega
    have under : (n / d / 2 ^ (971 : ℤ) : ℚ) < (2 ^ 53 : ℕ) := by
      rw [div_lt_iff₀ (by positivity), Nat.cast_pow, Nat.cast_ofNat, ← zpow_natCast,
        ← zpow_add₀ two_ne_zero]
      exact below
    -- the mantissa is rounded to a power of two, which is even
    have odd : ¬ 2 ^ 53 % 2 = 1 := by norm_num
    rw [nearest_of_spacing hd unit le_rfl (overflow_le_iff.mp large) (by linarith)
      fun rest => absurd rest odd]
    exact ofParts_overflow negative

theorem nearest_of_small (negative : Bool) (hd : 0 < d) (small : (n / d : ℚ) < overflow) :
    ∃ q, Near (n / d) q ∧ Stands negative q (nearest negative n d) := by
  rcases Nat.eq_zero_or_pos n with rfl | hn
  · rw [Nat.cast_zero, zero_div]
    exact ⟨0, nearest_zero_cases negative d⟩
  obtain ⟨e, unit⟩ : ∃ e, spacing n d = e := ⟨_, rfl⟩
  obtain ⟨least, below, above⟩ := spacing_bounds hn hd unit
  have size : (0 : ℚ) < 2 ^ e := by positivity
  have close := nearestQuotient_near (n := n) (e := e) hd
  have fine : e ≤ 971 := by
    by_contra large
    have limit : overflow ≤ 2 ^ (e + 52) :=
      overflow_le.trans (zpow_le_zpow_right₀ one_le_two (by omega))
    exact absurd (limit.trans (above (by omega))) (not_le.mpr small)
  simp only [nearest, unit, if_neg (not_lt.mpr fine)]
  generalize nearestQuotient (n <<< (-e).toNat) (d <<< e.toNat) = k at close ⊢
  have fits : k ≤ 2 ^ 53 := by
    apply le_natCast_of_near close
    rw [div_le_iff₀ size, Nat.cast_pow, Nat.cast_ofNat, ← zpow_natCast, ← zpow_add₀ two_ne_zero,
      add_comm]
    exact below.le
  rcases ofParts_rounded negative fits least fine with shown | ⟨rfl, rfl, -⟩
  · exact ⟨_, near_of_spacing hn hd unit close, shown⟩
  · have half := (abs_le.mp close).2
    exact absurd (overflow_le_iff.mpr (by linarith)) (not_le.mpr small)

/-- Rounding either leaves the doubles, and then only above the largest of them, or gives the
    double that stands for a near number. -/
theorem nearest_cases (negative : Bool) (hd : 0 < d) :
    ((largest : ℚ) < n / d ∧ nearest negative n d = signedInfinity negative) ∨
      ∃ q, Near (n / d) q ∧ Stands negative q (nearest negative n d) := by
  rcases le_or_gt overflow (n / d : ℚ) with large | small
  · exact .inl ⟨largest_lt_overflow.trans_le large, nearest_of_overflow negative hd large⟩
  · exact .inr (nearest_of_small negative hd small)

end

theorem fraction_of_nonneg {v : ℚ} (nonneg : 0 ≤ v) : (v.num.toNat / v.den : ℚ) = v := by
  have whole : ((v.num.toNat : ℤ) : ℚ) = v.num := by
    rw [Int.toNat_of_nonneg (Rat.num_nonneg.mpr nonneg)]
  rw [Int.cast_natCast] at whole
  rw [whole, Rat.num_div_den]

section
variable {a b : Bool} {v w : ℚ} {x y : Float}

theorem mul_cases (hx : Stands a v x) (hy : Stands b w y) :
    ((largest : ℚ) < v * w ∧ x * y = signedInfinity (a != b)) ∨
      ∃ q, Near (v * w) q ∧ Stands (a != b) q (x * y) := by
  have value := fraction_of_nonneg (mul_nonneg hx.nonneg hy.nonneg)
  have cases := nearest_cases (n := (v * w).num.toNat) (a != b) (v * w).den_pos
  rwa [value, ← mul_eq_nearest hx hy (v * w).den_pos value] at cases

theorem div_cases (hx : Stands a v x) (hy : Stands b w y) (positive : 0 < w) :
    ((largest : ℚ) < v / w ∧ x / y = signedInfinity (a != b)) ∨
      ∃ q, Near (v / w) q ∧ Stands (a != b) q (x / y) := by
  have value := fraction_of_nonneg (div_nonneg hx.nonneg hy.nonneg)
  have cases := nearest_cases (n := (v / w).num.toNat) (a != b) (v / w).den_pos
  rwa [value, ← div_eq_nearest hx hy positive (v / w).den_pos value] at cases

theorem div_near (hx : Stands a v x) (hy : Stands b w y) (one : 1 ≤ w) :
    ∃ q, Near (v / w) q ∧ Stands (a != b) q (x / y) := by
  refine (div_cases hx hy (by linarith)).resolve_left ?_
  rintro ⟨large, -⟩
  exact absurd ((div_le_self hx.nonneg one).trans hx.le_largest) (not_le.mpr large)

end

end WordProblem.Binary64
