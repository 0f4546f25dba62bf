import WordProblem.Proofs.Counting

/-!
Selections. Round `i` of a selection from `base + i` turns one binomial coefficient into the next,
so the exact value is divided without rest as long as it fits, and the double beside it is off by
two roundings for each round.
-/
namespace WordProblem.Formula
open Binary64

def Selection.after (base : ℕ) : ℕ → Selection
  | 0 => ⟨some 1, 1.0⟩
  | i + 1 => (after base i).advance base (i + 1)

theorem rounds_cases (base i more : ℕ) :
    (Selection.rounds base (.after base i) (i + 1) more = .ok (.after base (i + more)) ∧
      ∀ j, i < j → j ≤ i + more → (Selection.after base j).approximate.isInf = false) ∨
    (Selection.rounds base (.after base i) (i + 1) more = .error .nonFinite ∧
      ∃ j, i < j ∧ j ≤ i + more ∧ (Selection.after base j).approximate.isInf = true ∧
        ∀ l, i < l → l < j → (Selection.after base l).approximate.isInf = false) := by
  induction more generalizing i with
  | zero => exact .inl ⟨rfl, fun j low high => by omega⟩
  | succ more ih =>
    have next : (Selection.after base i).advance base (i + 1) = .after base (i + 1) := rfl
    rw [Selection.rounds, next]
    cases left : (Selection.after base (i + 1)).approximate.isInf with
    | true => exact .inr ⟨rfl, i + 1, by omega, by omega, left, fun l low high => by omega⟩
    | false =>
      simp only [Bool.false_eq_true, ↓reduceIte]
      have first : ∀ l, i < l → l < i + 2 → (Selection.after base l).approximate.isInf = false := by
        intro l low high
        obtain rfl : l = i + 1 := by omega
        exact left
      rcases ih (i + 1) with ⟨run, finite⟩ | ⟨run, j, low, high, infinite, finite⟩
      · refine .inl ⟨by rw [run, Nat.add_right_comm, Nat.add_assoc], fun j low high => ?_⟩
        rcases Nat.lt_or_ge j (i + 2) with here | later
        · exact first j low here
        · exact finite j (by omega) (by omega)
      · refine .inr ⟨run, j, by omega, by omega, infinite, fun l low high => ?_⟩
        rcases Nat.lt_or_ge l (i + 2) with here | later
        · exact first l low here
        · exact finite l (by omega) high

theorem selection_cases (base r : ℕ) :
    (Selection.rounds base ⟨some 1, 1.0⟩ 1 r = .ok (.after base r) ∧
      ∀ j, 0 < j → j ≤ r → (Selection.after base j).approximate.isInf = false) ∨
    (Selection.rounds base ⟨some 1, 1.0⟩ 1 r = .error .nonFinite ∧
      ∃ j, 0 < j ∧ j ≤ r ∧ (Selection.after base j).approximate.isInf = true ∧
        ∀ l, 0 < l → l < j → (Selection.after base l).approximate.isInf = false) := by
  have cases := rounds_cases base 0 r
  simp only [Nat.zero_add] at cases
  exact cases

/-- The exact value is a binomial coefficient after every round. No product on the way needs more
    than 128 bits, and every division is without rest. -/
structure Selection.Exact (base rounds : ℕ) : Prop where
  value : ∀ i ≤ rounds, ∃ s, Selection.rounds base ⟨some 1, 1.0⟩ 1 i = .ok s ∧
    s.exact = some ((base + i).choose i)
  fits : ∀ i < rounds, (base + i).choose i * (base + (i + 1)) < 1 <<< 128
  divides : ∀ i < rounds, i + 1 ∣ (base + i).choose i * (base + (i + 1))

/-- The words that the rounds count with: no difference is taken of a larger from a smaller one,
    no factor is too large for a word, and no divisor is zero. -/
structure Selection.Words (a b : UInt64) : Prop where
  difference : b ≤ a
  base : min b (a - b) ≤ a
  rounds : (min b (a - b)).toNat = min b.toNat (a.toNat - b.toNat)
  factor : ∀ i : UInt64, 1 ≤ i → i ≤ min b (a - b) → (a - min b (a - b) + i).toNat =
    a.toNat - min b.toNat (a.toNat - b.toNat) + i.toNat
  divisor : ∀ i : UInt64, 1 ≤ i → i ≠ 0

theorem min_toNat (a b : UInt64) : (min a b).toNat = min a.toNat b.toNat := by
  change (if a ≤ b then a else b).toNat = _
  rw [Nat.min_def, apply_ite UInt64.toNat]
  simp only [UInt64.le_iff_toNat_le]

theorem words_of_order {a b : UInt64} (order : b ≤ a) (small : a.toNat ≤ largestExact) :
    Selection.Words a b := by
  have rounds : (min b (a - b)).toNat = min b.toNat (a.toNat - b.toNat) := by
    rw [min_toNat, UInt64.toNat_sub_of_le _ _ order]
  have base : min b (a - b) ≤ a := by
    rw [UInt64.le_iff_toNat_le] at order ⊢
    omega
  refine ⟨order, base, rounds, fun i least most => ?_, fun i least => ?_⟩
  · have bits := largestExact_lt
    rw [UInt64.le_iff_toNat_le] at most
    rw [UInt64.toNat_add, UInt64.toNat_sub_of_le _ _ base, rounds]
    apply Nat.mod_eq_of_lt
    omega
  · rintro rfl
    exact absurd least (by decide)

section
variable {base i r : ℕ}

theorem choose_step (base i : ℕ) :
    (base + i).choose i * (base + (i + 1)) = (base + (i + 1)).choose (i + 1) * (i + 1) := by
  rw [← Nat.add_assoc, ← Nat.add_one_mul_choose_eq, Nat.mul_comm]

theorem choose_mono (base : ℕ) {i r : ℕ} (earlier : i ≤ r) :
    (base + i).choose i ≤ (base + r).choose r := by
  rw [← Nat.choose_symm_add, ← Nat.choose_symm_add]
  exact Nat.choose_le_choose base (by omega)

theorem advance_exact {s : Selection} (value : s.exact = some ((base + i).choose i))
    (fits : (base + i).choose i * (base + (i + 1)) < 1 <<< 128) :
    (s.advance base (i + 1)).exact = some ((base + (i + 1)).choose (i + 1)) := by
  have quotient : (base + i).choose i * (base + (i + 1)) / (i + 1) =
      (base + (i + 1)).choose (i + 1) := by
    rw [choose_step, Nat.mul_div_cancel _ (Nat.succ_pos i)]
  simp only [Selection.advance, value, Option.bind_some, fits, ↓reduceIte, Option.map_some,
    quotient]

theorem after_exact (fits : ∀ j < i, (base + j).choose j * (base + (j + 1)) < 1 <<< 128) :
    (Selection.after base i).exact = some ((base + i).choose i) := by
  induction i with
  | zero => simp [Selection.after]
  | succ i ih => exact advance_exact (ih fun j less => fits j (by omega)) (fits i (by omega))

theorem product_fits (small : (base + r).choose r ≤ largestExact) (range : base + r ≤ largestExact)
    (earlier : i < r) : (base + i).choose i * (base + (i + 1)) < 1 <<< 128 := by
  have coefficient := (choose_mono base earlier.le).trans small
  have factor : base + (i + 1) ≤ largestExact := by omega
  have square : largestExact * largestExact < 1 <<< 128 := by decide
  exact (Nat.mul_le_mul coefficient factor).trans_lt square

theorem advance_cases (base : ℕ) {s : Selection} {v : ℚ} (shown : Stands false v s.approximate)
    (least : 1 ≤ v) (positive : 0 < i) (range : base + i < 2 ^ 53) :
    ((largest : ℚ) < v * (base + i : ℕ) ∧ (s.advance base i).approximate = infinity) ∨
      ∃ w, Stands false w (s.advance base i).approximate ∧ 1 ≤ w ∧
        w ≤ v * (base + i : ℕ) / i * (1 + roundoff) ^ 2 := by
  have factor := ofNat_stands range
  have divisor := ofNat_stands (show i < 2 ^ 53 by omega)
  have one : (1 : ℚ) ≤ i := by exact_mod_cast positive
  have size : (0 : ℚ) < i := by linarith
  have next : (s.advance base i).approximate =
      s.approximate * Float.ofNat (base + i) / Float.ofNat i := rfl
  rw [next]
  have order : (i : ℚ) ≤ v * (base + i : ℕ) := by
    have more : (i : ℚ) ≤ (base + i : ℕ) := by exact_mod_cast Nat.le_add_left i base
    exact more.trans (le_mul_of_one_le_left (Nat.cast_nonneg _) least)
  -- only the product can leave the doubles, since the divisor is at least one
  rcases mul_cases shown factor with ⟨large, left⟩ | ⟨p, nearp, product⟩
  · left
    rw [left]
    exact ⟨large, infinity_div divisor size⟩
  · right
    obtain ⟨q, nearq, result⟩ := div_near product divisor one
    have quotient : 1 ≤ p / i := (one_le_div size).mpr (nearp.keeps_low divisor order)
    have more : 0 ≤ 1 + roundoff := by norm_num [roundoff]
    refine ⟨q, result, nearq.keeps_low one_stands quotient, ?_⟩
    calc q ≤ p / i * (1 + roundoff) := (nearq.bounds quotient).2
      _ ≤ v * (base + i : ℕ) * (1 + roundoff) / i * (1 + roundoff) :=
        mul_le_mul_of_nonneg_right
          (div_le_div_of_nonneg_right (nearp.bounds (one.trans order)).2 size.le) more
      _ = v * (base + i : ℕ) / i * (1 + roundoff) ^ 2 := by ring

/-- As long as the doubles are not left, the approximation is a binomial coefficient up to two
    roundings for each round. -/
theorem after_bounded (base : ℕ) (range : base + i < 2 ^ 53)
    (finite : ∀ j, 0 < j → j ≤ i → (Selection.after base j).approximate.isInf = false) :
    ∃ v, Stands false v (Selection.after base i).approximate ∧ 1 ≤ v ∧
      v ≤ (base + i).choose i * (1 + roundoff) ^ (2 * i) := by
  induction i with
  | zero => exact ⟨1, one_stands, le_rfl, by simp⟩
  | succ i ih =>
    obtain ⟨v, shown, least, bound⟩ :=
      ih (by omega) fun j low high => finite j low (by omega)
    have cases := advance_cases base shown least (Nat.succ_pos i) range
    rcases cases with ⟨-, left⟩ | ⟨w, result, one, growth⟩
    · have infinite : (Selection.after base (i + 1)).approximate = infinity := left
      have finite := finite (i + 1) (Nat.succ_pos i) le_rfl
      rw [infinite] at finite
      exact absurd finite (by decide +kernel)
    · refine ⟨w, result, one, growth.trans ?_⟩
      have step : ((base + i).choose i : ℚ) * (base + (i + 1) : ℕ) / (i + 1 : ℕ) =
          (base + (i + 1)).choose (i + 1) := by
        rw [div_eq_iff (by positivity)]
        exact_mod_cast choose_step base i
      have positive : (0 : ℚ) ≤ (base + (i + 1) : ℕ) / (i + 1 : ℕ) * (1 + roundoff) ^ 2 := by
        have more : 0 ≤ 1 + roundoff := by norm_num [roundoff]
        positivity
      calc v * (base + (i + 1) : ℕ) / (i + 1 : ℕ) * (1 + roundoff) ^ 2
          = v * ((base + (i + 1) : ℕ) / (i + 1 : ℕ) * (1 + roundoff) ^ 2) := by ring
        _ ≤ (base + i).choose i * (1 + roundoff) ^ (2 * i) *
            ((base + (i + 1) : ℕ) / (i + 1 : ℕ) * (1 + roundoff) ^ 2) :=
          mul_le_mul_of_nonneg_right bound positive
        _ = (base + i).choose i * (base + (i + 1) : ℕ) / (i + 1 : ℕ) *
            (1 + roundoff) ^ (2 * (i + 1)) := by ring
        _ = (base + (i + 1)).choose (i + 1) * (1 + roundoff) ^ (2 * (i + 1)) := by rw [step]

/-- Rounds that leave the doubles do so with a product that is too large up to the roundings
    before it, and the last product is the largest. -/
theorem rounds_error (range : base + r < 2 ^ 53) {fault : Refusal}
    (stopped : Selection.rounds base ⟨some 1, 1.0⟩ 1 r = .error fault) :
    0 < r ∧ (largest : ℚ) < (r * (base + r).choose r : ℕ) * (1 + roundoff) ^ (2 * (r - 1)) := by
  rcases selection_cases base r with ⟨run, -⟩ | ⟨-, j, low, high, infinite, finite⟩
  · rw [run] at stopped
    cases stopped
  obtain ⟨i, rfl⟩ : ∃ i, j = i + 1 := ⟨j - 1, by omega⟩
  -- the state before the first round that leaves the doubles
  obtain ⟨v, shown, least, bound⟩ :=
    after_bounded base (i := i) (by omega) fun l low high => finite l low (by omega)
  refine ⟨by omega, ?_⟩
  have cases := advance_cases base shown least (Nat.succ_pos i) (by omega)
  rcases cases with ⟨large, -⟩ | ⟨w, result, -⟩
  · have more : 1 ≤ 1 + roundoff := by norm_num [roundoff]
    have product : (base + i).choose i * (base + (i + 1)) ≤ r * (base + r).choose r := by
      rw [choose_step, Nat.mul_comm]
      exact Nat.mul_le_mul high (choose_mono base high)
    have positive : (0 : ℚ) ≤ (base + (i + 1) : ℕ) := Nat.cast_nonneg _
    calc (largest : ℚ) < v * (base + (i + 1) : ℕ) := large
      _ ≤ (base + i).choose i * (1 + roundoff) ^ (2 * i) * (base + (i + 1) : ℕ) :=
        mul_le_mul_of_nonneg_right bound positive
      _ = ((base + i).choose i * (base + (i + 1)) : ℕ) * (1 + roundoff) ^ (2 * i) := by
        push_cast
        ring
      _ ≤ (r * (base + r).choose r : ℕ) * (1 + roundoff) ^ (2 * (r - 1)) :=
        mul_le_mul (by exact_mod_cast product) (pow_le_pow_right₀ more (by omega)) (by positivity)
          (Nat.cast_nonneg _)
  · have stays : (Selection.after base (i + 1)).approximate.isInf = false := result.isFinite.2
    rw [infinite] at stays
    cases stays

end

end WordProblem.Formula
