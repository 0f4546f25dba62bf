import WordProblem.Proofs.Divisors

/-!
Common multiples. The divisor is found exactly. The multiple is the product over the divisor with
two roundings, so it is the least common multiple where the product is a double, and in any case no
further from it than the next whole number.
-/
namespace WordProblem.Formula
open Binary64

section
variable {a b : ℤ} {x y : Float}

theorem lcm_of_exactInt? (hx : exactInt? x = some a) (hy : exactInt? y = some b)
    (nonzero : ¬(a = 0 ∧ b = 0)) :
    lcm x y = .ok (floor ((x * y).abs / Float.ofNat (a.gcd b))) := by
  have positive : a.gcd b ≠ 0 := mt Int.gcd_eq_zero_iff.mp nonzero
  have divisor := commonDivisor_of_cutsTo (cutsTo_of_exactInt? hx) (cutsTo_of_exactInt? hy)
  simp only [lcm, divisor, bind, Except.bind, positive, ↓reduceIte]

end

section
variable {g l : ℕ} {p q : ℚ}

theorem quotient_near (some : 0 < g) (small : l ≤ largestExact) (near : Near (g * l : ℕ) p) :
    (l : ℚ) - 1 ≤ p / g ∧ p / g ≤ l + 1 := by
  have size : (0 : ℚ) < g := by exact_mod_cast some
  rcases Nat.eq_zero_or_pos l with rfl | positive
  · obtain ⟨zero, stands⟩ := exists_stands (Nat.zero_le (2 ^ 53))
    rw [Nat.mul_zero] at near
    rw [near.eq_of_stands stands]
    norm_num
  · have least : (1 : ℚ) ≤ (g * l : ℕ) := by exact_mod_cast Nat.mul_pos some positive
    have part : (l : ℚ) * roundoff ≤ 1 := by
      have top : l ≤ 2 ^ 53 := small.trans largestExact_lt.le
      rw [roundoff, mul_one_div, div_le_one (by positivity)]
      exact_mod_cast top
    obtain ⟨low, high⟩ := near.bounds least
    have moved : (g : ℚ) * l * roundoff ≤ g := by
      rw [mul_assoc]
      exact mul_le_of_le_one_right size.le part
    rw [Nat.cast_mul] at low high
    constructor
    · rw [le_div_iff₀ size]
      linarith
    · rw [div_le_iff₀ size]
      linarith

/-- Whole numbers next to the multiple are doubles, so the second rounding does not pass them. -/
theorem rounded_quotient_near (small : l ≤ largestExact) (low : (l : ℚ) - 1 ≤ p / g)
    (high : p / g ≤ l + 1) (near : Near (p / g) q) : ⌊q⌋₊ ≤ l + 1 ∧ l ≤ ⌊q⌋₊ + 1 := by
  have top : l + 1 ≤ 2 ^ 53 := Nat.succ_le_of_lt (small.trans_lt largestExact_lt)
  constructor
  · obtain ⟨z, stands⟩ := exists_stands top
    apply Nat.floor_le_of_le
    exact near.keeps_high stands (by rwa [Nat.cast_add, Nat.cast_one])
  · rcases Nat.eq_zero_or_pos l with rfl | positive
    · exact Nat.zero_le _
    · obtain ⟨z, stands⟩ := exists_stands (n := l - 1) (by omega)
      have below : ((l - 1 : ℕ) : ℚ) = l - 1 := by
        rw [Nat.cast_sub positive, Nat.cast_one]
      have floor := Nat.le_floor (near.keeps_low stands (by rwa [below]))
      omega

end

/-- The result is the least common multiple where the product is a double; elsewhere it may be the
    whole number before or after. -/
theorem lcm_near_least {a b : ℤ} {x y : Float} (hx : exactInt? x = some a)
    (hy : exactInt? y = some b) (nonzero : ¬(a = 0 ∧ b = 0)) (small : a.lcm b ≤ largestExact) :
    ∃ v, lcm x y = .ok v ∧ ∃ m : ℕ, toInt? v = some (m : ℤ) ∧ m ≤ a.lcm b + 1 ∧
      a.lcm b ≤ m + 1 ∧ ((∃ z, toInt? z = some (a * b)) → m = a.lcm b) := by
  obtain ⟨⟨s, shownx, -⟩, fitsx⟩ := stands_of_exactInt? hx
  obtain ⟨⟨t, showny, -⟩, fitsy⟩ := stands_of_exactInt? hy
  have positive : 0 < a.gcd b := Int.gcd_pos_iff.mpr (by tauto)
  have fits : a.gcd b ≤ largestExact := by
    rcases not_and_or.mp nonzero with some | some
    · exact (Int.gcd_le_natAbs_left b some).trans fitsx
    · exact (Int.gcd_le_natAbs_right a some).trans fitsy
  have divisor := ofNat_stands (fits.trans_lt largestExact_lt)
  have size : (1 : ℚ) ≤ a.gcd b := by exact_mod_cast positive
  have split : ((a.natAbs : ℕ) : ℚ) * (b.natAbs : ℕ) = (a.gcd b * a.lcm b : ℕ) := by
    exact_mod_cast (Int.gcd_mul_lcm a b).symm
  rcases mul_cases shownx showny with ⟨large, -⟩ | ⟨p, nearp, product⟩
  · have product : a.natAbs * b.natAbs ≤ largest := largestExact_mul_le fitsx fitsy
    exact absurd (by exact_mod_cast product) (not_le.mpr large)
  obtain ⟨q, nearq, quotient⟩ := div_near (abs_stands product) divisor size
  have whole := toInt?_of_stands (floor_stands quotient)
  rw [split] at nearp
  obtain ⟨low, high⟩ := quotient_near positive small nearp
  obtain ⟨above, below⟩ := rounded_quotient_near small low high nearq
  refine ⟨_, lcm_of_exactInt? hx hy nonzero, ⌊q⌋₊, whole, above, below, ?_⟩
  rintro ⟨z, read⟩
  obtain ⟨sign, exact_product, -⟩ := stands_of_toInt? read
  rw [Int.natAbs_mul, Nat.cast_mul, split] at exact_product
  have kept := nearp.eq_of_stands exact_product
  have quotient_eq : p / a.gcd b = a.lcm b := by
    rw [kept, Nat.cast_mul]
    field_simp
  obtain ⟨w, stands⟩ := exists_stands (small.trans largestExact_lt.le)
  rw [quotient_eq] at nearq
  rw [nearq.eq_of_stands stands, Nat.floor_natCast]

theorem lcm_of_four_and_six :
    exactInt? 4.0 = some 4 ∧ exactInt? 6.0 = some 6 ∧ Int.lcm 4 6 ≤ largestExact ∧
      ∃ v, lcm 4.0 6.0 = .ok v ∧ toInt? v = some 12 := by
  have hx : exactInt? 4.0 = some 4 := by decide +kernel
  have hy : exactInt? 6.0 = some 6 := by decide +kernel
  have small : Int.lcm 4 6 ≤ largestExact := by decide +kernel
  have product : toInt? 24.0 = some (4 * 6) := by decide +kernel
  obtain ⟨v, result, m, whole, -, -, kept⟩ := lcm_near_least hx hy (by decide) small
  have multiple : m = 12 := kept ⟨24.0, product⟩
  rw [multiple] at whole
  exact ⟨hx, hy, small, v, result, whole⟩

/-- The product of 3 and this number is no double, and its rounding makes the quotient too small. -/
theorem lcm_of_rounded_product :
    exactInt? 3.0 = some 3 ∧ exactInt? 3002399751580335.0 = some 3002399751580335 ∧
      Int.lcm 3 3002399751580335 = 3002399751580335 ∧ 3002399751580335 ≤ largestExact ∧
      lcm 3.0 3002399751580335.0 = .ok 3002399751580334.0 ∧
      lcm 3.0 3002399751580335.0 ≠ .ok 3002399751580335.0 := by
  have hx : exactInt? 3.0 = some 3 := by decide +kernel
  have hy : exactInt? 3002399751580335.0 = some 3002399751580335 := by decide +kernel
  have divisor : Int.gcd 3 3002399751580335 = 3 := by decide +kernel
  have multiple : Int.lcm 3 3002399751580335 = 3002399751580335 := by decide +kernel
  have small : 3002399751580335 ≤ largestExact := by decide
  have result := lcm_of_exactInt? hx hy (by decide)
  have rounded : floor ((3.0 * 3002399751580335.0 : Float).abs / Float.ofNat 3) =
      3002399751580334.0 := by decide +kernel
  rw [divisor, rounded] at result
  refine ⟨hx, hy, multiple, small, result, ?_⟩
  rw [result]
  decide +kernel

end WordProblem.Formula
