import WordProblem.Proofs.Counting

/-!
Arrangements. More than 170 distinct positive whole numbers multiply to more than every double
holds, so refusing them without multiplying refuses nothing that has a finite value; below that
limit the product runs over the factors of `n! / (n - k)!`, once each.
-/
namespace WordProblem.Formula
open Binary64 Nat

section
variable {n k : ℕ}

theorem largest_lt_factorial : largest < (mostFactors + 1)! := by
  rw [largest]
  decide +kernel

theorem factorial_le_descFactorial (enough : k ≤ n) : k ! ≤ n.descFactorial k := by
  rw [← Nat.descFactorial_self k]
  exact Nat.descFactorial_le k enough

theorem largest_lt_descFactorial (enough : k ≤ n) (many : mostFactors < k) :
    largest < n.descFactorial k :=
  calc largest < (mostFactors + 1)! := largest_lt_factorial
    _ ≤ k ! := Nat.factorial_le many
    _ ≤ n.descFactorial k := factorial_le_descFactorial enough

theorem factors_top (enough : k ≤ n) : factors (n - k + 1) n = List.range' (n - k + 1) k := by
  have count : n + 1 - (n - k + 1) = k := by omega
  rw [factors, count]

theorem factors_length (enough : k ≤ n) : (factors (n - k + 1) n).length = k := by
  rw [factors_top enough, List.length_range']

theorem mem_factors {first last i : ℕ} : i ∈ factors first last ↔ first ≤ i ∧ i ≤ last := by
  rw [factors, List.mem_range'_1]
  omega

theorem range'_prod (first count : ℕ) :
    (List.range' first count).prod = first.ascFactorial count := by
  induction count with
  | zero => rfl
  | succ count ih =>
    rw [List.range'_concat, List.prod_append, ih, List.prod_singleton, Nat.ascFactorial_succ,
      Nat.one_mul, Nat.mul_comm]

theorem factors_prod (enough : k ≤ n) : (factors (n - k + 1) n).prod = n ! / (n - k)! := by
  rw [factors_top enough, range'_prod, Nat.ascFactorial_eq_div, Nat.sub_add_cancel enough]

theorem first_factor_toNat {a b : UInt64} (ha : a.toNat = n) (hb : b.toNat = k) (enough : k ≤ n)
    (small : n ≤ largestExact) : b ≤ a ∧ (a - b + 1).toNat = n - k + 1 := by
  have order : b ≤ a := by
    rw [UInt64.le_iff_toNat_le, ha, hb]
    exact enough
  have room : n - k + 1 < 2 ^ 64 := by
    have top := largestExact_lt
    omega
  refine ⟨order, ?_⟩
  rw [UInt64.toNat_add, UInt64.toNat_sub_of_le _ _ order, ha, hb]
  exact Nat.mod_eq_of_lt room

theorem multiplied_infinity {l : List ℕ} (members : ∀ i ∈ l, 1 ≤ i ∧ i < 2 ^ 53) :
    l.foldl (fun product i => product * Float.ofNat i) infinity = infinity := by
  induction l with
  | nil => rfl
  | cons i l ih =>
    obtain ⟨low, high⟩ := members i (by simp)
    rw [List.foldl_cons, infinity_mul (ofNat_stands high) (by exact_mod_cast low)]
    exact ih fun j mem => members j (by simp [mem])

theorem multiplied_cases {l : List ℕ} (members : ∀ i ∈ l, 1 ≤ i ∧ i < 2 ^ 53) {v : ℚ} {a : Float}
    (shown : Stands false v a) (least : 1 ≤ v) :
    l.foldl (fun product i => product * Float.ofNat i) a = infinity ∨
      ∃ q, Stands false q (l.foldl (fun product i => product * Float.ofNat i) a) ∧
        v * l.prod * (1 - roundoff) ^ l.length ≤ q := by
  induction l generalizing v a with
  | nil => exact .inr ⟨v, shown, by simp⟩
  | cons i l ih =>
    obtain ⟨low, high⟩ := members i (by simp)
    have rest : ∀ j ∈ l, 1 ≤ j ∧ j < 2 ^ 53 := fun j mem => members j (by simp [mem])
    have factor : (1 : ℚ) ≤ i := by exact_mod_cast low
    rw [List.foldl_cons]
    rcases mul_cases shown (ofNat_stands high) with ⟨-, left⟩ | ⟨q, near, stands⟩
    · left
      rw [left]
      exact multiplied_infinity rest
    · have size : (1 : ℚ) ≤ v * i := by nlinarith
      have whole : 1 ≤ q := near.keeps_low one_stands size
      refine (ih rest stands whole).imp_right ?_
      rintro ⟨r, shown, bound⟩
      refine ⟨r, shown, le_trans ?_ bound⟩
      have positive : (0 : ℚ) ≤ l.prod * (1 - roundoff) ^ l.length := by
        have below : 0 ≤ 1 - roundoff := by norm_num [roundoff]
        positivity
      calc v * (i :: l).prod * (1 - roundoff) ^ (i :: l).length
          = v * i * (1 - roundoff) * (l.prod * (1 - roundoff) ^ l.length) := by
            rw [List.prod_cons, List.length_cons, pow_succ]
            push_cast
            ring
        _ ≤ q * (l.prod * (1 - roundoff) ^ l.length) :=
          mul_le_mul_of_nonneg_right (near.bounds size).1 positive
        _ = q * l.prod * (1 - roundoff) ^ l.length := by ring

/-- The roundings of a long product take less from it than its last factors give. -/
theorem largest_lt_rounded (many : mostFactors < k) :
    (largest : ℚ) < k ! * (1 - roundoff) ^ k := by
  induction k, many using Nat.le_induction with
  | base =>
    have bound : largest * (2 ^ 53) ^ (mostFactors + 1) <
        (mostFactors + 1)! * (2 ^ 53 - 1) ^ (mostFactors + 1) := by
      rw [largest]
      decide +kernel
    have kept : 1 - roundoff = ((2 ^ 53 - 1 : ℕ) : ℚ) / (2 ^ 53 : ℕ) := by norm_num [roundoff]
    have ratio := (lt_mul_ratio_iff (Nat.two_pow_pos 53)).mpr bound
    rwa [← kept] at ratio
  | succ k many ih =>
    have positive : 0 ≤ k ! * (1 - roundoff) ^ k := (Nat.cast_nonneg largest).trans ih.le
    have grows : (1 : ℚ) ≤ (k + 1) * (1 - roundoff) := by
      have more : (171 : ℚ) ≤ k := by exact_mod_cast many
      have small : roundoff ≤ 1 / 2 := by norm_num [roundoff]
      nlinarith
    calc (largest : ℚ) < k ! * (1 - roundoff) ^ k * 1 := by rwa [mul_one]
      _ ≤ k ! * (1 - roundoff) ^ k * ((k + 1) * (1 - roundoff)) :=
        mul_le_mul_of_nonneg_left grows positive
      _ = (k + 1)! * (1 - roundoff) ^ (k + 1) := by
        rw [Nat.factorial_succ, pow_succ]
        push_cast
        ring

theorem product_of_many (enough : k ≤ n) (small : n ≤ largestExact) (many : mostFactors < k) :
    product (factors (n - k + 1) n) = infinity := by
  have members : ∀ i ∈ factors (n - k + 1) n, 1 ≤ i ∧ i < 2 ^ 53 := by
    intro i mem
    have top := largestExact_lt
    rw [mem_factors] at mem
    omega
  refine (multiplied_cases members one_stands le_rfl).resolve_right ?_
  rintro ⟨q, shown, bound⟩
  have value : (k ! : ℚ) ≤ (factors (n - k + 1) n).prod := by
    rw [factors_prod enough, ← Nat.descFactorial_eq_div enough]
    exact_mod_cast factorial_le_descFactorial enough
  rw [factors_length enough, one_mul] at bound
  have below : 0 ≤ (1 - roundoff) ^ k := pow_nonneg (by norm_num [roundoff]) k
  have larger : (largest : ℚ) < q :=
    calc (largest : ℚ) < k ! * (1 - roundoff) ^ k := largest_lt_rounded many
      _ ≤ (factors (n - k + 1) n).prod * (1 - roundoff) ^ k :=
        mul_le_mul_of_nonneg_right value below
      _ ≤ q := bound
  exact absurd shown.le_largest (not_le.mpr larger)

/-- Beyond the limit the arguments are refused, the value is larger than every double, and the
    product would have left the doubles too. Within it the factors are those of `n! / (n - k)!`,
    one for each of the `k` places, and no subtraction of words goes below zero on the way to the
    first of them. -/
theorem permutation_limit_sound {x y : Float} (hx : exactInt? x = some (n : ℤ))
    (hy : exactInt? y = some (k : ℤ)) (enough : k ≤ n) :
    (mostFactors < k →
      permutation x y = .error .nonFinite ∧ largest < n ! / (n - k)! ∧
        product (factors (n - k + 1) n) = infinity) ∧
    (n ! / (n - k)! ≤ largest → k ≤ mostFactors) ∧
    (k ≤ mostFactors →
      (factors (n - k + 1) n).length = k ∧
      (factors (n - k + 1) n).length ≤ mostFactors ∧
      (factors (n - k + 1) n).Nodup ∧
      (∀ i, i ∈ factors (n - k + 1) n ↔ n - k < i ∧ i ≤ n) ∧
      (factors (n - k + 1) n).prod = n ! / (n - k)! ∧
      (∀ a b : UInt64, a.toNat = n → b.toNat = k → b ≤ a ∧ (a - b + 1).toNat = n - k + 1) ∧
      permutation x y =
        if (product (factors (n - k + 1) n)).isInf then .error .nonFinite
        else .ok (product (factors (n - k + 1) n))) := by
  obtain ⟨countx, small⟩ := count_of_exactInt? hx
  obtain ⟨county, -⟩ := count_of_exactInt? hy
  have beyond (many : mostFactors < k) : largest < n ! / (n - k)! := by
    rw [← Nat.descFactorial_eq_div enough]
    exact largest_lt_descFactorial enough many
  have value : permutation x y =
      if mostFactors < k then .error .nonFinite
      else if (product (factors (n - k + 1) n)).isInf then .error .nonFinite
      else .ok (product (factors (n - k + 1) n)) := by
    simp only [permutation, countx, county, bind, Except.bind, not_lt.mpr enough, ↓reduceIte]
  refine ⟨fun many => ⟨?_, beyond many, product_of_many enough small many⟩, fun fits => ?_,
    fun few => ?_⟩
  · rw [value, if_pos many]
  · by_contra many
    exact absurd (beyond (not_le.mp many)) (not_lt.mpr fits)
  · have length := factors_length enough
    refine ⟨length, length.trans_le few, ?_, fun i => ?_, factors_prod enough,
      fun a b ha hb => first_factor_toNat ha hb enough small, ?_⟩
    · rw [factors_top enough]
      exact List.nodup_range'
    · rw [mem_factors]
      omega
    · rw [value, if_neg (not_lt.mpr few)]

theorem permutation_of_too_many_factors :
    exactInt? 1000000000000000.0 = some (1000000000000000 : ℕ) ∧
      exactInt? 171.0 = some (171 : ℕ) ∧ mostFactors < 171 ∧
      permutation 1000000000000000.0 171.0 = .error .nonFinite := by
  have hx : exactInt? 1000000000000000.0 = some (1000000000000000 : ℕ) := by decide +kernel
  have hy : exactInt? 171.0 = some (171 : ℕ) := by decide +kernel
  have many : mostFactors < 171 := by decide
  exact ⟨hx, hy, many, ((permutation_limit_sound hx hy (by norm_num)).1 many).1⟩

end

end WordProblem.Formula
