import WordProblem.Proofs.Nearness
import WordProblem.Formula.Counting

/-!
Reading counts. Finite doubles are ordered as the numbers they stand for, so the bounds of a count
are tested exactly, and a double that is a whole number in the exact range is read as that number.
-/
namespace WordProblem.Binary64
open Float.Model Float.Model.UnpackedFloat

def signed (negative : Bool) (v : ℚ) : ℚ := if negative then -v else v

theorem magnitude_pos {p : Parts} (some : 0 < p.mantissa) : 0 < p.magnitude := by
  unfold Parts.magnitude
  positivity

theorem magnitude_lt_of_exponent {p q : Parts} (hp : p.Canonical) (hq : q.Canonical)
    (smaller : p.exponent < q.exponent) : p.magnitude < q.magnitude := by
  have full : ((2 ^ 52 : ℕ) : ℚ) ≤ q.mantissa := by
    have leading := hq.full (lt_of_le_of_lt hp.least smaller)
    rw [leadingBit_eq] at leading
    exact_mod_cast leading
  calc p.magnitude < 2 ^ (p.exponent + 53) := magnitude_lt hp
    _ ≤ 2 ^ (52 + q.exponent) := zpow_le_zpow_right₀ one_le_two (by omega)
    _ = (2 ^ 52 : ℕ) * 2 ^ q.exponent := by
      rw [zpow_add₀ two_ne_zero, Nat.cast_pow, Nat.cast_ofNat]
      rfl
    _ ≤ q.magnitude := mul_le_mul_of_nonneg_right full (by positivity)

/-- The exponents are compared first, and that is enough. -/
theorem compare_iff {p q : Parts} (hp : p.Canonical) (hq : q.Canonical) :
    ((compare p.exponent q.exponent).then (compare p.mantissa q.mantissa) = .lt ↔
      p.magnitude < q.magnitude) := by
  rcases lt_trichotomy p.exponent q.exponent with less | same | more
  · rw [Int.compare_eq_lt.mpr less]
    simpa using magnitude_lt_of_exponent hp hq less
  · have order : p.magnitude < q.magnitude ↔ p.mantissa < q.mantissa := by
      unfold Parts.magnitude
      rw [same, mul_lt_mul_iff_left₀ (by positivity), Nat.cast_lt]
    rw [order, Int.compare_eq_eq.mpr same]
    exact Nat.compare_eq_lt
  · rw [Int.compare_eq_gt.mpr more]
    simpa using (magnitude_lt_of_exponent hq hp more).le

theorem lt_iff_compare (x y : Float) :
    x < y ↔ x.toModel.unpack.compare y.toModel.unpack = some .lt := by
  change decide (x.toModel < y.toModel) = true ↔ _
  rw [decide_eq_true_iff]
  change (x.toModel.unpack.compare y.toModel.unpack == some .lt) = true ↔ _
  exact beq_iff_eq

theorem unpacked_of_zero {p : Parts} (zero : p.mantissa = 0) :
    p.unpacked = .zero (signOf p.negative) ∧ p.magnitude = 0 := by
  simp [Parts.unpacked, Parts.magnitude, zero]

theorem unpacked_of_pos {p : Parts} (some : 0 < p.mantissa) :
    p.unpacked = .finite (signOf p.negative) p.mantissa p.exponent some := by
  rw [Parts.unpacked, dif_pos some]

theorem lt_iff {a b : Bool} {v w : ℚ} {x y : Float} (hx : Stands a v x) (hy : Stands b w y) :
    x < y ↔ signed a v < signed b w := by
  obtain ⟨p, shownx, rfl, rfl⟩ := hx
  obtain ⟨q, showny, rfl, rfl⟩ := hy
  have order := compare_iff (ofParts_of_parts? shownx).1 (ofParts_of_parts? showny).1
  have swapped := compare_iff (ofParts_of_parts? showny).1 (ofParts_of_parts? shownx).1
  have turned : ((compare p.exponent q.exponent).then (compare p.mantissa q.mantissa)).swap =
      (compare q.exponent p.exponent).then (compare q.mantissa p.mantissa) := by
    rw [Ordering.swap_then, Int.compare_swap, Nat.compare_swap]
  rw [lt_iff_compare, unpack_of_parts? shownx, unpack_of_parts? showny]
  rcases Nat.eq_zero_or_pos p.mantissa with zerop | somep <;>
    rcases Nat.eq_zero_or_pos q.mantissa with zeroq | someq
  · rw [(unpacked_of_zero zerop).1, (unpacked_of_zero zeroq).1, (unpacked_of_zero zerop).2,
      (unpacked_of_zero zeroq).2]
    cases p.negative <;> cases q.negative <;> simp [signed, UnpackedFloat.compare]
  · have right := magnitude_pos someq
    rw [(unpacked_of_zero zerop).1, unpacked_of_pos someq, (unpacked_of_zero zerop).2]
    cases p.negative <;> cases q.negative <;>
      simp [signed, signOf, UnpackedFloat.compare, right, right.le]
  · have left := magnitude_pos somep
    rw [unpacked_of_pos somep, (unpacked_of_zero zeroq).1, (unpacked_of_zero zeroq).2]
    cases p.negative <;> cases q.negative <;>
      simp [signed, signOf, UnpackedFloat.compare, left, left.le]
  · have left := magnitude_pos somep
    have right := magnitude_pos someq
    rw [unpacked_of_pos somep, unpacked_of_pos someq]
    cases p.negative <;> cases q.negative <;>
      simp only [signed, signOf, UnpackedFloat.compare, Bool.false_eq_true, ↓reduceIte,
        Option.some.injEq, turned, order, swapped, neg_lt_neg_iff, reduceCtorEq, false_iff,
        true_iff, not_lt] <;>
      linarith

theorem stands_of_exactInt? {x : Float} {z : ℤ} (read : exactInt? x = some z) :
    (∃ negative, Stands negative (z.natAbs : ℕ) x ∧
      z = if negative then -(z.natAbs : ℤ) else z.natAbs) ∧ z.natAbs ≤ largestExact := by
  obtain ⟨whole, small⟩ := Option.filter_eq_some_iff.mp read
  exact ⟨stands_of_toInt? whole, by simpa using small⟩

theorem largestExact_lt : largestExact < 2 ^ 53 := by decide

theorem largestExact_mul_le {m n : ℕ} (hm : m ≤ largestExact) (hn : n ≤ largestExact) :
    m * n ≤ largest := by
  have square : largestExact * largestExact ≤ largest := by
    rw [largest]
    decide +kernel
  exact (Nat.mul_le_mul hm hn).trans square

theorem exactInt?_ofNat {n : ℕ} (small : n ≤ largestExact) :
    exactInt? (Float.ofNat n) = some (n : ℤ) := by
  rw [exactInt?, toInt?_of_stands (ofNat_stands (small.trans_lt largestExact_lt))]
  simp [Option.filter, small]

end WordProblem.Binary64

namespace WordProblem.Formula
open Binary64

theorem count_of_exactInt? {x : Float} {n : ℕ} (read : exactInt? x = some (n : ℤ)) :
    count x = .ok n ∧ n ≤ largestExact := by
  obtain ⟨whole, -⟩ := Option.filter_eq_some_iff.mp read
  obtain ⟨⟨negative, shown, sign⟩, fits⟩ := stands_of_exactInt? read
  rw [Int.natAbs_natCast] at shown sign fits
  have value : signed negative n = n := by
    cases negative
    · rfl
    · have none : n = 0 := by
        simp only [↓reduceIte] at sign
        omega
      simp [signed, none]
  have zero : Stands false ((0 : ℕ) : ℚ) 0.0 := by
    have same : (0.0 : Float) = Float.ofNat 0 := rfl
    rw [same]
    exact ofNat_stands (by norm_num)
  have top := ofNat_stands largestExact_lt
  have floor : ¬x < 0.0 := by
    rw [lt_iff shown zero, value]
    simp [signed]
  have ceiling : ¬Float.ofNat largestExact < x := by
    rw [lt_iff top shown, value]
    simpa [signed] using fits
  refine ⟨?_, fits⟩
  simp only [count, shown.isFinite.1, floor, ceiling, whole, Bool.not_true, Bool.false_eq_true,
    ↓reduceIte, Int.toNat_natCast]

end WordProblem.Formula
