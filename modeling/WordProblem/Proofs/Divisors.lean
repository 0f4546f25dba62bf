import WordProblem.Proofs.Overflow
import WordProblem.Formula.Table

/-!
Common divisors. Doubles are cut toward zero to integers of the exact range; remainders are then
taken until none is left. A turn of that loop keeps the common divisors of the pair, and two turns
halve the second number, so the loop ends soon, and what it ends with is the greatest common
divisor of the magnitudes. A pair with a double that cannot be cut is refused.
-/
namespace WordProblem.Binary64

def towardZero (q : ℚ) : ℤ := if 0 ≤ q then ⌊q⌋ else ⌈q⌉

/-- A finite double whose number is this integer of the exact range once its fraction is cut off. -/
structure CutsTo (x : Float) (a : ℤ) : Prop where
  finite : x.isFinite = true
  cut : towardZero (toRat x) = a
  small : a.natAbs ≤ largestExact

section
variable {negative : Bool} {v : ℚ} {a : ℤ} {x : Float}

theorem towardZero_signed (negative : Bool) (nonneg : 0 ≤ v) :
    towardZero (signed negative v) = if negative then -(⌊v⌋₊ : ℤ) else ⌊v⌋₊ := by
  have floor : (⌊v⌋₊ : ℤ) = ⌊v⌋ := Int.natCast_floor_eq_floor nonneg
  cases negative with
  | false => simp [towardZero, signed, nonneg, floor]
  | true =>
    rcases nonneg.eq_or_lt with rfl | positive
    · simp [towardZero, signed]
    · simp [towardZero, signed, not_le.mpr positive, floor, Int.ceil_neg]

theorem natAbs_towardZero (shown : Stands negative v x) :
    (towardZero (toRat x)).natAbs = ⌊v⌋₊ := by
  rw [shown.toRat_eq, towardZero_signed negative shown.nonneg]
  cases negative <;> simp

theorem toInt?_truncate (finite : x.isFinite = true) :
    toInt? (truncate x) = some (towardZero (toRat x)) := by
  obtain ⟨negative, v, shown⟩ := stands_of_isFinite finite
  rw [toInt?_of_stands (truncate_stands shown), shown.toRat_eq,
    towardZero_signed negative shown.nonneg]

theorem toInt?_truncate_of_infinite (infinite : ¬x.isFinite = true) :
    toInt? (truncate x) = none := by
  cases parts : parts? x with
  | none => simp [truncate, whole, toInt?, parts]
  | some p =>
    have shown : Stands p.negative p.magnitude x := ⟨p, parts, rfl, rfl⟩
    exact absurd shown.isFinite.1 infinite

theorem exactInt?_truncate_eq_some_iff : exactInt? (truncate x) = some a ↔ CutsTo x a := by
  by_cases finite : x.isFinite = true
  · simp only [exactInt?, toInt?_truncate finite, Option.filter_eq_some_iff, Option.some.injEq,
      decide_eq_true_eq]
    constructor
    · rintro ⟨rfl, small⟩
      exact ⟨finite, rfl, small⟩
    · rintro ⟨-, cut, small⟩
      exact ⟨cut, small⟩
  · constructor
    · intro read
      simp [exactInt?, toInt?_truncate_of_infinite finite] at read
    · exact fun cut => absurd cut.finite finite

theorem cutsTo_of_exactInt? (read : exactInt? x = some a) : CutsTo x a := by
  obtain ⟨⟨negative, shown, sign⟩, small⟩ := stands_of_exactInt? read
  refine ⟨shown.isFinite.1, ?_, small⟩
  rw [shown.toRat_eq, towardZero_signed negative shown.nonneg, Nat.floor_natCast]
  exact sign.symm

theorem exists_cutsTo (shown : Stands negative v x) (small : ⌊v⌋₊ ≤ largestExact) :
    ∃ a, CutsTo x a ∧ a.natAbs = ⌊v⌋₊ := by
  have size := natAbs_towardZero shown
  exact ⟨_, ⟨shown.isFinite.1, rfl, size.trans_le small⟩, size⟩

theorem CutsTo.kept (cut : CutsTo x a) :
    ∀ y ∈ [x, -x, x.abs, truncate x], ∃ b, CutsTo y b ∧ b.natAbs = a.natAbs := by
  obtain ⟨negative, v, shown⟩ := stands_of_isFinite cut.finite
  have size : ⌊v⌋₊ = a.natAbs := by rw [← natAbs_towardZero shown, cut.cut]
  have small : ⌊v⌋₊ ≤ largestExact := size.trans_le cut.small
  intro y mem
  simp only [List.mem_cons, List.not_mem_nil, or_false] at mem
  rcases mem with rfl | rfl | rfl | rfl
  · exact ⟨a, cut, rfl⟩
  · rw [← size]
    exact exists_cutsTo (neg_stands shown) small
  · rw [← size]
    exact exists_cutsTo (abs_stands shown) small
  · have whole := exists_cutsTo (truncate_stands shown)
    rw [Nat.floor_natCast, size] at whole
    exact whole cut.small

end

end WordProblem.Binary64

namespace WordProblem.Formula
open Binary64

/-- The loop leads from one pair to another in so many turns. A turn is taken while the second
    number is not zero; that number comes first then, and the remainder second. -/
inductive Turns : ℕ → ℕ × ℕ → ℕ × ℕ → Prop where
  | rest (s : ℕ × ℕ) : Turns 0 s s
  | turn {n a b : ℕ} {s : ℕ × ℕ} (divisor : b ≠ 0) (later : Turns n (b, a % b) s) :
      Turns (n + 1) (a, b) s

theorem dvd_remainder_iff (k a b : ℕ) : (k ∣ b ∧ k ∣ a % b) ↔ (k ∣ a ∧ k ∣ b) := by
  constructor
  · rintro ⟨divides, rest⟩
    exact ⟨(Nat.dvd_mod_iff divides).mp rest, divides⟩
  · rintro ⟨whole, divides⟩
    exact ⟨divides, (Nat.dvd_mod_iff divides).mpr whole⟩

theorem remainder_halves {a b : ℕ} (some : 0 < b) (order : b ≤ a) : 2 * (a % b) < a := by
  have whole := Nat.mod_add_div a b
  have rest := Nat.mod_lt a some
  have once : b ≤ b * (a / b) := Nat.le_mul_of_pos_right b (Nat.div_pos order some)
  omega

namespace Turns
variable {n : ℕ} {s t : ℕ × ℕ}

theorem dvd_iff (run : Turns n s t) (k : ℕ) : (k ∣ t.1 ∧ k ∣ t.2) ↔ (k ∣ s.1 ∧ k ∣ s.2) := by
  induction run with
  | rest s => rfl
  | @turn n a b t divisor later ih => exact ih.trans (dvd_remainder_iff k a b)

theorem euclid_eq (run : Turns n s t) : euclid s.1 s.2 = euclid t.1 t.2 := by
  induction run with
  | rest s => rfl
  | @turn n a b t divisor later ih =>
    rw [← ih, euclid, if_neg divisor]

theorem eq_gcd {a b g : ℕ} (run : Turns n (a, b) (g, 0)) : g = a.gcd b := by
  have kept : ∀ k, k ∣ g ↔ k ∣ a ∧ k ∣ b := by
    intro k
    rw [← run.dvd_iff k]
    exact (and_iff_left (Nat.dvd_zero k)).symm
  obtain ⟨left, right⟩ := (kept g).mp (Nat.dvd_refl g)
  exact Nat.gcd_greatest left right fun k hl hr => (kept k).mpr ⟨hl, hr⟩

end Turns

/-- The second number loses a binary digit in any two turns. It makes no difference which number
    is the larger one: a smaller first number changes places with the second in the first turn. -/
theorem exists_turns {k b : ℕ} (a : ℕ) (bound : b < 2 ^ k) :
    ∃ n ≤ 2 * k, ∃ g, Turns n (a, b) (g, 0) := by
  induction k generalizing a b with
  | zero =>
    obtain rfl : b = 0 := by omega
    exact ⟨0, le_rfl, a, .rest _⟩
  | succ k ih =>
    rcases Nat.eq_zero_or_pos b with rfl | some
    · exact ⟨0, Nat.zero_le _, a, .rest _⟩
    · have below := Nat.mod_lt a some
      generalize rest_eq : a % b = rest at below
      rcases Nat.eq_zero_or_pos rest with rfl | more
      · refine ⟨1, by omega, b, .turn some.ne' ?_⟩
        rw [rest_eq]
        exact .rest _
      · have half : 2 * (b % rest) < b := remainder_halves more below.le
        obtain ⟨n, few, g, run⟩ := ih rest (b := b % rest) (by rw [Nat.pow_succ] at bound; omega)
        refine ⟨n + 2, by omega, g, .turn some.ne' ?_⟩
        rw [rest_eq]
        exact .turn more.ne' run

theorem euclid_of_turns {n a b g : ℕ} (run : Turns n (a, b) (g, 0)) : euclid a b = g := by
  rw [run.euclid_eq, euclid, if_pos rfl]

theorem euclid_eq_gcd (a b : ℕ) : euclid a b = a.gcd b := by
  obtain ⟨n, -, g, run⟩ := exists_turns a (Nat.lt_two_pow_self (n := b))
  rw [euclid_of_turns run, run.eq_gcd]

section
variable {a b : ℤ} {x y : Float}

theorem truncatedMagnitude_of_cutsTo (cut : CutsTo x a) : truncatedMagnitude x = .ok a.natAbs := by
  simp only [truncatedMagnitude, exactInt?_truncate_eq_some_iff.mpr cut]

theorem truncatedMagnitude_of_uncut (uncut : ¬∃ a, CutsTo x a) :
    truncatedMagnitude x = .error (.unsuitable (.notTruncatable x)) := by
  cases read : exactInt? (truncate x) with
  | some a => exact absurd ⟨a, exactInt?_truncate_eq_some_iff.mp read⟩ uncut
  | none => simp only [truncatedMagnitude, read]

theorem commonDivisor_of_cutsTo (hx : CutsTo x a) (hy : CutsTo y b) :
    commonDivisor x y = .ok (a.gcd b) := by
  simp only [commonDivisor, truncatedMagnitude_of_cutsTo hx, truncatedMagnitude_of_cutsTo hy,
    bind, Except.bind, euclid_eq_gcd]
  rfl

theorem commonDivisor_of_uncut (uncut : ¬((∃ a, CutsTo x a) ∧ ∃ b, CutsTo y b)) :
    ∃ z, (z = x ∨ z = y ∧ ∃ a, CutsTo x a) ∧ (¬∃ c, CutsTo z c) ∧
      commonDivisor x y = .error (.unsuitable (.notTruncatable z)) := by
  by_cases first : ∃ a, CutsTo x a
  · have second : ¬∃ b, CutsTo y b := fun cut => uncut ⟨first, cut⟩
    refine ⟨y, .inr ⟨rfl, first⟩, second, ?_⟩
    obtain ⟨a, cut⟩ := first
    simp only [commonDivisor, truncatedMagnitude_of_cutsTo cut, truncatedMagnitude_of_uncut second,
      bind, Except.bind]
  · refine ⟨x, .inl rfl, first, ?_⟩
    simp only [commonDivisor, truncatedMagnitude_of_uncut first, bind, Except.bind]

theorem gcd_of_cutsTo (hx : CutsTo x a) (hy : CutsTo y b) :
    gcd x y = .ok (Float.ofNat (a.gcd b)) := by
  rw [gcd, commonDivisor_of_cutsTo hx hy]
  rfl

theorem gcd_of_magnitudes {c e : ℤ} (hx : CutsTo x c) (hy : CutsTo y e)
    (left : c.natAbs = a.natAbs) (right : e.natAbs = b.natAbs) :
    gcd x y = .ok (Float.ofNat (a.gcd b)) ∧ gcd y x = .ok (Float.ofNat (a.gcd b)) := by
  have same : c.gcd e = a.gcd b := by rw [Int.gcd_def, left, right, ← Int.gcd_def]
  rw [gcd_of_cutsTo hx hy, gcd_of_cutsTo hy hx, Int.gcd_comm e c, same]
  exact ⟨rfl, rfl⟩

theorem gcd_le_largestExact (ha : a.natAbs ≤ largestExact) (hb : b.natAbs ≤ largestExact) :
    a.gcd b ≤ largestExact := by
  by_cases zero : b = 0
  · rwa [zero, Int.gcd_zero_right]
  · exact (Int.gcd_le_natAbs_right a zero).trans hb

theorem apply_of_commonDivisor_error {why : Refusal} (refused : commonDivisor x y = .error why) :
    ∀ operator ∈ ["gcd", "lcm"], ∃ f, find? operator = some f ∧
      f.apply [x, y] = .error (.refused operator why) := by
  intro operator mem
  simp only [List.mem_cons, List.not_mem_nil, or_false] at mem
  rcases mem with rfl | rfl
  · refine ⟨⟨"gcd", 2, .binary gcd⟩, rfl, ?_⟩
    simp only [apply, Rule.result?, gcd, refused, Except.map]
  · refine ⟨⟨"lcm", 2, .binary lcm⟩, rfl, ?_⟩
    simp only [apply, Rule.result?, lcm, refused, bind, Except.bind]

end

/-- Of two doubles that can be cut to the exact range, the loop finds the greatest common divisor
    of the magnitudes in at most 106 turns, and it is a double; neither the order of the two nor
    their signs and fractions matter. Any other two are refused as an invalid argument. -/
theorem gcd_greatest_or_refused (x y : Float) :
    (∀ a b, CutsTo x a → CutsTo y b → ∃ g : ℕ, commonDivisor x y = .ok g ∧
      (∃ n ≤ 106, Turns n (a.natAbs, b.natAbs) (g, 0)) ∧ g = a.natAbs.gcd b.natAbs ∧
      (g = 0 ↔ a = 0 ∧ b = 0) ∧ g ≤ largestExact ∧
      ((g : ℤ) ∣ a ∧ (g : ℤ) ∣ b ∧ ∀ k : ℤ, k ∣ a → k ∣ b → k ∣ (g : ℤ)) ∧
      ∃ d, Stands false g d ∧ gcd x y = .ok d ∧
        (∀ u v c e, CutsTo u c → CutsTo v e → c.natAbs = a.natAbs → e.natAbs = b.natAbs →
          gcd u v = .ok d ∧ gcd v u = .ok d) ∧
        ∀ u ∈ [x, -x, x.abs, truncate x], ∀ v ∈ [y, -y, y.abs, truncate y],
          gcd u v = .ok d ∧ gcd v u = .ok d) ∧
    (¬((∃ a, CutsTo x a) ∧ ∃ b, CutsTo y b) →
      ∃ z, (z = x ∨ z = y ∧ ∃ a, CutsTo x a) ∧ (¬∃ c, CutsTo z c) ∧
        commonDivisor x y = .error (.unsuitable (.notTruncatable z)) ∧
        ∀ operator ∈ ["gcd", "lcm"], ∃ f fault, find? operator = some f ∧
          f.apply [x, y] = .error fault ∧ fault.kind = .domain ∧
          fault = .refused operator (.unsuitable (.notTruncatable z))) := by
  constructor
  · intro a b hx hy
    have small := gcd_le_largestExact hx.small hy.small
    obtain ⟨n, few, g, run⟩ : ∃ n ≤ 2 * 53, ∃ g, Turns n (a.natAbs, b.natAbs) (g, 0) :=
      exists_turns a.natAbs (hy.small.trans_lt largestExact_lt)
    have divisor : g = a.gcd b := run.eq_gcd
    subst divisor
    have zero : a.gcd b = 0 ↔ a = 0 ∧ b = 0 := Int.gcd_eq_zero_iff
    have greatest : ∀ k : ℤ, k ∣ a → k ∣ b → k ∣ (a.gcd b : ℤ) := fun k => Int.dvd_coe_gcd
    have stands := ofNat_stands (small.trans_lt largestExact_lt)
    refine ⟨_, commonDivisor_of_cutsTo hx hy, ⟨n, few, run⟩, rfl, zero, small,
      ⟨Int.gcd_dvd_left a b, Int.gcd_dvd_right a b, greatest⟩, _, stands, gcd_of_cutsTo hx hy,
      ?_, ?_⟩
    · intro u v c e hu hv left right
      exact gcd_of_magnitudes hu hv left right
    · intro u memu v memv
      obtain ⟨c, hu, left⟩ := hx.kept u memu
      obtain ⟨e, hv, right⟩ := hy.kept v memv
      exact gcd_of_magnitudes hu hv left right
  · intro uncut
    obtain ⟨z, first, alone, refused⟩ := commonDivisor_of_uncut uncut
    refine ⟨z, first, alone, refused, ?_⟩
    intro operator mem
    obtain ⟨f, found, failed⟩ := apply_of_commonDivisor_error refused operator mem
    exact ⟨f, _, found, failed, rfl, rfl⟩

theorem gcd_of_fractions_and_beyond_range :
    CutsTo (-12.7) (-12) ∧ CutsTo 18.9 18 ∧ gcd (-12.7) 18.9 = .ok 6.0 ∧
      gcd 18.9 12.7 = .ok 6.0 ∧
      ¬((∃ a, CutsTo 18.9 a) ∧ ∃ b, CutsTo 9007199254740992.0 b) ∧
      ∃ f, find? "lcm" = some f ∧ f.apply [18.9, 9007199254740992.0] =
        .error (.refused "lcm" (.unsuitable (.notTruncatable 9007199254740992.0))) := by
  have hx : CutsTo (-12.7) (-12) := exactInt?_truncate_eq_some_iff.mp (by decide +kernel)
  have hy : CutsTo 18.9 18 := exactInt?_truncate_eq_some_iff.mp (by decide +kernel)
  have turned : CutsTo 12.7 12 := exactInt?_truncate_eq_some_iff.mp (by decide +kernel)
  have beyond : exactInt? (truncate 9007199254740992.0) = none := by decide +kernel
  have uncut : ¬((∃ a, CutsTo 18.9 a) ∧ ∃ b, CutsTo 9007199254740992.0 b) := by
    rintro ⟨-, b, cut⟩
    rw [exactInt?_truncate_eq_some_iff.mpr cut] at beyond
    cases beyond
  obtain ⟨g, -, -, value, -, -, -, d, stands, result, alike, -⟩ :=
    (gcd_greatest_or_refused (-12.7) 18.9).1 _ _ hx hy
  have six : d = 6.0 := by
    rw [value] at stands
    exact stands.unique (ofNat_stands (n := 6) (by norm_num))
  obtain ⟨z, first, alone, -, refused⟩ :=
    (gcd_greatest_or_refused 18.9 9007199254740992.0).2 uncut
  have named : z = 9007199254740992.0 := by
    rcases first with rfl | ⟨second, -⟩
    · exact absurd ⟨18, hy⟩ alone
    · exact second
  obtain ⟨f, fault, found, failed, -, cause⟩ := refused "lcm" (by simp)
  rw [cause, named] at failed
  rw [six] at result alike
  exact ⟨hx, hy, result, (alike 12.7 18.9 12 18 turned hy rfl rfl).2, uncut, f, found, failed⟩

end WordProblem.Formula
