import WordProblem.Proofs.Numeral

/-!
The number that a double stands for. A finite double is a rational number with a sign, no two
doubles are the same number with the same sign, and reading and cutting to whole numbers are
what they are for rational numbers.
-/
namespace WordProblem.Binary64

def Parts.magnitude (p : Parts) : ℚ := p.mantissa * 2 ^ p.exponent

@[irreducible]
def largest : ℕ := (2 * leadingBit - 1) <<< 971

/-- The double is this number with this sign. -/
def Stands (negative : Bool) (v : ℚ) (x : Float) : Prop :=
  ∃ p, parts? x = some p ∧ p.negative = negative ∧ p.magnitude = v

theorem cast_shiftLeft (m k : ℕ) : ((m <<< k : ℕ) : ℚ) = m * 2 ^ (k : ℤ) := by
  rw [Nat.shiftLeft_eq, Nat.cast_mul, Nat.cast_pow, Nat.cast_ofNat, zpow_natCast]

theorem magnitude_nonneg (p : Parts) : 0 ≤ p.magnitude := by
  unfold Parts.magnitude
  positivity

/-- Counted in a unit no larger than its own, a magnitude is a natural number. -/
theorem magnitude_units (p : Parts) {e : ℤ} (finer : e ≤ p.exponent) :
    p.magnitude = (p.mantissa * 2 ^ (p.exponent - e).toNat : ℕ) * 2 ^ e := by
  have split : p.exponent = ((p.exponent - e).toNat : ℤ) + e := by omega
  unfold Parts.magnitude
  rw [Nat.cast_mul, Nat.cast_pow, Nat.cast_ofNat, mul_assoc, ← zpow_natCast,
    ← zpow_add₀ two_ne_zero, ← split]

theorem magnitude_of_whole {p : Parts} (whole : 0 ≤ p.exponent) :
    p.magnitude = (p.mantissa <<< p.exponent.toNat : ℕ) := by
  rw [cast_shiftLeft, Int.toNat_of_nonneg whole, Parts.magnitude]

theorem magnitude_of_part {p : Parts} (part : ¬0 ≤ p.exponent) :
    p.magnitude = (p.mantissa : ℚ) / ((1 <<< (-p.exponent).toNat : ℕ) : ℚ) := by
  have back : p.exponent = -((-p.exponent).toNat : ℤ) := by omega
  rw [cast_shiftLeft, Nat.cast_one, one_mul, div_eq_mul_inv, ← zpow_neg, ← back, Parts.magnitude]

theorem Parts.Canonical.magnitude_le {p : Parts} (canonical : p.Canonical) :
    p.magnitude ≤ largest := by
  have mantissa : p.mantissa ≤ 2 * leadingBit - 1 := Nat.le_sub_one_of_lt canonical.fits
  rw [largest, cast_shiftLeft, Parts.magnitude]
  exact mul_le_mul (by exact_mod_cast mantissa)
    (zpow_le_zpow_right₀ one_le_two canonical.greatest) (by positivity) (by positivity)

theorem magnitude_lt {p : Parts} (canonical : p.Canonical) :
    p.magnitude < 2 ^ (p.exponent + 53) := by
  have fits : (p.mantissa : ℚ) < 2 ^ 53 := by
    have := canonical.fits
    rw [leadingBit_eq] at this
    exact_mod_cast (show p.mantissa < 2 ^ 53 by omega)
  rw [zpow_add₀ two_ne_zero, mul_comm]
  exact mul_lt_mul_of_pos_right fits (by positivity)

theorem exponent_le_of_magnitude {p q : Parts} (hp : p.Canonical) (hq : q.Canonical)
    (same : p.magnitude = q.magnitude) : q.exponent ≤ p.exponent := by
  by_contra larger
  have units := magnitude_units q (e := p.exponent) (by omega)
  have mantissa : p.mantissa = q.mantissa * 2 ^ (q.exponent - p.exponent).toNat := by
    have unit : (2 : ℚ) ^ p.exponent ≠ 0 := by positivity
    exact_mod_cast mul_right_cancel₀ unit (same.trans units)
  have double : q.mantissa * 2 ≤ p.mantissa := by
    rw [mantissa]
    exact Nat.mul_le_mul_left _ (Nat.le_self_pow (by omega) 2)
  have fits := hp.fits
  have full := hq.full (lt_of_le_of_lt hp.least (not_le.mp larger))
  omega

theorem parts_eq_of_magnitude {p q : Parts} (hp : p.Canonical) (hq : q.Canonical)
    (sign : p.negative = q.negative) (same : p.magnitude = q.magnitude) : p = q := by
  have exponent : p.exponent = q.exponent :=
    le_antisymm (exponent_le_of_magnitude hq hp same.symm) (exponent_le_of_magnitude hp hq same)
  have unit : (2 : ℚ) ^ q.exponent ≠ 0 := by positivity
  have mantissa : p.mantissa = q.mantissa := by
    unfold Parts.magnitude at same
    rw [exponent] at same
    exact_mod_cast mul_right_cancel₀ unit same
  obtain ⟨_, _, _⟩ := p
  obtain ⟨_, _, _⟩ := q
  simp_all only

namespace Stands
variable {negative : Bool} {v w : ℚ} {x y : Float}

theorem nonneg (shown : Stands negative v x) : 0 ≤ v := by
  obtain ⟨p, -, -, rfl⟩ := shown
  exact magnitude_nonneg p

theorem le_largest (shown : Stands negative v x) : v ≤ largest := by
  obtain ⟨p, shown, -, rfl⟩ := shown
  exact (ofParts_of_parts? shown).1.magnitude_le

theorem of_canonical {p : Parts} (canonical : p.Canonical) :
    Stands p.negative p.magnitude (ofParts p) :=
  ⟨p, parts?_ofParts canonical, rfl, rfl⟩

theorem unique (hx : Stands negative v x) (hy : Stands negative v y) : x = y := by
  obtain ⟨p, shownx, rfl, rfl⟩ := hx
  obtain ⟨q, showny, sign, same⟩ := hy
  obtain ⟨canonicalp, backx⟩ := ofParts_of_parts? shownx
  obtain ⟨canonicalq, backy⟩ := ofParts_of_parts? showny
  rw [← backx, ← backy, parts_eq_of_magnitude canonicalp canonicalq sign.symm same.symm]

end Stands

theorem ofParts_stands {p : Parts} (least : -1074 ≤ p.exponent) (greatest : p.exponent ≤ 971)
    (fits : p.mantissa < 2 * leadingBit) : Stands p.negative p.magnitude (ofParts p) := by
  obtain ⟨negative, m, e⟩ := p
  dsimp only at least greatest fits ⊢
  rcases Nat.eq_zero_or_pos m with rfl | positive
  · have canonical : Parts.Canonical ⟨negative, 0, -1074⟩ := by
      constructor <;> simp [leadingBit_eq]
    have zero : Parts.magnitude ⟨negative, 0, e⟩ = Parts.magnitude ⟨negative, 0, -1074⟩ := by
      simp [Parts.magnitude]
    rw [ofParts_zero, zero]
    exact .of_canonical canonical
  · rw [leadingBit_eq] at fits
    have bits : m.log2 < 53 := (Nat.log2_lt positive.ne').mpr (by omega)
    let room := min (52 - m.log2) (e + 1074).toNat
    have room_eq : room = min (52 - m.log2) (e + 1074).toNat := rfl
    let placed : Parts := ⟨negative, m * 2 ^ room, e - room⟩
    have high : m * 2 ^ room < 2 ^ 53 := by
      have below : m * 2 ^ room < 2 ^ (m.log2 + 1) * 2 ^ room :=
        Nat.mul_lt_mul_of_pos_right Nat.lt_log2_self (by positivity)
      rw [← Nat.pow_add] at below
      exact below.trans_le (Nat.pow_le_pow_right two_pos (by omega))
    have low : -1074 < e - room → 2 ^ 52 ≤ m * 2 ^ room := by
      intro above
      have all : 52 = m.log2 + room := by omega
      calc 2 ^ 52 = 2 ^ m.log2 * 2 ^ room := by rw [all, Nat.pow_add]
        _ ≤ m * 2 ^ room := Nat.mul_le_mul_right _ (Nat.log2_self_le positive.ne')
    have canonical : placed.Canonical := by
      constructor <;> simp only [placed, leadingBit_eq]
      · omega
      · omega
      · omega
      · exact low
    have shifted : ofParts ⟨negative, m, e⟩ = ofParts placed := by
      have word := ofParts_eq_ofBits canonical.placed
      rw [word]
      simp only [ofParts, ← room_eq, Nat.shiftLeft_eq, Parts.word, placed, leadingBit_eq]
    have value : Parts.magnitude ⟨negative, m, e⟩ = placed.magnitude := by
      have units := magnitude_units ⟨negative, m, e⟩ (e := e - room) (by simp)
      have back : (e - (e - room)).toNat = room := by omega
      rw [units]
      simp only [back, placed, Parts.magnitude]
    rw [shifted, value]
    exact .of_canonical canonical

section
variable {negative : Bool} {v : ℚ} {x : Float}

theorem whole_stands {pick : Bool → Nat → Nat → Nat} (cuts : ∀ m d, pick negative m d = m / d)
    (shown : Stands negative v x) : Stands negative (⌊v⌋₊ : ℕ) (whole pick x) := by
  obtain ⟨p, parts, rfl, rfl⟩ := shown
  obtain ⟨canonical, back⟩ := ofParts_of_parts? parts
  simp only [whole, parts, cuts]
  by_cases integral : 0 ≤ p.exponent
  · rw [if_pos integral, magnitude_of_whole integral, Nat.floor_natCast]
    exact ⟨p, parts, rfl, magnitude_of_whole integral⟩
  · rw [if_neg integral, magnitude_of_part integral, Nat.floor_div_eq_div]
    have value : (p.mantissa / 1 <<< (-p.exponent).toNat : ℕ) =
        Parts.magnitude ⟨p.negative, p.mantissa / 1 <<< (-p.exponent).toNat, 0⟩ := by
      simp [Parts.magnitude]
    rw [value]
    refine ofParts_stands (by simp) (by simp) ?_
    exact (Nat.div_le_self _ _).trans_lt canonical.fits

theorem truncate_stands (shown : Stands negative v x) :
    Stands negative (⌊v⌋₊ : ℕ) (truncate x) :=
  whole_stands (fun _ _ => rfl) shown

theorem floor_stands (shown : Stands false v x) : Stands false (⌊v⌋₊ : ℕ) (floor x) :=
  whole_stands (fun _ _ => rfl) shown

theorem toInt?_of_stands {n : ℕ} (shown : Stands negative n x) :
    toInt? x = some (if negative then -(n : ℤ) else n) := by
  obtain ⟨p, parts, rfl, value⟩ := shown
  simp only [toInt?, parts, bind, Option.bind, pure]
  by_cases integral : 0 ≤ p.exponent
  · rw [magnitude_of_whole integral] at value
    simp only [integral, ↓reduceIte, Nat.cast_inj.mp value]
  · have positive : 0 < 1 <<< (-p.exponent).toNat := by
      rw [Nat.one_shiftLeft]
      positivity
    have multiple : p.mantissa = n * 1 <<< (-p.exponent).toNat := by
      rw [magnitude_of_part integral, div_eq_iff (by exact_mod_cast positive.ne')] at value
      exact_mod_cast value
    have shifted : p.mantissa >>> (-p.exponent).toNat = n := by
      rw [Nat.shiftRight_eq_div_pow, ← Nat.one_shiftLeft, multiple, Nat.mul_div_cancel _ positive]
    have divides : p.mantissa % 1 <<< (-p.exponent).toNat = 0 := by
      rw [multiple, Nat.mul_mod_left]
    simp only [integral, divides, shifted, ↓reduceIte]

theorem stands_of_toInt? {z : ℤ} (read : toInt? x = some z) :
    ∃ negative, Stands negative (z.natAbs : ℕ) x ∧
      z = if negative then -(z.natAbs : ℤ) else z.natAbs := by
  cases parts : parts? x with
  | none => simp [toInt?, parts] at read
  | some p =>
    simp only [toInt?, parts, bind, Option.bind, pure] at read
    have signed : ∀ n : ℕ, p.magnitude = n → (if p.negative then -(n : ℤ) else n) = z →
        ∃ negative, Stands negative (z.natAbs : ℕ) x ∧
          z = if negative then -(z.natAbs : ℤ) else z.natAbs := by
      rintro n value rfl
      refine ⟨p.negative, ⟨p, parts, rfl, ?_⟩, ?_⟩ <;> cases p.negative <;> simp [value]
    by_cases integral : 0 ≤ p.exponent
    · simp only [integral, ↓reduceIte, Option.some.injEq] at read
      exact signed _ (magnitude_of_whole integral) read
    · by_cases divides : p.mantissa % 1 <<< (-p.exponent).toNat = 0
      · simp only [integral, divides, ↓reduceIte, Option.some.injEq] at read
        refine signed _ ?_ read
        rw [magnitude_of_part integral, Nat.shiftRight_eq_div_pow, ← Nat.one_shiftLeft,
          Nat.cast_div_charZero (Nat.dvd_of_mod_eq_zero divides)]
      · simp only [integral, divides, ↓reduceIte] at read
        cases read

end

end WordProblem.Binary64
