import Mathlib
import WordProblem.Binary64

/-!
A double and its parts. The word of a double is its sign, its exponent field and its fraction side
by side, so the parts that a finite double shows make that double again, and every canonical
choice of parts is the one that its double shows.
-/
namespace WordProblem.Binary64
open Float.Model.UnpackedFloat

theorem leadingBit_eq : leadingBit = 2 ^ 52 := by decide

theorem signBit_eq : signBit = 2 ^ 63 := by decide

theorem unpackExponent_toNat (word : UInt64) :
    (@unpackExponent .binary64 word.toBitVec).toNat = (word.toNat >>> 52) % 2048 := by
  rw [unpackExponent_def, BitVec.extractLsb'_toNat]
  rfl

theorem unpackExponent_eq_neg_one_iff (word : UInt64) :
    @unpackExponent .binary64 word.toBitVec = -1#_ ↔
      (word.toNat >>> 52) % 2048 = 2047 := by
  rw [← unpackExponent_toNat, ← BitVec.toNat_inj]
  rfl

theorem toBits_ofBits {word : UInt64} (finite : (word.toNat >>> 52) % 2048 ≠ 2047) :
    (Float.ofBits word).toBits = word := by
  have number : @isNaNBits .binary64 word.toBitVec = false := by
    have exponent := mt (unpackExponent_eq_neg_one_iff word).mp finite
    rw [isNaNBits, decide_eq_false_iff_not]
    intro special
    exact exponent special.1
  apply UInt64.toBitVec_inj.mp
  calc (Float.ofBits word).toBits.toBitVec
      = (unpack .binary64 word.toBitVec).pack .binary64 := rfl
    _ = word.toBitVec := by rw [pack_unpack, number]; rfl

theorem parts?_of_isFinite {x : Float} (finite : x.isFinite = true) : ∃ p, parts? x = some p := by
  have exponent : exponentField x ≠ 2047 := by
    intro full
    have ones := (unpackExponent_eq_neg_one_iff x.toBits).mpr full
    have special : x.isFinite = (unpack .binary64 x.toBits.toBitVec).isFinite := rfl
    rw [special, unpack] at finite
    simp only [ones, ↓reduceIte] at finite
    split at finite <;> cases finite
  unfold parts?
  simp only [exponent, ↓reduceIte]
  split
  · exact ⟨_, rfl⟩
  · exact ⟨_, rfl⟩

/-- The parts that finite doubles show: the mantissa has 53 bits, and its leading bit is set
    unless the exponent is the smallest. -/
structure Parts.Canonical (p : Parts) : Prop where
  least : -1074 ≤ p.exponent
  greatest : p.exponent ≤ 971
  fits : p.mantissa < 2 * leadingBit
  full : -1074 < p.exponent → leadingBit ≤ p.mantissa

def Parts.word (p : Parts) : Nat :=
  (if p.mantissa < leadingBit then p.mantissa
    else p.mantissa - leadingBit + (p.exponent + 1075).toNat * leadingBit) +
  if p.negative then signBit else 0

/-- With its leading bit set, or at the bottom of the exponents, a mantissa has no room left. -/
theorem ofParts_eq_ofBits {p : Parts} (placed : leadingBit ≤ p.mantissa ∨ p.exponent ≤ -1074) :
    ofParts p = Float.ofBits (UInt64.ofNat p.word) := by
  have room : min (52 - p.mantissa.log2) (p.exponent + 1074).toNat = 0 := by
    rcases placed with full | bottom
    · rw [leadingBit_eq] at full
      have bits : 52 ≤ p.mantissa.log2 := (Nat.le_log2 (by omega)).mpr full
      omega
    · omega
  simp only [ofParts, Parts.word, room, Nat.shiftLeft_eq, leadingBit_eq, Nat.pow_zero,
    Nat.mul_one, Nat.cast_zero, Int.sub_zero]

theorem Parts.Canonical.placed {p : Parts} (canonical : p.Canonical) :
    leadingBit ≤ p.mantissa ∨ p.exponent ≤ -1074 := by
  by_cases above : -1074 < p.exponent
  · exact .inl (canonical.full above)
  · exact .inr (Int.not_lt.mp above)

theorem word_of_small {p : Parts} (small : p.mantissa < leadingBit) :
    p.word = p.mantissa + if p.negative then signBit else 0 := by
  rw [Parts.word, if_pos small]

theorem word_of_full {p : Parts} (full : leadingBit ≤ p.mantissa) :
    p.word = p.mantissa - leadingBit + (p.exponent + 1075).toNat * leadingBit +
      if p.negative then signBit else 0 := by
  rw [Parts.word, if_neg (Nat.not_lt.mpr full)]

theorem word_fields {p : Parts} (canonical : p.Canonical) :
    p.word < 2 ^ 64 ∧ (signBit ≤ p.word ↔ p.negative = true) ∧
      (p.word >>> 52) % 2048 =
        (if p.mantissa < leadingBit then 0 else (p.exponent + 1075).toNat) ∧
      p.word % leadingBit = p.mantissa % leadingBit := by
  obtain ⟨least, greatest, fits, full⟩ := canonical
  simp only [Parts.word, Nat.shiftRight_eq_div_pow, signBit_eq, leadingBit_eq] at *
  cases p.negative <;> simp only [Bool.false_eq_true, ↓reduceIte, iff_true, iff_false] <;>
    split <;> omega

theorem parts?_ofParts {p : Parts} (canonical : p.Canonical) : parts? (ofParts p) = some p := by
  obtain ⟨small, sign, field, fraction⟩ := word_fields canonical
  obtain ⟨least, greatest, fits, full⟩ := id canonical
  have word : (UInt64.ofNat p.word).toNat = p.word := by
    rw [UInt64.toNat_ofNat', Nat.mod_eq_of_lt small]
  have kept : (ofParts p).toBits.toNat = p.word := by
    rw [ofParts_eq_ofBits canonical.placed, toBits_ofBits, word]
    rw [word, field]
    split <;> omega
  obtain ⟨negative, mantissa, exponent⟩ := p
  simp only [parts?, exponentField, fractionField, kept, field, fraction, sign,
    Bool.decide_eq_true]
  dsimp only at least greatest fits full
  by_cases small : mantissa < leadingBit
  · have bottom : exponent = -1074 := by
      by_contra other
      have := full (by omega)
      omega
    simp [small, bottom, Nat.mod_eq_of_lt small]
  · have rest : mantissa % leadingBit + leadingBit = mantissa := by
      rw [leadingBit_eq] at fits small ⊢
      omega
    have normal : (exponent + 1075).toNat ≠ 0 := by omega
    have below : (exponent + 1075).toNat ≠ 2047 := by omega
    have field : ((exponent + 1075).toNat : Int) - 1075 = exponent := by omega
    simp only [small, ↓reduceIte, normal, below, field, rest]

theorem toBits_eq_fields (x : Float) :
    x.toBits.toNat = fractionField x + exponentField x * leadingBit +
      if signBit ≤ x.toBits.toNat then signBit else 0 := by
  have small : x.toBits.toNat < 2 ^ 64 := x.toBits.toNat_lt
  rw [fractionField, exponentField, Nat.shiftRight_eq_div_pow, leadingBit_eq, signBit_eq]
  split <;> omega

theorem word_of_parts? {x : Float} {p : Parts} (shown : parts? x = some p) :
    p.Canonical ∧ p.word = x.toBits.toNat := by
  have fraction : fractionField x < leadingBit := Nat.mod_lt _ (by decide)
  have field : exponentField x < 2048 := Nat.mod_lt _ (by decide)
  unfold parts? at shown
  dsimp only at shown
  split at shown
  · cases shown
  · split at shown
    · rename_i zero
      obtain rfl := Option.some.inj shown
      constructor
      · constructor <;> dsimp only <;> omega
      · refine Eq.trans ?_ (toBits_eq_fields x).symm
        rw [word_of_small fraction, zero]
        simp
    · obtain rfl := Option.some.inj shown
      constructor
      · constructor <;> dsimp only <;> omega
      · refine Eq.trans ?_ (toBits_eq_fields x).symm
        rw [word_of_full (Nat.le_add_left leadingBit (fractionField x))]
        simp

theorem ofParts_of_parts? {x : Float} {p : Parts} (shown : parts? x = some p) :
    p.Canonical ∧ ofParts p = x := by
  obtain ⟨canonical, word⟩ := word_of_parts? shown
  refine ⟨canonical, ?_⟩
  rw [ofParts_eq_ofBits canonical.placed, word, UInt64.ofNat_toNat, Float.ofBits_toBits]

/-- A mantissa that has grown to the next power of two carries into the exponent. -/
theorem ofParts_carry (negative : Bool) {exponent : Int} (least : -1074 < exponent) :
    ofParts ⟨negative, 2 * leadingBit, exponent - 1⟩ =
      ofParts ⟨negative, leadingBit, exponent⟩ := by
  have double : leadingBit ≤ 2 * leadingBit := Nat.le_mul_of_pos_left leadingBit (by decide)
  have carried : 2 * leadingBit - leadingBit + (exponent - 1 + 1075).toNat * leadingBit =
      leadingBit - leadingBit + (exponent + 1075).toNat * leadingBit := by
    have next : (exponent + 1075).toNat = (exponent - 1 + 1075).toNat + 1 := by omega
    rw [next, Nat.succ_mul (exponent - 1 + 1075).toNat]
    omega
  rw [ofParts_eq_ofBits (.inl double), ofParts_eq_ofBits (.inl (Nat.le_refl leadingBit)),
    word_of_full double, word_of_full (Nat.le_refl leadingBit)]
  dsimp only
  rw [carried]

theorem ofParts_zero (negative : Bool) (exponent : Int) :
    ofParts ⟨negative, 0, exponent⟩ = ofParts ⟨negative, 0, -1074⟩ := by
  have below : 0 < leadingBit := by decide +kernel
  simp only [ofParts, Nat.zero_shiftLeft, below, ↓reduceIte]

end WordProblem.Binary64
