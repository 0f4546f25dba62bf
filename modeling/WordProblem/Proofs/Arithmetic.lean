import WordProblem.Proofs.Magnitude

namespace WordProblem.Binary64
open Float.Model Float.Model.UnpackedFloat

/-- How much of a unit a shortened mantissa leaves out. -/
def Leaves : Accuracy → ℚ → Prop
  | .exact, rest => rest = 0
  | .inexact .lt, rest => 0 < rest ∧ rest < 1 / 2
  | .inexact .eq, rest => rest = 1 / 2
  | .inexact .gt, rest => 1 / 2 < rest ∧ rest < 1

theorem Leaves.bounds {a : Accuracy} {rest : ℚ} (leaves : Leaves a rest) :
    0 ≤ rest ∧ rest < 1 := by
  rcases a with _ | ⟨_ | _ | _⟩ <;> simp only [Leaves] at leaves <;> constructor <;> linarith

theorem leaves_fraction {num den : ℕ} (below : num < den) :
    Leaves (accuracyOfFraction num den) (num / den) := by
  have positive : (0 : ℚ) < den := by exact_mod_cast (Nat.zero_le num).trans_lt below
  unfold accuracyOfFraction
  split
  · rename_i zero
    simp [Leaves, zero]
  · rename_i nonzero
    have some : (0 : ℚ) < num := by exact_mod_cast Nat.pos_of_ne_zero nonzero
    have less : (num : ℚ) < den := by exact_mod_cast below
    rcases lt_trichotomy (2 * num) den with lower | half | upper
    · have double : (2 : ℚ) * num < den := by exact_mod_cast lower
      rw [Nat.compare_eq_lt.mpr lower, Leaves]
      exact ⟨by positivity, by rw [div_lt_iff₀ positive]; linarith⟩
    · have double : (2 : ℚ) * num = den := by exact_mod_cast half
      rw [Nat.compare_eq_eq.mpr half, Leaves, div_eq_iff positive.ne']
      linarith
    · have double : (den : ℚ) < 2 * num := by exact_mod_cast upper
      rw [Nat.compare_eq_gt.mpr upper, Leaves, div_lt_one positive, lt_div_iff₀ positive]
      exact ⟨by linarith, less⟩

theorem leaves_shiftRightOne {m : ExtendedMantissa} {y : ℚ}
    (leaves : Leaves m.accuracy (y - m.mantissa)) :
    Leaves m.shiftRightOne.accuracy (y / 2 - m.shiftRightOne.mantissa) := by
  obtain ⟨mantissa, half, more⟩ := m
  have halves : (mantissa : ℚ) = 2 * (mantissa / 2 : ℕ) + (mantissa % 2 : ℕ) := by
    exact_mod_cast (Nat.div_add_mod mantissa 2).symm
  rcases Nat.mod_two_eq_zero_or_one mantissa with parity | parity <;>
    rw [parity] at halves <;> cases half <;> cases more <;>
    simp [ExtendedMantissa.shiftRightOne, ExtendedMantissa.accuracy, Leaves, parity,
      halves] at leaves ⊢ <;>
    first | constructor <;> linarith | linarith

theorem leaves_shiftRight {m : ExtendedMantissa} {y : ℚ} (k : ℕ)
    (leaves : Leaves m.accuracy (y - m.mantissa)) :
    Leaves (m >>> k).accuracy (y / 2 ^ k - (m >>> k).mantissa) := by
  change Leaves (k.repeat ExtendedMantissa.shiftRightOne m).accuracy
    (y / 2 ^ k - (k.repeat ExtendedMantissa.shiftRightOne m).mantissa)
  induction k with
  | zero => simpa [Nat.repeat] using leaves
  | succ k ih =>
    rw [pow_succ, ← div_div]
    exact leaves_shiftRightOne ih

theorem roundToNearestEven_near (a : Accuracy) (m : ℕ) {y : ℚ} (leaves : Leaves a (y - m)) :
    (a.roundToNearestEven m : ℚ) - 1 / 2 ≤ y ∧ y ≤ (a.roundToNearestEven m : ℚ) + 1 / 2 ∧
      (a.roundToNearestEven m % 2 = 1 → (a.roundToNearestEven m : ℚ) - 1 / 2 < y ∧
        y < (a.roundToNearestEven m : ℚ) + 1 / 2) := by
  rcases a with _ | ⟨_ | _ | _⟩ <;> simp only [Leaves, Accuracy.roundToNearestEven] at leaves ⊢
  · exact ⟨by linarith, by linarith, fun _ => ⟨by linarith, by linarith⟩⟩
  · exact ⟨by linarith, by linarith, fun _ => ⟨by linarith, by linarith⟩⟩
  · have evened : (m + m % 2) % 2 ≠ 1 := by omega
    rcases Nat.mod_two_eq_zero_or_one m with even | odd
    · rw [even, Nat.add_zero]
      exact ⟨by linarith, by linarith, fun odd => by omega⟩
    · rw [odd, Nat.cast_add, Nat.cast_one]
      exact ⟨by linarith, by linarith, fun odd => by omega⟩
  · rw [Nat.cast_add, Nat.cast_one]
    exact ⟨by linarith, by linarith, fun _ => ⟨by linarith, by linarith⟩⟩

theorem targetExponent_of_total (t : ℤ) :
    Format.binary64.targetExponent t = max (t - 53) (-1074) := by
  have least : Format.binary64.minExponent = -1074 := by decide
  have bits : (Format.binary64.mantissaBits : ℤ) = 53 := by decide
  rw [Format.targetExponent, least, bits]

theorem targetExponent_eq (m : ℕ) (e : ℤ) :
    Format.binary64.targetExponent (totalExponent m e) = max (m.log2 + e - 52) (-1074) := by
  rw [targetExponent_of_total, totalExponent]
  omega

def signOf (negative : Bool) : Sign := if negative then .negative else .positive

def Parts.unpacked (p : Parts) : UnpackedFloat :=
  if positive : 0 < p.mantissa then .finite (signOf p.negative) p.mantissa p.exponent positive
  else .zero (signOf p.negative)

theorem unpackMantissa_toNat (x : Float) :
    (@unpackMantissa .binary64 x.toBits.toBitVec).toNat = fractionField x := by
  rw [unpackMantissa_def, BitVec.extractLsb'_toNat, Nat.shiftRight_zero, fractionField,
    leadingBit_eq]
  rfl

theorem unpackSign_eq (x : Float) :
    Sign.ofBitVec (@unpackSign .binary64 x.toBits.toBitVec) =
      if signBit ≤ x.toBits.toNat then .negative else .positive := by
  have bit : (@unpackSign .binary64 x.toBits.toBitVec).toNat = x.toBits.toNat / 2 ^ 63 % 2 := by
    rw [unpackSign_def, BitVec.extractLsb'_toNat, Nat.shiftRight_eq_div_pow]
    rfl
  have small : x.toBits.toNat < 2 ^ 64 := x.toBits.toNat_lt
  have zero : @unpackSign .binary64 x.toBits.toBitVec = 0#1 ↔ ¬signBit ≤ x.toBits.toNat := by
    rw [← BitVec.toNat_inj, bit, signBit_eq]
    simp only [BitVec.toNat_ofNat]
    omega
  unfold Sign.ofBitVec
  simp only [zero]
  split <;> simp_all

theorem unpack_of_parts? {x : Float} {p : Parts} (shown : parts? x = some p) :
    x.toModel.unpack = p.unpacked := by
  have word : x.toModel.unpack = UnpackedFloat.unpack .binary64 x.toBits.toBitVec := rfl
  have field : (@unpackExponent .binary64 x.toBits.toBitVec).toNat = exponentField x :=
    unpackExponent_toNat x.toBits
  have special := unpackExponent_eq_neg_one_iff x.toBits
  change _ ↔ exponentField x = 2047 at special
  have bottom : @unpackExponent .binary64 x.toBits.toBitVec = 0#_ ↔ exponentField x = 0 := by
    rw [← BitVec.toNat_inj, field]
    rfl
  have fraction := unpackMantissa_toNat x
  have empty : @unpackMantissa .binary64 x.toBits.toBitVec = 0#_ ↔ fractionField x = 0 := by
    rw [← BitVec.toNat_inj, fraction]
    rfl
  unfold parts? at shown
  dsimp only at shown
  rw [word, UnpackedFloat.unpack]
  simp only [special, bottom, empty, unpackSign_eq, fraction, field]
  split at shown
  · cases shown
  · rename_i finite
    rw [if_neg finite]
    split at shown
    · rename_i zero
      obtain rfl := Option.some.inj shown
      rw [if_pos zero]
      simp only [Parts.unpacked, signOf, decide_eq_true_eq, zero, Nat.pos_iff_ne_zero]
      by_cases none : fractionField x = 0
      · rw [dif_pos none, dif_neg (not_not.mpr none)]
      · rw [dif_neg none, dif_pos none]
        congr 1
    · rename_i nonzero
      obtain rfl := Option.some.inj shown
      rw [if_neg nonzero]
      simp only [Parts.unpacked, signOf, decide_eq_true_eq]
      have below : fractionField x < leadingBit := Nat.mod_lt _ (by decide)
      have mantissa : (1#1 ++ @unpackMantissa .binary64 x.toBits.toBitVec).toNat =
          fractionField x + leadingBit := by
        rw [leadingBit_eq] at below ⊢
        rw [BitVec.toNat_append, fraction, ← Nat.shiftLeft_add_eq_or_of_lt below, Nat.add_comm]
        rfl
      rw [dif_pos (by omega)]
      congr 1

theorem pack_unpacked {p : Parts} (canonical : p.Canonical) :
    Float.ofModel (.pack p.unpacked) = ofParts p := by
  rw [← unpack_of_parts? (parts?_ofParts canonical)]
  exact Float.ofBits_toBits (ofParts p)

def signedInfinity (negative : Bool) : Float := if negative then -infinity else infinity

theorem pack_infinity (negative : Bool) :
    Float.ofModel (.pack (.infinity (signOf negative))) = signedInfinity negative := by
  cases negative <;> rfl

theorem pack_large (negative : Bool) {m : ℕ} {e : ℤ} (positive : 0 < m) (large : 972 ≤ e) :
    Float.ofModel (.pack (.finite (signOf negative) m e positive)) =
      signedInfinity negative := by
  have full : 2 ^ Format.binary64.exponentBits ≤
      (e + Format.binary64.exponentBias +
        Format.binary64.mantissaBitsWithoutImplicit).toNat + 1 := by
    have bias : (Format.binary64.exponentBias : ℤ) = 1023 := by decide
    simp only [bias]
    omega
  have packed : UnpackedFloat.pack .binary64 (.finite (signOf negative) m e positive) =
      UnpackedFloat.pack .binary64 (.infinity (signOf negative)) := by
    simp only [UnpackedFloat.pack, if_pos full]
  rw [← pack_infinity]
  simp only [Float.Model.pack, packed]

theorem shift_fitting {m : ℕ} {e : ℤ} (fits : m < 2 ^ 53) (least : -1074 ≤ e) :
    shiftToTargetExponent .binary64 m e .exact = (⟨m, false, false⟩, e) := by
  have bits : m.log2 ≤ 52 := by
    rcases Nat.eq_zero_or_pos m with rfl | positive
    · simp
    · have := (Nat.log2_lt positive.ne').mpr fits
      omega
  have none : (max (m.log2 + e - 52) (-1074) - e).toNat = 0 := by omega
  rw [shiftToTargetExponent, targetExponent_eq, shiftToExponent, none]
  simp [HShiftRight.hShiftRight, Nat.repeat, ExtendedMantissa.ofMantissaAndAccuracy]

theorem shift_grown {e : ℤ} (least : -1074 ≤ e) :
    shiftToTargetExponent .binary64 (2 ^ 53) e .exact = (⟨2 ^ 52, false, false⟩, e + 1) := by
  have once : (max ((2 ^ 53 : ℕ).log2 + e - 52) (-1074) - e).toNat = 1 := by
    rw [Nat.log2_two_pow]
    omega
  rw [shiftToTargetExponent, targetExponent_eq, shiftToExponent, once]
  rfl

/-- The second shift only takes back a mantissa that has grown to the next power of two. -/
theorem pack_rounded {negative : Bool} {m : ℕ} {e t : ℤ} {a : Accuracy} {s : ExtendedMantissa}
    (first : shiftToTargetExponent .binary64 m e a = (s, t)) (fits : s.roundedMantissa ≤ 2 ^ 53)
    (least : -1074 ≤ t) (full : -1074 < t → 2 ^ 52 ≤ s.roundedMantissa) :
    Float.ofModel (.pack (roundWithAccuracy .binary64 (signOf negative) m e a)) =
      if 971 < t then signedInfinity negative else ofParts ⟨negative, s.roundedMantissa, t⟩ := by
  rw [roundWithAccuracy, first]
  dsimp only
  generalize s.roundedMantissa = r at fits full ⊢
  rcases Nat.lt_or_eq_of_le fits with small | rfl
  · rw [shift_fitting small least]
    dsimp only
    split_ifs with zero large large
    · omega
    · subst zero
      have bottom : t = -1074 := by omega
      have canonical : Parts.Canonical ⟨negative, 0, t⟩ := by
        constructor <;> simp [leadingBit_eq, bottom]
      rw [← pack_unpacked canonical]
      simp [Parts.unpacked]
    · exact pack_large negative (Nat.pos_of_ne_zero zero) large
    · have canonical : Parts.Canonical ⟨negative, r, t⟩ := by
        constructor <;> simp only [leadingBit_eq] <;> omega
      rw [← pack_unpacked canonical]
      simp [Parts.unpacked, Nat.pos_of_ne_zero zero]
  · rw [shift_grown least]
    dsimp only
    have carry : ofParts ⟨negative, 2 * leadingBit, t + 1 - 1⟩ =
        ofParts ⟨negative, leadingBit, t + 1⟩ := ofParts_carry negative (by omega)
    rw [leadingBit_eq, Int.add_sub_cancel] at carry
    rw [dif_neg (by positivity)]
    split_ifs with large
    · exact pack_large negative _ (by omega)
    · refine Eq.trans ?_ carry.symm
      rcases Int.lt_or_eq_of_le (not_lt.mp large) with below | rfl
      · have canonical : Parts.Canonical ⟨negative, 2 ^ 52, t + 1⟩ := by
          constructor <;> simp only [leadingBit_eq] <;> omega
        rw [← pack_unpacked canonical]
        simp [Parts.unpacked]
      · rw [pack_large negative _ (by omega)]
        cases negative <;> rfl

theorem accuracy_of (m : ℕ) (a : Accuracy) :
    (ExtendedMantissa.ofMantissaAndAccuracy m a).accuracy = a ∧
      (ExtendedMantissa.ofMantissaAndAccuracy m a).mantissa = m := by
  rcases a with _ | ⟨_ | _ | _⟩ <;> exact ⟨rfl, rfl⟩

section
variable {m : ℕ} {e t : ℤ} {a : Accuracy} {y : ℚ}

theorem shiftToTargetExponent_leaves (target : t = max ((m.log2 : ℤ) + e - 52) (-1074))
    (coarser : e ≤ t) (leaves : Leaves a (y / 2 ^ e - m)) :
    ∃ s, shiftToTargetExponent .binary64 m e a = (s, t) ∧
      Leaves s.accuracy (y / 2 ^ t - s.mantissa) := by
  obtain ⟨k, gap⟩ : ∃ k, k = (t - e).toNat := ⟨_, rfl⟩
  have placed : t = e + k := by omega
  have units : y / 2 ^ e / 2 ^ k = y / 2 ^ t := by
    rw [placed, zpow_add₀ two_ne_zero, zpow_natCast, div_div]
  obtain ⟨same, mantissa⟩ := accuracy_of m a
  refine ⟨ExtendedMantissa.ofMantissaAndAccuracy m a >>> k, ?_, ?_⟩
  · rw [shiftToTargetExponent, targetExponent_eq, ← target, shiftToExponent, ← gap, ← placed]
  · rw [← units]
    apply leaves_shiftRight
    rwa [same, mantissa]

theorem target_bounds (target : t = max ((m.log2 : ℤ) + e - 52) (-1074)) (coarser : e ≤ t)
    (leaves : Leaves a (y / 2 ^ e - m)) :
    y / 2 ^ t < 2 ^ 53 ∧ (-1074 < t → 2 ^ 52 ≤ y / 2 ^ t) := by
  obtain ⟨least, most⟩ := leaves.bounds
  obtain ⟨k, placed⟩ : ∃ k : ℕ, t = e + k := ⟨(t - e).toNat, by omega⟩
  have units : y / 2 ^ t = y / 2 ^ e / 2 ^ k := by
    rw [placed, zpow_add₀ two_ne_zero, zpow_natCast, div_div]
  rw [units, div_lt_iff₀ (by positivity), ← pow_add]
  constructor
  · have bits : (m : ℚ) + 1 ≤ 2 ^ (m.log2 + 1) := by exact_mod_cast Nat.lt_log2_self (n := m)
    have room : (2 : ℚ) ^ (m.log2 + 1) ≤ 2 ^ (53 + k) :=
      pow_le_pow_right₀ one_le_two (by omega)
    linarith
  · intro fine
    have split : m.log2 = 52 + k := by omega
    have nonzero : m ≠ 0 := by
      rintro rfl
      rw [Nat.log2_zero] at split
      omega
    have bits : (2 : ℚ) ^ m.log2 ≤ m := by exact_mod_cast Nat.log2_self_le nonzero
    rw [split, pow_add] at bits
    rw [le_div_iff₀ (by positivity)]
    linarith

/-- A mantissa with enough bits, and word of what it leaves out, are all that rounding needs. -/
theorem pack_roundWithAccuracy {negative : Bool} {n d : ℕ} (hn : 0 < n) (hd : 0 < d)
    (enough : 52 ≤ m.log2 ∨ e ≤ -1074) (leaves : Leaves a (n / d / 2 ^ e - m)) :
    Float.ofModel (.pack (roundWithAccuracy .binary64 (signOf negative) m e a)) =
      nearest negative n d := by
  obtain ⟨t, target⟩ : ∃ t, t = max ((m.log2 : ℤ) + e - 52) (-1074) := ⟨_, rfl⟩
  have coarser : e ≤ t := by omega
  obtain ⟨s, first, rest⟩ := shiftToTargetExponent_leaves target coarser leaves
  obtain ⟨below, above⟩ := target_bounds target coarser leaves
  obtain ⟨low, high, odd⟩ := roundToNearestEven_near s.accuracy s.mantissa rest
  have unit : spacing n d = t := spacing_of_mantissa hn hd (by omega) below above
  rw [pack_rounded first]
  · split_ifs with large
    · simp only [nearest, unit, if_pos large, signedInfinity]
    · exact (nearest_of_spacing hd unit (not_lt.mp large) low high odd).symm
  · have little : (s.roundedMantissa : ℚ) < 2 ^ 53 + 1 := by
      refine lt_of_le_of_lt (sub_le_iff_le_add.mp low) ?_
      linarith
    exact Nat.le_of_lt_succ (by exact_mod_cast little)
  · omega
  · intro fine
    have under : (2 : ℚ) ^ 52 < s.roundedMantissa + 1 := by
      refine lt_of_le_of_lt ((above fine).trans high) ?_
      change (s.roundedMantissa : ℚ) + 1 / 2 < _
      linarith
    exact Nat.le_of_lt_succ (by exact_mod_cast under)

end

theorem numerator_pos {n d : ℕ} {u : ℚ} (value : (n / d : ℚ) = u) (positive : 0 < u) :
    0 < n := by
  rcases Nat.eq_zero_or_pos n with rfl | some
  · rw [Nat.cast_zero, zero_div] at value
    linarith
  · exact some

theorem numerator_zero {n d : ℕ} (hd : 0 < d) (value : (n / d : ℚ) = 0) : n = 0 := by
  rcases div_eq_zero_iff.mp value with none | none
  · exact_mod_cast none
  · exact absurd none (by positivity)

theorem pack_round (negative : Bool) {m n d : ℕ} {e : ℤ} (some : 0 < m) (hd : 0 < d)
    (value : (n / d : ℚ) = m * 2 ^ e) :
    Float.ofModel (.pack (UnpackedFloat.round .binary64 (signOf negative) m e)) =
      nearest negative n d := by
  obtain ⟨t, target⟩ : ∃ t, t = max ((m.log2 : ℤ) + e - 52) (-1074) := ⟨_, rfl⟩
  obtain ⟨k, room⟩ : ∃ k, k = (e - t).toNat := ⟨_, rfl⟩
  have placed : UnpackedFloat.round .binary64 (signOf negative) m e =
      roundWithAccuracy .binary64 (signOf negative) (m <<< k) (e - k) .exact := by
    simp only [UnpackedFloat.round, decreaseExponent, targetExponent_eq, ← target, ← room]
  rw [placed]
  apply pack_roundWithAccuracy (numerator_pos value (by positivity)) hd
  · refine or_iff_not_imp_right.mpr fun coarse => ?_
    rw [Nat.shiftLeft_eq]
    apply (Nat.le_log2 (by positivity)).mpr
    calc 2 ^ 52 ≤ 2 ^ (m.log2 + k) := Nat.pow_le_pow_right two_pos (by omega)
      _ = 2 ^ m.log2 * 2 ^ k := Nat.pow_add 2 m.log2 k
      _ ≤ m * 2 ^ k := Nat.mul_le_mul_right _ (Nat.log2_self_le some.ne')
  · rw [Leaves, value, cast_shiftLeft, zpow_sub₀ two_ne_zero]
    field_simp
    ring

theorem nearest_zero_div (negative : Bool) (d : ℕ) :
    nearest negative 0 d = ofParts ⟨negative, 0, -1074⟩ := by
  have fine : ¬971 < spacing 0 d := by
    unfold spacing
    dsimp only
    rw [Nat.log2_zero]
    split <;> omega
  have none : nearestQuotient (0 <<< (-spacing 0 d).toNat) (d <<< (spacing 0 d).toNat) = 0 := by
    rw [Nat.zero_shiftLeft]
    generalize d <<< (spacing 0 d).toNat = l
    unfold nearestQuotient
    dsimp only
    rw [Nat.zero_div, Nat.zero_mod, if_pos (by omega)]
  unfold nearest
  dsimp only
  rw [none, if_neg fine, ofParts_zero]

theorem pack_zero (negative : Bool) :
    Float.ofModel (.pack (.zero (signOf negative))) = ofParts ⟨negative, 0, -1074⟩ := by
  have canonical : Parts.Canonical ⟨negative, 0, -1074⟩ := by
    constructor <;> simp [leadingBit_eq]
  rw [← pack_unpacked canonical]
  simp [Parts.unpacked]

theorem signOf_mul (a b : Bool) : signOf a * signOf b = signOf (a != b) := by
  cases a <;> cases b <;> rfl

theorem signOf_neg (a : Bool) : -signOf a = signOf !a := by
  cases a <;> rfl

theorem signOf_div (a b : Bool) : signOf a / signOf b = signOf (a != b) := by
  cases a <;> cases b <;> rfl

section
variable {a b : Bool} {v w : ℚ} {x y : Float} {n d : ℕ}

theorem mul_eq_nearest (hx : Stands a v x) (hy : Stands b w y) (hd : 0 < d)
    (value : (n / d : ℚ) = v * w) : x * y = nearest (a != b) n d := by
  obtain ⟨p, shownx, rfl, rfl⟩ := hx
  obtain ⟨q, showny, rfl, rfl⟩ := hy
  have product : x * y = Float.ofModel (.pack (.mul .binary64 p.unpacked q.unpacked)) := by
    rw [← unpack_of_parts? shownx, ← unpack_of_parts? showny]
    rfl
  have zero (none : p.mantissa = 0 ∨ q.mantissa = 0) : n = 0 := by
    apply numerator_zero hd
    rw [value, mul_eq_zero]
    exact none.imp (fun none => by simp [Parts.magnitude, none])
      fun none => by simp [Parts.magnitude, none]
  rw [product]
  by_cases hp : 0 < p.mantissa <;> by_cases hq : 0 < q.mantissa
  · simp only [Parts.unpacked, hp, hq, ↓reduceDIte, UnpackedFloat.mul, signOf_mul]
    apply pack_roundWithAccuracy _ hd
    · rcases (ofParts_of_parts? shownx).1.placed with fullx | smallx
      · left
        rw [leadingBit_eq] at fullx
        exact (Nat.le_log2 (by positivity)).mpr (fullx.trans (Nat.le_mul_of_pos_right _ hq))
      · rcases (ofParts_of_parts? showny).1.placed with fully | smally
        · left
          rw [leadingBit_eq] at fully
          exact (Nat.le_log2 (by positivity)).mpr (fully.trans (Nat.le_mul_of_pos_left _ hp))
        · right
          omega
    · rw [Leaves, value, Parts.magnitude, Parts.magnitude, zpow_add₀ two_ne_zero, Nat.cast_mul]
      field_simp
      ring
    · apply numerator_pos value
      unfold Parts.magnitude
      positivity
  all_goals
    rw [zero (by omega), nearest_zero_div, ← pack_zero, ← signOf_mul]
    simp [Parts.unpacked, hp, hq, UnpackedFloat.mul]

theorem divCore_bits {m₁ m₂ : ℕ} {e₁ e₂ : ℤ} (h₁ : 0 < m₁) (h₂ : 0 < m₂) :
    52 ≤ (divCore .binary64 m₁ e₁ m₂ e₂).1.log2 ∨ (divCore .binary64 m₁ e₁ m₂ e₂).2.1 ≤ -1074 := by
  have target : Format.binary64.targetExponent (totalExponent m₁ e₁ - totalExponent m₂ e₂) =
      max ((m₁.log2 : ℤ) - m₂.log2 + (e₁ - e₂) - 53) (-1074) := by
    rw [targetExponent_of_total, totalExponent, totalExponent]
    omega
  simp only [divCore, target]
  generalize least : min (e₁ - e₂) (max ((m₁.log2 : ℤ) - m₂.log2 + (e₁ - e₂) - 53) (-1074)) = t
  refine or_iff_not_imp_right.mpr fun fine => ?_
  have room : m₂.log2 + 53 ≤ m₁.log2 + (e₁ - e₂ - t).toNat := by omega
  have low : 2 ^ m₁.log2 ≤ m₁ := Nat.log2_self_le h₁.ne'
  have high : m₂ < 2 ^ (m₂.log2 + 1) := Nat.lt_log2_self
  have many : 2 ^ 52 * m₂ ≤ m₁ <<< (e₁ - e₂ - t).toNat := by
    rw [Nat.shiftLeft_eq]
    calc 2 ^ 52 * m₂ ≤ 2 ^ 52 * 2 ^ (m₂.log2 + 1) := Nat.mul_le_mul_left _ high.le
      _ = 2 ^ (m₂.log2 + 53) := by rw [← Nat.pow_add, Nat.add_comm, Nat.add_assoc]
      _ ≤ 2 ^ (m₁.log2 + (e₁ - e₂ - t).toNat) := Nat.pow_le_pow_right two_pos room
      _ ≤ m₁ * 2 ^ (e₁ - e₂ - t).toNat := by
        rw [Nat.pow_add]
        exact Nat.mul_le_mul_right _ low
  have quotient : 2 ^ 52 ≤ m₁ <<< (e₁ - e₂ - t).toNat / m₂ := (Nat.le_div_iff_mul_le h₂).mpr many
  exact (Nat.le_log2 (by omega)).mpr quotient

theorem divCore_leaves {m₁ m₂ : ℕ} {e₁ e₂ : ℤ} (h₂ : 0 < m₂) :
    Leaves (divCore .binary64 m₁ e₁ m₂ e₂).2.2
      (m₁ * 2 ^ e₁ / (m₂ * 2 ^ e₂) / 2 ^ (divCore .binary64 m₁ e₁ m₂ e₂).2.1 -
        (divCore .binary64 m₁ e₁ m₂ e₂).1) := by
  simp only [divCore]
  generalize least : min (e₁ - e₂)
    (Format.binary64.targetExponent (totalExponent m₁ e₁ - totalExponent m₂ e₂)) = t
  have back : e₁ = e₂ + t + (e₁ - e₂ - t).toNat := by omega
  have scaled : (m₁ * 2 ^ e₁ / (m₂ * 2 ^ e₂) / 2 ^ t : ℚ) =
      (m₁ <<< (e₁ - e₂ - t).toNat : ℕ) / m₂ := by
    rw [cast_shiftLeft]
    nth_rewrite 1 [back]
    rw [zpow_add₀ two_ne_zero, zpow_add₀ two_ne_zero]
    field_simp
  generalize m₁ <<< (e₁ - e₂ - t).toNat = m at scaled ⊢
  have rest : (m / m₂ : ℚ) - (m / m₂ : ℕ) = (m % m₂ : ℕ) / m₂ := by
    have whole : (m : ℚ) = m₂ * (m / m₂ : ℕ) + (m % m₂ : ℕ) := by
      exact_mod_cast (Nat.div_add_mod m m₂).symm
    have positive : (m₂ : ℚ) ≠ 0 := by exact_mod_cast h₂.ne'
    rw [sub_eq_iff_eq_add, div_add' _ _ _ positive]
    congr 1
    linarith
  rw [scaled, rest]
  exact leaves_fraction (Nat.mod_lt m h₂)

theorem div_eq_nearest (hx : Stands a v x) (hy : Stands b w y) (positive : 0 < w) (hd : 0 < d)
    (value : (n / d : ℚ) = v / w) : x / y = nearest (a != b) n d := by
  obtain ⟨p, shownx, rfl, rfl⟩ := hx
  obtain ⟨q, showny, rfl, rfl⟩ := hy
  have quotient : x / y = Float.ofModel (.pack (.div .binary64 p.unpacked q.unpacked)) := by
    rw [← unpack_of_parts? shownx, ← unpack_of_parts? showny]
    rfl
  have hq : 0 < q.mantissa := by
    refine Nat.pos_of_ne_zero fun none => ?_
    simp [Parts.magnitude, none] at positive
  rw [quotient]
  rcases Nat.eq_zero_or_pos p.mantissa with zero | hp
  · have nothing : n = 0 := by
      apply numerator_zero hd
      rw [value]
      simp [Parts.magnitude, zero]
    rw [nothing, nearest_zero_div, ← pack_zero, ← signOf_div]
    simp [Parts.unpacked, zero, hq, UnpackedFloat.div]
  · have hn : 0 < n := by
      apply numerator_pos value
      unfold Parts.magnitude
      positivity
    simp only [Parts.unpacked, hp, hq, ↓reduceDIte, UnpackedFloat.div, signOf_div]
    apply pack_roundWithAccuracy hn hd (divCore_bits hp hq)
    rw [value]
    exact divCore_leaves hq

theorem resigned_stands {p : Parts} (shown : parts? x = some p) (negative : Bool) :
    Stands negative p.magnitude
      (Float.ofModel (.pack (Parts.unpacked { p with negative := negative }))) := by
  obtain ⟨least, greatest, fits, full⟩ := (ofParts_of_parts? shown).1
  have canonical : Parts.Canonical { p with negative := negative } := ⟨least, greatest, fits, full⟩
  rw [pack_unpacked canonical]
  exact .of_canonical canonical

theorem abs_stands (shown : Stands a v x) : Stands false v x.abs := by
  obtain ⟨p, parts, rfl, rfl⟩ := shown
  have model : x.abs = Float.ofModel (.pack p.unpacked.abs) := by
    rw [← unpack_of_parts? parts]
    rfl
  have cleared : p.unpacked.abs = Parts.unpacked { p with negative := false } := by
    by_cases some : 0 < p.mantissa <;> simp [Parts.unpacked, some, UnpackedFloat.abs, signOf]
  rw [model, cleared]
  exact resigned_stands parts false

theorem neg_stands (shown : Stands a v x) : Stands (!a) v (-x) := by
  obtain ⟨p, parts, rfl, rfl⟩ := shown
  have model : -x = Float.ofModel (.pack p.unpacked.neg) := by
    rw [← unpack_of_parts? parts]
    rfl
  have turned : p.unpacked.neg = Parts.unpacked { p with negative := !p.negative } := by
    by_cases some : 0 < p.mantissa <;>
      simp [Parts.unpacked, some, UnpackedFloat.neg, signOf_neg]
  rw [model, turned]
  exact resigned_stands parts !p.negative

theorem Stands.isFinite (shown : Stands a v x) : x.isFinite = true ∧ x.isInf = false := by
  obtain ⟨p, parts, rfl, rfl⟩ := shown
  change x.toModel.unpack.isFinite = true ∧ x.toModel.unpack.isInf = false
  rw [unpack_of_parts? parts]
  unfold Parts.unpacked
  split <;> exact ⟨rfl, rfl⟩

theorem nearest_stands (negative : Bool) (small : n < 2 ^ 53) :
    Stands negative n (nearest negative n 1) := by
  have fits : n < 2 * leadingBit := by
    rw [leadingBit_eq]
    omega
  have value : (n : ℚ) = Parts.magnitude ⟨negative, n, 0⟩ := by simp [Parts.magnitude]
  have placed : Stands negative n (ofParts ⟨negative, n, 0⟩) := by
    rw [value]
    exact ofParts_stands (by simp) (by simp) fits
  rcases Nat.eq_zero_or_pos n with rfl | positive
  · rwa [nearest_zero_div, ← ofParts_zero negative 0]
  · have canonical := ofNat_canonical negative positive small
    have bits : n.log2 < 53 := (Nat.log2_lt positive.ne').mpr small
    have same : Parts.magnitude (.ofNat negative n) = n := by
      have back : (n.log2 : ℤ) - 52 = -(52 - n.log2 : ℕ) := by omega
      simp only [Parts.magnitude, Parts.ofNat, back, zpow_neg, zpow_natCast]
      push_cast
      field_simp
    rw [nearest_ofNat negative positive small, ← same]
    exact .of_canonical canonical

theorem toFloat_eq_nearest (word : UInt64) : word.toFloat = nearest false word.toNat 1 := by
  have model : word.toFloat =
      Float.ofModel (.pack (UnpackedFloat.normalize .binary64 word.toNat 0 .positive)) := rfl
  rw [model]
  generalize word.toNat = n
  rcases Nat.eq_zero_or_pos n with rfl | positive
  · rfl
  · have order : compare (n : ℤ) 0 = .gt := by
      rw [Int.compare_eq_gt]
      omega
    simp only [UnpackedFloat.normalize, order, Int.toNat_natCast]
    exact pack_round false positive one_pos (by simp)

theorem ofNat_stands (small : n < 2 ^ 53) : Stands false n (Float.ofNat n) := by
  have word : n.toUInt64.toNat = n := by
    rw [Nat.toUInt64_eq, UInt64.toNat_ofNat', Nat.mod_eq_of_lt (by omega)]
  have one : Stands false (1 : ℕ) (nearest false 1 1) := nearest_stands false (by norm_num)
  have unit : Float.ofBits 0x3FF0000000000000 = nearest false 1 1 := rfl
  have fast : Float.ofNat n = n.toUInt64.toFloat * Float.ofBits 0x3FF0000000000000 := by
    rw [Float.ofNat]
    change Float.ofScientific n false 0 = _
    rw [Float.ofScientific, dif_pos ⟨small, Nat.zero_le 22⟩]
    rfl
  have same : Float.ofNat n = nearest false n 1 := by
    have kept : (n / (1 : ℕ) : ℚ) = n * (1 : ℕ) := by simp
    have product := mul_eq_nearest (nearest_stands false small) one one_pos kept
    rw [fast, toFloat_eq_nearest, word, unit]
    exact product
  rw [same]
  exact nearest_stands false small

theorem one_stands : Stands false 1 1.0 := by
  have same : (1.0 : Float) = Float.ofNat 1 := rfl
  have one : Stands false (1 : ℕ) (Float.ofNat 1) := ofNat_stands (by norm_num)
  rwa [same, ← Nat.cast_one]

theorem exists_stands (small : n ≤ 2 ^ 53) : ∃ z, Stands false n z := by
  rcases Nat.lt_or_eq_of_le small with below | rfl
  · exact ⟨Float.ofNat n, ofNat_stands below⟩
  · have value : ((2 ^ 53 : ℕ) : ℚ) = Parts.magnitude ⟨false, 2 ^ 52, 1⟩ := by
      rw [Parts.magnitude]
      norm_num
    rw [value]
    have fits : 2 ^ 52 < 2 * leadingBit := by simp [leadingBit_eq]
    exact ⟨_, ofParts_stands (p := ⟨false, 2 ^ 52, 1⟩) (by simp) (by simp) fits⟩

theorem unpack_infinity : infinity.toModel.unpack = .infinity .positive := by
  have word : infinity.toBits.toBitVec = 0x7ff0000000000000#64 := rfl
  change UnpackedFloat.unpack .binary64 infinity.toBits.toBitVec = _
  rw [word]
  rfl

theorem unpack_of_pos (shown : Stands false v x) (positive : 0 < v) :
    ∃ m e some, x.toModel.unpack = .finite .positive m e some := by
  obtain ⟨p, parts, sign, rfl⟩ := shown
  have some : 0 < p.mantissa := by
    refine Nat.pos_of_ne_zero fun none => ?_
    simp [Parts.magnitude, none] at positive
  refine ⟨p.mantissa, p.exponent, some, ?_⟩
  rw [unpack_of_parts? parts, Parts.unpacked, dif_pos some, sign]
  rfl

theorem infinity_mul (shown : Stands false v x) (positive : 0 < v) : infinity * x = infinity := by
  obtain ⟨m, e, some, word⟩ := unpack_of_pos shown positive
  have model : infinity * x = Float.ofModel
    (.pack (.mul .binary64 infinity.toModel.unpack x.toModel.unpack)) := rfl
  rw [model, unpack_infinity, word]
  exact pack_infinity false

theorem infinity_div (shown : Stands false v x) (positive : 0 < v) : infinity / x = infinity := by
  obtain ⟨m, e, some, word⟩ := unpack_of_pos shown positive
  have model : infinity / x = Float.ofModel
    (.pack (.div .binary64 infinity.toModel.unpack x.toModel.unpack)) := rfl
  rw [model, unpack_infinity, word]
  exact pack_infinity false

end

end WordProblem.Binary64
