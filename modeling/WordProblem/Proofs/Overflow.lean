import WordProblem.Proofs.Counting

/-!
Which results of the arithmetic are finite. A sum is finite where both operands are and the exact
sum is not rounded out of the doubles, and a quotient likewise, except that dividing by an infinity
gives zero.
-/
namespace WordProblem.Binary64
open Float.Model UnpackedFloat

/-- The number with its sign that a double stands for, zero where it stands for none. -/
def toRat (x : Float) : ℚ :=
  match parts? x with
  | none => 0
  | some p => signed p.negative p.magnitude

section
variable {a b : Bool} {v w : ℚ} {x y : Float} {n d : ℕ}

theorem abs_signed (nonneg : 0 ≤ v) : |signed a v| = v := by
  cases a <;> simp [signed, abs_of_nonneg nonneg]

theorem signed_zero (negative : Bool) : signed negative 0 = 0 := by
  cases negative <;> simp [signed]

theorem pack_of_parts? {p : Parts} (shown : parts? x = some p) :
    Float.ofModel (.pack p.unpacked) = x := by
  obtain ⟨canonical, back⟩ := ofParts_of_parts? shown
  rw [pack_unpacked canonical, back]

theorem Stands.toRat_eq (shown : Stands a v x) : toRat x = signed a v := by
  obtain ⟨p, parts, rfl, rfl⟩ := shown
  simp only [toRat, parts]

theorem Stands.abs_toRat (shown : Stands a v x) : |toRat x| = v := by
  rw [shown.toRat_eq, abs_signed shown.nonneg]

theorem stands_of_isFinite (finite : x.isFinite = true) : ∃ a v, Stands a v x := by
  obtain ⟨p, parts⟩ := parts?_of_isFinite finite
  exact ⟨p.negative, p.magnitude, p, parts, rfl, rfl⟩

theorem signedInfinity_isFinite (negative : Bool) : (signedInfinity negative).isFinite = false := by
  cases negative <;> rfl

theorem nearest_isFinite_iff (negative : Bool) (hd : 0 < d) :
    (nearest negative n d).isFinite = true ↔ (n / d : ℚ) < overflow := by
  rcases le_or_gt overflow (n / d : ℚ) with large | small
  · rw [nearest_of_overflow negative hd large, signedInfinity_isFinite]
    simpa using large
  · obtain ⟨q, -, shown⟩ := nearest_of_small negative hd small
    simpa [shown.isFinite.1] using small

theorem pack_infinite {u : UnpackedFloat} (infinite : u.isFinite = false) :
    (Float.ofModel (.pack u)).isFinite = false := by
  cases u with
  | infinity s => cases s <;> rfl
  | notANumber => rfl
  | zero s => cases infinite
  | finite s m e some => cases infinite

theorem div_infinite {p : UnpackedFloat} (infinite : p.isFinite = false) (q : UnpackedFloat) :
    (UnpackedFloat.div .binary64 p q).isFinite = false := by
  cases p with
  | infinity s => cases q <;> rfl
  | notANumber => rfl
  | zero s => cases infinite
  | finite s m e some => cases infinite

theorem mul_infinite {p : UnpackedFloat} (infinite : p.isFinite = false) (q : UnpackedFloat) :
    (UnpackedFloat.mul .binary64 p q).isFinite = false := by
  cases p with
  | infinity s => cases q <;> rfl
  | notANumber => rfl
  | zero s => cases infinite
  | finite s m e some => cases infinite

theorem add_infinite {p q : UnpackedFloat} (infinite : p.isFinite = false ∨ q.isFinite = false) :
    (UnpackedFloat.add .binary64 p q).isFinite = false := by
  rcases infinite with left | right
  · cases p with
    | infinity s =>
      cases q with
      | infinity r => cases s <;> cases r <;> rfl
      | _ => rfl
    | notANumber => rfl
    | zero s => cases left
    | finite s m e some => cases left
  · cases q with
    | infinity r =>
      cases p with
      | infinity s => cases s <;> cases r <;> rfl
      | _ => rfl
    | notANumber => cases p <;> rfl
    | zero s => cases right
    | finite s m e some => cases right

theorem nearest_of_stands (shown : Stands a v x) (hd : 0 < d) (value : (n / d : ℚ) = v) :
    nearest a n d = x := by
  rw [← value] at shown
  obtain ⟨q, near, rounded⟩ :=
    nearest_of_small a hd (shown.le_largest.trans_lt largest_lt_overflow)
  rw [near.eq_of_stands shown] at rounded
  exact rounded.unique shown

theorem normalize_nonzero {m : ℤ} (nonzero : m ≠ 0) (e : ℤ) :
    UnpackedFloat.normalize .binary64 m e .positive =
      UnpackedFloat.round .binary64 (signOf (decide (m < 0))) m.natAbs e := by
  rcases lt_or_gt_of_ne nonzero with negative | positive
  · have own : (-m).toNat = m.natAbs := by omega
    simp only [UnpackedFloat.normalize, Int.compare_eq_lt.mpr negative, own, negative, decide_true,
      signOf, ↓reduceIte]
  · have own : m.toNat = m.natAbs := by omega
    simp only [UnpackedFloat.normalize, Int.compare_eq_gt.mpr positive, own, not_lt.mpr positive.le,
      decide_false, signOf, Bool.false_eq_true, ↓reduceIte]

theorem pack_normalize (m e : ℤ) :
    ∃ c, ∀ n d : ℕ, 0 < d → (n / d : ℚ) = |(m : ℚ) * 2 ^ e| →
      Float.ofModel (.pack (.normalize .binary64 m e .positive)) = nearest c n d := by
  rcases eq_or_ne m 0 with rfl | nonzero
  · refine ⟨false, fun n d hd value => ?_⟩
    rw [Int.cast_zero, zero_mul, abs_zero] at value
    rw [numerator_zero hd value, nearest_zero_div, ← pack_zero]
    rfl
  · refine ⟨decide (m < 0), fun n d hd value => ?_⟩
    have size : (0 : ℚ) < 2 ^ e := by positivity
    rw [normalize_nonzero nonzero]
    apply pack_round _ (Int.natAbs_pos.mpr nonzero) hd
    rw [value, abs_mul, abs_of_pos size, Nat.cast_natAbs, Int.cast_abs]

theorem signed_units {p : Parts} {e : ℤ} (finer : e ≤ p.exponent) :
    ((signOf p.negative).apply (p.mantissa <<< (p.exponent - e).toNat : ℕ) : ℚ) * 2 ^ e =
      signed p.negative p.magnitude := by
  rw [magnitude_units p finer, Nat.shiftLeft_eq]
  cases p.negative <;> simp [signOf, Sign.apply, signed]

theorem add_eq_nearest (hx : Stands a v x) (hy : Stands b w y) :
    ∃ c, ∀ n d : ℕ, 0 < d → (n / d : ℚ) = |signed a v + signed b w| → x + y = nearest c n d := by
  obtain ⟨p, shownx, rfl, rfl⟩ := hx
  obtain ⟨q, showny, rfl, rfl⟩ := hy
  have sum : x + y = Float.ofModel (.pack (.add .binary64 p.unpacked q.unpacked)) := by
    rw [← unpack_of_parts? shownx, ← unpack_of_parts? showny]
    rfl
  rw [sum]
  rcases Nat.eq_zero_or_pos p.mantissa with zerop | somep <;>
    rcases Nat.eq_zero_or_pos q.mantissa with zeroq | someq
  · obtain ⟨c, both⟩ : ∃ c, UnpackedFloat.add .binary64 (.zero (signOf p.negative))
        (.zero (signOf q.negative)) = .zero (signOf c) := by
      cases p.negative <;> cases q.negative <;>
        first | exact ⟨false, rfl⟩ | exact ⟨true, rfl⟩
    refine ⟨c, fun n d hd value => ?_⟩
    rw [(unpacked_of_zero zerop).2, (unpacked_of_zero zeroq).2, signed_zero, signed_zero, add_zero,
      abs_zero] at value
    rw [(unpacked_of_zero zerop).1, (unpacked_of_zero zeroq).1, both, numerator_zero hd value,
      nearest_zero_div, ← pack_zero]
  · refine ⟨q.negative, fun n d hd value => ?_⟩
    rw [(unpacked_of_zero zerop).2, signed_zero, zero_add, abs_signed (magnitude_nonneg q)] at value
    have alone : UnpackedFloat.add .binary64 (.zero (signOf p.negative)) q.unpacked =
        q.unpacked := by
      rw [unpacked_of_pos someq]
      rfl
    rw [nearest_of_stands ⟨q, showny, rfl, rfl⟩ hd value, (unpacked_of_zero zerop).1, alone,
      pack_of_parts? showny]
  · refine ⟨p.negative, fun n d hd value => ?_⟩
    rw [(unpacked_of_zero zeroq).2, signed_zero, add_zero, abs_signed (magnitude_nonneg p)] at value
    have alone : UnpackedFloat.add .binary64 p.unpacked (.zero (signOf q.negative)) =
        p.unpacked := by
      rw [unpacked_of_pos somep]
      rfl
    rw [nearest_of_stands ⟨p, shownx, rfl, rfl⟩ hd value, (unpacked_of_zero zeroq).1, alone,
      pack_of_parts? shownx]
  · obtain ⟨c, rounded⟩ := pack_normalize
      ((signOf p.negative).apply
        (p.mantissa <<< (p.exponent - min p.exponent q.exponent).toNat : ℕ) +
      (signOf q.negative).apply
        (q.mantissa <<< (q.exponent - min p.exponent q.exponent).toNat : ℕ))
      (min p.exponent q.exponent)
    refine ⟨c, fun n d hd value => ?_⟩
    rw [unpacked_of_pos somep, unpacked_of_pos someq]
    refine rounded n d hd ?_
    rw [value, Int.cast_add, add_mul, signed_units (min_le_left _ _),
      signed_units (min_le_right _ _)]

theorem operand_isFinite {p u : UnpackedFloat} (keeps : p.isFinite = false → u.isFinite = false)
    (finite : (Float.ofModel (.pack u)).isFinite = true) : p.isFinite = true := by
  by_contra infinite
  rw [pack_infinite (keeps (Bool.not_eq_true _ ▸ infinite))] at finite
  cases finite

theorem isFinite_of_mul (finite : (x * y).isFinite = true) : x.isFinite = true :=
  operand_isFinite (fun infinite => mul_infinite infinite y.toModel.unpack) finite

theorem isFinite_of_div (finite : (x / y).isFinite = true) : x.isFinite = true :=
  operand_isFinite (fun infinite => div_infinite infinite y.toModel.unpack) finite

theorem isFinite_of_add (finite : (x + y).isFinite = true) :
    x.isFinite = true ∧ y.isFinite = true :=
  ⟨operand_isFinite (fun infinite => add_infinite (.inl infinite)) finite,
    operand_isFinite (fun infinite => add_infinite (.inr infinite)) finite⟩

theorem pack_zero_isFinite (s : Sign) : (Float.ofModel (.pack (.zero s))).isFinite = true := by
  cases s <;> rfl

theorem div_infinity_isFinite (finite : x.isFinite = true) (infinite : y.isFinite = false)
    (number : y.isNaN = false) : (x / y).isFinite = true := by
  change x.toModel.unpack.isFinite = true at finite
  change y.toModel.unpack.isFinite = false at infinite
  change y.toModel.unpack.isNaN = false at number
  change (Float.ofModel (.pack (.div .binary64 x.toModel.unpack y.toModel.unpack))).isFinite = true
  generalize x.toModel.unpack = p at finite ⊢
  generalize y.toModel.unpack = q at infinite number ⊢
  cases q with
  | infinity r =>
    cases p with
    | infinity s => cases finite
    | notANumber => cases finite
    | zero s => exact pack_zero_isFinite (s / r)
    | finite s m e some => exact pack_zero_isFinite (s / r)
  | notANumber => cases number
  | zero r => cases infinite
  | finite r m e some => cases infinite

theorem unpack_zero : (0.0 : Float).toModel.unpack = .zero .positive := rfl

theorem beq_zero_iff (shown : Stands b w y) : (y == 0.0) = true ↔ w = 0 := by
  obtain ⟨q, parts, rfl, rfl⟩ := shown
  change (y.toModel.unpack.compare (0.0 : Float).toModel.unpack == some .eq) = true ↔ _
  rw [beq_iff_eq, unpack_of_parts? parts, unpack_zero]
  rcases Nat.eq_zero_or_pos q.mantissa with none | some
  · simp [(unpacked_of_zero none).1, (unpacked_of_zero none).2, UnpackedFloat.compare]
  · have positive := magnitude_pos some
    rw [unpacked_of_pos some]
    cases q.negative <;> simp [signOf, UnpackedFloat.compare, positive.ne']

theorem beq_self (finite : x.isFinite = true) : (x == x) = true := by
  change x.toModel.unpack.isFinite = true at finite
  change (x.toModel.unpack.compare x.toModel.unpack == some .eq) = true
  generalize x.toModel.unpack = p at finite ⊢
  cases p with
  | infinity s => cases finite
  | notANumber => cases finite
  | zero s => rfl
  | finite s m e some => cases s <;> simp [UnpackedFloat.compare]

theorem isNaN_of_isFinite (finite : x.isFinite = true) : x.isNaN = false := by
  change x.toModel.unpack.isFinite = true at finite
  change x.toModel.unpack.isNaN = false
  generalize x.toModel.unpack = p at finite ⊢
  cases p with
  | notANumber => cases finite
  | _ => rfl

theorem div_of_small (hx : Stands a v x) (hy : Stands b w y) (positive : 0 < w)
    (small : v / w < overflow) : ∃ q, Near (v / w) q ∧ Stands (a != b) q (x / y) := by
  have value := fraction_of_nonneg (div_nonneg hx.nonneg hy.nonneg)
  rw [← value] at small
  have rounded := nearest_of_small (a != b) (v / w).den_pos small
  rwa [value, ← div_eq_nearest hx hy positive (v / w).den_pos value] at rounded

theorem div_isFinite_iff (number : y.isNaN = false) (nonzero : ¬ y == 0.0) :
    (x / y).isFinite = true ↔
      x.isFinite = true ∧ (y.isFinite = true → |toRat x / toRat y| < overflow) := by
  by_cases finite : x.isFinite = true
  · by_cases divisor : y.isFinite = true
    · obtain ⟨a, v, hx⟩ := stands_of_isFinite finite
      obtain ⟨b, w, hy⟩ := stands_of_isFinite divisor
      have positive : 0 < w := by
        rw [beq_zero_iff hy] at nonzero
        exact lt_of_le_of_ne hy.nonneg (Ne.symm nonzero)
      have value := fraction_of_nonneg (div_nonneg hx.nonneg hy.nonneg)
      rw [div_eq_nearest hx hy positive (v / w).den_pos value,
        nearest_isFinite_iff _ (v / w).den_pos, value, abs_div, hx.abs_toRat, hy.abs_toRat]
      simp [finite, divisor]
    · have shown := div_infinity_isFinite finite (by simpa using divisor) number
      simp [shown, finite, divisor]
  · simp only [finite, Bool.false_eq_true, false_and, iff_false]
    exact fun quotient => finite (isFinite_of_div quotient)

theorem add_isFinite_iff :
    (x + y).isFinite = true ↔
      x.isFinite = true ∧ y.isFinite = true ∧ |toRat x + toRat y| < overflow := by
  by_cases both : x.isFinite = true ∧ y.isFinite = true
  · obtain ⟨a, v, hx⟩ := stands_of_isFinite both.1
    obtain ⟨b, w, hy⟩ := stands_of_isFinite both.2
    obtain ⟨c, rounded⟩ := add_eq_nearest hx hy
    have value := fraction_of_nonneg (abs_nonneg (signed a v + signed b w))
    rw [rounded _ _ (Rat.den_pos _) value, nearest_isFinite_iff _ (Rat.den_pos _), value,
      hx.toRat_eq, hy.toRat_eq]
    simp [both.1, both.2]
  · constructor
    · exact fun sum => absurd (isFinite_of_add sum) both
    · exact fun parts => absurd ⟨parts.1, parts.2.1⟩ both

theorem isFinite_of_round (finite : (round x).isFinite = true) : x.isFinite = true := by
  cases parts : parts? x with
  | none =>
    have same : round x = x := by simp only [round, whole, parts]
    rwa [same] at finite
  | some p =>
    have shown : Stands p.negative p.magnitude x := ⟨p, parts, rfl, rfl⟩
    exact shown.isFinite.1

theorem roundToPlaces_isFinite (x : Float) (places : ℤ) :
    (roundToPlaces x places).isFinite = x.isFinite := by
  unfold roundToPlaces
  dsimp only
  split
  · rename_i finite
    rw [finite, isFinite_of_mul (isFinite_of_round (isFinite_of_div finite))]
  · rfl

end

end WordProblem.Binary64
