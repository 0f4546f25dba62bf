import WordProblem.Proofs.Overflow
import WordProblem.Proofs.Quotients

/-!
Which option slots hold a finite number. Numerals have no bound, so the number of a group may be
rounded out of the doubles: in a numeral, in a quotient or in a sum. Where none of them is, the slot
is finite, and a group needs more than 308 characters for one that is not.
-/
namespace WordProblem

namespace Digits

theorem ofDigitChars_lt {s : List Char} (digits : ∀ c ∈ s, c.isDigit = true) (start : ℕ) :
    Nat.ofDigitChars 10 s start < (start + 1) * 10 ^ s.length := by
  induction s generalizing start with
  | nil => simp [Nat.ofDigitChars_nil]
  | cons c rest ih =>
    obtain ⟨digit, others⟩ := List.forall_mem_cons.mp digits
    rw [Char.isDigit, Bool.and_eq_true, decide_eq_true_eq, decide_eq_true_eq] at digit
    have small : c.toNat - '0'.toNat ≤ 9 := by
      have high : c.toNat ≤ 57 := digit.2
      have zero : '0'.toNat = 48 := rfl
      omega
    rw [Nat.ofDigitChars_cons, List.length_cons, Nat.pow_succ]
    calc Nat.ofDigitChars 10 rest (10 * start + (c.toNat - '0'.toNat))
        < (10 * start + (c.toNat - '0'.toNat) + 1) * 10 ^ rest.length := ih others _
      _ ≤ (start + 1) * 10 * 10 ^ rest.length := Nat.mul_le_mul_right _ (by omega)
      _ = (start + 1) * (10 ^ rest.length * 10) := by ring

theorem value_lt {s : List Char} (digits : ∀ c ∈ s, c.isDigit = true) :
    value s < 10 ^ s.length := by
  simpa [value] using ofDigitChars_lt digits 0

end Digits

namespace Numeral
open Binary64

def places (n : Numeral) : List Char := n.fraction.getD []

def magnitude (n : Numeral) : ℚ := Digits.value (n.whole ++ n.places) / (10 ^ n.places.length : ℕ)

section
variable {n : Numeral}

theorem value_eq (n : Numeral) : n.value = nearest n.negative (Digits.value (n.whole ++ n.places))
    (10 ^ n.places.length) := rfl

theorem value_isFinite_iff (n : Numeral) : n.value.isFinite = true ↔ n.magnitude < overflow := by
  rw [value_eq, nearest_isFinite_iff n.negative (by positivity), magnitude]

theorem value_near (small : n.magnitude < overflow) :
    ∃ q, Near n.magnitude q ∧ Stands n.negative q n.value := by
  rw [value_eq, magnitude]
  exact nearest_of_small n.negative (by positivity) small

theorem value_isNaN (n : Numeral) : n.value.isNaN = false := by
  rcases le_or_gt overflow n.magnitude with large | small
  · rw [value_eq, nearest_of_overflow n.negative (by positivity) large]
    cases n.negative <;> rfl
  · obtain ⟨q, -, shown⟩ := value_near small
    exact isNaN_of_isFinite shown.isFinite.1

theorem tenPower_lt_largest : 10 ^ 308 < largest := by
  rw [largest]
  decide +kernel

theorem tenPower_lt_overflow : (10 : ℚ) ^ 308 < overflow :=
  calc (10 : ℚ) ^ 308 = (10 ^ 308 : ℕ) := by rw [Nat.cast_pow, Nat.cast_ofNat]
    _ < largest := Nat.cast_lt.mpr tenPower_lt_largest
    _ < overflow := largest_lt_overflow

theorem hundred_lt_overflow : 100 * (10 : ℚ) ^ 306 < overflow := by
  have split : (10 : ℚ) ^ 308 = 10 ^ 2 * 10 ^ 306 := pow_add 10 2 306
  have below := tenPower_lt_overflow
  rw [split] at below
  generalize (10 : ℚ) ^ 306 = size at below ⊢
  linarith only [below]

theorem unit_normal {k : ℕ} (few : k ≤ 307) : (2 : ℚ) ^ (-1022 : ℤ) ≤ 1 / 10 ^ k := by
  have numbers : 10 ^ 307 ≤ 2 ^ 1022 := by decide +kernel
  have below : 10 ^ k ≤ 2 ^ 1022 := (pow_le_pow_right₀ (by norm_num) few).trans numbers
  rw [zpow_neg, one_div, inv_le_inv₀ (by positivity) (by positivity)]
  exact_mod_cast below

theorem places_digits (written : n.Written) : ∀ c ∈ n.places, c.isDigit = true := by
  unfold places
  cases shown : n.fraction with
  | none => simp
  | some places => exact written.fraction places shown

theorem magnitude_lt (written : n.Written) : n.magnitude < 10 ^ n.whole.length := by
  have digits : ∀ c ∈ n.whole ++ n.places, c.isDigit = true :=
    List.forall_mem_append.mpr
      ⟨(Digits.isNumeric_iff.mp written.whole).2, places_digits written⟩
  have below := Digits.value_lt digits
  rw [List.length_append, Nat.pow_add] at below
  rw [magnitude, div_lt_iff₀ (by positivity)]
  exact_mod_cast below

theorem le_magnitude (nonzero : n.magnitude ≠ 0) : 1 / 10 ^ n.places.length ≤ n.magnitude := by
  have some : 1 ≤ Digits.value (n.whole ++ n.places) := by
    refine Nat.one_le_iff_ne_zero.mpr fun none => nonzero ?_
    rw [magnitude, none, Nat.cast_zero, zero_div]
  rw [magnitude, Nat.cast_pow, Nat.cast_ofNat]
  exact div_le_div_of_nonneg_right (by exact_mod_cast some) (by positivity)

theorem length_bounds (written : n.Written) :
    n.whole.length ≤ n.chars.length ∧ n.places.length + 1 ≤ n.chars.length := by
  have nonempty : 0 < n.whole.length :=
    List.length_pos_iff.mpr (Digits.isNumeric_iff.mp written.whole).1
  unfold places chars
  cases n.fraction <;> simp <;> omega

theorem stands_of_length (written : n.Written) {k : ℕ} (digits : n.whole.length ≤ k)
    (few : k ≤ 308) : ∃ q, Stands n.negative q n.value ∧ q ≤ 2 * 10 ^ k := by
  have below : n.magnitude < 10 ^ k :=
    (magnitude_lt written).trans_le (pow_le_pow_right₀ (by norm_num) digits)
  have most : (10 : ℚ) ^ k ≤ 10 ^ 308 := pow_le_pow_right₀ (by norm_num) few
  obtain ⟨q, near, shown⟩ := value_near ((below.trans_le most).trans tenPower_lt_overflow)
  exact ⟨q, shown, near.le_double below.le (one_le_pow₀ (by norm_num))⟩

theorem stands_of_places (small : n.magnitude < overflow) (nonzero : ¬ n.value == 0.0)
    (few : n.places.length ≤ 307) :
    ∃ q, Stands n.negative q n.value ∧ 1 / 10 ^ n.places.length / 2 ≤ q := by
  obtain ⟨q, near, shown⟩ := value_near small
  have some : n.magnitude ≠ 0 := by
    intro none
    rw [none] at near
    have zero := near.eq_of_stands (nearest_zero_cases false 1).2
    exact nonzero ((beq_zero_iff shown).mpr zero)
  have unit := le_magnitude some
  have half := near.half_le ((unit_normal few).trans unit)
  exact ⟨q, shown, (div_le_div_of_nonneg_right unit two_pos.le).trans half⟩

theorem length_of_mem_scan {s : List Char} (mem : n ∈ scan s) : n.chars.length ≤ s.length := by
  fun_induction scan s with
  | case1 s first rest read ih =>
    obtain ⟨split, -⟩ := read?_eq_append read
    rw [split, List.length_append]
    rcases List.mem_cons.mp mem with rfl | later
    · omega
    · have inside := ih later
      omega
  | case2 => cases mem
  | case3 c rest none ih =>
    have inside := ih mem
    rw [List.length_cons]
    omega

end

end Numeral

namespace Number
open Binary64

def isFinite : Number → Bool
  | .integer _ => true
  | .real x => x.isFinite

/-- Exact match: the same integer, or doubles that compare equal. -/
def agrees : Number → Number → Bool
  | .integer m, .integer n => m == n
  | .real x, .real y => x == y
  | _, _ => false

theorem agrees_self {v : Number} (finite : v.isFinite = true) : v.agrees v = true := by
  cases v with
  | integer n => simp [agrees]
  | real x => exact beq_self finite

theorem isFinite_of_exactInt? {x : Float} {n : ℤ} (whole : exactInt? x = some n) :
    x.isFinite = true := by
  obtain ⟨⟨negative, shown, -⟩, -⟩ := stands_of_exactInt? whole
  exact shown.isFinite.1

theorem canonical_isFinite (x : Float) : (canonical x).isFinite = x.isFinite := by
  unfold canonical
  split
  · rename_i whole
    exact (isFinite_of_exactInt? whole).symm
  · rfl

theorem rounded_isFinite (x : Float) : (rounded x).isFinite = x.isFinite := by
  unfold rounded
  split
  · rename_i whole
    exact (isFinite_of_exactInt? whole).symm
  · rw [canonical_isFinite, roundToPlaces_isFinite]

end Number

namespace OptionSet
open Binary64

/-- What a group shows: a numeral, the quotient of two, or a mixed number of three. -/
inductive Figure where
  | plain (x : Numeral)
  | quotient (x y : Numeral)
  | mixed (w x y : Numeral)

namespace Figure

def double : Figure → Float
  | plain x => x.value
  | quotient x y => x.value / y.value
  | mixed w x y => w.value + x.value / y.value

def number : Figure → Number
  | plain x => .canonical x.value
  | f => .rounded f.double

/-- A quotient of numerals is finite: an infinite divisor makes it zero. -/
def QuotientFits (x y : Numeral) : Prop :=
  x.magnitude < overflow ∧ (y.magnitude < overflow → |toRat x.value / toRat y.value| < overflow)

/-- No number on the way is rounded out of the doubles, a divisor excepted. -/
def Fits : Figure → Prop
  | plain x => x.magnitude < overflow
  | quotient x y => QuotientFits x y
  | mixed w x y =>
    w.magnitude < overflow ∧ QuotientFits x y ∧
      |toRat w.value + toRat (x.value / y.value)| < overflow

end Figure

/-- The numerals that count in a group: its first one, or the ones next to a separator, of which
    the last is not zero. -/
inductive Shows (group : List Char) : Figure → Prop
  | plain {x : Numeral} (first : (Numeral.scan group).head? = some x) : Shows group (.plain x)
  | quotient {sep : Char} {before after : List Char} {x y : Numeral}
      (cut : Text.cutAt sep group = some (before, after))
      (left : (Numeral.scan before).head? = some x) (right : (Numeral.scan after).head? = some y)
      (nonzero : ¬ y.value == 0.0) : Shows group (.quotient x y)
  | mixed {sep : Char} {before after : List Char} {w x y : Numeral} {more : List Numeral}
      (cut : Text.cutAt sep group = some (before, after))
      (left : Numeral.scan before = w :: x :: more)
      (right : (Numeral.scan after).head? = some y) (nonzero : ¬ y.value == 0.0) :
      Shows group (.mixed w x y)

section
variable {group : List Char} {f : Figure} {v : Number}

theorem ratio_shows {separator : Char} (read : ratio separator group = some v) :
    ∃ f, Shows group f ∧ v = f.number := by
  simp only [ratio, Option.bind_eq_bind, Option.bind_eq_some_iff, Numeral.firstValue?,
    Option.map_eq_some_iff] at read
  obtain ⟨⟨before, after⟩, cut, _, ⟨x, left, rfl⟩, _, ⟨y, right, rfl⟩, quotient⟩ := read
  split at quotient
  · cases quotient
  · rename_i nonzero
    cases quotient
    exact ⟨.quotient x y, .quotient cut left right nonzero, rfl⟩

theorem mixed_shows {separator : Char} (read : mixed separator group = some v) :
    ∃ f, Shows group f ∧ v = f.number := by
  simp only [mixed, Option.bind_eq_bind, Option.bind_eq_some_iff] at read
  obtain ⟨⟨before, after⟩, cut, sum⟩ := read
  split at sum
  · rename_i w x more left
    simp only [Option.bind_eq_some_iff, Numeral.firstValue?, Option.map_eq_some_iff] at sum
    obtain ⟨_, ⟨y, right, rfl⟩, quotient⟩ := sum
    split at quotient
    · cases quotient
    · rename_i nonzero
      cases quotient
      exact ⟨.mixed w x y, .mixed cut left right nonzero, rfl⟩
  · cases sum

theorem readGroup_shows (read : readGroup group = some v) : ∃ f, Shows group f ∧ v = f.number := by
  have plain {x : Numeral} {more : List Numeral} (scanned : Numeral.scan group = x :: more)
      (shown : some (Number.canonical x.value) = some v) : ∃ f, Shows group f ∧ v = f.number := by
    cases shown
    exact ⟨.plain x, .plain (by rw [scanned, List.head?_cons]), rfl⟩
  unfold readGroup at read
  split at read
  · cases read
  · rename_i scanned
    split at read
    · exact ratio_shows read
    · split at read
      · exact ratio_shows read
      · exact plain scanned read
  · rename_i scanned
    split at read
    · exact mixed_shows read
    · split at read
      · exact mixed_shows read
      · exact plain scanned read
  · rename_i scanned
    exact plain scanned read

theorem Figure.number_isFinite (f : Figure) : f.number.isFinite = f.double.isFinite := by
  cases f with
  | plain x => exact Number.canonical_isFinite _
  | quotient x y => exact Number.rounded_isFinite _
  | mixed w x y => exact Number.rounded_isFinite _

theorem Figure.quotient_isFinite_iff {x y : Numeral} (nonzero : ¬ y.value == 0.0) :
    (x.value / y.value).isFinite = true ↔ QuotientFits x y := by
  rw [div_isFinite_iff (Numeral.value_isNaN y) nonzero, Numeral.value_isFinite_iff,
    Numeral.value_isFinite_iff, QuotientFits]

theorem Shows.double_isFinite_iff (shows : Shows group f) :
    f.double.isFinite = true ↔ f.Fits := by
  cases shows with
  | plain first => exact Numeral.value_isFinite_iff _
  | quotient cut left right nonzero => exact Figure.quotient_isFinite_iff nonzero
  | mixed cut left right nonzero =>
    rw [Figure.double, add_isFinite_iff, Numeral.value_isFinite_iff,
      Figure.quotient_isFinite_iff nonzero, Figure.Fits]

theorem Figure.quotient_of_short {x y : Numeral} (hx : x.Written) (hy : y.Written)
    (nonzero : ¬ y.value == 0.0) (short : x.chars.length + y.chars.length ≤ 307) :
    QuotientFits x y ∧ |toRat (x.value / y.value)| ≤ 8 * 10 ^ 306 := by
  obtain ⟨wholex, -⟩ := Numeral.length_bounds hx
  obtain ⟨wholey, placesy⟩ := Numeral.length_bounds hy
  obtain ⟨q, shownx, high⟩ := Numeral.stands_of_length hx le_rfl (by omega)
  have smally : y.magnitude < overflow := by
    obtain ⟨_, shown, -⟩ := Numeral.stands_of_length hy le_rfl (by omega)
    exact (Numeral.value_isFinite_iff y).mp shown.isFinite.1
  obtain ⟨r, showny, low⟩ := Numeral.stands_of_places smally nonzero (by omega)
  have unit : (0 : ℚ) < 1 / 10 ^ y.places.length / 2 := by positivity
  have bound : q / r ≤ 4 * 10 ^ 306 := by
    calc q / r ≤ 2 * 10 ^ x.whole.length / (1 / 10 ^ y.places.length / 2) :=
          div_le_div₀ (by positivity) high unit low
      _ = 4 * 10 ^ (x.whole.length + y.places.length) := by
        rw [pow_add]
        field_simp
        norm_num
      _ ≤ 4 * 10 ^ 306 :=
        mul_le_mul_of_nonneg_left (pow_le_pow_right₀ (by norm_num) (by omega)) (by norm_num)
  have positive : 1 ≤ (10 : ℚ) ^ 306 := one_le_pow₀ (by norm_num)
  have limit := Numeral.hundred_lt_overflow
  generalize (10 : ℚ) ^ 306 = size at bound positive limit ⊢
  have small : q / r < overflow := by linarith
  obtain ⟨z, near, shown⟩ := div_of_small shownx showny (unit.trans_le low) small
  refine ⟨⟨(Numeral.value_isFinite_iff x).mp shownx.isFinite.1, fun _ => ?_⟩, ?_⟩
  · rwa [abs_div, shownx.abs_toRat, showny.abs_toRat]
  · rw [shown.abs_toRat]
    have double := near.le_double bound (by linarith)
    linarith

theorem mem_of_head {s : List Char} {n : Numeral} (first : (Numeral.scan s).head? = some n) :
    n.Written ∧ n.chars.length ≤ s.length := by
  have mem := List.mem_of_mem_head? first
  exact ⟨Numeral.scan_written s n mem, Numeral.length_of_mem_scan mem⟩

theorem Shows.fits_of_short (shows : Shows group f) (short : group.length ≤ 308) : f.Fits := by
  cases shows with
  | @plain x first =>
    obtain ⟨written, inside⟩ := mem_of_head first
    obtain ⟨whole, -⟩ := Numeral.length_bounds written
    obtain ⟨_, shown, -⟩ := Numeral.stands_of_length written le_rfl (by omega)
    exact (Numeral.value_isFinite_iff x).mp shown.isFinite.1
  | @quotient sep before after x y cut left right nonzero =>
    obtain ⟨rfl, -⟩ := Text.cutAt_eq_some_iff.mp cut
    obtain ⟨writtenx, insidex⟩ := mem_of_head left
    obtain ⟨writteny, insidey⟩ := mem_of_head right
    simp only [List.length_append, List.length_cons] at short
    exact (Figure.quotient_of_short writtenx writteny nonzero (by omega)).1
  | @mixed sep before after w x y more cut left right nonzero =>
    obtain ⟨rfl, -⟩ := Text.cutAt_eq_some_iff.mp cut
    obtain ⟨writteny, insidey⟩ := mem_of_head right
    have front : ∀ n ∈ [w, x], n.Written ∧ n.chars.length ≤ before.length := by
      intro n mem
      have member : n ∈ Numeral.scan before := by
        rw [left]
        exact List.mem_append_left more mem
      exact ⟨Numeral.scan_written before n member, Numeral.length_of_mem_scan member⟩
    obtain ⟨writtenw, insidew⟩ := front w (by simp)
    obtain ⟨writtenx, insidex⟩ := front x (by simp)
    obtain ⟨wholew, -⟩ := Numeral.length_bounds writtenw
    obtain ⟨-, placesy⟩ := Numeral.length_bounds writteny
    simp only [List.length_append, List.length_cons] at short
    obtain ⟨quotient, part⟩ :=
      Figure.quotient_of_short writtenx writteny nonzero (by omega)
    obtain ⟨q, shown, high⟩ := Numeral.stands_of_length writtenw
      (show w.whole.length ≤ 306 by omega) (by omega)
    refine ⟨(Numeral.value_isFinite_iff w).mp shown.isFinite.1, quotient, ?_⟩
    refine (abs_add_le _ _).trans_lt ?_
    rw [shown.abs_toRat]
    have limit := Numeral.hundred_lt_overflow
    have positive : 0 < (10 : ℚ) ^ 306 := by positivity
    generalize (10 : ℚ) ^ 306 = size at part high limit positive
    linarith

end

/-- A slot that is filled holds the number of the figure that its group shows. It is finite exactly
    where no number on the way is rounded out of the doubles, so in every group of up to 308
    characters besides commas; a finite slot agrees with itself. -/
theorem slot_isFinite_iff {text : String} {s : OptionSet} (read : ofText text = .ok s) {k : ℕ}
    {v : Number} (slot : s.get? k = some (some v)) :
    ∃ raw f, (Text.splitOnPair ',' ' ' text.toList)[k]? = some raw ∧
      Shows (raw.filter (· != ',')) f ∧ v = f.number ∧
      (v.isFinite = true ↔ f.Fits) ∧
      ((raw.filter (· != ',')).length ≤ 308 → v.isFinite = true) ∧
      (v.isFinite = true → v.agrees v = true) := by
  rw [get?, ofText_eq_ok_iff.mp read, List.getElem?_map, Option.map_eq_some_iff] at slot
  obtain ⟨raw, group, value⟩ := slot
  obtain ⟨f, shows, rfl⟩ := readGroup_shows value
  have exact_condition : f.number.isFinite = true ↔ f.Fits := by
    rw [Figure.number_isFinite, shows.double_isFinite_iff]
  exact ⟨raw, f, group, shows, rfl, exact_condition,
    fun short => exact_condition.mpr (shows.fits_of_short short), Number.agrees_self⟩

theorem slot_isFinite_of_mixed_number :
    ∃ s f, ofText "a ) 1 / 3, b ) 2 1 / 4, c ) 1,000, d ) none, e ) -0.5" = .ok s ∧
      s.get? 1 = some (some (.real 2.25)) ∧ Shows "b ) 2 1 / 4".toList f ∧
      Number.real 2.25 = f.number ∧ f.Fits ∧ (Number.real 2.25).agrees (.real 2.25) = true := by
  obtain ⟨s, read, slot⟩ : ∃ s,
      ofText "a ) 1 / 3, b ) 2 1 / 4, c ) 1,000, d ) none, e ) -0.5" = .ok s ∧
        s.get? 1 = some (some (.real 2.25)) :=
    ⟨⟨[some (.real 0.33333), some (.real 2.25), some (.integer 1000), none, some (.real (-0.5))],
      rfl⟩, by decide +kernel, by decide +kernel⟩
  obtain ⟨raw, f, group, shows, number, condition, short, agrees⟩ := slot_isFinite_iff read slot
  have same : raw = "b ) 2 1 / 4".toList := by
    have split : (Text.splitOnPair ',' ' '
        "a ) 1 / 3, b ) 2 1 / 4, c ) 1,000, d ) none, e ) -0.5".toList)[1]? =
          some "b ) 2 1 / 4".toList := by decide +kernel
    exact Option.some.inj (group.symm.trans split)
  subst same
  have finite := short (by decide +kernel)
  exact ⟨s, f, read, slot, shows, number, condition.mp finite, agrees finite⟩

def huge : Numeral := ⟨false, '2' :: List.replicate 308 '0', none⟩

theorem huge_written : huge.Written := by
  refine ⟨Digits.isNumeric_iff.mpr ⟨List.cons_ne_nil _ _, ?_⟩, by rintro _ ⟨⟩⟩
  intro c mem
  rcases List.mem_cons.mp mem with rfl | zero
  · rfl
  · rw [List.eq_of_mem_replicate zero]
    rfl

theorem huge_value : huge.value = infinity := by decide +kernel

theorem readGroup_huge : readGroup huge.chars = some (.real infinity) := by
  have read : Number.canonical infinity = .real infinity := rfl
  rw [readGroup, Numeral.scan_chars huge_written]
  change some (Number.canonical huge.value) = _
  rw [huge_value, read]

theorem readGroup_huge_quotient :
    readGroup (huge.chars ++ [' '] ++ '/' :: ' ' :: huge.chars) = some (.real nan) := by
  have read : Number.rounded (infinity / infinity) = .real nan := by decide +kernel
  have left : Numeral.scan (huge.chars ++ [' ']) = [huge] := by
    rw [Numeral.scan_separated ⟨by decide, by decide, by decide⟩,
      Numeral.scan_chars huge_written, Numeral.scan_nil, List.append_nil]
  have right : Numeral.scan (' ' :: huge.chars) = [huge] := by
    rw [Numeral.scan_cons (by decide) (by decide), Numeral.scan_chars huge_written]
  have scanned : Numeral.scan (huge.chars ++ [' '] ++ '/' :: ' ' :: huge.chars) = [huge, huge] := by
    rw [Numeral.scan_separated ⟨by decide, by decide, by decide⟩, left, right]
    rfl
  have no_colon : ':' ∉ huge.chars := Numeral.not_mem_unsigned huge_written (by decide) (by decide)
  have no_slash : '/' ∉ huge.chars := Numeral.not_mem_unsigned huge_written (by decide) (by decide)
  have colon : ':' ∉ huge.chars ++ [' '] ++ '/' :: ' ' :: huge.chars := by simp [no_colon]
  have slash : '/' ∈ huge.chars ++ [' '] ++ '/' :: ' ' :: huge.chars := by simp
  have first : '/' ∉ huge.chars ++ [' '] := by simp [no_slash]
  have divisor : ¬ infinity == 0.0 := by decide
  rw [readGroup, scanned]
  simp only [colon, slash, ↓reduceIte]
  rw [ratio_at first, Numeral.firstValue?_of_scan left, Numeral.firstValue?_of_scan right,
    Option.bind_some, Option.bind_some, huge_value, if_neg divisor, read]

/-- A numeral of 309 digits is an infinite slot, and its quotient with itself a slot that does not
    even agree with itself. -/
theorem slots_of_long_numerals :
    ∃ s, ofText (String.ofList ([',', ' '].intercalate
        [huge.chars, huge.chars ++ [' '] ++ '/' :: ' ' :: huge.chars, ['3'], ['4'], ['5']])) =
        .ok s ∧
      s.get? 0 = some (some (.real infinity)) ∧ (Number.real infinity).isFinite = false ∧
      s.get? 1 = some (some (.real nan)) ∧ (Number.real nan).isFinite = false ∧
      (Number.real nan).agrees (.real nan) = false := by
  refine ⟨⟨[some (.real infinity), some (.real nan), some (.integer 3), some (.integer 4),
    some (.integer 5)], rfl⟩, ?_, rfl, rfl, rfl, rfl, rfl⟩
  have no_comma : ',' ∉ huge.chars := Numeral.comma_not_mem huge_written
  have clean : ∀ group ∈ [huge.chars, huge.chars ++ [' '] ++ '/' :: ' ' :: huge.chars, ['3'],
      ['4'], ['5']], ',' ∉ group := by
    simp [no_comma]
  have plain : ∀ group ∈ [huge.chars, huge.chars ++ [' '] ++ '/' :: ' ' :: huge.chars, ['3'],
      ['4'], ['5']], group.filter (· != ',') = group := by
    intro group mem
    rw [List.filter_eq_self]
    intro c inside
    rw [bne_iff_ne]
    rintro rfl
    exact clean group mem inside
  have digits : readGroup ['3'] = some (.integer 3) ∧ readGroup ['4'] = some (.integer 4) ∧
      readGroup ['5'] = some (.integer 5) := by decide +kernel
  rw [ofText_eq_ok_iff, String.toList_ofList, Text.splitOnPair_intercalate (by decide) (by simp)
    fun group mem pair => clean group mem (pair.subset (by simp)),
    List.map_congr_left fun group mem => congrArg readGroup (plain group mem)]
  simp only [List.map_cons, List.map_nil, readGroup_huge, readGroup_huge_quotient, digits]

end OptionSet

end WordProblem
