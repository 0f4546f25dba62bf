/-!
Double-precision numbers seen exactly: a finite one is a natural number times a power of two,
with a sign of its own. Cutting to whole numbers, remainders and whole powers are done on that
view, where nothing is rounded except the single result. The double nearest to a quotient is found
in the spacing that doubles have around it; of two equally near ones the even is taken.
-/
namespace WordProblem.Binary64

structure Parts where
  negative : Bool
  mantissa : Nat
  exponent : Int
  deriving DecidableEq, Repr

def leadingBit : Nat := 1 <<< 52

def signBit : Nat := 1 <<< 63

def exponentField (x : Float) : Nat := (x.toBits.toNat >>> 52) % 2048
def fractionField (x : Float) : Nat := x.toBits.toNat % leadingBit

def parts? (x : Float) : Option Parts :=
  let negative := decide (signBit ≤ x.toBits.toNat)
  let field := exponentField x
  if field = 2047 then none
  else if field = 0 then some ⟨negative, fractionField x, -1074⟩
  else some ⟨negative, fractionField x + leadingBit, (field : Int) - 1075⟩

/-- Exact when the mantissa is below `2 ^ 53` and the exponent lies between -1074 and 971. -/
def ofParts (p : Parts) : Float :=
  let room := min (52 - p.mantissa.log2) (p.exponent + 1074).toNat
  let mantissa := p.mantissa <<< room
  let field := (p.exponent - room + 1075).toNat
  let magnitude :=
    if mantissa < leadingBit then mantissa else mantissa - leadingBit + (field <<< 52)
  Float.ofBits (UInt64.ofNat (magnitude + if p.negative then signBit else 0))

def infinity : Float := 1.0 / 0.0
def nan : Float := 0.0 / 0.0

/-- Replaces a magnitude that is not whole by the whole number that `pick` makes of it, given
    as a quotient. Numbers whose exponent is not negative are whole already. -/
def whole (pick : Bool → Nat → Nat → Nat) (x : Float) : Float :=
  match parts? x with
  | none => x
  | some p =>
    if 0 ≤ p.exponent then x
    else ofParts ⟨p.negative, pick p.negative p.mantissa (1 <<< (-p.exponent).toNat), 0⟩

def truncate : Float → Float := whole fun _ m d => m / d

def floor : Float → Float := whole fun negative m d => if negative then (m + d - 1) / d else m / d

/-- The nearest whole number; a half goes away from zero. -/
def round : Float → Float := whole fun _ m d => (2 * m + d) / (2 * d)

def toInt? (x : Float) : Option Int := do
  let p ← parts? x
  let magnitude ←
    if 0 ≤ p.exponent then some (p.mantissa <<< p.exponent.toNat)
    else if p.mantissa % (1 <<< (-p.exponent).toNat) = 0 then
      some (p.mantissa >>> (-p.exponent).toNat)
    else none
  return if p.negative then -(magnitude : Int) else magnitude

/-- What is left of `x` after taking away `y` as often as it fits, with the sign of `x`. -/
def remainder (x y : Float) : Float :=
  match parts? x, parts? y with
  | some p, some q =>
    if q.mantissa = 0 then nan
    else
      let e := min p.exponent q.exponent
      let m := p.mantissa <<< (p.exponent - e).toNat
      let d := q.mantissa <<< (q.exponent - e).toNat
      ofParts ⟨p.negative, m % d, e⟩
  | some _, none => if y.isNaN then nan else x
  | none, _ => nan

def bits (n : Nat) : List Bool := (List.range (n.log2 + 1)).map n.testBit

def naturalPower (x : Float) (n : Nat) : Float :=
  ((bits n).foldl (fun state bit => (if bit then state.1 * state.2 else state.1, state.2 * state.2))
    (1.0, x)).1

def power (x : Float) (n : Int) : Float :=
  if 0 ≤ n then naturalPower x n.toNat else 1.0 / naturalPower x (-n).toNat

/-- The larger number. A NaN gives way to the other argument, and of two equal numbers the
    second is taken. -/
def maximum (x y : Float) : Float :=
  if x.isNaN then y else if y.isNaN ∨ y < x then x else y

def minimum (x y : Float) : Float :=
  if x.isNaN then y else if y.isNaN ∨ x < y then x else y

example :
    floor 2.5 = 2.0 ∧ floor (-2.5) = -3.0 ∧ floor (-0.0) = -0.0 ∧ floor 1e300 = 1e300 := by
  decide +kernel

example :
    round 2.5 = 3.0 ∧ round (-2.5) = -3.0 ∧ round 0.49999999999999994 = 0.0 := by
  decide +kernel

example :
    remainder 7.5 2.0 = 1.5 ∧ remainder (-7.0) 3.0 = -1.0 ∧ remainder 1e300 7.0 = 1.0 ∧
      remainder 5e-324 1e308 = 5e-324 := by
  decide +kernel

/-- The whole number nearest to `n / d`; a half goes to the even neighbour. -/
def nearestQuotient (n d : Nat) : Nat :=
  let q := n / d
  let r := n % d
  if 2 * r < d ∨ (2 * r = d ∧ q % 2 = 0) then q else q + 1

/-- The exponent that gives `n / d` a mantissa of 53 bits, as far as doubles are that fine. -/
def spacing (n d : Nat) : Int :=
  let e : Int := n.log2 - d.log2 - 52
  let short := n <<< (-e).toNat < (d <<< e.toNat) * leadingBit
  max (if short then e - 1 else e) (-1074)

def nearest (negative : Bool) (n d : Nat) : Float :=
  let e := spacing n d
  if 971 < e then if negative then -infinity else infinity
  else ofParts ⟨negative, nearestQuotient (n <<< (-e).toNat) (d <<< e.toNat), e⟩

theorem nearestQuotient_within_half (n : Nat) {d : Nat} (h : 0 < d) :
    2 * n ≤ 2 * (nearestQuotient n d * d) + d ∧ 2 * (nearestQuotient n d * d) ≤ 2 * n + d := by
  have whole := Nat.div_add_mod n d
  have rest := Nat.mod_lt n h
  rw [Nat.mul_comm] at whole
  simp only [nearestQuotient]
  split
  · omega
  · rw [Nat.add_mul]
    omega

example :
    nearest false 1 10 = 0.1 ∧ nearest true 0 1 = -0.0 ∧
      nearest false (Nat.pow 10 309) 1 = infinity ∧
      nearest false 9007199254740993 1 = 9007199254740992.0 := by
  decide +kernel

example :
    nearest false 1 (1 <<< 1075) = 0.0 ∧ nearest false 513 (1 <<< 1084) = 5e-324 := by
  decide +kernel

end WordProblem.Binary64
