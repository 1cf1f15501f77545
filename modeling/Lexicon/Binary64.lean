/-!
# Words and finite doubles

A word holds the whole numbers that fit so many bits. A finite IEEE binary64 number is a sign and a
whole number of units of `2 ^ (-1074)` with at most 53 significant bits. Comparison is comparison of
integers, and every operation rounds an exact quotient once, to the nearest number with 53
significant bits, a half to the even neighbour.
-/

namespace Lexicon

namespace Word

def size (bits : Nat) : Nat := Nat.pow 2 bits

def Fits (bits : Nat) (n : Int) : Prop := 0 ≤ n ∧ n < size bits

def FitsSigned (bits : Nat) (n : Int) : Prop := -(size (bits - 1) : Int) ≤ n ∧ n < size (bits - 1)

instance (bits : Nat) (n : Int) : Decidable (Fits bits n) := inferInstanceAs (Decidable (_ ∧ _))

instance (bits : Nat) (n : Int) : Decidable (FitsSigned bits n) :=
  inferInstanceAs (Decidable (_ ∧ _))

end Word

def roundHalfEven (num den : Nat) : Nat :=
  let below := num / den
  let twice := 2 * (num % den)
  if twice < den then below
  else if den < twice then below + 1
  else below + below % 2

theorem roundHalfEven_le {num den bound : Nat} (h : num / den < bound) :
    roundHalfEven num den ≤ bound := by
  have hparity : num / den % 2 < 2 := Nat.mod_lt _ (by decide)
  simp only [roundHalfEven]
  split
  · omega
  · split <;> omega

namespace Binary64

def one : Nat := Nat.pow 2 1074

def largest : Nat := (Nat.pow 2 53 - 1) * Nat.pow 2 2045

/-- Distance in units between the 53-bit numbers around a number of that many units. -/
def spacing (units : Nat) : Nat := Nat.pow 2 (units.log2 - 52)

def roundUnits (num den : Nat) : Nat :=
  let step := spacing (num / den)
  step * roundHalfEven num (den * step)

theorem lt_spacing (units : Nat) : units < spacing units * Nat.pow 2 53 := by
  have hlog : units < Nat.pow 2 (units.log2 + 1) := Nat.lt_log2_self
  have hpow : spacing units * Nat.pow 2 53 = Nat.pow 2 (units.log2 - 52 + 53) :=
    (Nat.pow_add 2 _ 53).symm
  rw [hpow]
  exact Nat.lt_of_lt_of_le hlog (Nat.pow_le_pow_right (by decide) (by omega))

/-- A number of at most 53 bits followed by zeros needs no rounding. -/
theorem spacing_dvd {m : Nat} (hm : m ≤ Nat.pow 2 53) (k : Nat) :
    spacing (m * Nat.pow 2 k) ∣ m * Nat.pow 2 k := by
  by_cases hzero : m = 0
  · rw [hzero, Nat.zero_mul]
    exact Nat.dvd_zero _
  · rcases Nat.lt_or_eq_of_le hm with hlt | heq
    · have hne : m * Nat.pow 2 k ≠ 0 := Nat.mul_ne_zero hzero (Nat.ne_of_gt (Nat.two_pow_pos k))
      have hlog : (m * Nat.pow 2 k).log2 < 53 + k := by
        refine (Nat.log2_lt hne).mpr ?_
        rw [Nat.pow_add]
        exact Nat.mul_lt_mul_of_pos_right hlt (Nat.two_pow_pos k)
      exact Nat.dvd_mul_left_of_dvd (Nat.pow_dvd_pow 2 (by omega)) m
    · have hpow : m * Nat.pow 2 k = Nat.pow 2 (53 + k) := by
        rw [heq]
        exact (Nat.pow_add 2 53 k).symm
      have hlog : (Nat.pow 2 (53 + k)).log2 = 53 + k := Nat.log2_two_pow
      rw [hpow]
      exact Nat.pow_dvd_pow 2 (by omega)

/-- A number of units with at most 53 significant bits. -/
class Rounded (units : Nat) : Prop where
  dvd : spacing units ∣ units

instance : Rounded 0 := ⟨Nat.dvd_zero _⟩

/-- Rounding leaves at most 53 significant bits, also where it carries into a new one. -/
instance (num den : Nat) : Rounded (roundUnits num den) where
  dvd := by
    have hquotient : num / (den * spacing (num / den)) < Nat.pow 2 53 := by
      rw [← Nat.div_div_eq_div_mul]
      exact Nat.div_lt_of_lt_mul (lt_spacing (num / den))
    have hround := spacing_dvd (roundHalfEven_le hquotient) ((num / den).log2 - 52)
    rw [Nat.mul_comm] at hround
    exact hround

end Binary64

/-- The number `units * 2 ^ (-1074)`, negated when `negative` is set. Zero has both signs. -/
structure Binary64 where
  negative : Bool
  units : Nat
  [rounded : Binary64.Rounded units]
  deriving DecidableEq, Repr

instance : Inhabited Binary64 := ⟨⟨false, 0⟩⟩

namespace Binary64

attribute [instance] rounded

def ofQuotient? (negative : Bool) (num den : Nat) : Option Binary64 :=
  let x : Binary64 := ⟨negative, roundUnits num den⟩
  if x.units ≤ largest then some x else none

/-- The number nearest to an integer below `2 ^ 1024` in magnitude. -/
def ofInt (n : Int) : Binary64 := ⟨n < 0, roundUnits (n.natAbs * one) 1⟩

def value (x : Binary64) : Int := if x.negative then -(x.units : Int) else x.units

def neg (x : Binary64) : Binary64 := ⟨!x.negative, x.units⟩

def same (x y : Binary64) : Bool := x.value == y.value

instance : LT Binary64 := ⟨fun x y => x.value < y.value⟩

instance : LE Binary64 := ⟨fun x y => x.value ≤ y.value⟩

instance (x y : Binary64) : Decidable (x < y) := inferInstanceAs (Decidable (x.value < y.value))

instance (x y : Binary64) : Decidable (x ≤ y) := inferInstanceAs (Decidable (x.value ≤ y.value))

def isWhole (x : Binary64) : Bool := x.units % one == 0

def truncate (x : Binary64) : Int := x.value.tdiv one

def mul? (x y : Binary64) : Option Binary64 :=
  ofQuotient? (x.negative != y.negative) (x.units * y.units) one

def div? (x y : Binary64) : Option Binary64 :=
  ofQuotient? (x.negative != y.negative) (x.units * one) y.units

/-- The number nearest to `10 ^ k`, for `k` up to 308. -/
def powerOfTen (k : Nat) : Binary64 := ofInt (Nat.pow 10 k)

/-- The number nearest to `significand * 10 ^ exponent`, unless that is too large. Exponents that
decide the answer by themselves are settled without computing the power. -/
def ofDecimal? (negative : Bool) (significand : Nat) (exponent : Int) : Option Binary64 :=
  let digits := (Nat.toDigits 10 significand).length
  if significand = 0 ∨ exponent + digits < -330 then some ⟨negative, 0⟩
  else if 310 < exponent + digits then none
  else if 0 ≤ exponent then ofQuotient? negative (significand * Nat.pow 10 exponent.toNat * one) 1
  else ofQuotient? negative (significand * one) (Nat.pow 10 (-exponent).toNat)

theorem lt_iff (x y : Binary64) : x < y ↔ x.value < y.value := Iff.rfl

theorem le_iff (x y : Binary64) : x ≤ y ↔ x.value ≤ y.value := Iff.rfl

theorem same_iff (x y : Binary64) : x.same y = true ↔ x.value = y.value := by
  simp [same]

end Binary64
end Lexicon
