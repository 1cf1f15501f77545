import Lexicon.Binary64

/-!
# Decimal text of finite doubles

`shortest` gives the fewest decimal digits that read back as the number, and among those the
nearest. A `Layout` says how the digits are set out; the three layouts that the library writes
are `json`, `plain` and `listed`.
-/

namespace Lexicon.Binary64

inductive Tie where
  | toEven
  | up
  deriving DecidableEq, Repr

structure Decimal where
  digits : Nat
  exponent : Int
  deriving DecidableEq, Repr

/-- The open interval of quarter units around a magnitude that rounds to it; `closed` tells
whether its two ends round to it as well. -/
structure Rounding where
  low : Nat
  high : Nat
  closed : Bool

/-- Below a power of two the next number is half as far as above it. -/
def rounding (units : Nat) : Rounding :=
  let step := spacing units
  let below := if 1 < step ∧ units = Nat.pow 2 units.log2 then step / 2 else step
  ⟨4 * units - 2 * below, 4 * units + 2 * step, units / step % 2 == 0⟩

def Decimal.quarters (d : Decimal) : Nat × Nat :=
  if 0 ≤ d.exponent then (4 * one * (d.digits * Nat.pow 10 d.exponent.toNat), 1)
  else (4 * one * d.digits, Nat.pow 10 (-d.exponent).toNat)

def Rounding.contains (r : Rounding) (d : Decimal) : Bool :=
  let (num, den) := d.quarters
  if r.closed then r.low * den ≤ num && num ≤ r.high * den
  else r.low * den < num && num < r.high * den

/-- The candidate on the grid of `10 ^ exponent`: a neighbour of the number that reads back. Where
both do, the nearer; where they are equally near, as `tie` says. -/
def onGrid? (tie : Tie) (units : Nat) (exponent : Int) : Option Decimal :=
  let r := rounding units
  let (num, den) :=
    if 0 ≤ exponent then (units, one * Nat.pow 10 exponent.toNat)
    else (units * Nat.pow 10 (-exponent).toNat, one)
  let below := num / den
  let twice := 2 * (num % den)
  let lower : Decimal := ⟨below, exponent⟩
  let upper : Decimal := ⟨below + 1, exponent⟩
  match below != 0 && r.contains lower, r.contains upper with
  | false, false => none
  | true, false => some lower
  | false, true => some upper
  | true, true =>
    if twice < den then some lower
    else if den < twice then some upper
    else match tie with
      | .up => some upper
      | .toEven => some (if below % 2 = 0 then lower else upper)

def searchGrids (tie : Tie) (units : Nat) : Nat → Int → Option Decimal
  | 0, _ => none
  | tries + 1, exponent =>
    match onGrid? tie units exponent with
    | some d => some d
    | none => searchGrids tie units tries (exponent - 1)

/-- One more than the decimal exponent of the first digit. -/
def leadingExponent (units : Nat) : Int :=
  ((Nat.toDigits 10 (units * Nat.pow 10 330 / one)).length : Int) - 330

/-- The fewest digits that read back as a nonzero magnitude. Seventeen always do. -/
def shortest (tie : Tie) (units : Nat) : Decimal :=
  (searchGrids tie units 20 (leadingExponent units)).getD ⟨0, 0⟩

structure Layout where
  /-- Positional notation is used for exponents of the first digit in this range. -/
  positional : Int → Bool
  /-- A whole number in positional notation ends in a point and a zero. -/
  pointZero : Bool
  /-- Positive exponents carry a plus sign. -/
  plusSign : Bool
  tie : Tie

/-- Numbers in JSON text: positional from `1e-5` up to `1e16`. -/
def Layout.json : Layout := ⟨fun e => -5 ≤ e && e < 16, true, true, .toEven⟩

/-- Numbers in running text: always positional, whole numbers without a point. -/
def Layout.plain : Layout := ⟨fun _ => true, false, false, .up⟩

/-- Numbers inside a bracketed list: positional from `1e-4` up to `1e16`. -/
def Layout.listed : Layout := ⟨fun e => -4 ≤ e && e < 16, true, false, .up⟩

def Layout.positionalText (l : Layout) (digits : List Char) (exponent : Int) : List Char :=
  if exponent < 0 then
    '0' :: '.' :: List.replicate (-exponent - 1).toNat '0' ++ digits
  else
    let whole := exponent.toNat + 1
    if digits.length ≤ whole then
      digits ++ List.replicate (whole - digits.length) '0' ++
        (if l.pointZero then ['.', '0'] else [])
    else
      digits.take whole ++ '.' :: digits.drop whole

def Layout.scientificText (l : Layout) (digits : List Char) (exponent : Int) : List Char :=
  let significand := match digits with
    | [] => []
    | [d] => [d]
    | d :: rest => d :: '.' :: rest
  let sign := if exponent < 0 then ['-'] else if l.plusSign then ['+'] else []
  significand ++ 'e' :: sign ++ Nat.toDigits 10 exponent.natAbs

def Layout.magnitudeText (l : Layout) (units : Nat) : List Char :=
  if units = 0 then l.positionalText ['0'] 0
  else
    let d := shortest l.tie units
    let digits := Nat.toDigits 10 d.digits
    let exponent := d.exponent + digits.length - 1
    if l.positional exponent then l.positionalText digits exponent
    else l.scientificText digits exponent

def text (l : Layout) (x : Binary64) : String :=
  String.ofList ((if x.negative then ['-'] else []) ++ l.magnitudeText x.units)

end Lexicon.Binary64
