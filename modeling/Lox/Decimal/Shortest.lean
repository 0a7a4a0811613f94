/-! The shortest decimal that identifies a binary floating-point number. -/
namespace Lox.Decimal

/-- The number `coefficient · 10 ^ exponent`. -/
structure Scaled where
  coefficient : Nat
  exponent : Int
  deriving DecidableEq, Repr

/-- The positive number `mantissa · 2 ^ exponent` together with the place of the next number
below it, which is half as far away where the binary exponent changes. -/
structure Binary where
  mantissa : Nat
  exponent : Int
  closeBelow : Bool

/-- The magnitude of a finite number. -/
def Binary.ofFloat (x : Float) : Binary :=
  let bits := x.toBits.toNat
  let fraction := bits % Nat.pow 2 52
  let biased : Nat := bits / Nat.pow 2 52 % Nat.pow 2 11
  if biased == 0 then ⟨fraction, -1074, false⟩
  else ⟨Nat.pow 2 52 + fraction, Int.ofNat biased - 1075, fraction == 0 && 1 < biased⟩

/-- A number with the ends of the interval of reals that round to it, over one denominator. -/
structure Interval where
  low : Nat
  value : Nat
  high : Nat
  denominator : Nat
  /-- The ends themselves round to the number. -/
  closed : Bool

def Binary.interval (b : Binary) : Interval :=
  let unit := Nat.pow 2 b.exponent.toNat
  { low := 4 * b.mantissa * unit - (if b.closeBelow then unit else 2 * unit)
    value := 4 * b.mantissa * unit
    high := 4 * b.mantissa * unit + 2 * unit
    denominator := 4 * Nat.pow 2 (-b.exponent).toNat
    closed := b.mantissa % 2 == 0 }

/-- The decimal `c · 10 ^ e` lies in the interval. -/
def Interval.holds (i : Interval) (c : Nat) (e : Int) : Bool :=
  let point := c * i.denominator * Nat.pow 10 e.toNat
  let scale := Nat.pow 10 (-e).toNat
  if i.closed then i.low * scale ≤ point && point ≤ i.high * scale
  else i.low * scale < point && point < i.high * scale

/-- The multiple of `10 ^ e` in the interval that is nearest to the value, if there is one. Of two
at the same distance the even one is taken. -/
def Interval.nearest? (i : Interval) (e : Int) : Option Nat :=
  let numerator := i.value * Nat.pow 10 (-e).toNat
  let denominator := i.denominator * Nat.pow 10 e.toNat
  let c := numerator / denominator
  let twice := 2 * (numerator % denominator)
  match i.holds c e, i.holds (c + 1) e with
  | true, true =>
    if twice < denominator || (twice == denominator && c % 2 == 0) then some c else some (c + 1)
  | true, false => some c
  | false, true => some (c + 1)
  | false, false => none

/-- The least number of decimal places, at most `fuel`, at which `value` reaches one. -/
def placesToOne (denominator : Nat) : (fuel value : Nat) → Nat
  | 0, _ => 0
  | fuel + 1, value =>
    if denominator ≤ value then 0 else placesToOne denominator fuel (10 * value) + 1

/-- The exponent `p` with `10 ^ (p - 1) ≤ value < 10 ^ p`. -/
def Interval.magnitude (i : Interval) : Int :=
  if i.denominator ≤ i.value then (Nat.toDigits 10 (i.value / i.denominator)).length
  else 1 - (placesToOne i.denominator 400 i.value : Int)

/-- Tries the grids of `digits` digits and more until one has a point in the interval. -/
def Interval.search (i : Interval) (p : Int) : (fuel digits : Nat) → Scaled
  | 0, digits => ⟨i.value * Nat.pow 10 (digits - p).toNat / i.denominator, p - digits⟩
  | fuel + 1, digits =>
    match i.nearest? (p - digits) with
    | some c => ⟨c, p - digits⟩
    | none => i.search p fuel (digits + 1)

/-- Moves the zeros at the end of the coefficient into the exponent. -/
def Scaled.strip : Nat → Scaled → Scaled
  | 0, d => d
  | fuel + 1, d =>
    if d.coefficient % 10 == 0 then strip fuel ⟨d.coefficient / 10, d.exponent + 1⟩ else d

/-- The decimal of fewest digits that rounds to `x`, a finite number other than zero; of those, the
nearest to `x`. The sign of `x` is dropped. -/
def shortest (x : Float) : Scaled :=
  let i := (Binary.ofFloat x).interval
  (i.search i.magnitude 17 1).strip 20

end Lox.Decimal
