import Lox.Text.Bytes

/-! Reading decimal numbers, rounded to the nearest floating-point number. -/
namespace Lox.Decimal

/-- The number `coefficient · 10 ^ exponent`. Beyond any finite magnitude it is infinite, and below
any other it is zero. -/
def ofScaled (coefficient : Nat) (exponent : Int) : Float :=
  let leading := exponent + (Nat.toDigits 10 coefficient).length
  if coefficient = 0 || leading < -400 then 0
  else if 400 < leading then 1.0 / 0.0
  else Float.ofScientific coefficient (exponent < 0) exponent.natAbs

/-- The number written by digits with an optional point. -/
def ofDigits (text : Bytes) : Float :=
  let whole := text.takeWhile (· != ascii '.')
  let fraction := (text.dropWhile (· != ascii '.')).drop 1
  ofScaled (Bytes.digitsValue (whole ++ fraction)) (-(fraction.length : Int))

/-- The number written by digits with an optional point, unless it is beyond the finite range. -/
def read? (text : Bytes) : Option Float :=
  let x := ofDigits text
  if x.isFinite then some x else none

/-- Splits off a sign; a minus sign is `true`. -/
def splitSign (text : Bytes) : Bool × Bytes :=
  match text with
  | [] => (false, [])
  | b :: rest =>
    if b == ascii '-' then (true, rest) else if b == ascii '+' then (false, rest) else (false, text)

/-- Digits with an optional point, of which one digit at least stands before or after it. -/
def isPlain (text : Bytes) : Bool :=
  let whole := text.takeWhile (· != ascii '.')
  let fraction := (text.dropWhile (· != ascii '.')).drop 1
  let digits := whole ++ fraction
  Bytes.isDigits digits

/-- Reads a number with an optional sign, point and exponent, unless it is beyond the finite
range. -/
def readScientific? (text : Bytes) : Option Float :=
  let isMark (b : UInt8) : Bool := b == ascii 'e' || b == ascii 'E'
  let (negative, body) := splitSign text
  let mantissa := body.takeWhile fun b => !isMark b
  let whole := mantissa.takeWhile (· != ascii '.')
  let fraction := (mantissa.dropWhile (· != ascii '.')).drop 1
  let finish (exponent : Int) : Option Float :=
    let x := ofScaled (Bytes.digitsValue (whole ++ fraction)) (exponent - fraction.length)
    if !x.isFinite then none else some (if negative then -x else x)
  if !isPlain mantissa then none
  else
    match body.dropWhile fun b => !isMark b with
    | [] => finish 0
    | _ :: marked =>
      let (down, digits) := splitSign marked
      if !Bytes.isDigits digits then none
      else finish (if down then -(Bytes.digitsValue digits : Int) else Bytes.digitsValue digits)

end Lox.Decimal
