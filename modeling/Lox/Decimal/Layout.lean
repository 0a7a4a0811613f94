import Lox.Decimal.Shortest
import Lox.Text.Bytes

/-! Written forms of numbers: positional everywhere in the language, and with an exponent for very
large and very small numbers in JSON. -/
namespace Lox.Decimal

def digitText (n : Nat) : Bytes := Bytes.ofNat n

def zeros (n : Nat) : Bytes := List.replicate n (ascii '0')

/-- All digits, with a decimal point where one is needed and no exponent. -/
def Scaled.positional (d : Scaled) : Bytes :=
  let digits := digitText d.coefficient
  let places := (-d.exponent).toNat
  if 0 ≤ d.exponent then digits ++ zeros d.exponent.toNat
  else if places < digits.length then
    digits.take (digits.length - places) ++ utf8 "." ++ digits.drop (digits.length - places)
  else utf8 "0." ++ zeros (places - digits.length) ++ digits

/-- The exponent of the first digit. -/
def Scaled.leading (d : Scaled) : Int :=
  d.exponent + (digitText d.coefficient).length - 1

/-- One digit before the point and a signed exponent. -/
def Scaled.scientific (d : Scaled) : Bytes :=
  let digits := digitText d.coefficient
  let fraction := if digits.length ≤ 1 then [] else utf8 "." ++ digits.drop 1
  let e := d.leading
  digits.take 1 ++ fraction ++ utf8 (if e < 0 then "e-" else "e+") ++ Bytes.ofNat e.natAbs

def isNegative (x : Float) : Bool := x.toBits.toNat / Nat.pow 2 63 == 1

def signed (x : Float) (magnitude : Bytes) : Bytes :=
  if isNegative x then utf8 "-" ++ magnitude else magnitude

/-- The text of a number in the language. -/
def text (x : Float) : Bytes :=
  if x.isNaN then utf8 "NaN"
  else if x.isInf then utf8 (if isNegative x then "-Inf" else "+Inf")
  else if x == 0 then signed x (utf8 "0")
  else signed x (shortest x).positional

/-- The text of a finite number in JSON: positional from `10 ^ -6` up to below `10 ^ 21`. -/
def jsonText (x : Float) : Bytes :=
  if x == 0 then signed x (utf8 "0")
  else
    let d := shortest x
    signed x (if d.leading < -6 || 21 ≤ d.leading then d.scientific else d.positional)

end Lox.Decimal
