import Lox.Decimal.Read
import Lox.Yaml.Problem
import Lox.Yaml.Timestamp

/-! What a scalar of a YAML document stands for. -/
namespace Lox.Yaml

/-- The meaning of a scalar. -/
inductive Scalar where
  | null
  | bool (b : Bool)
  | int (n : Int)
  | float (x : Float)
  | timestamp
  | string
  deriving DecidableEq

/-- The short form of the tag of a scalar. -/
def Scalar.tag : Scalar → Bytes
  | null => utf8 "!!null"
  | bool _ => utf8 "!!bool"
  | int _ => utf8 "!!int"
  | float _ => utf8 "!!float"
  | timestamp => utf8 "!!timestamp"
  | string => utf8 "!!str"

namespace Scalar

def digitValue? (b : UInt8) : Option Nat :=
  if ascii '0' ≤ b && b ≤ ascii '9' then some (b.toNat - 48)
  else if ascii 'a' ≤ b && b ≤ ascii 'f' then some (b.toNat - 87)
  else if ascii 'A' ≤ b && b ≤ ascii 'F' then some (b.toNat - 55)
  else none

/-- The number written by digits of a base. -/
def inBase? (base : Nat) (digits : Bytes) : Option Nat :=
  if digits.isEmpty then none
  else digits.foldlM (fun n b =>
    match digitValue? b with
    | some d => if d < base then some (base * n + d) else none
    | none => none) 0

/-- A natural number, whose base shows in how it starts: 0x, 0o or 0b, and octal also after 0. -/
def natural? (text : Bytes) : Option Nat :=
  match text with
  | [] => none
  | [_] => inBase? 10 text
  | zero :: mark :: digits =>
    if zero != ascii '0' then inBase? 10 text
    else if mark == ascii 'x' || mark == ascii 'X' then inBase? 16 digits
    else if mark == ascii 'o' || mark == ascii 'O' then inBase? 8 digits
    else if mark == ascii 'b' || mark == ascii 'B' then inBase? 2 digits
    else inBase? 8 (mark :: digits)

/-- A whole number of 64 bits, signed, or unsigned if it has no sign. -/
def integer? (text : Bytes) : Option Int :=
  let (negative, digits) := Decimal.splitSign text
  match natural? digits with
  | none => none
  | some n =>
    if negative then if n ≤ Nat.pow 2 63 then some (-(n : Int)) else none
    else if n < Nat.pow 2 63 || (digits.length = text.length && n < Nat.pow 2 64) then
      some (n : Int)
    else none

/-- A whole number of 64 bits whose sign stands after the mark of its base, 0b or 0o. -/
def signedInBase? (text : Bytes) : Option Int :=
  let read (base : Nat) (signed : Bytes) : Option Int :=
    let (negative, digits) := Decimal.splitSign signed
    match inBase? base digits with
    | none => none
    | some n =>
      if negative then if n ≤ Nat.pow 2 63 then some (-(n : Int)) else none
      else if n < Nat.pow 2 63 then some (n : Int) else none
  match Bytes.after? (utf8 "0b") text, Bytes.after? (utf8 "0o") text with
  | some signed, _ => read 2 signed
  | none, some signed => read 8 signed
  | none, none => none

/-- Each underscore has a digit on either side. -/
def separatesDigits (text : Bytes) : Bool :=
  let isDigitAt (i : Nat) : Bool := (text[i]?).any fun b => Bytes.isDigits [b]
  (List.range text.length).all fun i =>
    text[i]? != some (ascii '_') || (0 < i && isDigitAt (i - 1) && isDigitAt (i + 1))

/-- A number that starts with a point; underscores may separate its digits. -/
def fraction? (text : Bytes) : Option Float :=
  if separatesDigits text then Decimal.readScientific? (text.filter (· != ascii '_')) else none

def named? (text : Bytes) : Option Scalar :=
  if Bytes.isOneOf ["", "~", "null", "Null", "NULL"] text then some null
  else if Bytes.isOneOf ["true", "True", "TRUE"] text then some (bool true)
  else if Bytes.isOneOf ["false", "False", "FALSE"] text then some (bool false)
  else if Bytes.isOneOf [".nan", ".NaN", ".NAN"] text then some (float (0.0 / 0.0))
  else if Bytes.isOneOf [".inf", ".Inf", ".INF", "+.inf", "+.Inf", "+.INF"] text then
    some (float (1.0 / 0.0))
  else if Bytes.isOneOf ["-.inf", "-.Inf", "-.INF"] text then some (float (-1.0 / 0.0))
  else none

/-- The number that a text stands for which starts with a digit or a sign. -/
def number? (text : Bytes) : Option Scalar :=
  let plain := text.filter (· != ascii '_')
  match integer? plain, Decimal.readScientific? plain, signedInBase? plain with
  | some n, _, _ => some (int n)
  | none, some x, _ => some (float x)
  | none, none, some n => some (int n)
  | none, none, none => none

/-- The meaning of a plain scalar, which shows in its first byte. -/
def ofPlain (text : Bytes) : Scalar :=
  match named? text with
  | some scalar => scalar
  | none =>
    match text with
    | [] => null
    | b :: _ =>
      if b == ascii '.' then ((fraction? text).map float).getD string
      else if b == ascii '+' || b == ascii '-' || Bytes.isDigits [b] then
        if Timestamp.isTimestamp text then timestamp else (number? text).getD string
      else string

/-- The tags whose scalars have a meaning besides their text. -/
def hasMeaning (tag : Bytes) : Bool :=
  Bytes.isOneOf ["!!bool", "!!int", "!!float", "!!null", "!!timestamp"] tag

/-- The meaning of a scalar with a tag. A number with the tag of fractions may be whole. -/
def ofTagged (tag text : Bytes) : Except Problem Scalar :=
  if !hasMeaning tag then .ok string
  else
    let scalar := ofPlain text
    let mismatch : Problem :=
      { what := utf8 "cannot decode " ++ scalar.tag ++ utf8 " `" ++ text ++ utf8 "` as a " ++ tag }
    if scalar.tag = tag then .ok scalar
    else
      match scalar with
      | int n =>
        if tag = utf8 "!!float" && n < Int.pow 2 63 then .ok (float (Float.ofInt n))
        else .error mismatch
      | _ => .error mismatch

end Scalar
end Lox.Yaml
