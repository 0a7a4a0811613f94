import Lox.Text.Bytes

/-! Dates and times of day as plain scalars of a YAML document. -/
namespace Lox.Yaml.Timestamp

/-- A number of one or two digits at the head of a text, and the rest. -/
def number? (text : Bytes) : Option (Nat × Bytes) :=
  let digits := (text.take 2).takeWhile fun b => Bytes.isDigits [b]
  if digits.isEmpty then none else some (Bytes.digitsValue digits, text.drop digits.length)

/-- A number in a range, after a mark. -/
def field? (mark : Char) (least most : Nat) (text : Bytes) : Option (Nat × Bytes) := do
  let (n, rest) ← number? (← Bytes.after? [ascii mark] text)
  if least ≤ n ∧ n ≤ most then some (n, rest) else none

def isLeap (year : Nat) : Bool := year % 4 = 0 && (year % 100 ≠ 0 || year % 400 = 0)

/-- The days of a month, counted from 1. -/
def daysIn (year month : Nat) : Nat :=
  if month = 2 then if isLeap year then 29 else 28
  else if month = 4 || month = 6 || month = 9 || month = 11 then 30
  else 31

/-- Four digits and a day of that year: the year, month and day, and the rest of the text. -/
def afterDate? (text : Bytes) : Option Bytes := do
  let year := text.take 4
  if year.length < 4 || !Bytes.isDigits year then none
  else
    let (month, rest) ← field? '-' 1 12 (text.drop 4)
    let (_, rest) ← field? '-' 1 (daysIn (Bytes.digitsValue year) month) rest
    some rest

/-- Digits after a point or a comma, if there are any. -/
def afterFraction (text : Bytes) : Bytes :=
  match text with
  | [] => []
  | mark :: rest =>
    let digits := rest.takeWhile fun b => Bytes.isDigits [b]
    if (mark == ascii '.' || mark == ascii ',') && !digits.isEmpty then rest.drop digits.length
    else text

/-- Hour, minute and second, with a fraction of a second. -/
def afterClock? (text : Bytes) : Option Bytes := do
  let (hour, rest) ← number? text
  if 23 < hour then none
  else
    let (_, rest) ← field? ':' 0 59 rest
    let (_, rest) ← field? ':' 0 59 rest
    some (afterFraction rest)

/-- A time zone: `Z`, or a sign and two digits each for hours and minutes. -/
def isZone (text : Bytes) : Bool :=
  match text with
  | [mark] => mark == ascii 'Z'
  | [sign, h₁, h₂, colon, m₁, m₂] =>
    (sign == ascii '+' || sign == ascii '-') && colon == ascii ':' &&
      Bytes.isDigits [h₁, h₂, m₁, m₂] &&
      Bytes.digitsValue [h₁, h₂] ≤ 24 && Bytes.digitsValue [m₁, m₂] ≤ 60
  | _ => false

/-- What stands after a date: nothing, a time with its zone after the letter T, or a time without
one after spaces. -/
def isTime (text : Bytes) : Bool :=
  match text with
  | [] => true
  | mark :: rest =>
    if mark == ascii 'T' || mark == ascii 't' then (afterClock? rest).any isZone
    else if mark == ascii ' ' then
      (afterClock? (rest.dropWhile (· == ascii ' '))).any (·.isEmpty)
    else false

/-- A text is a date, perhaps with a time of day. -/
def isTimestamp (text : Bytes) : Bool := (afterDate? text).any isTime

end Lox.Yaml.Timestamp
