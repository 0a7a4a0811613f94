import Lox.Json.Basic
import Lox.Text.Style

/-! JSON over several lines: every field and element on a line of its own, indented by two spaces
for each level, and coloured on demand. -/
namespace Lox.Json
open Text (escape)

/-- The display attributes of each kind of text. -/
inductive Role where
  | punctuation | key | string | number | bool | null

def Role.start : Role → Bytes
  | punctuation => escape "1"
  | key => escape "1" ++ escape "94"
  | string => escape "32"
  | number => escape "33"
  | bool => escape "36"
  | null => escape "2"

def stop : Bytes := escape "0"

def mark (colour : Bool) (role : Role) (text : Bytes) : Bytes :=
  if colour then role.start ++ text ++ stop else text

/-- How many bytes of an escape sequence are still to come, or none outside of one. -/
def colourEscapes (start : Bytes) : (left : Option Nat) → (bytes : Bytes) → Bytes
  | _, [] => []
  | left, b :: rest =>
    if b == ascii '\\' then
      let size := if rest.head? == some (ascii 'u') then 5 else 1
      stop ++ escape "35" ++ [b] ++ colourEscapes start (some size) rest
    else
      match left with
      | none => b :: colourEscapes start none rest
      | some 1 => b :: (stop ++ start ++ colourEscapes start none rest)
      | some n => b :: colourEscapes start (some (n - 1)) rest

/-- A quoted text in which escape sequences stand out. -/
def markString (colour : Bool) (role : Role) (quoted : Bytes) : Bytes :=
  match quoted with
  | [] => []
  | q :: rest =>
    if colour then role.start ++ [q] ++ colourEscapes role.start none rest ++ stop else q :: rest

def lineStart (depth : Nat) : Bytes := newline :: Bytes.spaces (2 * depth)

mutual

def pretty (colour : Bool) (depth : Nat) : Json → Bytes
  | .null => mark colour .null (utf8 "null")
  | .bool b => mark colour .bool (utf8 (if b then "true" else "false"))
  | .number x => mark colour .number (Decimal.jsonText x)
  | .integer n => mark colour .number (Bytes.ofInt n)
  | .string s => markString colour .string (quote s)
  | .array items =>
    let punctuation := mark colour .punctuation
    match items with
    | [] => punctuation (utf8 "[") ++ punctuation (utf8 "]")
    | item :: items =>
      punctuation (utf8 "[") ++ lineStart (depth + 1) ++ pretty colour (depth + 1) item ++
        prettyItems colour (depth + 1) items ++ lineStart depth ++ punctuation (utf8 "]")
  | .object fields =>
    let punctuation := mark colour .punctuation
    match fields with
    | [] => punctuation (utf8 "\x7b") ++ punctuation (utf8 "\x7d")
    | (key, value) :: fields =>
      punctuation (utf8 "\x7b") ++ lineStart (depth + 1) ++ markString colour .key (quote key) ++
        punctuation (utf8 ":") ++ utf8 " " ++ pretty colour (depth + 1) value ++
        prettyFields colour (depth + 1) fields ++ lineStart depth ++ punctuation (utf8 "\x7d")

def prettyItems (colour : Bool) (depth : Nat) : List Json → Bytes
  | [] => []
  | item :: items =>
    utf8 "," ++ lineStart depth ++ pretty colour depth item ++ prettyItems colour depth items

def prettyFields (colour : Bool) (depth : Nat) : List (Bytes × Json) → Bytes
  | [] => []
  | (key, value) :: fields =>
    mark colour .punctuation (utf8 ",") ++ lineStart depth ++ markString colour .key (quote key) ++
      mark colour .punctuation (utf8 ":") ++ utf8 " " ++ pretty colour depth value ++
      prettyFields colour depth fields

end

/-- The text of a value, ended by a line end. -/
def document (colour : Bool) (j : Json) : Bytes := pretty colour 0 j ++ [newline]

mutual

/-- The first number in a value that JSON has no text for, as it is not finite. -/
def unwritable? : Json → Option Float
  | .number x => if x.isFinite then none else some x
  | .array items => unwritableItem? items
  | .object fields => unwritableField? fields
  | .null | .bool _ | .integer _ | .string _ => none

def unwritableItem? : List Json → Option Float
  | [] => none
  | item :: items => (unwritable? item).or (unwritableItem? items)

def unwritableField? : List (Bytes × Json) → Option Float
  | [] => none
  | (_, value) :: fields => (unwritable? value).or (unwritableField? fields)

end

/-- Why a value has no text. -/
inductive EncodingError where
  | unsupported (x : Float)

def EncodingError.message : EncodingError → Bytes
  | unsupported x => utf8 "json: unsupported value: " ++ Decimal.text x

/-- The text of a value if it has one. -/
def encode (colour : Bool) (j : Json) : Except EncodingError Bytes :=
  match j.unwritable? with
  | none => .ok (document colour j)
  | some x => .error (.unsupported x)

end Lox.Json
