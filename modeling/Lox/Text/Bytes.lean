/-! Byte strings, the form in which every text is read and written. -/
namespace Lox

/-- A text as its bytes; it need not be well-formed UTF-8. -/
abbrev Bytes := List UInt8

/-- The UTF-8 bytes of a text. -/
def utf8 (s : String) : Bytes := s.toUTF8.data.toList

/-- The byte of an ASCII character. -/
abbrev ascii (c : Char) : UInt8 := c.toUInt8

/-- The byte that ends a line. -/
def newline : UInt8 := 10

namespace Bytes

def ofNat (n : Nat) : Bytes := utf8 (toString n)

def ofInt (n : Int) : Bytes := utf8 (toString n)

def spaces (n : Nat) : Bytes := List.replicate n (ascii ' ')

/-- The pieces between line ends; a text with `n` line ends has `n + 1` of them. -/
def lines (text : Bytes) : List Bytes := text.splitOn newline

def firstLine (text : Bytes) : Bytes := text.takeWhile (· != newline)

/-- The text between single quotes. -/
def apostrophes (text : Bytes) : Bytes := utf8 "'" ++ text ++ utf8 "'"

/-- All elements of `bytes` are ASCII digits, and there is one at least. -/
def isDigits (bytes : Bytes) : Bool :=
  !bytes.isEmpty && bytes.all fun b => ascii '0' ≤ b && b ≤ ascii '9'

/-- The number written by decimal digits. -/
def digitsValue (bytes : Bytes) : Nat :=
  bytes.foldl (fun n b => 10 * n + (b.toNat - 48)) 0

/-- Drops the bytes at the end that satisfy `p`. -/
def trimEnd (p : UInt8 → Bool) (text : Bytes) : Bytes :=
  (text.reverse.dropWhile p).reverse

def isOneOf (words : List String) (text : Bytes) : Bool := words.any fun word => utf8 word == text

/-- What follows `head` in `text`, if `text` starts with it. -/
def after? : (head text : Bytes) → Option Bytes
  | [], text => some text
  | _ :: _, [] => none
  | a :: head, b :: text => if a == b then after? head text else none

end Bytes
end Lox
