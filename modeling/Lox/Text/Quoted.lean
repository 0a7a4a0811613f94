import Lox.Text.Printable
import Lox.Text.Utf8

/-! Text between double quotes, with escapes for what cannot be printed. -/
namespace Lox.Text

def hexDigit (n : Nat) : UInt8 :=
  if n < 10 then UInt8.ofNat (48 + n) else UInt8.ofNat (87 + n)

/-- The last `width` hexadecimal digits of a number. -/
def hex (width n : Nat) : Bytes :=
  (List.range width).reverse.map fun i => hexDigit (n / Nat.pow 16 i % 16)

def shortEscape? (c : Char) : Option String :=
  if c == '"' then some "\\\""
  else if c == '\\' then some "\\\\"
  else if c == '\n' then some "\\n"
  else if c == '\r' then some "\\r"
  else if c == '\t' then some "\\t"
  else match c.toNat with
    | 7 => some "\\a"
    | 8 => some "\\b"
    | 11 => some "\\v"
    | 12 => some "\\f"
    | _ => none

def quoteSymbol : Utf8.Symbol → Bytes
  | .invalid b => utf8 "\\x" ++ hex 2 b.toNat
  | .char c =>
    match shortEscape? c with
    | some escape => utf8 escape
    | none =>
      let n := c.toNat
      if isPrintable c then String.utf8EncodeChar c
      else if n < 0x80 then utf8 "\\x" ++ hex 2 n
      else if n < 0x10000 then utf8 "\\u" ++ hex 4 n
      else utf8 "\\U" ++ hex 8 n

/-- A printable form of any text from which its bytes can be read back. -/
def quote (text : Bytes) : Bytes :=
  utf8 "\"" ++ (Utf8.decode text).flatMap quoteSymbol ++ utf8 "\""

end Lox.Text
