import Lox.Text.Utf8

/-! White space as the Unicode property White_Space has it. -/
namespace Lox.Text

def isBlankChar (c : Char) : Bool :=
  let n := c.toNat
  (0x9 ≤ n && n ≤ 0xD) || n == 0x20 || n == 0x85 || n == 0xA0 || n == 0x1680 ||
    (0x2000 ≤ n && n ≤ 0x200A) || n == 0x2028 || n == 0x2029 || n == 0x202F || n == 0x205F ||
    n == 0x3000

def isBlankSymbol : Utf8.Symbol → Bool
  | .char c => isBlankChar c
  | .invalid _ => false

/-- The text holds white space only. -/
def isBlank (text : Bytes) : Bool := (Utf8.decode text).all isBlankSymbol

/-- The text without white space at either end. -/
def trim (text : Bytes) : Bytes :=
  let inner := (Utf8.decode text).dropWhile isBlankSymbol
  Utf8.encode (inner.reverse.dropWhile isBlankSymbol).reverse

end Lox.Text
