import Lox.Token.Basic

/-! Tokens as a table: kind, lexeme and place in aligned columns. -/
namespace Lox.Token

/-- The text with spaces up to `width` symbols. -/
def padded (width : Nat) (text : Bytes) : Bytes :=
  text ++ Bytes.spaces (width - Utf8.length text)

def row (t : Token) : Bytes :=
  let lexeme := if t.kind = .endOfInput then utf8 "<eof>" else t.lexeme
  padded 14 (utf8 t.kind.name) ++ utf8 " " ++ padded 20 lexeme ++ utf8 " " ++ t.position.text ++
    [newline]

def table (tokens : List Token) : Bytes := tokens.flatMap row

end Lox.Token
