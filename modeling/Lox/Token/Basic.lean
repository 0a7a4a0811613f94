import Lox.Token.Kind
import Lox.Text.Quoted
import Lox.Decimal.Layout

/-! Tokens: a kind, the source text, what a literal stands for, and a place in the source. -/
namespace Lox

/-- A place in a source: the byte offset from 0, and line and column from 1. -/
structure Position where
  offset : Nat
  line : Nat
  column : Nat
  deriving DecidableEq, Repr

namespace Position

/-- The place of the first byte. -/
def start : Position := ⟨0, 1, 1⟩

/-- The place after one more byte. -/
def step (p : Position) (b : UInt8) : Position :=
  if b == newline then ⟨p.offset + 1, p.line + 1, 1⟩ else ⟨p.offset + 1, p.line, p.column + 1⟩

/-- The place after a piece of text. -/
def advance (p : Position) (text : Bytes) : Position := text.foldl step p

def text (p : Position) : Bytes := Bytes.ofNat p.line ++ utf8 ":" ++ Bytes.ofNat p.column

end Position

/-- What a literal stands for. A token that is no literal has `nil`. -/
inductive Literal where
  | nil
  | bool (b : Bool)
  | number (x : Float)
  | string (s : Bytes)
  deriving DecidableEq

/-- The text of a literal in a tree: a string is quoted. -/
def Literal.text : Literal → Bytes
  | nil => utf8 "nil"
  | bool b => utf8 (if b then "true" else "false")
  | number x => Decimal.text x
  | string s => Text.quote s

structure Token where
  kind : Kind
  lexeme : Bytes
  literal : Literal := .nil
  position : Position
  deriving DecidableEq

namespace Token

/-- What is found where no token is left: the end of the input, at no place. -/
def absent : Token := ⟨.endOfInput, [], .nil, ⟨0, 0, 0⟩⟩

/-- One line that describes the token. -/
def text (t : Token) : Bytes :=
  let payload :=
    match t.literal with
    | .number x => utf8 " " ++ Decimal.text x
    | .string s => utf8 " " ++ Text.quote s
    | _ => []
  utf8 t.kind.name ++ utf8 " " ++ Text.quote t.lexeme ++ payload ++ utf8 " " ++ t.position.text

end Token
end Lox
