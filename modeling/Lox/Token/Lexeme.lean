import Lox.Token.Basic
import Lox.Decimal.Read

/-! The lexical grammar: the piece of text at the head of a source, as the longest lexeme there, as
white space or a comment to skip, or as a fault. -/
namespace Lox

/-- Why a piece of source is not accepted. -/
inductive LexicalError where
  | unterminatedString
  | unknownEscape
  | unexpectedCharacter
  | unterminatedComment
  | numberOutOfRange
  deriving DecidableEq, Repr

/-- What a piece of source is. -/
inductive Piece.Content where
  | skipped
  | token (kind : Kind) (literal : Literal)
  | fault (error : LexicalError)
  deriving DecidableEq

/-- A piece at the head of a source and what follows it. -/
structure Piece where
  content : Piece.Content
  text : Bytes
  rest : Bytes
  /-- The unknown escape sequences of a string, by the offset of the backslash in `text` and the
  byte after it. -/
  escapes : List (Nat × UInt8) := []

namespace Piece

def isDigit (b : UInt8) : Bool := ascii '0' ≤ b && b ≤ ascii '9'

def isLetter (b : UInt8) : Bool :=
  b == ascii '_' || (ascii 'a' ≤ b && b ≤ ascii 'z') || (ascii 'A' ≤ b && b ≤ ascii 'Z')

def isWordByte (b : UInt8) : Bool := isLetter b || isDigit b

def isSpace (b : UInt8) : Bool :=
  b == ascii ' ' || b == ascii '\r' || b == ascii '\t' || b == newline

/-- The kind of a byte that is a token on its own, whatever follows it. -/
def single? (b : UInt8) : Option Kind :=
  if b == ascii '(' then some .leftParen
  else if b == ascii ')' then some .rightParen
  else if b == ascii '\x7b' then some .leftBrace
  else if b == ascii '\x7d' then some .rightBrace
  else if b == ascii ',' then some .comma
  else if b == ascii '.' then some .dot
  else if b == ascii ';' then some .semicolon
  else if b == ascii '*' then some .star
  else if b == ascii '?' then some .question
  else if b == ascii ':' then some .colon
  else none

/-- A byte that is a token on its own and another one together with a second byte: the second
byte, the kind of both, and the kind of the first alone. -/
def double? (b : UInt8) : Option (UInt8 × Kind × Kind) :=
  if b == ascii '-' then some (ascii '-', .minusMinus, .minus)
  else if b == ascii '+' then some (ascii '+', .plusPlus, .plus)
  else if b == ascii '!' then some (ascii '=', .bangEqual, .bang)
  else if b == ascii '=' then some (ascii '=', .equalEqual, .equal)
  else if b == ascii '<' then some (ascii '=', .lessEqual, .less)
  else if b == ascii '>' then some (ascii '=', .greaterEqual, .greater)
  else none

/-- The byte that a known escape sequence stands for. -/
def escaped? (b : UInt8) : Option UInt8 :=
  if b == ascii 'n' then some 10
  else if b == ascii 't' then some 9
  else if b == ascii 'r' then some 13
  else if b == ascii '0' then some 0
  else if b == ascii '\\' then some (ascii '\\')
  else if b == ascii '"' then some (ascii '"')
  else none

/-- A string that has been read up to some point: the text and the value, last byte first, and the
unknown escapes, last one first. -/
structure OpenString where
  text : Bytes
  value : Bytes
  escapes : List (Nat × UInt8)

def OpenString.opened : OpenString := ⟨[ascii '"'], [], []⟩

/-- The rest of a string whose beginning has been read. -/
def string (s : OpenString) : Bytes → Piece
  | [] => ⟨.fault .unterminatedString, s.text.reverse, [], s.escapes.reverse⟩
  | b :: rest =>
    if b == ascii '"' then
      ⟨.token .string (.string s.value.reverse), (b :: s.text).reverse, rest, s.escapes.reverse⟩
    else if b == ascii '\\' then
      match rest with
      | [] => ⟨.fault .unterminatedString, (b :: s.text).reverse, [], s.escapes.reverse⟩
      | e :: rest =>
        match escaped? e with
        | some v => string ⟨e :: b :: s.text, v :: s.value, s.escapes⟩ rest
        | none =>
          string ⟨e :: b :: s.text, e :: s.value, (s.text.length, e) :: s.escapes⟩ rest
    else string ⟨b :: s.text, b :: s.value, s.escapes⟩ rest

/-- The rest of a block comment whose beginning, last byte first, is `text`. -/
def blockComment (text : Bytes) : Bytes → Piece
  | [] => ⟨.fault .unterminatedComment, text.reverse, [], []⟩
  | b :: rest =>
    if b == ascii '*' then
      match rest with
      | [] => ⟨.fault .unterminatedComment, (b :: text).reverse, [], []⟩
      | c :: more =>
        if c == ascii '/' then ⟨.skipped, (c :: b :: text).reverse, more, []⟩
        else blockComment (b :: text) (c :: more)
    else blockComment (b :: text) rest

/-- The longest run of bytes with property `p`, after `text`. -/
def run (p : UInt8 → Bool) (text rest : Bytes) : Bytes × Bytes :=
  (text ++ rest.takeWhile p, rest.dropWhile p)

/-- Digits, with a fraction if a digit follows the point. -/
def numeral (b : UInt8) (rest : Bytes) : Bytes × Bytes :=
  let whole := run isDigit [b] rest
  match whole.2 with
  | p :: d :: more =>
    if p == ascii '.' && isDigit d then run isDigit (whole.1 ++ [p, d]) more else whole
  | _ => whole

def number (b : UInt8) (rest : Bytes) : Piece :=
  let (text, rest) := numeral b rest
  match Decimal.read? text with
  | some x => ⟨.token .number (.number x), text, rest, []⟩
  | none => ⟨.fault .numberOutOfRange, text, rest, []⟩

def word (b : UInt8) (rest : Bytes) : Piece :=
  let (text, rest) := run isWordByte [b] rest
  ⟨.token (Kind.ofWord text) .nil, text, rest, []⟩

/-- A slash, or a comment that starts with one. -/
def slash (rest : Bytes) : Piece :=
  match rest with
  | [] => ⟨.token .slash .nil, [ascii '/'], [], []⟩
  | c :: more =>
    if c == ascii '/' then
      let (text, rest) := run (· != newline) [ascii '/', c] more
      ⟨.skipped, text, rest, []⟩
    else if c == ascii '*' then blockComment [c, ascii '/'] more
    else ⟨.token .slash .nil, [ascii '/'], rest, []⟩

def operator (b second : UInt8) (two one : Kind) : Bytes → Piece
  | [] => ⟨.token one .nil, [b], [], []⟩
  | c :: more =>
    if c == second then ⟨.token two .nil, [b, c], more, []⟩
    else ⟨.token one .nil, [b], c :: more, []⟩

/-- A character that starts nothing, as a whole. -/
def unexpected (b : UInt8) (rest : Bytes) : Piece :=
  let size := (Utf8.head b rest).2
  ⟨.fault .unexpectedCharacter, b :: rest.take size, rest.drop size, []⟩

/-- The piece at the head of the source `b :: rest`. -/
def head (b : UInt8) (rest : Bytes) : Piece :=
  if isSpace b then ⟨.skipped, [b], rest, []⟩
  else if let some kind := single? b then ⟨.token kind .nil, [b], rest, []⟩
  else if let some (second, two, one) := double? b then operator b second two one rest
  else if b == ascii '/' then slash rest
  else if b == ascii '"' then string .opened rest
  else if isDigit b then number b rest
  else if isLetter b then word b rest
  else unexpected b rest

end Piece
end Lox
