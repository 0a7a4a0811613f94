import Lox.Token.Lexeme
import Lox.Diagnostic.Basic

/-! Scanning: the tokens of a source, with all faults found on the way. -/
namespace Lox

/-- A fault of a source text, with the text that is reported as its cause. -/
structure LexicalFault where
  error : LexicalError
  position : Position
  lexeme : Bytes
  deriving DecidableEq

namespace LexicalFault

def code (f : LexicalFault) : String :=
  match f.error with
  | .unterminatedString => "E1001"
  | .unknownEscape => "E1002"
  | .unexpectedCharacter => "E1003"
  | .unterminatedComment => "E1004"
  | .numberOutOfRange => "E1005"

def message (f : LexicalFault) : Bytes :=
  match f.error with
  | .unterminatedString => utf8 "unterminated string"
  | .unknownEscape => utf8 "unknown escape sequence " ++ Bytes.apostrophes f.lexeme
  | .unexpectedCharacter => utf8 "unexpected character " ++ Text.quote f.lexeme
  | .unterminatedComment => utf8 "unterminated block comment"
  | .numberOutOfRange => utf8 "invalid number literal " ++ Bytes.apostrophes f.lexeme

def diagnostic (f : LexicalFault) : Diagnostic :=
  .atPosition f.position f.lexeme .scan f.code f.message

end LexicalFault

/-- The result of scanning. -/
structure Scan where
  tokens : List Token
  faults : List LexicalFault
  deriving DecidableEq

namespace Piece

/-- The text reported for a faulty piece: a string up to the end of its first line, the start of a
comment, an unexpected character as it is shown, or a whole number. -/
def reported (error : LexicalError) (text : Bytes) : Bytes :=
  match error with
  | .unterminatedString => Bytes.firstLine text
  | .unterminatedComment => utf8 "/*"
  | .unexpectedCharacter => ((Utf8.chars text).take 1).flatMap String.utf8EncodeChar
  | .unknownEscape | .numberOutOfRange => text

/-- The fault of an unknown escape sequence; the byte after the backslash is shown as the
character with its number. -/
def escapeFault (start : Position) (text : Bytes) (escape : Nat × UInt8) : LexicalFault where
  error := .unknownEscape
  position := start.advance (text.take escape.1)
  lexeme := ascii '\\' :: String.utf8EncodeChar (Char.ofNat escape.2.toNat)

/-- The token of a piece that starts at `start`. -/
def token? (start : Position) (p : Piece) : Option Token :=
  match p.content with
  | .token kind literal => some ⟨kind, p.text, literal, start⟩
  | _ => none

/-- The faults of a piece that starts at `start`. -/
def faults (start : Position) (p : Piece) : List LexicalFault :=
  p.escapes.map (escapeFault start p.text) ++
    match p.content with
    | .fault error => [⟨error, start, reported error p.text⟩]
    | _ => []

end Piece

namespace Scan

/-- The tokens and faults found so far, last one first. -/
def add (found : Scan) (start : Position) (p : Piece) : Scan where
  tokens := (p.token? start).toList ++ found.tokens
  faults := (p.faults start).reverse ++ found.faults

def finish (found : Scan) (stop : Position) : Scan where
  tokens := (⟨.endOfInput, [], .nil, stop⟩ :: found.tokens).reverse
  faults := found.faults.reverse

/-- Scans piece by piece; `fuel` bounds the number of pieces. -/
def loop : (fuel : Nat) → Scan → Position → Bytes → Scan
  | _, found, start, [] => finish found start
  | 0, found, start, _ :: _ => finish found start
  | fuel + 1, found, start, b :: rest =>
    let p := Piece.head b rest
    loop fuel (add found start p) (start.advance p.text) p.rest

/-- The tokens of a source, ended by the end of the input, and its faults in order. -/
def ofSource (source : Bytes) : Scan := loop source.length ⟨[], []⟩ .start source

end Scan
end Lox
