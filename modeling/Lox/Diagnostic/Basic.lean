import Lox.Token.Basic

/-! Diagnostics: faults as they are reported to the user. -/
namespace Lox

/-- The stage that reports a fault. -/
inductive Stage where
  | scan | parse | runtime | unknown
  deriving DecidableEq, Repr

def Stage.name : Stage → String
  | scan => "scan"
  | parse => "parse"
  | runtime => "runtime"
  | unknown => "unknown"

def Stage.ofNumber (n : Int) : Stage :=
  if n = 0 then scan else if n = 1 then parse else if n = 2 then runtime else unknown

/-- A fault with its place and the source text that it is about. -/
structure Diagnostic where
  code : String
  stage : Stage
  message : Bytes
  line : Int
  column : Int
  offset : Int
  lexeme : Bytes
  /-- The fault is about the end of the input. -/
  atEnd : Bool := false
  hint : Bytes := []
  deriving DecidableEq

namespace Diagnostic

/-- A fault about a text that starts at `p`. -/
def atPosition (p : Position) (lexeme : Bytes) (stage : Stage) (code : String) (message : Bytes) :
    Diagnostic where
  code := code
  stage := stage
  message := message
  line := p.line
  column := p.column
  offset := p.offset
  lexeme := lexeme

/-- A fault about a token. -/
def atToken (t : Token) (stage : Stage) (code : String) (message : Bytes) : Diagnostic :=
  { Diagnostic.atPosition t.position t.lexeme stage code message with atEnd := t.kind = .endOfInput }

/-- What the fault is about: the end of the input or a source text. -/
def location (d : Diagnostic) : Bytes := if d.atEnd then utf8 "end" else d.lexeme

/-- The fault in one line. -/
def text (d : Diagnostic) : Bytes :=
  utf8 "[line: " ++ Bytes.ofInt d.line ++ utf8 ", column: " ++ Bytes.ofInt d.column ++
    utf8 " at " ++ d.location ++ utf8 "] error: " ++ d.message

end Diagnostic
end Lox
