import Lox.Text.Bytes

/-! The lexical categories of the language and its reserved words. -/
namespace Lox

/-- The category of a token, in the order of their numbers. -/
inductive Kind where
  | illegal | endOfInput
  | leftParen | rightParen | leftBrace | rightBrace | comma | dot | minus | plus | semicolon
  | slash | star | question | colon
  | bang | bangEqual | equal | equalEqual | greater | greaterEqual | less | lessEqual
  | plusPlus | minusMinus
  | identifier | string | number
  | kwAnd | kwBreak | kwClass | kwContinue | kwElse | kwFalse | kwFor | kwFun | kwIf | kwNil
  | kwOr | kwPrint | kwReturn | kwSuper | kwThis | kwTrue | kwVar | kwWhile
  deriving DecidableEq, Repr

namespace Kind

/-- Every kind, in order. -/
def all : List Kind :=
  [illegal, endOfInput,
   leftParen, rightParen, leftBrace, rightBrace, comma, dot, minus, plus, semicolon,
   slash, star, question, colon,
   bang, bangEqual, equal, equalEqual, greater, greaterEqual, less, lessEqual,
   plusPlus, minusMinus,
   identifier, string, number,
   kwAnd, kwBreak, kwClass, kwContinue, kwElse, kwFalse, kwFor, kwFun, kwIf, kwNil,
   kwOr, kwPrint, kwReturn, kwSuper, kwThis, kwTrue, kwVar, kwWhile]

/-- The kind with the given number. -/
def ofNumber? (n : Int) : Option Kind := if n < 0 then none else all[n.toNat]?

/-- The spelling of a fixed token, or the name of a category. -/
def name : Kind → String
  | illegal => "ILLEGAL"
  | endOfInput => "EOF"
  | leftParen => "("
  | rightParen => ")"
  | leftBrace => "\x7b"
  | rightBrace => "\x7d"
  | comma => ","
  | dot => "."
  | minus => "-"
  | plus => "+"
  | semicolon => ";"
  | slash => "/"
  | star => "*"
  | question => "?"
  | colon => ":"
  | bang => "!"
  | bangEqual => "!="
  | equal => "="
  | equalEqual => "=="
  | greater => ">"
  | greaterEqual => ">="
  | less => "<"
  | lessEqual => "<="
  | plusPlus => "++"
  | minusMinus => "--"
  | identifier => "IDENTIFIER"
  | string => "STRING"
  | number => "NUMBER"
  | kwAnd => "and"
  | kwBreak => "break"
  | kwClass => "class"
  | kwContinue => "continue"
  | kwElse => "else"
  | kwFalse => "false"
  | kwFor => "for"
  | kwFun => "fun"
  | kwIf => "if"
  | kwNil => "nil"
  | kwOr => "or"
  | kwPrint => "print"
  | kwReturn => "return"
  | kwSuper => "super"
  | kwThis => "this"
  | kwTrue => "true"
  | kwVar => "var"
  | kwWhile => "while"

/-- The kinds of the reserved words. -/
def reserved : List Kind :=
  [kwAnd, kwBreak, kwClass, kwContinue, kwElse, kwFalse, kwFor, kwFun, kwIf, kwNil,
   kwOr, kwPrint, kwReturn, kwSuper, kwThis, kwTrue, kwVar, kwWhile]

def isKeyword (k : Kind) : Bool := reserved.contains k

/-- Identifiers, strings and numbers. -/
def isLiteral : Kind → Bool
  | identifier | string | number => true
  | _ => false

/-- The kind of a word: a reserved word's own kind, else an identifier. -/
def ofWord (word : Bytes) : Kind :=
  (reserved.find? fun k => utf8 k.name == word).getD identifier

/-- The name of the kind with number `n`. A number that no kind has is shown itself. -/
def nameOfNumber (n : Int) : String :=
  match ofNumber? n with
  | some k => k.name
  | none => s!"Kind({n})"

end Kind
end Lox
