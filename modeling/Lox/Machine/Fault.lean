import Lox.Diagnostic.Basic

/-! Faults of a running program. -/
namespace Lox

/-- Why a program cannot go on. -/
inductive RuntimeError where
  | operandNotNumber
  | operandsNotNumbers
  | operandsNotAddable
  | undefinedVariable (suggestion : Option Bytes)
  | divisionByZero
  | notCallable
  | wrongArity (expected : Int) (given : Nat)
  | stackOverflow
  /-- A function of the host failed with a text. -/
  | hostFailure (text : Bytes)
  /-- A function of the host raised a fault of its own. -/
  | hostFault (code : String) (message : Bytes)
  deriving DecidableEq

/-- A fault at a token. -/
structure RuntimeFault where
  error : RuntimeError
  token : Token
  deriving DecidableEq

namespace RuntimeFault

def code (f : RuntimeFault) : String :=
  match f.error with
  | .operandNotNumber => "E3001"
  | .operandsNotNumbers => "E3002"
  | .operandsNotAddable => "E3003"
  | .undefinedVariable _ => "E3004"
  | .divisionByZero => "E3005"
  | .notCallable => "E3006"
  | .wrongArity _ _ => "E3007"
  | .stackOverflow => "E3008"
  | .hostFailure _ => "E3009"
  | .hostFault code _ => code

def message (f : RuntimeFault) : Bytes :=
  match f.error with
  | .operandNotNumber => utf8 "operand must be a number"
  | .operandsNotNumbers => utf8 "operands must be numbers"
  | .operandsNotAddable => utf8 "operands must be two numbers or two strings"
  | .undefinedVariable _ => utf8 "undefined variable " ++ Bytes.apostrophes f.token.lexeme
  | .divisionByZero => utf8 "division by zero"
  | .notCallable => utf8 "can only call functions"
  | .wrongArity expected given =>
    utf8 "expected " ++ Bytes.ofInt expected ++ utf8 " arguments but got " ++ Bytes.ofNat given
  | .stackOverflow => utf8 "stack overflow"
  | .hostFailure text => text
  | .hostFault _ message => message

def hint (f : RuntimeFault) : Bytes :=
  match f.error with
  | .undefinedVariable (some name) => utf8 "did you mean " ++ Bytes.apostrophes name ++ utf8 "?"
  | _ => []

def diagnostic (f : RuntimeFault) : Diagnostic :=
  { Diagnostic.atToken f.token .runtime f.code f.message with hint := f.hint }

end RuntimeFault
end Lox
