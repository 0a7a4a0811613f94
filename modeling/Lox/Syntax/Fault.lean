import Lox.Diagnostic.Basic

/-! Faults of a token sequence. -/
namespace Lox

/-- Why a token sequence is not accepted. -/
inductive SyntaxError where
  /-- Something else should stand here. -/
  | expected (what : String)
  | expectedExpression
  | invalidTarget
  | tooManyArguments
  | tooManyParameters
  | breakOutsideLoop
  | continueOutsideLoop
  | returnOutsideFunction
  | classUnsupported
  | tooDeep
  deriving DecidableEq, Repr

namespace SyntaxError

def code : SyntaxError → String
  | expected _ => "E2001"
  | expectedExpression => "E2002"
  | invalidTarget => "E2003"
  | tooManyArguments | tooManyParameters => "E2004"
  | breakOutsideLoop => "E2005"
  | continueOutsideLoop => "E2006"
  | returnOutsideFunction => "E2007"
  | classUnsupported => "E2008"
  | tooDeep => "E2009"

def message : SyntaxError → String
  | expected what => "expect " ++ what
  | expectedExpression => "expect expression"
  | invalidTarget => "invalid assignment target"
  | tooManyArguments => "can't have more than 255 arguments"
  | tooManyParameters => "can't have more than 255 parameters"
  | breakOutsideLoop => "'break' outside of a loop"
  | continueOutsideLoop => "'continue' outside of a loop"
  | returnOutsideFunction => "'return' outside of a function"
  | classUnsupported => "classes are not supported"
  | tooDeep => "too much nesting"

end SyntaxError

/-- A fault at a token. -/
structure SyntaxFault where
  error : SyntaxError
  token : Token
  deriving DecidableEq

def SyntaxFault.diagnostic (f : SyntaxFault) : Diagnostic :=
  .atToken f.token .parse f.error.code (utf8 f.error.message)

end Lox
