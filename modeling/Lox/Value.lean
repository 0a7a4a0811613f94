import Lox.Syntax.Tree

/-! The values that programs compute with. -/
namespace Lox

/-- A scope is known by the number of scopes created before it. -/
abbrev ScopeId := Nat

/-- A function of the program, with the scope in which it was declared. Each execution of a
declaration makes a function of its own. -/
structure Closure where
  identity : Nat
  name : Token
  params : List Token
  body : List Stmt
  scope : ScopeId

/-- What a function of the host does. -/
inductive Native.Action where
  /-- Gives the time in seconds. -/
  | clock
  /-- Gives its last argument, or nil without arguments. -/
  | lastArgument
  /-- Fails with a text. -/
  | fail (text : Bytes)
  /-- Raises a fault of its own, at no token. -/
  | raise (code : String) (message : Bytes)
  deriving DecidableEq

/-- A function of the host. -/
structure Native where
  identity : Nat
  arity : Int
  action : Native.Action
  deriving DecidableEq

inductive Value where
  | nil
  | bool (b : Bool)
  | number (x : Float)
  | string (s : Bytes)
  | function (f : Closure)
  | native (f : Native)

namespace Value

def ofLiteral : Literal → Value
  | .nil => nil
  | .bool b => bool b
  | .number x => number x
  | .string s => string s

def typeName : Value → String
  | nil => "nil"
  | bool _ => "boolean"
  | number _ => "number"
  | string _ => "string"
  | function _ => "function"
  | native _ => "native"

/-- The text that `print` shows. -/
def text : Value → Bytes
  | nil => utf8 "nil"
  | bool b => utf8 (if b then "true" else "false")
  | number x => Decimal.text x
  | string s => s
  | function f => utf8 "<fn " ++ f.name.lexeme ++ utf8 ">"
  | native _ => utf8 "<native fn>"

/-- Only nil and false count as false. -/
def isTruthy : Value → Bool
  | nil => false
  | bool b => b
  | _ => true

/-- Values of different types differ, and functions are equal to themselves only. -/
def equal : Value → Value → Bool
  | nil, nil => true
  | bool a, bool b => a == b
  | number x, number y => x == y
  | string s, string t => s == t
  | function f, function g => f.identity == g.identity
  | native f, native g => f.identity == g.identity
  | _, _ => false

end Value
end Lox
