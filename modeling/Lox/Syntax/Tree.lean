import Lox.Token.Basic

/-! Syntax trees. Nodes keep the tokens that faults point at. -/
namespace Lox

inductive Expr where
  | literal (value : Literal)
  | grouping (inner : Expr)
  | unary (op : Token) (operand : Expr)
  | binary (op : Token) (left right : Expr)
  | logicalAnd (op : Token) (left right : Expr)
  | logicalOr (op : Token) (left right : Expr)
  | conditional (question : Token) (condition yes no : Expr)
  | comma (left right : Expr)
  /-- An increment or decrement, written before or after its target. -/
  | crement (op : Token) (target : Expr)
  | variable (name : Token)
  | assign (name : Token) (value : Expr)
  /-- A call, with its closing parenthesis. -/
  | call (callee : Expr) (paren : Token) (args : List Expr)

inductive Stmt where
  | empty
  | expression (e : Expr)
  | print (keyword : Token) (e : Expr)
  | declare (name : Token) (init : Option Expr)
  | block (body : List Stmt)
  | branch (condition : Expr) (yes : Stmt) (no : Option Stmt)
  /-- A loop, with what a `for` loop does after each round. -/
  | loop (condition : Expr) (body : Stmt) (increment : Option Expr)
  | breakLoop (keyword : Token)
  | continueLoop (keyword : Token)
  | function (name : Token) (params : List Token) (body : List Stmt)
  | returnValue (keyword : Token) (value : Option Expr)

end Lox
