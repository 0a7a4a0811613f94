import Lox.Json.Basic
import Lox.Syntax.Tree

/-! Syntax trees as JSON values. -/
namespace Lox

def Literal.toJson : Literal → Json
  | nil => .null
  | bool b => .bool b
  | number x => .number x
  | string s => .string s

def Token.toJson (t : Token) : Json :=
  .ofFields [("lexeme", .string t.lexeme), ("line", .integer t.position.line),
    ("column", .integer t.position.column)]

namespace Json

/-- An object that names the kind of its node. -/
def node (kind : String) (fields : List (String × Json)) : Json :=
  .ofFields (("kind", .string (utf8 kind)) :: fields)

/-- A field that may be missing. -/
def field? (key : String) (value : Option Json) : List (String × Json) :=
  (value.map (key, ·)).toList

end Json

open Json (node field?)

mutual

def Expr.toJson : Expr → Json
  | .literal v => node "Literal" [("value", v.toJson)]
  | .grouping e => node "Grouping" [("expr", e.toJson)]
  | .unary op e => node "Unary" [("op", op.toJson), ("operand", e.toJson)]
  | .binary op a b =>
    node "Binary" [("op", op.toJson), ("left", a.toJson), ("right", b.toJson)]
  | .logicalAnd _ a b => node "LogicalAnd" [("left", a.toJson), ("right", b.toJson)]
  | .logicalOr _ a b => node "LogicalOr" [("left", a.toJson), ("right", b.toJson)]
  | .conditional _ c a b =>
    node "Ternary" [("condition", c.toJson), ("then", a.toJson), ("else", b.toJson)]
  | .comma a b => node "Comma" [("left", a.toJson), ("right", b.toJson)]
  | .crement op e => node "Crement" [("op", op.toJson), ("target", e.toJson)]
  | .variable name => node "Variable" [("name", name.toJson)]
  | .assign name e => node "Assign" [("name", name.toJson), ("value", e.toJson)]
  | .call callee _ args =>
    node "Call" [("callee", callee.toJson), ("args", .array (exprsToJson args))]

def exprsToJson : List Expr → List Json
  | [] => []
  | e :: es => e.toJson :: exprsToJson es

end

mutual

def Stmt.toJson : Stmt → Json
  | .empty => node "Empty" []
  | .expression e => node "Expression" [("expr", e.toJson)]
  | .print _ e => node "Print" [("expr", e.toJson)]
  | .declare name init =>
    node "Var" (("name", name.toJson) :: field? "init" (init.map Expr.toJson))
  | .block body => node "Block" [("stmts", .array (stmtsToJson body))]
  | .branch c yes no =>
    node "If" ([("condition", c.toJson), ("then", yes.toJson)] ++ field? "else" (elseToJson no))
  | .loop c body increment =>
    node "While" ([("condition", c.toJson), ("body", body.toJson)] ++
      field? "increment" (increment.map Expr.toJson))
  | .breakLoop keyword => node "Break" [("keyword", keyword.toJson)]
  | .continueLoop keyword => node "Continue" [("keyword", keyword.toJson)]
  | .function name params body =>
    node "Function" [("name", name.toJson), ("params", .array (params.map Token.toJson)),
      ("body", .array (stmtsToJson body))]
  | .returnValue keyword value =>
    node "Return" (("keyword", keyword.toJson) :: field? "value" (value.map Expr.toJson))

def elseToJson : Option Stmt → Option Json
  | none => none
  | some s => some s.toJson

def stmtsToJson : List Stmt → List Json
  | [] => []
  | s :: ss => s.toJson :: stmtsToJson ss

end

end Lox
