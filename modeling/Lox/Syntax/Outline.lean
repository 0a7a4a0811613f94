import Lox.Syntax.Tree

/-! A syntax tree as indented lines, one node a line and its parts below it. -/
namespace Lox

/-- A line with its depth in the tree. -/
structure OutlineLine where
  depth : Nat
  label : Bytes
  deriving DecidableEq

def OutlineLine.text (l : OutlineLine) : Bytes := Bytes.spaces (2 * l.depth) ++ l.label ++ [newline]

namespace Outline

/-- The line of a node without a text of its own. -/
def plain (d : Nat) (name : String) : OutlineLine := ⟨d, utf8 "[" ++ utf8 name ++ utf8 "]"⟩

/-- The line of a node with a text of its own. -/
def labelled (d : Nat) (name : String) (text : Bytes) : OutlineLine :=
  ⟨d, utf8 "[" ++ utf8 name ++ utf8 "] (" ++ text ++ utf8 ")"⟩

def signature (name : Token) (params : List Token) : Bytes :=
  name.lexeme ++ utf8 "(" ++ (utf8 ", ").intercalate (params.map (·.lexeme)) ++ utf8 ")"

end Outline

open Outline

mutual

def Expr.outline (d : Nat) : Expr → List OutlineLine
  | .literal v => [labelled d "Literal" v.text]
  | .grouping e => plain d "Grouping" :: e.outline (d + 1)
  | .unary op e => labelled d "Unary" op.lexeme :: e.outline (d + 1)
  | .binary op a b => labelled d "Binary" op.lexeme :: (a.outline (d + 1) ++ b.outline (d + 1))
  | .logicalAnd _ a b => plain d "LogicalAnd" :: (a.outline (d + 1) ++ b.outline (d + 1))
  | .logicalOr _ a b => plain d "LogicalOr" :: (a.outline (d + 1) ++ b.outline (d + 1))
  | .conditional _ c a b =>
    plain d "Ternary" :: (c.outline (d + 1) ++ a.outline (d + 1) ++ b.outline (d + 1))
  | .comma a b => plain d "Comma" :: (a.outline (d + 1) ++ b.outline (d + 1))
  | .crement op e => labelled d "Crement" op.lexeme :: e.outline (d + 1)
  | .variable name => [labelled d "Variable" name.lexeme]
  | .assign name e => labelled d "Assign" name.lexeme :: e.outline (d + 1)
  | .call callee _ args => plain d "Call" :: (callee.outline (d + 1) ++ outlineArgs (d + 1) args)

def outlineArgs (d : Nat) : List Expr → List OutlineLine
  | [] => []
  | e :: es => e.outline d ++ outlineArgs d es

end

/-- The lines of a part that may be missing. -/
def outlineOption (d : Nat) : Option Expr → List OutlineLine
  | none => []
  | some e => e.outline d

mutual

def Stmt.outline (d : Nat) : Stmt → List OutlineLine
  | .empty => [plain d "Empty"]
  | .expression e => plain d "Expression" :: e.outline (d + 1)
  | .print _ e => plain d "Print" :: e.outline (d + 1)
  | .declare name init => labelled d "Var" name.lexeme :: outlineOption (d + 1) init
  | .block body => plain d "Block" :: outlineBody (d + 1) body
  | .branch c yes no =>
    plain d "If" :: (c.outline (d + 1) ++ yes.outline (d + 1) ++ outlineElse (d + 1) no)
  | .loop c body increment =>
    plain d "While" :: (c.outline (d + 1) ++ body.outline (d + 1) ++
      match increment with
      | none => []
      | some e => plain (d + 1) "Increment" :: e.outline (d + 2))
  | .breakLoop _ => [plain d "Break"]
  | .continueLoop _ => [plain d "Continue"]
  | .function name params body =>
    labelled d "Function" (signature name params) :: outlineBody (d + 1) body
  | .returnValue _ value => plain d "Return" :: outlineOption (d + 1) value

def outlineElse (d : Nat) : Option Stmt → List OutlineLine
  | none => []
  | some s => plain d "Else" :: s.outline (d + 1)

def outlineBody (d : Nat) : List Stmt → List OutlineLine
  | [] => []
  | s :: ss => s.outline d ++ outlineBody d ss

end

/-- The outline of a list of statements. -/
def Outline.text (statements : List Stmt) : Bytes :=
  (statements.flatMap (·.outline 0)).flatMap OutlineLine.text

end Lox
