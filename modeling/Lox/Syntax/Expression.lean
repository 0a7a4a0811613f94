import Lox.Syntax.Parser
import Lox.Syntax.Tree

/-! Parsing expressions. From the loosest to the tightest binding:

* `expression` is a comma chain;
* `assignment` is `IDENTIFIER = assignment` or a conditional;
* `conditional` is `or ( ? assignment : conditional )?`;
* `or`, `and`, `equality`, `comparison`, `term` and `factor` are chains that fold to the left;
* `unary` is a prefix operator before a `unary`, or a `suffixed`;
* `suffixed` is `call ( ++ | -- )?`;
* `call` is `primary ( "(" arguments? ")" )*`;
* `primary` is a literal, a variable or an expression in parentheses.

The first argument of each function bounds its recursion. -/
namespace Lox

/-- The operators of one chain, which fold to the left. -/
inductive Level where
  | comma | or | and | equality | comparison | term | factor
  deriving DecidableEq, Repr

namespace Level

/-- The kinds of the operators of a chain. -/
def joins : Level → Kind → Bool
  | comma, k => k = .comma
  | or, k => k = .kwOr
  | and, k => k = .kwAnd
  | equality, k => k = .bangEqual || k = .equalEqual
  | comparison, k => k = .greater || k = .greaterEqual || k = .less || k = .lessEqual
  | term, k => k = .minus || k = .plus
  | factor, k => k = .slash || k = .star

/-- The tree of two operands around an operator. -/
def node (l : Level) (op : Token) (left right : Expr) : Expr :=
  match l with
  | comma => .comma left right
  | or => .logicalOr op left right
  | and => .logicalAnd op left right
  | equality | comparison | term | factor => .binary op left right

end Level

def Kind.isNegation (k : Kind) : Bool := k = .bang || k = .minus

def Kind.isCrement (k : Kind) : Bool := k = .plusPlus || k = .minusMinus

namespace Parse

mutual

def expression : Nat → Parse Expr
  | 0 => throw .stalled
  | n + 1 => nested (chain n .comma)

/-- An operand of a chain, then as many operators with operands as follow. -/
def chain : Nat → Level → Parse Expr
  | 0, _ => throw .stalled
  | n + 1, l => restoringDepth do
    let first ← operand n l
    links n l first

def operand : Nat → Level → Parse Expr
  | 0, _ => throw .stalled
  | n + 1, .comma => assignment n
  | n + 1, .or => chain n .and
  | n + 1, .and => chain n .equality
  | n + 1, .equality => chain n .comparison
  | n + 1, .comparison => chain n .term
  | n + 1, .term => chain n .factor
  | n + 1, .factor => unary n

/-- The rest of a chain; each link counts as one more level of nesting. -/
def links : Nat → Level → Expr → Parse Expr
  | 0, _, _ => throw .stalled
  | n + 1, l, left => do
    match ← accept l.joins with
    | none => pure left
    | some op =>
      deepen
      let right ← operand n l
      links n l (l.node op left right)

def assignment : Nat → Parse Expr
  | 0 => throw .stalled
  | n + 1 => do
    let target ← conditional n
    match ← accept (· = .equal) with
    | none => pure target
    | some equals => nested do
      let value ← assignment n
      match target with
      | .variable name => pure (.assign name value)
      | _ =>
        report .invalidTarget equals
        pure target

def conditional : Nat → Parse Expr
  | 0 => throw .stalled
  | n + 1 => do
    let condition ← chain n .or
    match ← accept (· = .question) with
    | none => pure condition
    | some question => nested do
      let yes ← assignment n
      let _ ← expect .colon "':' after then branch of conditional expression"
      let no ← conditional n
      pure (.conditional question condition yes no)

def unary : Nat → Parse Expr
  | 0 => throw .stalled
  | n + 1 => do
    match ← accept Kind.isNegation with
    | some op => nested do
      let operand ← unary n
      pure (.unary op operand)
    | none =>
      match ← accept Kind.isCrement with
      | some op => nested do
        let target ← unary n
        pure (.crement op target)
      | none => suffixed n

def suffixed : Nat → Parse Expr
  | 0 => throw .stalled
  | n + 1 => do
    let target ← call n
    match ← accept Kind.isCrement with
    | none => pure target
    | some op => pure (.crement op target)

def call : Nat → Parse Expr
  | 0 => throw .stalled
  | n + 1 => restoringDepth do
    let callee ← primary n
    calls n callee

/-- The argument lists that follow a callee; each counts as one more level of nesting. -/
def calls : Nat → Expr → Parse Expr
  | 0, _ => throw .stalled
  | n + 1, callee => do
    match ← accept (· = .leftParen) with
    | none => pure callee
    | some _ =>
      deepen
      let args ← arguments n
      let paren ← expect .rightParen "')' after arguments"
      calls n (.call callee paren args)

def arguments : Nat → Parse (List Expr)
  | 0 => throw .stalled
  | n + 1 => do
    if ← check .rightParen then pure [] else argumentList n 0 []

/-- The arguments after the `count` arguments `before`, which are in reverse order. -/
def argumentList : Nat → (count : Nat) → (before : List Expr) → Parse (List Expr)
  | 0, _, _ => throw .stalled
  | n + 1, count, before => do
    if count = maxArguments then report .tooManyArguments (← peek)
    let arg ← assignment n
    match ← accept (· = .comma) with
    | none => pure (arg :: before).reverse
    | some _ => argumentList n (count + 1) (arg :: before)

def primary : Nat → Parse Expr
  | 0 => throw .stalled
  | n + 1 => do
    let t ← peek
    match t.kind with
    | .kwFalse =>
      let _ ← advance
      pure (.literal (.bool false))
    | .kwTrue =>
      let _ ← advance
      pure (.literal (.bool true))
    | .kwNil =>
      let _ ← advance
      pure (.literal .nil)
    | .number | .string =>
      let _ ← advance
      pure (.literal t.literal)
    | .identifier =>
      let _ ← advance
      pure (.variable t)
    | .leftParen =>
      let _ ← advance
      let inner ← expression n
      let _ ← expect .rightParen "')' after expression"
      pure (.grouping inner)
    | _ => fail .expectedExpression t

end

end Parse
end Lox
