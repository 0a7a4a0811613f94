import Lox.Machine.Basic

/-! What the operators do with values. -/
namespace Lox.Exec

def unaryOperator (op : Token) (v : Value) : Exec Value :=
  match op.kind with
  | .bang => pure (.bool !v.isTruthy)
  | .minus =>
    match v with
    | .number x => pure (.number (-x))
    | _ => fail .operandNotNumber op
  | _ => throw .malformed

/-- Operators that take two numbers. -/
def arithmetic (op : Token) (x y : Float) : Exec Value :=
  match op.kind with
  | .minus => pure (.number (x - y))
  | .star => pure (.number (x * y))
  | .slash => if y == 0 then fail .divisionByZero op else pure (.number (x / y))
  | .less => pure (.bool (x < y))
  | .lessEqual => pure (.bool (x ≤ y))
  | .greater => pure (.bool (x > y))
  | .greaterEqual => pure (.bool (x ≥ y))
  | _ => throw .malformed

/-- Numbers are added and strings joined. -/
def plus (op : Token) : Value → Value → Exec Value
  | .string s, .string t => pure (.string (s ++ t))
  | .number x, .number y => pure (.number (x + y))
  | _, _ => fail .operandsNotAddable op

def binaryOperator (op : Token) (left right : Value) : Exec Value :=
  match op.kind with
  | .equalEqual => pure (.bool (left.equal right))
  | .bangEqual => pure (.bool !left.equal right)
  | .plus => plus op left right
  | _ =>
    match left, right with
    | .number x, .number y => arithmetic op x y
    | _, _ => fail .operandsNotNumbers op

/-- A number one greater, or one less for a decrement. -/
def crementOperator (op : Token) : Value → Exec Float
  | .number x => pure (if op.kind = .minusMinus then x - 1 else x + 1)
  | _ => fail .operandNotNumber op

end Lox.Exec
