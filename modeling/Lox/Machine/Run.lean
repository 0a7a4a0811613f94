import Lox.Machine.Operator

/-! Running programs. The argument `limit` bounds the calls in progress, and the number after it the
recursion of each function. -/
namespace Lox.Exec

/-- The bindings of the parameters of a call. Of two parameters of one name the later counts. -/
def parameterBindings : List Token → List Value → List (Bytes × Value) →
    Option (List (Bytes × Value))
  | [], _, bound => some bound
  | _ :: _, [], _ => none
  | p :: params, v :: args, bound =>
    parameterBindings params args (Scope.insert p.lexeme v bound)

/-- What a call gives whose body ended so. -/
def resultOf : Completion → Value
  | .returned v => v
  | .normal | .broke | .continued => .nil

mutual

def eval (limit : Nat) : Nat → Expr → Exec Value
  | 0, _ => throw .exhausted
  | _ + 1, .literal v => pure (.ofLiteral v)
  | n + 1, .grouping e => eval limit n e
  | n + 1, .unary op e => do
    let v ← eval limit n e
    unaryOperator op v
  | n + 1, .binary op a b => do
    let left ← eval limit n a
    let right ← eval limit n b
    binaryOperator op left right
  | n + 1, .logicalAnd _ a b => do
    let left ← eval limit n a
    if left.isTruthy then eval limit n b else pure left
  | n + 1, .logicalOr _ a b => do
    let left ← eval limit n a
    if left.isTruthy then pure left else eval limit n b
  | n + 1, .conditional _ c a b => do
    let condition ← eval limit n c
    if condition.isTruthy then eval limit n a else eval limit n b
  | n + 1, .comma a b => do
    let _ ← eval limit n a
    eval limit n b
  | n + 1, .crement op target => do
    let v ← eval limit n target
    let x ← crementOperator op v
    match target with
    | .variable name =>
      assign name (.number x)
      pure (.number x)
    | _ => pure (.number x)
  | _ + 1, .variable name => lookUp name
  | n + 1, .assign name e => do
    let v ← eval limit n e
    assign name v
    pure v
  | n + 1, .call callee paren args => do
    let f ← eval limit n callee
    let vs ← evalAll limit n args
    apply limit n paren f vs

def evalAll (limit : Nat) : Nat → List Expr → Exec (List Value)
  | 0, _ => throw .exhausted
  | _ + 1, [] => pure []
  | n + 1, e :: es => do
    let v ← eval limit n e
    let vs ← evalAll limit n es
    pure (v :: vs)

def apply (limit : Nat) : Nat → Token → Value → List Value → Exec Value
  | 0, _, _, _ => throw .exhausted
  | n + 1, paren, .function f, args =>
    if args.length = f.params.length then
      asCall limit paren (invoke limit n f args)
    else fail (.wrongArity f.params.length args.length) paren
  | _ + 1, paren, .native f, args =>
    if (args.length : Int) = f.arity then asCall limit paren (runNative paren f.action args)
    else fail (.wrongArity f.arity args.length) paren
  | _ + 1, paren, _, _ => fail .notCallable paren

/-- Runs the body of a function in a new scope inside the one in which it was declared. -/
def invoke (limit : Nat) : Nat → Closure → List Value → Exec Value
  | 0, _, _ => throw .exhausted
  | n + 1, f, args =>
    match parameterBindings f.params args [] with
    | none => throw .malformed
    | some bindings => do
      let completion ← inScope f.scope bindings (execAll limit n f.body)
      pure (resultOf completion)

def exec (limit : Nat) : Nat → Stmt → Exec Completion
  | 0, _ => throw .exhausted
  | _ + 1, .empty => pure .normal
  | n + 1, .expression e => do
    let _ ← eval limit n e
    pure .normal
  | n + 1, .print _ e => do
    let v ← eval limit n e
    print v.text
    pure .normal
  | _ + 1, .declare name none => do
    declare name .nil
    pure .normal
  | n + 1, .declare name (some e) => do
    let v ← eval limit n e
    declare name v
    pure .normal
  | n + 1, .block body => inChild (execAll limit n body)
  | n + 1, .branch c yes no => do
    let condition ← eval limit n c
    if condition.isTruthy then inChild (exec limit n yes)
    else
      match no with
      | none => pure .normal
      | some s => inChild (exec limit n s)
  | n + 1, .loop c body increment => execLoop limit n c body increment
  | _ + 1, .breakLoop _ => pure .broke
  | _ + 1, .continueLoop _ => pure .continued
  | _ + 1, .function name params body => do
    let f ← close name params body
    declare name f
    pure .normal
  | _ + 1, .returnValue _ none => pure (.returned .nil)
  | n + 1, .returnValue _ (some e) => do
    let v ← eval limit n e
    pure (.returned v)

/-- Runs statements until one does not end normally. -/
def execAll (limit : Nat) : Nat → List Stmt → Exec Completion
  | 0, _ => throw .exhausted
  | _ + 1, [] => pure .normal
  | n + 1, s :: ss => do
    match ← exec limit n s with
    | .normal => execAll limit n ss
    | completion => pure completion

def execLoop (limit : Nat) : Nat → Expr → Stmt → Option Expr → Exec Completion
  | 0, _, _, _ => throw .exhausted
  | n + 1, c, body, increment => do
    let condition ← eval limit n c
    if condition.isTruthy then
      match ← inChild (exec limit n body) with
      | .broke => pure .normal
      | .returned v => pure (.returned v)
      | .normal | .continued =>
        match increment with
        | none => execLoop limit n c body none
        | some e =>
          let _ ← eval limit n e
          execLoop limit n c body (some e)
    else pure .normal

end

/-- Runs the statements of a program in order, up to the first fault. -/
def run (limit fuel : Nat) : List Stmt → Exec Unit
  | [] => pure ()
  | s :: ss => do
    let _ ← exec limit fuel s
    run limit fuel ss

end Lox.Exec
