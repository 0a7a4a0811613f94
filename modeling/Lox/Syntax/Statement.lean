import Lox.Syntax.Expression

/-! Parsing declarations and statements, with recovery at the next statement after a fault.

The first argument of each function bounds its recursion. -/
namespace Lox

/-- A declaration or statement starts with this kind, for the purpose of recovery. -/
def Kind.resumes : Kind → Bool
  | .kwClass | .kwFun | .kwVar | .kwFor | .kwIf | .kwWhile | .kwPrint | .kwReturn => true
  | _ => false

/-- Passes tokens until one is consumed that ends a statement, or until one stands next at which
the parse can go on. At the start of the enclosing declaration it cannot. -/
def Parser.skipFrom (start : Nat) (inBlock : Bool) : Nat → List Token → Nat × List Token
  | consumed, [] => (consumed, [])
  | consumed, t :: ts =>
    if t.kind = .endOfInput then (consumed, t :: ts)
    else if t.kind = .semicolon then (consumed + 1, ts)
    else if start < consumed && (t.kind.resumes || (t.kind = .rightBrace && inBlock)) then
      (consumed, t :: ts)
    else skipFrom start inBlock (consumed + 1) ts

def Parser.synchronize (p : Parser) : Parser :=
  let (consumed, rest) := skipFrom p.start (0 < p.blocks) p.consumed p.rest
  { p with consumed := consumed, rest := rest }

namespace Parse

/-- Runs a step as a declaration of its own: a fault in it is recovered from here. -/
def recovering {α : Type} (step : Parse α) : Parse (Option α) := fun p =>
  match step { p with start := p.consumed } with
  | .ok a q => .ok (some a) { q with start := p.start }
  | .error .bail q => .ok none { q with start := p.start }.synchronize
  | .error .stalled q => .error .stalled { q with start := p.start }

/-- What follows `var`. -/
def varDeclaration (n : Nat) : Parse Stmt := do
  let name ← expect .identifier "variable name"
  match ← accept (· = .equal) with
  | none =>
    let _ ← expect .semicolon "';' after variable declaration"
    pure (.declare name none)
  | some _ =>
    let init ← expression n
    let _ ← expect .semicolon "';' after variable declaration"
    pure (.declare name (some init))

/-- The parameters after the `count` parameters `before`, which are in reverse order. -/
def parameterList : Nat → (count : Nat) → (before : List Token) → Parse (List Token)
  | 0, _, _ => throw .stalled
  | n + 1, count, before => do
    if count = maxArguments then report .tooManyParameters (← peek)
    let name ← expect .identifier "parameter name"
    match ← accept (· = .comma) with
    | none => pure (name :: before).reverse
    | some _ => parameterList n (count + 1) (name :: before)

def parameters (n : Nat) : Parse (List Token) := do
  let _ ← expect .leftParen "'(' after function name"
  let names ← if ← check .rightParen then pure [] else parameterList n 0 []
  let _ ← expect .rightParen "')' after parameters"
  pure names

def expressionStatement (n : Nat) : Parse Stmt := do
  let e ← expression n
  let _ ← expect .semicolon "';' after expression"
  pure (.expression e)

def printStatement (n : Nat) (keyword : Token) : Parse Stmt := do
  let e ← expression n
  let _ ← expect .semicolon "';' after value"
  pure (.print keyword e)

def breakStatement (keyword : Token) : Parse Stmt := do
  if (← get).loops = 0 then report .breakOutsideLoop keyword
  let _ ← expect .semicolon "';' after 'break'"
  pure (.breakLoop keyword)

def continueStatement (keyword : Token) : Parse Stmt := do
  if (← get).loops = 0 then report .continueOutsideLoop keyword
  let _ ← expect .semicolon "';' after 'continue'"
  pure (.continueLoop keyword)

def returnStatement (n : Nat) (keyword : Token) : Parse Stmt := do
  if (← get).functions = 0 then report .returnOutsideFunction keyword
  let value ← if ← check .semicolon then pure none else some <$> expression n
  let _ ← expect .semicolon "';' after return value"
  pure (.returnValue keyword value)

/-- The first clause of a `for` loop. -/
def forInitializer (n : Nat) : Parse (Option Stmt) := do
  match ← accept (· = .semicolon) with
  | some _ => pure none
  | none =>
    match ← accept (· = .kwVar) with
    | some _ => some <$> varDeclaration n
    | none => some <$> expressionStatement n

/-- The loop that a `for` loop stands for; without a condition it has no end of its own. -/
def forLoop (init : Option Stmt) (condition : Option Expr) (increment : Option Expr)
    (body : Stmt) : Stmt :=
  let loop := Stmt.loop (condition.getD (.literal (.bool true))) body increment
  match init with
  | none => loop
  | some init => .block [init, loop]

mutual

def declaration : Nat → Parse (Option Stmt)
  | 0 => throw .stalled
  | n + 1 => recovering do
    match ← accept (· = .kwVar) with
    | some _ => varDeclaration n
    | none =>
      match ← accept (· = .kwFun) with
      | some _ => functionDeclaration n
      | none =>
        if ← check .kwClass then fail .classUnsupported (← peek) else statement n

/-- What follows `fun`. -/
def functionDeclaration : Nat → Parse Stmt
  | 0 => throw .stalled
  | n + 1 => do
    let name ← expect .identifier "function name"
    let params ← parameters n
    let _ ← expect .leftBrace "'\x7b' before function body"
    let body ← inFunction (block n)
    pure (.function name params body)

def statement : Nat → Parse Stmt
  | 0 => throw .stalled
  | n + 1 => nested do
    let t ← peek
    match t.kind with
    | .kwPrint =>
      let keyword ← advance
      printStatement n keyword
    | .leftBrace =>
      let _ ← advance
      let body ← block n
      pure (.block body)
    | .kwIf =>
      let _ ← advance
      ifStatement n
    | .kwWhile =>
      let _ ← advance
      whileStatement n
    | .kwFor =>
      let _ ← advance
      forStatement n
    | .kwBreak =>
      let keyword ← advance
      breakStatement keyword
    | .kwContinue =>
      let keyword ← advance
      continueStatement keyword
    | .kwReturn =>
      let keyword ← advance
      returnStatement n keyword
    | .semicolon =>
      let _ ← advance
      pure .empty
    | _ => expressionStatement n

/-- What follows the opening brace of a block. -/
def block : Nat → Parse (List Stmt)
  | 0 => throw .stalled
  | n + 1 => inBlock do
    let body ← blockBody n []
    let _ ← expect .rightBrace "'\x7d' after block"
    pure body

/-- The declarations up to a closing brace, after those of `before`, which are in reverse order. -/
def blockBody : Nat → (before : List Stmt) → Parse (List Stmt)
  | 0, _ => throw .stalled
  | n + 1, before => do
    if ← check .rightBrace then pure before.reverse
    else if ← atEnd then pure before.reverse
    else
      match ← declaration n with
      | none => blockBody n before
      | some s => blockBody n (s :: before)

/-- What follows `if`. -/
def ifStatement : Nat → Parse Stmt
  | 0 => throw .stalled
  | n + 1 => do
    let _ ← expect .leftParen "'(' after 'if'"
    let condition ← expression n
    let _ ← expect .rightParen "')' after if condition"
    let yes ← statement n
    match ← accept (· = .kwElse) with
    | none => pure (.branch condition yes none)
    | some _ =>
      let no ← statement n
      pure (.branch condition yes (some no))

/-- What follows `while`. -/
def whileStatement : Nat → Parse Stmt
  | 0 => throw .stalled
  | n + 1 => do
    let _ ← expect .leftParen "'(' after 'while'"
    let condition ← expression n
    let _ ← expect .rightParen "')' after condition"
    let body ← inLoop (statement n)
    pure (.loop condition body none)

/-- What follows `for`. -/
def forStatement : Nat → Parse Stmt
  | 0 => throw .stalled
  | n + 1 => do
    let _ ← expect .leftParen "'(' after 'for'"
    let init ← forInitializer n
    let condition ← if ← check .semicolon then pure none else some <$> expression n
    let _ ← expect .semicolon "';' after loop condition"
    let increment ← if ← check .rightParen then pure none else some <$> expression n
    let _ ← expect .rightParen "')' after for clauses"
    let body ← inLoop (statement n)
    pure (forLoop init condition increment body)

end

/-- The declarations of a program, after those of `before`, which are in reverse order. -/
def program : Nat → (before : List Stmt) → Parse (List Stmt)
  | 0, _ => throw .stalled
  | n + 1, before => do
    if ← atEnd then pure before.reverse
    else
      match ← declaration n with
      | none => program n before
      | some s => program n (s :: before)

/-- A single expression up to the end of the input. -/
def loneExpression (n : Nat) : Parse Expr := do
  let e ← expression n
  if ← atEnd then pure e else fail (.expected "end of expression") (← peek)

end Parse

/-- The steps allotted to a parse of `n` tokens. Between two tokens that are consumed the grammar
descends fewer than 32 times. -/
def Parser.allotment (n : Nat) : Nat := 32 * (n + 2)

/-- The statements of a program that were understood, and all faults in order. -/
structure Program where
  statements : List Stmt
  faults : List SyntaxFault

/-- Parses a program. There is no result if recovery makes no progress any more. -/
def Program.parse? (tokens : List Token) : Option Program :=
  match Parse.program (Parser.allotment tokens.length) [] { rest := tokens } with
  | .ok statements p => some ⟨statements, p.faults.reverse⟩
  | .error _ _ => none

/-- An expression, unless it was given up, and all faults in order. -/
structure LoneExpression where
  expression : Option Expr
  faults : List SyntaxFault

/-- Parses a token sequence that is one expression. -/
def LoneExpression.parse (tokens : List Token) : LoneExpression :=
  match Parse.loneExpression (Parser.allotment tokens.length) { rest := tokens } with
  | .ok e p => ⟨some e, p.faults.reverse⟩
  | .error _ p => ⟨none, p.faults.reverse⟩

end Lox
