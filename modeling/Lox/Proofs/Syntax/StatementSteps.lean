import Lox.Proofs.Syntax.Course

/-! Equations of the parsers of statements: each as a sequence of smaller steps, and each choice by
the kind of the next token. -/
namespace Lox

/-- The state at the start of a declaration of its own. -/
def Parser.startingHere (p : Parser) : Parser := { p with start := p.consumed }

/-- The state with the declaration around it taken from another one. -/
def Parser.startingAt (p : Parser) (start : Nat) : Parser := { p with start := start }

namespace Parse
variable {α β : Type}

/-- Reports a fault unless the state is as it should be. -/
def demand (holds : Parser → Bool) (error : SyntaxError) (t : Token) : Parse Unit := fun p =>
  .ok () (if holds p then p else p.report error t)

theorem demand_true {holds : Parser → Bool} {error : SyntaxError} {t : Token} {p : Parser}
    (h : holds p = true) : demand holds error t p = .ok () p := by
  rw [demand, if_pos h]

theorem demand_eq_ok {holds : Parser → Bool} {error : SyntaxError} {t : Token} {p q : Parser}
    (h : demand holds error t p = .ok () q) :
    (holds p = true ∧ q = p) ∨ q.faults.length = p.faults.length + 1 := by
  unfold demand at h
  split at h
  · cases h
    exact .inl ⟨‹_›, rfl⟩
  · cases h
    exact .inr rfl

private theorem get_apply (p : Parser) : (get : Parse Parser) p = .ok p p := rfl

theorem breakStatement_eq (keyword : Token) : breakStatement keyword = (do
    demand (fun p => 0 < p.loops) .breakOutsideLoop keyword
    let _ ← expect .semicolon "';' after 'break'"
    pure (.breakLoop keyword)) := by
  funext p
  rw [breakStatement, bind_ok (get_apply p), bind_ok (rfl : demand _ _ _ p = .ok () _)]
  by_cases h : p.loops = 0
  · simp only [h, if_true]
    rfl
  · simp only [h, if_false, Nat.pos_of_ne_zero h, decide_true, if_true]

theorem continueStatement_eq (keyword : Token) : continueStatement keyword = (do
    demand (fun p => 0 < p.loops) .continueOutsideLoop keyword
    let _ ← expect .semicolon "';' after 'continue'"
    pure (.continueLoop keyword)) := by
  funext p
  rw [continueStatement, bind_ok (get_apply p), bind_ok (rfl : demand _ _ _ p = .ok () _)]
  by_cases h : p.loops = 0
  · simp only [h, if_true]
    rfl
  · simp only [h, if_false, Nat.pos_of_ne_zero h, decide_true, if_true]

/-- An expression, unless the token is next that would follow it. -/
def optionalExpression (stop : Kind) (n : Nat) : Parse (Option Expr) := do
  if ← check stop then pure none else some <$> expression n

private theorem bind_ite (b : Prop) [Decidable b] (x y : Parse α) (f : α → Parse β) :
    (if b then x >>= f else y >>= f) = (if b then x else y) >>= f := by
  split <;> rfl

theorem returnStatement_eq (n : Nat) (keyword : Token) : returnStatement n keyword = (do
    demand (fun p => 0 < p.functions) .returnOutsideFunction keyword
    let value ← optionalExpression .semicolon n
    let _ ← expect .semicolon "';' after return value"
    pure (.returnValue keyword value)) := by
  funext p
  rw [returnStatement, bind_ok (get_apply p), bind_ok (rfl : demand _ _ _ p = .ok () _)]
  simp only [optionalExpression, bind_assoc, bind_ite]
  by_cases h : p.functions = 0
  · simp only [h, if_true]
    rfl
  · simp only [h, if_false, Nat.pos_of_ne_zero h, decide_true, if_true]

theorem forStatement_succ (n : Nat) : forStatement (n + 1) = (do
    let _ ← expect .leftParen "'(' after 'for'"
    let init ← forInitializer n
    let condition ← optionalExpression .semicolon n
    let _ ← expect .semicolon "';' after loop condition"
    let increment ← optionalExpression .rightParen n
    let _ ← expect .rightParen "')' after for clauses"
    let body ← inLoop (statement n)
    pure (forLoop init condition increment body)) := by
  rw [forStatement]
  simp only [optionalExpression, bind_assoc, bind_ite]

/-- The parameters between their parentheses. -/
def optionalParameters (n : Nat) : Parse (List Token) := do
  if ← check .rightParen then pure [] else parameterList n 0 []

theorem parameters_eq (n : Nat) : parameters n = (do
    let _ ← expect .leftParen "'(' after function name"
    let names ← optionalParameters n
    let _ ← expect .rightParen "')' after parameters"
    pure names) := by
  rw [parameters]
  simp only [optionalParameters, bind_assoc, bind_ite]

/-- What a statement is, apart from its being one more level of nesting. -/
def statementProper (n : Nat) : Parse Stmt := fun p =>
  let q := p.pass [p.current]
  match p.current.kind with
  | .kwPrint => printStatement n p.current q
  | .leftBrace => (block n >>= fun body => pure (.block body)) q
  | .kwIf => ifStatement n q
  | .kwWhile => whileStatement n q
  | .kwFor => forStatement n q
  | .kwBreak => breakStatement p.current q
  | .kwContinue => continueStatement p.current q
  | .kwReturn => returnStatement n p.current q
  | .semicolon => .ok .empty q
  | _ => expressionStatement n p

theorem statement_succ (n : Nat) : statement (n + 1) = nested (statementProper n) := by
  rw [statement]
  congr 1
  funext p
  rw [bind_ok (peek_apply p), statementProper]
  have hadvance : p.current.kind ≠ .endOfInput → _ := advance_apply
  generalize p.current.kind = k at hadvance
  cases k <;> first | rfl | exact bind_ok (hadvance nofun)

/-- What a declaration is, apart from the recovery from its faults. -/
def declarationProper (n : Nat) : Parse Stmt := fun p =>
  match p.current.kind with
  | .kwVar => varDeclaration n (p.pass [p.current])
  | .kwFun => functionDeclaration n (p.pass [p.current])
  | .kwClass => fail .classUnsupported p.current p
  | _ => statement n p

theorem declaration_succ (n : Nat) : declaration (n + 1) = recovering (declarationProper n) := by
  rw [declaration]
  congr 1
  funext p
  unfold declarationProper
  split
  next hk => exact bind_ok (accept_some rfl (by rw [hk]; rfl))
  next hk =>
    rw [bind_ok (accept_none (by rw [hk]; rfl))]
    exact bind_ok (accept_some rfl (by rw [hk]; rfl))
  next hk =>
    rw [bind_ok (accept_none (by rw [hk]; rfl))]
    refine (bind_ok (accept_none (by rw [hk]; rfl))).trans ?_
    refine (bind_ok (check_apply .kwClass p)).trans ?_
    rw [if_pos (by rw [hk]; rfl)]
    rfl
  next hv hf hc =>
    rw [bind_ok (accept_none (decide_eq_false hv))]
    refine (bind_ok (accept_none (decide_eq_false hf))).trans ?_
    refine (bind_ok (check_apply .kwClass p)).trans ?_
    rw [if_neg (by simpa using hc)]

theorem recovering_apply (step : Parse α) (p : Parser) :
    recovering step p = match step p.startingHere with
      | .ok a q => .ok (some a) (q.startingAt p.start)
      | .error .bail q => .ok none (q.startingAt p.start).synchronize
      | .error .stalled q => .error .stalled (q.startingAt p.start) := rfl

theorem bracket_apply (enter : Parser → Parser) (leave : Parser → Parser → Parser)
    (step : Parse α) (p : Parser) :
    bracket enter leave step p = match step (enter p) with
      | .ok a q => .ok a (leave p q)
      | .error e q => .error e (leave p q) := rfl

/-! Inversion of steps that end normally. -/

theorem bracket_eq_ok {enter : Parser → Parser} {leave : Parser → Parser → Parser} {step : Parse α}
    {p q : Parser} {a : α} (h : bracket enter leave step p = .ok a q) :
    ∃ r, step (enter p) = .ok a r ∧ q = leave p r := by
  unfold bracket at h
  cases hs : step (enter p) with
  | ok b r => rw [hs] at h; cases h; exact ⟨r, rfl, rfl⟩
  | error e r => rw [hs] at h; cases h

theorem recovering_eq_ok {step : Parse α} {p q : Parser} {o : Option α}
    (h : recovering step p = .ok o q) :
    (∃ a r, step p.startingHere = .ok a r ∧ o = some a ∧ q = r.startingAt p.start) ∨
      ∃ r, step p.startingHere = .error .bail r ∧ o = none ∧
        q = (r.startingAt p.start).synchronize := by
  rw [recovering_apply] at h
  split at h
  next a r hs => cases h; exact .inl ⟨a, r, hs, rfl, rfl⟩
  next r hs => cases h; exact .inr ⟨r, hs, rfl, rfl⟩
  next => cases h

end Parse
end Lox
