import Lox.Proofs.Syntax.StatementSteps

/-! More steps allotted to a parse that does not use them up do not change its result. -/
namespace Lox.Parse
variable {α β : Type}

/-- The second parse gives what the first one gives wherever that has steps enough. -/
def ExtendedBy (x y : Parse α) : Prop := ∀ p, x p = y p ∨ ∃ q, x p = .error .stalled q

namespace ExtendedBy

theorem refl (x : Parse α) : ExtendedBy x x := fun _ => .inl rfl

theorem stalled (y : Parse α) : ExtendedBy (throw .stalled) y := fun p => .inr ⟨p, rfl⟩

theorem trans {x y z : Parse α} (hxy : ExtendedBy x y) (hyz : ExtendedBy y z) :
    ExtendedBy x z := by
  intro p
  obtain h | h := hxy p
  · rw [h]
    exact hyz p
  · exact .inr h

theorem bind {x y : Parse α} {f g : α → Parse β} (hx : ExtendedBy x y)
    (hf : ∀ a, ExtendedBy (f a) (g a)) : ExtendedBy (x >>= f) (y >>= g) := by
  intro p
  rw [bind_apply, bind_apply]
  obtain h | ⟨q, h⟩ := hx p
  · rw [h]
    cases y p with
    | ok a q => exact hf a q
    | error e q => exact .inl rfl
  · rw [h]
    exact .inr ⟨q, rfl⟩

theorem after {x : Parse α} {f g : α → Parse β} (hf : ∀ a, ExtendedBy (f a) (g a)) :
    ExtendedBy (x >>= f) (x >>= g) := (refl x).bind hf

theorem map {x y : Parse α} (g : α → β) (h : ExtendedBy x y) :
    ExtendedBy (g <$> x) (g <$> y) := by
  intro p
  rw [map_apply, map_apply]
  obtain h | ⟨q, h⟩ := h p
  · rw [h]
    exact .inl rfl
  · rw [h]
    exact .inr ⟨q, rfl⟩

theorem bracket {x y : Parse α} (enter : Parser → Parser) (leave : Parser → Parser → Parser)
    (h : ExtendedBy x y) : ExtendedBy (bracket enter leave x) (bracket enter leave y) := by
  intro p
  rw [bracket_apply, bracket_apply]
  obtain h | ⟨q, h⟩ := h (enter p)
  · rw [h]
    exact .inl rfl
  · rw [h]
    exact .inr ⟨_, rfl⟩

theorem restoringDepth {x y : Parse α} (h : ExtendedBy x y) :
    ExtendedBy (restoringDepth x) (restoringDepth y) := h.bracket _ _

theorem nested {x y : Parse α} (h : ExtendedBy x y) : ExtendedBy (nested x) (nested y) :=
  restoringDepth (.after fun _ => h)

theorem recovering {x y : Parse α} (h : ExtendedBy x y) :
    ExtendedBy (recovering x) (recovering y) := by
  intro p
  rw [recovering_apply, recovering_apply]
  obtain h | ⟨q, h⟩ := h p.startingHere
  · rw [h]
    exact .inl rfl
  · rw [h]
    exact .inr ⟨_, rfl⟩

theorem ite {c : Prop} [Decidable c] {x x' y y' : Parse α} (h : ExtendedBy x y)
    (h' : ExtendedBy x' y') : ExtendedBy (if c then x else x') (if c then y else y') := by
  split
  · exact h
  · exact h'

/-- With more steps a parse gives what it gives with fewer, if these are enough. -/
theorem of_le {x : Nat → Parse α} (h : ∀ n, ExtendedBy (x n) (x (n + 1))) {n k : Nat}
    (hle : n ≤ k) : ExtendedBy (x n) (x k) := by
  induction hle with
  | refl => exact refl _
  | step _ ih => exact ih.trans (h _)

/-- The parses of any two numbers of steps agree where both have steps enough. -/
theorem agree {x : Nat → Parse α} (h : ∀ n, ExtendedBy (x n) (x (n + 1))) {n k : Nat} {p : Parser}
    (hn : ∀ q, x n p ≠ .error .stalled q) (hk : ∀ q, x k p ≠ .error .stalled q) :
    x n p = x k p := by
  obtain hle | hle := Nat.le_total n k
  · exact (of_le h hle p).resolve_right fun ⟨q, hq⟩ => hn q hq
  · exact ((of_le h hle p).resolve_right fun ⟨q, hq⟩ => hk q hq).symm

end ExtendedBy

/-- With one step more than `n` the parsers of expressions give what they give with `n`. -/
structure ExpressionExtension (n : Nat) : Prop where
  expression : ExtendedBy (expression n) (expression (n + 1))
  chain : ∀ l, ExtendedBy (chain n l) (chain (n + 1) l)
  operand : ∀ l, ExtendedBy (operand n l) (operand (n + 1) l)
  links : ∀ l e, ExtendedBy (links n l e) (links (n + 1) l e)
  assignment : ExtendedBy (assignment n) (assignment (n + 1))
  conditional : ExtendedBy (conditional n) (conditional (n + 1))
  unary : ExtendedBy (unary n) (unary (n + 1))
  suffixed : ExtendedBy (suffixed n) (suffixed (n + 1))
  call : ExtendedBy (call n) (call (n + 1))
  calls : ∀ e, ExtendedBy (calls n e) (calls (n + 1) e)
  arguments : ExtendedBy (arguments n) (arguments (n + 1))
  argumentList : ∀ c es, ExtendedBy (argumentList n c es) (argumentList (n + 1) c es)
  primary : ExtendedBy (primary n) (primary (n + 1))

theorem ExpressionExtension.zero : ExpressionExtension 0 := by
  constructor <;> intros <;> exact .stalled _

namespace ExpressionExtension
variable {n : Nat}

private theorem operand_succ (h : ExpressionExtension n) (l : Level) :
    ExtendedBy (Parse.operand (n + 1) l) (Parse.operand (n + 2) l) := by
  cases l with
  | comma => exact h.assignment
  | or => exact h.chain .and
  | and => exact h.chain .equality
  | equality => exact h.chain .comparison
  | comparison => exact h.chain .term
  | term => exact h.chain .factor
  | factor => exact h.unary

private theorem links_succ (h : ExpressionExtension n) (l : Level) (e : Expr) :
    ExtendedBy (Parse.links (n + 1) l e) (Parse.links (n + 2) l e) := by
  refine .after fun o => ?_
  cases o with
  | none => exact .refl _
  | some op => exact .after fun _ => (h.operand l).bind fun _ => h.links l _

private theorem assignment_succ (h : ExpressionExtension n) :
    ExtendedBy (Parse.assignment (n + 1)) (Parse.assignment (n + 2)) := by
  refine h.conditional.bind fun target => .after fun o => ?_
  cases o with
  | none => exact .refl _
  | some equals => exact .nested (h.assignment.bind fun _ => .refl _)

private theorem conditional_succ (h : ExpressionExtension n) :
    ExtendedBy (Parse.conditional (n + 1)) (Parse.conditional (n + 2)) := by
  refine (h.chain .or).bind fun condition => .after fun o => ?_
  cases o with
  | none => exact .refl _
  | some question =>
    exact .nested (h.assignment.bind fun _ => .after fun _ => h.conditional.bind fun _ => .refl _)

private theorem unary_succ (h : ExpressionExtension n) :
    ExtendedBy (Parse.unary (n + 1)) (Parse.unary (n + 2)) := by
  refine .after fun o => ?_
  cases o with
  | some op => exact .nested (h.unary.bind fun _ => .refl _)
  | none =>
    refine .after fun o => ?_
    cases o with
    | some op => exact .nested (h.unary.bind fun _ => .refl _)
    | none => exact h.suffixed

private theorem calls_succ (h : ExpressionExtension n) (e : Expr) :
    ExtendedBy (Parse.calls (n + 1) e) (Parse.calls (n + 2) e) := by
  refine .after fun o => ?_
  cases o with
  | none => exact .refl _
  | some _ =>
    exact .after fun _ => h.arguments.bind fun _ => .after fun _ => h.calls _

private theorem argumentList_succ (h : ExpressionExtension n) (c : Nat) (es : List Expr) :
    ExtendedBy (Parse.argumentList (n + 1) c es) (Parse.argumentList (n + 2) c es) := by
  rw [Parse.argumentList_succ, Parse.argumentList_succ]
  refine .after fun _ => h.assignment.bind fun arg => .after fun o => ?_
  cases o with
  | none => exact .refl _
  | some _ => exact h.argumentList _ _

private theorem primary_succ (h : ExpressionExtension n) :
    ExtendedBy (Parse.primary (n + 1)) (Parse.primary (n + 2)) := by
  intro p
  cases ha : p.current.atom? with
  | some e => exact .inl ((primary_atom ha).trans (primary_atom ha).symm)
  | none =>
    by_cases hk : p.current.kind = .leftParen
    · rw [primary_grouping hk, primary_grouping hk]
      exact (h.expression.bind fun _ => .refl _) _
    · exact .inl ((primary_error ha hk).trans (primary_error ha hk).symm)

theorem succ (h : ExpressionExtension n) : ExpressionExtension (n + 1) where
  expression := (h.chain .comma).nested
  chain l := .restoringDepth ((h.operand l).bind fun first => h.links l first)
  operand := operand_succ h
  links := links_succ h
  assignment := assignment_succ h
  conditional := conditional_succ h
  unary := unary_succ h
  suffixed := h.call.bind fun _ => .refl _
  call := .restoringDepth (h.primary.bind fun callee => h.calls callee)
  calls := calls_succ h
  arguments := .after fun _ => .ite (.refl _) (h.argumentList 0 [])
  argumentList := argumentList_succ h
  primary := primary_succ h

end ExpressionExtension

theorem expressionExtension (n : Nat) : ExpressionExtension n := by
  induction n with
  | zero => exact .zero
  | succ n ih => exact ih.succ

/-! Statements without parts. -/

theorem extendedBy_terminated (n : Nat) (what : String) (g : Expr → α) :
    ExtendedBy (expression n >>= fun e => expect .semicolon what >>= fun _ => pure (g e))
      (expression (n + 1) >>= fun e => expect .semicolon what >>= fun _ => pure (g e)) :=
  (expressionExtension n).expression.bind fun _ => .refl _

theorem extendedBy_varDeclaration (n : Nat) :
    ExtendedBy (varDeclaration n) (varDeclaration (n + 1)) := by
  refine .after fun name => .after fun o => ?_
  cases o with
  | none => exact .refl _
  | some _ => exact extendedBy_terminated n _ _

theorem extendedBy_optionalExpression (stop : Kind) (n : Nat) :
    ExtendedBy (optionalExpression stop n) (optionalExpression stop (n + 1)) :=
  .after fun _ => .ite (.refl _) ((expressionExtension n).expression.map some)

theorem extendedBy_returnStatement (n : Nat) (t : Token) :
    ExtendedBy (returnStatement n t) (returnStatement (n + 1) t) := by
  rw [returnStatement_eq, returnStatement_eq]
  exact .after fun _ => (extendedBy_optionalExpression _ n).bind fun _ => .refl _

theorem extendedBy_forInitializer (n : Nat) :
    ExtendedBy (forInitializer n) (forInitializer (n + 1)) := by
  refine .after fun o => ?_
  cases o with
  | some _ => exact .refl _
  | none =>
    refine .after fun o => ?_
    cases o with
    | some _ => exact (extendedBy_varDeclaration n).map some
    | none => exact (extendedBy_terminated n _ _).map some

theorem extendedBy_parameterList (n : Nat) : ∀ count before,
    ExtendedBy (parameterList n count before) (parameterList (n + 1) count before) := by
  induction n with
  | zero => exact fun _ _ => .stalled _
  | succ n ih =>
    intro count before
    rw [parameterList_succ, parameterList_succ]
    refine .after fun _ => .after fun name => .after fun o => ?_
    cases o with
    | none => exact .refl _
    | some _ => exact ih _ _

theorem extendedBy_parameters (n : Nat) : ExtendedBy (parameters n) (parameters (n + 1)) := by
  rw [parameters_eq, parameters_eq]
  refine .after fun _ => ExtendedBy.bind ?_ fun _ => .refl _
  exact .after fun _ => .ite (.refl _) (extendedBy_parameterList n 0 [])

/-! Declarations and statements with parts. -/

/-- With one step more than `n` the parsers of declarations and statements give what they give with
`n`. -/
structure StatementExtension (n : Nat) : Prop where
  declaration : ExtendedBy (declaration n) (declaration (n + 1))
  functionDeclaration : ExtendedBy (functionDeclaration n) (functionDeclaration (n + 1))
  statement : ExtendedBy (statement n) (statement (n + 1))
  block : ExtendedBy (block n) (block (n + 1))
  blockBody : ∀ before, ExtendedBy (blockBody n before) (blockBody (n + 1) before)
  ifStatement : ExtendedBy (ifStatement n) (ifStatement (n + 1))
  whileStatement : ExtendedBy (whileStatement n) (whileStatement (n + 1))
  forStatement : ExtendedBy (forStatement n) (forStatement (n + 1))

theorem StatementExtension.zero : StatementExtension 0 := by
  constructor <;> intros <;> exact .stalled _

namespace StatementExtension
variable {n : Nat}

theorem declarationProper (h : StatementExtension n) :
    ExtendedBy (Parse.declarationProper n) (Parse.declarationProper (n + 1)) := by
  intro p
  unfold Parse.declarationProper
  split
  next => exact extendedBy_varDeclaration n _
  next => exact h.functionDeclaration _
  next => exact .inl rfl
  next => exact h.statement p

theorem statementProper (h : StatementExtension n) :
    ExtendedBy (Parse.statementProper n) (Parse.statementProper (n + 1)) := by
  intro p
  unfold Parse.statementProper
  dsimp only
  split
  next => exact extendedBy_terminated n _ _ _
  next => exact (h.block.bind fun _ => .refl _) _
  next => exact h.ifStatement _
  next => exact h.whileStatement _
  next => exact h.forStatement _
  next => exact .inl rfl
  next => exact .inl rfl
  next => exact extendedBy_returnStatement n _ _
  next => exact .inl rfl
  next => exact extendedBy_terminated n _ _ p

private theorem blockBody_succ (h : StatementExtension n) (before : List Stmt) :
    ExtendedBy (Parse.blockBody (n + 1) before) (Parse.blockBody (n + 2) before) := by
  refine .after fun _ => .ite (.refl _) (.after fun _ => .ite (.refl _) ?_)
  refine h.declaration.bind fun o => ?_
  cases o <;> exact h.blockBody _

private theorem ifStatement_succ (h : StatementExtension n) :
    ExtendedBy (Parse.ifStatement (n + 1)) (Parse.ifStatement (n + 2)) := by
  refine .after fun _ => (expressionExtension n).expression.bind fun _ => .after fun _ =>
    h.statement.bind fun _ => .after fun o => ?_
  cases o with
  | none => exact .refl _
  | some _ => exact h.statement.bind fun _ => .refl _

private theorem forStatement_succ (h : StatementExtension n) :
    ExtendedBy (Parse.forStatement (n + 1)) (Parse.forStatement (n + 2)) := by
  rw [Parse.forStatement_succ, Parse.forStatement_succ]
  exact .after fun _ => (extendedBy_forInitializer n).bind fun _ =>
    (extendedBy_optionalExpression _ n).bind fun _ => .after fun _ =>
    (extendedBy_optionalExpression _ n).bind fun _ => .after fun _ =>
    (h.statement.bracket _ _).bind fun _ => .refl _

theorem succ (h : StatementExtension n) : StatementExtension (n + 1) where
  declaration := by
    rw [Parse.declaration_succ, Parse.declaration_succ]
    exact h.declarationProper.recovering
  functionDeclaration := .after fun _ => (extendedBy_parameters n).bind fun _ => .after fun _ =>
    (h.block.bracket _ _).bind fun _ => .refl _
  statement := by
    rw [Parse.statement_succ, Parse.statement_succ]
    exact h.statementProper.nested
  block := .bracket _ _ ((h.blockBody []).bind fun _ => .refl _)
  blockBody := blockBody_succ h
  ifStatement := ifStatement_succ h
  whileStatement := .after fun _ => (expressionExtension n).expression.bind fun _ =>
    .after fun _ => (h.statement.bracket _ _).bind fun _ => .refl _
  forStatement := forStatement_succ h

end StatementExtension

theorem statementExtension (n : Nat) : StatementExtension n := by
  induction n with
  | zero => exact .zero
  | succ n ih => exact ih.succ

theorem extendedBy_program (n : Nat) : ∀ before,
    ExtendedBy (program n before) (program (n + 1) before) := by
  induction n with
  | zero => exact fun _ => .stalled _
  | succ n ih =>
    intro before
    refine .after fun _ => .ite (.refl _) ?_
    refine (statementExtension n).declaration.bind fun o => ?_
    cases o <;> exact ih _

end Lox.Parse
