import Lox.Proofs.Syntax.Likeness

/-! Parsing depends on the kinds of the tokens only: from like tokens come like trees and like
faults. -/
namespace Lox

namespace Parse
variable {R : Likeness}

theorem like_node (l : Level) {t u : Token} {a b c d : Expr} (ht : R.like t u) (hl : a.Like R b)
    (hr : c.Like R d) : (l.node t a c).Like R (l.node u b d) := by
  cases l with
  | comma => exact .comma hl hr
  | or => exact .logicalOr ht hl hr
  | and => exact .logicalAnd ht hl hr
  | equality | comparison | term | factor => exact .binary ht hl hr

/-- Both report a fault at the next token before they go on, or none does. -/
theorem agree_within {α β : Type} {A : α → β → Prop} {x : Parse α} {y : Parse β} (c : Prop)
    [Decidable c] (error : SyntaxError) (h : Agree R A x y) :
    Agree R A (if c then peek >>= fun t => report error t >>= fun _ => x else x)
      (if c then peek >>= fun t => report error t >>= fun _ => y else y) := by
  split
  · exact agree_peek.bind fun t t' ht => (agree_report error ht).bind fun _ _ _ => h
  · exact h

/-- The parsers of expressions agree on like tokens, with `n` steps allotted. -/
structure ExpressionAgreement (R : Likeness) (n : Nat) : Prop where
  expression : Agree R (Expr.Like R) (expression n) (expression n)
  chain : ∀ l, Agree R (Expr.Like R) (chain n l) (chain n l)
  operand : ∀ l, Agree R (Expr.Like R) (operand n l) (operand n l)
  links : ∀ l {a b : Expr}, a.Like R b → Agree R (Expr.Like R) (links n l a) (links n l b)
  assignment : Agree R (Expr.Like R) (assignment n) (assignment n)
  conditional : Agree R (Expr.Like R) (conditional n) (conditional n)
  unary : Agree R (Expr.Like R) (unary n) (unary n)
  suffixed : Agree R (Expr.Like R) (suffixed n) (suffixed n)
  call : Agree R (Expr.Like R) (call n) (call n)
  calls : ∀ {a b : Expr}, a.Like R b → Agree R (Expr.Like R) (calls n a) (calls n b)
  arguments : Agree R (List.Forall₂ (Expr.Like R)) (arguments n) (arguments n)
  argumentList : ∀ count {as bs : List Expr}, List.Forall₂ (Expr.Like R) as bs →
    Agree R (List.Forall₂ (Expr.Like R)) (argumentList n count as) (argumentList n count bs)
  primary : Agree R (Expr.Like R) (primary n) (primary n)

section
variable {n : Nat} (ih : ExpressionAgreement R n)
include ih

theorem agree_operand (l : Level) : Agree R (Expr.Like R) (operand (n + 1) l) (operand (n + 1) l) := by
  cases l with
  | comma => exact ih.assignment
  | or => exact ih.chain .and
  | and => exact ih.chain .equality
  | equality => exact ih.chain .comparison
  | comparison => exact ih.chain .term
  | term => exact ih.chain .factor
  | factor => exact ih.unary

theorem agree_links (l : Level) {a b : Expr} (h : a.Like R b) :
    Agree R (Expr.Like R) (links (n + 1) l a) (links (n + 1) l b) := by
  refine (agree_accept l.joins).bind fun o o' ho => ?_
  cases ho with
  | none => exact .pure h
  | some ht =>
    refine agree_deepen.bind fun _ _ _ => (ih.operand l).bind fun c d hr => ?_
    exact ih.links l (like_node l ht h hr)

theorem agree_assignment : Agree R (Expr.Like R) (assignment (n + 1)) (assignment (n + 1)) := by
  refine ih.conditional.bind fun target target' htarget => (agree_accept _).bind fun o o' ho => ?_
  cases ho with
  | none => exact .pure htarget
  | some hequals =>
    refine agree_nested (ih.assignment.bind fun value value' hvalue => ?_)
    have hkept := htarget
    cases htarget with
    | name hname => exact .pure (.assign hname hvalue)
    | _ => exact (agree_report _ hequals).bind fun _ _ _ => .pure hkept

theorem agree_conditional : Agree R (Expr.Like R) (conditional (n + 1)) (conditional (n + 1)) := by
  refine (ih.chain .or).bind fun c c' hc => (agree_accept _).bind fun o o' ho => ?_
  cases ho with
  | none => exact .pure hc
  | some hquestion =>
    refine agree_nested (ih.assignment.bind fun yes yes' hyes => ?_)
    refine (agree_expect _ _).bind fun _ _ _ => ih.conditional.bind fun no no' hno => ?_
    exact .pure (.conditional hquestion hc hyes hno)

theorem agree_unary : Agree R (Expr.Like R) (unary (n + 1)) (unary (n + 1)) := by
  refine (agree_accept _).bind fun o o' ho => ?_
  cases ho with
  | some hop => exact agree_nested (ih.unary.bind fun _ _ he => .pure (.unary hop he))
  | none =>
    refine (agree_accept _).bind fun o o' ho => ?_
    cases ho with
    | some hop => exact agree_nested (ih.unary.bind fun _ _ he => .pure (.crement hop he))
    | none => exact ih.suffixed

theorem agree_suffixed : Agree R (Expr.Like R) (suffixed (n + 1)) (suffixed (n + 1)) := by
  refine ih.call.bind fun target target' htarget => (agree_accept _).bind fun o o' ho => ?_
  cases ho with
  | none => exact .pure htarget
  | some hop => exact .pure (.crement hop htarget)

theorem agree_calls {a b : Expr} (h : a.Like R b) :
    Agree R (Expr.Like R) (calls (n + 1) a) (calls (n + 1) b) := by
  refine (agree_accept _).bind fun o o' ho => ?_
  cases ho with
  | none => exact .pure h
  | some _ =>
    refine agree_deepen.bind fun _ _ _ => ih.arguments.bind fun args args' hargs => ?_
    exact (agree_expect _ _).bind fun paren paren' hparen => ih.calls (.call h hparen hargs)

theorem agree_arguments :
    Agree R (List.Forall₂ (Expr.Like R)) (arguments (n + 1)) (arguments (n + 1)) := by
  refine (agree_check _).bind fun b b' hb => ?_
  subst hb
  cases b with
  | true => exact .pure .nil
  | false => exact ih.argumentList 0 .nil

theorem agree_argumentList (count : Nat) {as bs : List Expr} (h : List.Forall₂ (Expr.Like R) as bs) :
    Agree R (List.Forall₂ (Expr.Like R)) (argumentList (n + 1) count as)
      (argumentList (n + 1) count bs) := by
  rw [argumentList, argumentList]
  refine agree_within _ _ ?_
  refine ih.assignment.bind fun arg arg' harg => (agree_accept _).bind fun o o' ho => ?_
  cases ho with
  | none => exact .pure (List.forall₂_reverse_iff.2 (.cons harg h))
  | some _ => exact ih.argumentList (count + 1) (.cons harg h)

theorem agree_primary : Agree R (Expr.Like R) (primary (n + 1)) (primary (n + 1)) := by
  refine agree_peek.bind fun t t' ht => ?_
  rw [← R.kind ht]
  split
  · exact agree_advance.bind fun _ _ _ => .pure (.literal (.bool false))
  · exact agree_advance.bind fun _ _ _ => .pure (.literal (.bool true))
  · exact agree_advance.bind fun _ _ _ => .pure (.literal .nil)
  · next hk => exact agree_advance.bind fun _ _ _ => .pure (.literal (.token (.inl hk) ht))
  · next hk => exact agree_advance.bind fun _ _ _ => .pure (.literal (.token (.inr hk) ht))
  · exact agree_advance.bind fun _ _ _ => .pure (.name ht)
  · refine agree_advance.bind fun _ _ _ => ih.expression.bind fun inner inner' hinner => ?_
    exact (agree_expect _ _).bind fun _ _ _ => .pure (.grouping hinner)
  · exact agree_fail _ ht

end

theorem expressionAgreement (n : Nat) : ExpressionAgreement R n := by
  induction n with
  | zero => constructor <;> (intros; exact .throw rfl)
  | succ n ih =>
    exact {
      expression := agree_nested (ih.chain .comma)
      chain := fun l => agree_restoringDepth ((ih.operand l).bind fun _ _ h => ih.links l h)
      operand := agree_operand ih
      links := agree_links ih
      assignment := agree_assignment ih
      conditional := agree_conditional ih
      unary := agree_unary ih
      suffixed := agree_suffixed ih
      call := agree_restoringDepth (ih.primary.bind fun _ _ h => ih.calls h)
      calls := agree_calls ih
      arguments := agree_arguments ih
      argumentList := agree_argumentList ih
      primary := agree_primary ih }

/-! Statements. -/

theorem agree_get : Agree R (Parser.Like R) get get := fun _ _ h => .ok h h

/-- Both report a fault before they go on, or none does. -/
theorem agree_reporting {α β : Type} {A : α → β → Prop} {x : Parse α} {y : Parse β} (c : Prop)
    [Decidable c] (error : SyntaxError) {t u : Token} (ht : R.like t u) (h : Agree R A x y) :
    Agree R A (if c then report error t >>= fun _ => x else x)
      (if c then report error u >>= fun _ => y else y) := by
  split
  · exact (agree_report error ht).bind fun _ _ _ => h
  · exact h

theorem agree_varDeclaration (n : Nat) :
    Agree R (Stmt.Like R) (varDeclaration n) (varDeclaration n) := by
  refine (agree_expect _ _).bind fun name name' hname => (agree_accept _).bind fun o o' ho => ?_
  cases ho with
  | none => exact (agree_expect _ _).bind fun _ _ _ => .pure (.declare hname .none)
  | some _ =>
    refine (expressionAgreement n).expression.bind fun init init' hinit => ?_
    exact (agree_expect _ _).bind fun _ _ _ => .pure (.declare hname (.some hinit))

theorem agree_parameterList (n count : Nat) {ts us : List Token} (h : List.Forall₂ R.like ts us) :
    Agree R (List.Forall₂ R.like) (parameterList n count ts) (parameterList n count us) := by
  induction n generalizing count ts us with
  | zero => exact .throw rfl
  | succ n ih =>
    rw [parameterList, parameterList]
    refine agree_within _ _ ?_
    refine (agree_expect _ _).bind fun name name' hname => (agree_accept _).bind fun o o' ho => ?_
    cases ho with
    | none => exact .pure (List.forall₂_reverse_iff.2 (.cons hname h))
    | some _ => exact ih (count + 1) (.cons hname h)

theorem agree_parameters (n : Nat) :
    Agree R (List.Forall₂ R.like) (parameters n) (parameters n) := by
  refine (agree_expect _ _).bind fun _ _ _ => (agree_check _).bind fun b b' hb => ?_
  subst hb
  cases b with
  | true =>
    exact (Related.pure .nil).bind fun names names' hnames =>
      (agree_expect _ _).bind fun _ _ _ => .pure hnames
  | false =>
    exact (agree_parameterList n 0 .nil).bind fun names names' hnames =>
      (agree_expect _ _).bind fun _ _ _ => .pure hnames

theorem agree_expressionStatement (n : Nat) :
    Agree R (Stmt.Like R) (expressionStatement n) (expressionStatement n) :=
  (expressionAgreement n).expression.bind fun _ _ he =>
    (agree_expect _ _).bind fun _ _ _ => .pure (.expression he)

theorem agree_printStatement (n : Nat) {t u : Token} (ht : R.like t u) :
    Agree R (Stmt.Like R) (printStatement n t) (printStatement n u) :=
  (expressionAgreement n).expression.bind fun _ _ he =>
    (agree_expect _ _).bind fun _ _ _ => .pure (.print ht he)

theorem agree_breakStatement {t u : Token} (ht : R.like t u) :
    Agree R (Stmt.Like R) (breakStatement t) (breakStatement u) := by
  refine agree_get.bind fun p q hpq => ?_
  rw [hpq.loops]
  exact agree_reporting _ _ ht ((agree_expect _ _).bind fun _ _ _ => .pure (.breakLoop ht))

theorem agree_continueStatement {t u : Token} (ht : R.like t u) :
    Agree R (Stmt.Like R) (continueStatement t) (continueStatement u) := by
  refine agree_get.bind fun p q hpq => ?_
  rw [hpq.loops]
  exact agree_reporting _ _ ht ((agree_expect _ _).bind fun _ _ _ => .pure (.continueLoop ht))

/-- An expression that is missing where the token `k` stands, and what comes after it. -/
theorem agree_optionalExpression {α β : Type} {A : α → β → Prop} (n : Nat) (k : Kind)
    {f : Option Expr → Parse α} {g : Option Expr → Parse β}
    (h : ∀ e e', Option.Rel (Expr.Like R) e e' → Agree R A (f e) (g e')) :
    Agree R A
      (check k >>= fun b => if b then pure none >>= f else some <$> expression n >>= f)
      (check k >>= fun b => if b then pure none >>= g else some <$> expression n >>= g) := by
  refine (agree_check k).bind fun b b' hb => ?_
  subst hb
  cases b with
  | true => exact (Related.pure .none).bind h
  | false => exact ((expressionAgreement n).expression.map fun _ _ h => .some h).bind h

theorem agree_returnStatement (n : Nat) {t u : Token} (ht : R.like t u) :
    Agree R (Stmt.Like R) (returnStatement n t) (returnStatement n u) := by
  refine agree_get.bind fun p q hpq => ?_
  rw [hpq.functions]
  refine agree_reporting _ _ ht (agree_optionalExpression n _ fun value value' hvalue => ?_)
  exact (agree_expect _ _).bind fun _ _ _ => .pure (.returnValue ht hvalue)

theorem agree_forInitializer (n : Nat) :
    Agree R (Option.Rel (Stmt.Like R)) (forInitializer n) (forInitializer n) := by
  refine (agree_accept _).bind fun o o' ho => ?_
  cases ho with
  | some _ => exact .pure .none
  | none =>
    refine (agree_accept _).bind fun o o' ho => ?_
    cases ho with
    | some _ => exact (agree_varDeclaration n).map fun _ _ h => .some h
    | none => exact (agree_expressionStatement n).map fun _ _ h => .some h

theorem like_forLoop {init init' : Option Stmt} {condition condition' increment increment' : Option Expr}
    {body body' : Stmt} (hi : Option.Rel (Stmt.Like R) init init')
    (hc : Option.Rel (Expr.Like R) condition condition')
    (hn : Option.Rel (Expr.Like R) increment increment') (hb : body.Like R body') :
    (forLoop init condition increment body).Like R (forLoop init' condition' increment' body') := by
  have hcondition : (condition.getD (.literal (.bool true))).Like R
      (condition'.getD (.literal (.bool true))) := by
    cases hc with
    | none => exact .literal (.bool true)
    | some h => exact h
  have hloop := Stmt.Like.loop hcondition hb hn
  cases hi with
  | none => exact hloop
  | some h => exact .block (.cons h (.cons hloop .nil))

/-- The parsers of statements agree on like tokens, with `n` steps allotted. -/
structure StatementAgreement (R : Likeness) (n : Nat) : Prop where
  declaration : Agree R (Option.Rel (Stmt.Like R)) (declaration n) (declaration n)
  functionDeclaration : Agree R (Stmt.Like R) (functionDeclaration n) (functionDeclaration n)
  statement : Agree R (Stmt.Like R) (statement n) (statement n)
  block : Agree R (List.Forall₂ (Stmt.Like R)) (block n) (block n)
  blockBody : ∀ {as bs : List Stmt}, List.Forall₂ (Stmt.Like R) as bs →
    Agree R (List.Forall₂ (Stmt.Like R)) (blockBody n as) (blockBody n bs)
  ifStatement : Agree R (Stmt.Like R) (ifStatement n) (ifStatement n)
  whileStatement : Agree R (Stmt.Like R) (whileStatement n) (whileStatement n)
  forStatement : Agree R (Stmt.Like R) (forStatement n) (forStatement n)

section
variable {n : Nat} (ih : StatementAgreement R n)
include ih

theorem agree_declaration :
    Agree R (Option.Rel (Stmt.Like R)) (declaration (n + 1)) (declaration (n + 1)) := by
  refine agree_recovering ((agree_accept _).bind fun o o' ho => ?_)
  cases ho with
  | some _ => exact agree_varDeclaration n
  | none =>
    refine (agree_accept _).bind fun o o' ho => ?_
    cases ho with
    | some _ => exact ih.functionDeclaration
    | none =>
      refine (agree_check _).bind fun b b' hb => ?_
      subst hb
      cases b with
      | true => exact agree_peek.bind fun _ _ ht => agree_fail _ ht
      | false => exact ih.statement

theorem agree_functionDeclaration :
    Agree R (Stmt.Like R) (functionDeclaration (n + 1)) (functionDeclaration (n + 1)) := by
  refine (agree_expect _ _).bind fun name name' hname => ?_
  refine (agree_parameters n).bind fun params params' hparams => (agree_expect _ _).bind fun _ _ _ => ?_
  exact (agree_inFunction ih.block).bind fun _ _ hbody => .pure (.function hname hparams hbody)

theorem agree_statement : Agree R (Stmt.Like R) (statement (n + 1)) (statement (n + 1)) := by
  refine agree_nested (agree_peek.bind fun t t' ht => ?_)
  rw [← R.kind ht]
  split
  · exact agree_advance.bind fun _ _ hk => agree_printStatement n hk
  · exact agree_advance.bind fun _ _ _ => ih.block.bind fun _ _ hbody => .pure (.block hbody)
  · exact agree_advance.bind fun _ _ _ => ih.ifStatement
  · exact agree_advance.bind fun _ _ _ => ih.whileStatement
  · exact agree_advance.bind fun _ _ _ => ih.forStatement
  · exact agree_advance.bind fun _ _ hk => agree_breakStatement hk
  · exact agree_advance.bind fun _ _ hk => agree_continueStatement hk
  · exact agree_advance.bind fun _ _ hk => agree_returnStatement n hk
  · exact agree_advance.bind fun _ _ _ => .pure .empty
  · exact agree_expressionStatement n

/-- A declaration, if there is one, joins those before it. -/
theorem agree_next {loop : List Stmt → Parse (List Stmt)} {as bs : List Stmt}
    (hloop : ∀ {as bs : List Stmt}, List.Forall₂ (Stmt.Like R) as bs →
      Agree R (List.Forall₂ (Stmt.Like R)) (loop as) (loop bs))
    (h : List.Forall₂ (Stmt.Like R) as bs) :
    Agree R (List.Forall₂ (Stmt.Like R))
      (declaration n >>= fun o => match o with
        | none => loop as
        | some s => loop (s :: as))
      (declaration n >>= fun o => match o with
        | none => loop bs
        | some s => loop (s :: bs)) := by
  refine ih.declaration.bind fun o o' ho => ?_
  cases ho with
  | none => exact hloop h
  | some hs => exact hloop (.cons hs h)

theorem agree_blockBody {as bs : List Stmt} (h : List.Forall₂ (Stmt.Like R) as bs) :
    Agree R (List.Forall₂ (Stmt.Like R)) (blockBody (n + 1) as) (blockBody (n + 1) bs) := by
  refine (agree_check _).bind fun b b' hb => ?_
  subst hb
  cases b with
  | true => exact .pure (List.forall₂_reverse_iff.2 h)
  | false =>
    refine agree_atEnd.bind fun b b' hb => ?_
    subst hb
    cases b with
    | true => exact .pure (List.forall₂_reverse_iff.2 h)
    | false => exact agree_next ih ih.blockBody h

theorem agree_ifStatement : Agree R (Stmt.Like R) (ifStatement (n + 1)) (ifStatement (n + 1)) := by
  refine (agree_expect _ _).bind fun _ _ _ => ?_
  refine (expressionAgreement n).expression.bind fun c c' hc => ?_
  refine (agree_expect _ _).bind fun _ _ _ => ih.statement.bind fun yes yes' hyes => ?_
  refine (agree_accept _).bind fun o o' ho => ?_
  cases ho with
  | none => exact .pure (.branch hc hyes .none)
  | some _ => exact ih.statement.bind fun _ _ hno => .pure (.branch hc hyes (.some hno))

theorem agree_whileStatement :
    Agree R (Stmt.Like R) (whileStatement (n + 1)) (whileStatement (n + 1)) := by
  refine (agree_expect _ _).bind fun _ _ _ => ?_
  refine (expressionAgreement n).expression.bind fun c c' hc => ?_
  refine (agree_expect _ _).bind fun _ _ _ => ?_
  exact (agree_inLoop ih.statement).bind fun _ _ hbody => .pure (.loop hc hbody .none)

theorem agree_forStatement : Agree R (Stmt.Like R) (forStatement (n + 1)) (forStatement (n + 1)) := by
  refine (agree_expect _ _).bind fun _ _ _ => (agree_forInitializer n).bind fun init init' hinit => ?_
  refine agree_optionalExpression n _ fun c c' hc => (agree_expect _ _).bind fun _ _ _ => ?_
  refine agree_optionalExpression n _ fun i i' hi => (agree_expect _ _).bind fun _ _ _ => ?_
  exact (agree_inLoop ih.statement).bind fun _ _ hbody => .pure (like_forLoop hinit hc hi hbody)

end

theorem statementAgreement (n : Nat) : StatementAgreement R n := by
  induction n with
  | zero => constructor <;> (intros; exact .throw rfl)
  | succ n ih =>
    exact {
      declaration := agree_declaration ih
      functionDeclaration := agree_functionDeclaration ih
      statement := agree_statement ih
      block := agree_inBlock ((ih.blockBody .nil).bind fun _ _ h =>
        (agree_expect _ _).bind fun _ _ _ => .pure h)
      blockBody := agree_blockBody ih
      ifStatement := agree_ifStatement ih
      whileStatement := agree_whileStatement ih
      forStatement := agree_forStatement ih }

theorem agree_program (n : Nat) {as bs : List Stmt} (h : List.Forall₂ (Stmt.Like R) as bs) :
    Agree R (List.Forall₂ (Stmt.Like R)) (program n as) (program n bs) := by
  induction n generalizing as bs with
  | zero => exact .throw rfl
  | succ n ih =>
    refine agree_atEnd.bind fun b b' hb => ?_
    subst hb
    cases b with
    | true => exact .pure (List.forall₂_reverse_iff.2 h)
    | false => exact agree_next (statementAgreement n) ih h

theorem agree_loneExpression (n : Nat) :
    Agree R (Expr.Like R) (loneExpression n) (loneExpression n) := by
  refine (expressionAgreement n).expression.bind fun e e' he => agree_atEnd.bind fun b b' hb => ?_
  subst hb
  cases b with
  | true => exact .pure he
  | false => exact agree_peek.bind fun _ _ ht => agree_fail _ ht

end Parse

section
variable {R : Likeness} {ts us : List Token}

theorem Parser.Like.start_of_tokens (h : List.Forall₂ R.like ts us)
    (hend : ∃ t ∈ ts, t.kind = .endOfInput) : Parser.Like R { rest := ts } { rest := us } :=
  { rest := h, ended := hend, faults := .nil, consumed := rfl, depth := rfl, loops := rfl,
    functions := rfl, blocks := rfl, start := rfl }

/-- From like tokens, of which one is an end of the input, like programs are parsed. -/
theorem Program.parse?_like (h : List.Forall₂ R.like ts us)
    (hend : ∃ t ∈ ts, t.kind = .endOfInput) :
    Option.Rel (fun p q : Program => List.Forall₂ (Stmt.Like R) p.statements q.statements ∧
      List.Forall₂ (SyntaxFault.Like R) p.faults q.faults) (parse? ts) (parse? us) := by
  have hresult := Parse.agree_program (Parser.allotment ts.length) .nil (.start_of_tokens h hend)
  unfold parse?
  rw [← h.length_eq]
  generalize Parse.program _ [] { rest := ts } = r, Parse.program _ [] { rest := us } = r'
    at hresult ⊢
  cases hresult with
  | ok hs hq => exact .some ⟨hs, List.forall₂_reverse_iff.2 hq.faults⟩
  | error => exact .none

/-- From like tokens, of which one is an end of the input, like expressions are parsed. -/
theorem LoneExpression.parse_like (h : List.Forall₂ R.like ts us)
    (hend : ∃ t ∈ ts, t.kind = .endOfInput) :
    Option.Rel (Expr.Like R) (parse ts).expression (parse us).expression ∧
      List.Forall₂ (SyntaxFault.Like R) (parse ts).faults (parse us).faults := by
  have hresult := Parse.agree_loneExpression (Parser.allotment ts.length) (.start_of_tokens h hend)
  unfold parse
  rw [← h.length_eq]
  generalize Parse.loneExpression _ { rest := ts } = r, Parse.loneExpression _ { rest := us } = r'
    at hresult ⊢
  cases hresult with
  | ok he hq => exact ⟨.some he, List.forall₂_reverse_iff.2 hq.faults⟩
  | error _ hq => exact ⟨.none, List.forall₂_reverse_iff.2 hq.faults⟩

end

end Lox
