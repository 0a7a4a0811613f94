import Lox.Token.Scan
import Lox.Proofs.Syntax.Consumption
import Lox.Proofs.Syntax.StatementAllotment

/-! The recipes of all parsers: each follows the parser's own definition. With them the counters are
followed through every declaration, up to the end of the input and through every fault. -/
namespace Lox.Parse

namespace Recipe
variable {level : Bool} {α β : Type} {x y : Parse α}

def pure (a : α) : Recipe level (Pure.pure a : Parse α) := .step (.look fun _ => a)

def stall : Recipe level (throw .stalled : Parse α) := .step .stall

def map (f : α → β) (r : Recipe level x) : Recipe level (f <$> x) := .bind r fun a => pure (f a)

def get : Recipe level (MonadState.get : Parse Parser) := .step (.look id)

def peek : Recipe level peek := .step (.look Parser.current)

def check {kind : Kind} : Recipe level (check kind) := .step (.look _)

def atEnd : Recipe level atEnd := .step (.look Parser.atEnd)

def report {error : SyntaxError} {t : Token} : Recipe level (report error t) :=
  .step (.report error t)

def fail {error : SyntaxError} {t : Token} : Recipe level (fail error t : Parse α) :=
  .step (.fail error t)

def advance : Recipe level advance := .step .advance

def accept {wanted : Kind → Bool} : Recipe level (accept wanted) := .step (.accept wanted)

def expect {kind : Kind} {what : String} : Recipe level (expect kind what) :=
  .step (.expect kind what)

def ite {c : Prop} [h : Decidable c] (r : Recipe level x) (s : Recipe level y) :
    Recipe level (if c then x else y) :=
  match h with
  | isTrue _ => r
  | isFalse _ => s

/-- A step before which a fault may be reported. -/
def reporting {c : Prop} [Decidable c] {error : SyntaxError} {t : Token} (r : Recipe level x) :
    Recipe level (if c then Parse.report error t >>= fun _ => x else x) :=
  .ite (.bind .report fun _ => r) r

end Recipe

/-! Expressions. -/

/-- The parsers of expressions. Within a chain, and between a callee and its arguments, levels of
nesting stay counted. -/
structure ExpressionRecipes (n : Nat) : Type 1 where
  expression : Recipe true (expression n)
  chain : ∀ l, Recipe true (chain n l)
  operand : ∀ l, Recipe true (operand n l)
  links : ∀ l left, Recipe false (links n l left)
  assignment : Recipe true (assignment n)
  conditional : Recipe true (conditional n)
  unary : Recipe true (unary n)
  suffixed : Recipe true (suffixed n)
  call : Recipe true (call n)
  calls : ∀ callee, Recipe false (calls n callee)
  arguments : Recipe true (arguments n)
  argumentList : ∀ count before, Recipe true (argumentList n count before)
  primary : Recipe true (primary n)

namespace ExpressionRecipes
variable {n : Nat}

def zero : ExpressionRecipes 0 where
  expression := .stall
  chain _ := .stall
  operand _ := .stall
  links _ _ := .stall
  assignment := .stall
  conditional := .stall
  unary := .stall
  suffixed := .stall
  call := .stall
  calls _ := .stall
  arguments := .stall
  argumentList _ _ := .stall
  primary := .stall

def operandSucc (h : ExpressionRecipes n) : ∀ l, Recipe true (Parse.operand (n + 1) l)
  | .comma => h.assignment
  | .or => h.chain .and
  | .and => h.chain .equality
  | .equality => h.chain .comparison
  | .comparison => h.chain .term
  | .term => h.chain .factor
  | .factor => h.unary

def linksSucc (h : ExpressionRecipes n) (l : Level) (left : Expr) :
    Recipe false (Parse.links (n + 1) l left) :=
  .bind .accept fun o => match o with
    | none => .pure left
    | some _ => .bind .deepen fun _ => .bind (.loosen (h.operand l)) fun _ => h.links l _

def assignmentSucc (h : ExpressionRecipes n) : Recipe true (Parse.assignment (n + 1)) :=
  .bind h.conditional fun target => .bind .accept fun o => match o with
    | none => .pure target
    | some _ => .nested (.bind h.assignment fun _ => by
      split
      · exact .pure _
      · exact .bind .report fun _ => .pure target)

def conditionalSucc (h : ExpressionRecipes n) : Recipe true (Parse.conditional (n + 1)) :=
  .bind (h.chain .or) fun condition => .bind .accept fun o => match o with
    | none => .pure condition
    | some _ => .nested (.bind h.assignment fun _ => .bind .expect fun _ =>
      .bind h.conditional fun _ => .pure _)

def unarySucc (h : ExpressionRecipes n) : Recipe true (Parse.unary (n + 1)) :=
  .bind .accept fun o => match o with
    | some _ => .nested (.bind h.unary fun _ => .pure _)
    | none => .bind .accept fun o => match o with
      | some _ => .nested (.bind h.unary fun _ => .pure _)
      | none => h.suffixed

def suffixedSucc (h : ExpressionRecipes n) : Recipe true (Parse.suffixed (n + 1)) :=
  .bind h.call fun target => .bind .accept fun o => match o with
    | none => .pure target
    | some _ => .pure _

def callsSucc (h : ExpressionRecipes n) (callee : Expr) :
    Recipe false (Parse.calls (n + 1) callee) :=
  .bind .accept fun o => match o with
    | none => .pure callee
    | some _ => .bind .deepen fun _ => .bind (.loosen h.arguments) fun _ =>
      .bind .expect fun _ => h.calls _

def argumentListSucc (h : ExpressionRecipes n) (count : Nat) (before : List Expr) :
    Recipe true (Parse.argumentList (n + 1) count before) :=
  -- What follows is the same whether or not there is one argument too many.
  let rest : Recipe true (do
      let arg ← Parse.assignment n
      match ← Parse.accept (· = .comma) with
      | none => Pure.pure (arg :: before).reverse
      | some _ => Parse.argumentList n (count + 1) (arg :: before)) :=
    .bind h.assignment fun _ => .bind .accept fun o => match o with
      | none => .pure _
      | some _ => h.argumentList _ _
  .ite (.bind .peek fun _ => .bind .report fun _ => rest) rest

def primarySucc (h : ExpressionRecipes n) : Recipe true (Parse.primary (n + 1)) :=
  .bind .peek fun t => by
    split
    -- Literals and variables are one token each.
    iterate 6 exact .bind .advance fun _ => .pure _
    · exact .bind .advance fun _ => .bind h.expression fun _ => .bind .expect fun _ => .pure _
    · exact .fail

def succ (h : ExpressionRecipes n) : ExpressionRecipes (n + 1) where
  expression := .nested (h.chain .comma)
  chain l := .restoringDepth (.bind (.loosen (h.operand l)) fun first => h.links l first)
  operand := h.operandSucc
  links := h.linksSucc
  assignment := h.assignmentSucc
  conditional := h.conditionalSucc
  unary := h.unarySucc
  suffixed := h.suffixedSucc
  call := .restoringDepth (.bind (.loosen h.primary) fun callee => h.calls callee)
  calls := h.callsSucc
  arguments := .bind .check fun _ => .ite (.pure []) (h.argumentList 0 [])
  argumentList := h.argumentListSucc
  primary := h.primarySucc

end ExpressionRecipes

def expressionRecipes : ∀ n, ExpressionRecipes n
  | 0 => .zero
  | n + 1 => (expressionRecipes n).succ

/-! Statements without parts. -/

def parameterListRecipe : ∀ n count before, Recipe true (parameterList n count before)
  | 0, _, _ => .stall
  | n + 1, count, before =>
    let rest : Recipe true (do
        let name ← expect .identifier "parameter name"
        match ← accept (· = .comma) with
        | none => pure (name :: before).reverse
        | some _ => parameterList n (count + 1) (name :: before)) :=
      .bind .expect fun _ => .bind .accept fun o => match o with
        | none => .pure _
        | some _ => parameterListRecipe n _ _
    .ite (.bind .peek fun _ => .bind .report fun _ => rest) rest

section
variable (n : Nat)

def expressionRecipe : Recipe true (expression n) := (expressionRecipes n).expression

def varDeclarationRecipe : Recipe true (varDeclaration n) :=
  .bind .expect fun _ => .bind .accept fun o => match o with
    | none => .bind .expect fun _ => .pure _
    | some _ => .bind (expressionRecipe n) fun _ => .bind .expect fun _ => .pure _

def parametersRecipe : Recipe true (parameters n) :=
  let close (names : List Token) : Recipe true (do
      let _ ← expect .rightParen "')' after parameters"
      pure names) := .bind .expect fun _ => .pure names
  .bind .expect fun _ => .bind .check fun _ =>
    .ite (.bind (.pure []) close) (.bind (parameterListRecipe n 0 []) close)

def expressionStatementRecipe : Recipe true (expressionStatement n) :=
  .bind (expressionRecipe n) fun _ => .bind .expect fun _ => .pure _

def printStatementRecipe (keyword : Token) : Recipe true (printStatement n keyword) :=
  .bind (expressionRecipe n) fun _ => .bind .expect fun _ => .pure _

def breakStatementRecipe (keyword : Token) : Recipe true (breakStatement keyword) :=
  .bind .get fun _ => .reporting (.bind .expect fun _ => .pure _)

def continueStatementRecipe (keyword : Token) : Recipe true (continueStatement keyword) :=
  .bind .get fun _ => .reporting (.bind .expect fun _ => .pure _)

/-- An expression, unless the token is next that would follow it, and what comes after. -/
def optionalRecipe {α : Type} {stop : Kind} {f : Option Expr → Parse α}
    (r : ∀ value, Recipe true (f value)) : Recipe true (do
      if ← check stop then pure none >>= f else (some <$> expression n) >>= f) :=
  .bind .check fun _ => .ite (.bind (.pure none) r) (.bind (.map some (expressionRecipe n)) r)

def returnStatementRecipe (keyword : Token) : Recipe true (returnStatement n keyword) :=
  .bind .get fun _ => .reporting (optionalRecipe n fun _ => .bind .expect fun _ => .pure _)

def forInitializerRecipe : Recipe true (forInitializer n) :=
  .bind .accept fun o => match o with
    | some _ => .pure none
    | none => .bind .accept fun o => match o with
      | some _ => .map some (varDeclarationRecipe n)
      | none => .map some (expressionStatementRecipe n)

end

/-! Declarations and statements with parts. -/

structure StatementRecipes (n : Nat) : Type 1 where
  declaration : Recipe true (declaration n)
  functionDeclaration : Recipe true (functionDeclaration n)
  statement : Recipe true (statement n)
  block : Recipe true (block n)
  blockBody : ∀ before, Recipe true (blockBody n before)
  ifStatement : Recipe true (ifStatement n)
  whileStatement : Recipe true (whileStatement n)
  forStatement : Recipe true (forStatement n)

namespace StatementRecipes
variable {n : Nat}

def zero : StatementRecipes 0 where
  declaration := .stall
  functionDeclaration := .stall
  statement := .stall
  block := .stall
  blockBody _ := .stall
  ifStatement := .stall
  whileStatement := .stall
  forStatement := .stall

def declarationSucc (h : StatementRecipes n) : Recipe true (Parse.declaration (n + 1)) :=
  .recovering (.bind .accept fun o => match o with
    | some _ => varDeclarationRecipe n
    | none => .bind .accept fun o => match o with
      | some _ => h.functionDeclaration
      | none => .bind .check fun _ => .ite (.bind .peek fun _ => .fail) h.statement)

def functionDeclarationSucc (h : StatementRecipes n) :
    Recipe true (Parse.functionDeclaration (n + 1)) :=
  .bind .expect fun _ => .bind (parametersRecipe n) fun _ => .bind .expect fun _ =>
    .bind (.enclosed .function h.block) fun _ => .pure _

def statementSucc (h : StatementRecipes n) : Recipe true (Parse.statement (n + 1)) :=
  .nested (.bind .peek fun t => by
    split
    · exact .bind .advance fun keyword => printStatementRecipe n keyword
    · exact .bind .advance fun _ => .bind h.block fun _ => .pure _
    · exact .bind .advance fun _ => h.ifStatement
    · exact .bind .advance fun _ => h.whileStatement
    · exact .bind .advance fun _ => h.forStatement
    · exact .bind .advance breakStatementRecipe
    · exact .bind .advance continueStatementRecipe
    · exact .bind .advance fun keyword => returnStatementRecipe n keyword
    · exact .bind .advance fun _ => .pure _
    · exact expressionStatementRecipe n)

def blockSucc (h : StatementRecipes n) : Recipe true (Parse.block (n + 1)) :=
  .enclosed .block (.bind (h.blockBody []) fun _ => .bind .expect fun _ => .pure _)

def blockBodySucc (h : StatementRecipes n) (before : List Stmt) :
    Recipe true (Parse.blockBody (n + 1) before) :=
  .bind .check fun _ => .ite (.pure _) (.bind .atEnd fun _ => .ite (.pure _)
    (.bind h.declaration fun o => match o with
      | none => h.blockBody _
      | some _ => h.blockBody _))

def ifStatementSucc (h : StatementRecipes n) : Recipe true (Parse.ifStatement (n + 1)) :=
  .bind .expect fun _ => .bind (expressionRecipe n) fun _ => .bind .expect fun _ =>
    .bind h.statement fun _ => .bind .accept fun o => match o with
      | none => .pure _
      | some _ => .bind h.statement fun _ => .pure _

def whileStatementSucc (h : StatementRecipes n) : Recipe true (Parse.whileStatement (n + 1)) :=
  .bind .expect fun _ => .bind (expressionRecipe n) fun _ => .bind .expect fun _ =>
    .bind (.enclosed .loop h.statement) fun _ => .pure _

def forStatementSucc (h : StatementRecipes n) : Recipe true (Parse.forStatement (n + 1)) :=
  .bind .expect fun _ => .bind (forInitializerRecipe n) fun _ =>
    optionalRecipe n fun _ => .bind .expect fun _ =>
    optionalRecipe n fun _ => .bind .expect fun _ =>
    .bind (.enclosed .loop h.statement) fun _ => .pure _

def succ (h : StatementRecipes n) : StatementRecipes (n + 1) where
  declaration := h.declarationSucc
  functionDeclaration := h.functionDeclarationSucc
  statement := h.statementSucc
  block := h.blockSucc
  blockBody := h.blockBodySucc
  ifStatement := h.ifStatementSucc
  whileStatement := h.whileStatementSucc
  forStatement := h.forStatementSucc

end StatementRecipes

def statementRecipes : ∀ n, StatementRecipes n
  | 0 => .zero
  | n + 1 => (statementRecipes n).succ

def declarationRecipe (n : Nat) : Recipe true (declaration n) := (statementRecipes n).declaration

def programRecipe : ∀ n before, Recipe true (program n before)
  | 0, _ => .stall
  | n + 1, _ => .bind .atEnd fun _ => .ite (.pure _)
    (.bind (declarationRecipe n) fun o => match o with
      | none => programRecipe n _
      | some _ => programRecipe n _)

def loneExpressionRecipe (n : Nat) : Recipe true (loneExpression n) :=
  .bind (expressionRecipe n) fun _ => .bind .atEnd fun _ =>
    .ite (.pure _) (.bind .peek fun _ => .fail)

/-- Whether a declaration is built or given up, each counter is afterwards what it was before. In a
declaration, a program or a lone expression no token is consumed at too great a nesting. -/
theorem declaration_restores_counters (n : Nat) {p : Parser} (hd : p.depth ≤ maxNesting) :
    (∀ q, declaration n p ≠ .error .bail q) ∧
      (∀ o q, declaration n p = .ok o q →
        q.depth = p.depth ∧ q.loops = p.loops ∧ q.functions = p.functions ∧
          q.blocks = p.blocks ∧ q.start = p.start) ∧
      (declarationRecipe n).Accounts p ∧ (∀ before, (programRecipe n before).Accounts p) ∧
      (loneExpressionRecipe n).Accounts p := by
  refine ⟨declaration_ne_bail n p, fun o q hq => ?_, (declarationRecipe n).accounts hd,
    fun before => (programRecipe n before).accounts hd, (loneExpressionRecipe n).accounts hd⟩
  have hkeeps := (declarationRecipe n).keeps
  have hfollows := hkeeps.of_ok hq
  exact ⟨hkeeps.depth_of_ok hq, hfollows.loops, hfollows.functions, hfollows.blocks, hfollows.start⟩

private theorem exists_of_run' {α : Type} {x : Parse α} {p : Parser} {a : α}
    (h : x.run' p = some a) : ∃ q, x p = .ok a q := by
  have hsame : x.run' p = EStateM.run' (fun _ => x p) p := rfl
  rw [hsame] at h
  cases hx : x p with
  | ok b q =>
    rw [hx] at h
    cases h
    exact ⟨q, rfl⟩
  | error e q =>
    rw [hx] at h
    cases h

/-- A function that is given up at the end of the input, with a loop in it and a statement in the
loop that are given up before. Its tokens are consumed up to the greatest nesting. -/
theorem declaration_restores_counters_unfinished :
    let source := utf8 "fun f(a) \x7b while (a) \x7b print (1 + 2; "
    let p : Parser :=
      { rest := (Scan.ofSource source).tokens, consumed := 9, depth := 250, loops := 2,
        functions := 1, blocks := 3, start := 4 }
    p.depth ≤ maxNesting ∧
      ((declarationRecipe 120).run p).2.map (·.depth) =
        [250, 250, 250, 250, 250, 250, 251, 251, 252, 251, 252, 253, 254, 255, 255, 256, 252] ∧
      ∃ q, declaration 120 p = .ok none q ∧ q.depth = 250 ∧ q.loops = 2 ∧ q.functions = 1 ∧
        q.blocks = 3 ∧ q.start = 4 := by
  intro source p
  have hd : p.depth ≤ maxNesting := by decide
  have hvalue : ((declaration 120).run' p).map Option.isNone = some true := by decide +kernel
  obtain ⟨o, ho, hnone⟩ := Option.map_eq_some_iff.1 hvalue
  obtain rfl := Option.isNone_iff_eq_none.1 hnone
  obtain ⟨q, hq⟩ := exists_of_run' ho
  obtain ⟨-, hcounters, -⟩ := declaration_restores_counters 120 hd
  exact ⟨hd, by decide +kernel, q, hq, hcounters none q hq⟩

end Lox.Parse
