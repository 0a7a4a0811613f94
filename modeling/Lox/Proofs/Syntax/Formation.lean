import Lox.Proofs.Invariant
import Lox.Proofs.Syntax.Every
import Lox.Proofs.Syntax.ExpressionSoundness
import Lox.Proofs.Syntax.StatementCourse

/-! What trees are made of. Whether or not a parse finds faults, the trees it returns have tokens of
the input at their nodes, each of a kind that belongs there. -/
namespace Lox

variable {T : Token → Prop}

/-- The operators of the chains that make binary nodes. -/
def Kind.isBinary (k : Kind) : Bool :=
  Level.equality.joins k || Level.comparison.joins k || Level.term.joins k || Level.factor.joins k

/-- A word for a literal, or what a token with the property `T` stands for. -/
def Literal.Formed (T : Token → Prop) (v : Literal) : Prop :=
  v = .nil ∨ (∃ b, v = .bool b) ∨ ∃ t, T t ∧ (t.kind = .number ∨ t.kind = .string) ∧ v = t.literal

/-- The token at a node has the property `T` and a kind that belongs there. -/
def Expr.Formed (T : Token → Prop) : Expr → Prop
  | .literal v => v.Formed T
  | .unary op _ => T op ∧ op.kind.isNegation = true
  | .binary op _ _ => T op ∧ op.kind.isBinary = true
  | .logicalAnd op _ _ => T op ∧ op.kind = .kwAnd
  | .logicalOr op _ _ => T op ∧ op.kind = .kwOr
  | .conditional question _ _ _ => T question ∧ question.kind = .question
  | .crement op _ => T op ∧ op.kind.isCrement = true
  | .variable name => T name ∧ name.kind = .identifier
  | .assign name _ => T name ∧ name.kind = .identifier
  | .call _ paren _ => T paren ∧ paren.kind = .rightParen
  | .grouping _ | .comma _ _ => True

/-- The tokens at a node have the property `T` and kinds that belong there. -/
def Stmt.Formed (T : Token → Prop) : Stmt → Prop
  | .print keyword _ => T keyword ∧ keyword.kind = .kwPrint
  | .declare name _ => T name ∧ name.kind = .identifier
  | .breakLoop keyword => T keyword ∧ keyword.kind = .kwBreak
  | .continueLoop keyword => T keyword ∧ keyword.kind = .kwContinue
  | .function name params _ => (T name ∧ name.kind = .identifier) ∧
      ∀ p ∈ params, T p ∧ p.kind = .identifier
  | .returnValue keyword _ => T keyword ∧ keyword.kind = .kwReturn
  | .empty | .expression _ | .block _ | .branch _ _ _ | .loop _ _ _ => True

/-- An expression made of tokens with the property `T`. -/
abbrev Expr.MadeOf (T : Token → Prop) : Expr → Prop := Expr.Every (Expr.Formed T)

/-- A statement made of tokens with the property `T`. -/
abbrev Stmt.MadeOf (T : Token → Prop) : Stmt → Prop := Stmt.Every (Expr.Formed T) (Stmt.Formed T)

theorem Level.madeOf_node (l : Level) {op : Token} {a b : Expr} (hop : T op)
    (hl : l.joins op.kind = true) (ha : a.MadeOf T) (hb : b.MadeOf T) :
    (l.node op a b).MadeOf T := by
  cases l with
  | comma => exact .node₂ trivial rfl ha hb
  | or => exact .node₂ ⟨hop, of_decide_eq_true hl⟩ rfl ha hb
  | and => exact .node₂ ⟨hop, of_decide_eq_true hl⟩ rfl ha hb
  | equality | comparison | term | factor =>
    have hk : op.kind.isBinary = true := by simp [Kind.isBinary, hl]
    exact .node₂ ⟨hop, hk⟩ rfl ha hb

theorem Token.madeOf_atom {t : Token} {e : Expr} (h : t.atom? = some e) (ht : T t) :
    e.MadeOf T := by
  unfold Token.atom? at h
  split at h
  next => cases h; exact .leaf (.inr (.inl ⟨false, rfl⟩)) rfl
  next => cases h; exact .leaf (.inr (.inl ⟨true, rfl⟩)) rfl
  next => cases h; exact .leaf (.inl rfl) rfl
  next hk => cases h; exact .leaf (.inr (.inr ⟨t, ht, .inl hk, rfl⟩)) rfl
  next hk => cases h; exact .leaf (.inr (.inr ⟨t, ht, .inr hk, rfl⟩)) rfl
  next hk => cases h; exact .leaf ⟨ht, hk⟩ rfl
  next => cases h

namespace Parse
variable {α β : Type} {A : α → Prop} {B : β → Prop}

/-- While all tokens ahead have the property `T`, the step gives values in `A` only. -/
abbrev Yields (T : Token → Prop) (A : α → Prop) (step : Parse α) : Prop :=
  Upholds (fun p : Parser => ∀ t ∈ p.rest, T t) (fun _ => True) A step

theorem holds_current {p : Parser} (h : ∀ t ∈ p.rest, T t) (hk : p.current.kind ≠ .endOfInput) :
    T p.current := by
  apply h
  rw [Parser.rest_of_current hk]
  exact List.mem_cons_self

theorem holds_advance {p : Parser} (h : ∀ t ∈ p.rest, T t) : ∀ t ∈ p.advance.rest, T t := by
  unfold Parser.advance
  split
  · exact h
  next hr =>
    split
    · exact h
    · intro t ht
      exact h t (hr ▸ List.mem_cons_of_mem _ ht)

/-! Elementary steps. -/

theorem yields_peek : Yields T (fun t => t.kind ≠ .endOfInput → T t) peek :=
  fun _ h => .ok (holds_current h) h

theorem yields_check (k : Kind) : Yields T (fun _ => True) (check k) := fun _ h => .ok trivial h

theorem yields_atEnd : Yields T (fun _ => True) Parse.atEnd := fun _ h => .ok trivial h

theorem yields_accept {wanted : Kind → Bool} (hend : wanted .endOfInput = false) :
    Yields T (fun o => ∀ t, o = some t → T t ∧ wanted t.kind = true) (accept wanted) := by
  intro p h
  unfold accept
  split
  next hw =>
    have hk : p.current.kind ≠ .endOfInput := by
      intro hk
      rw [hk, hend] at hw
      cases hw
    refine .ok (fun t ht => ?_) (holds_advance h)
    cases ht
    exact ⟨holds_current h hk, hw⟩
  next => exact .ok (fun t ht => by cases ht) h

theorem yields_expect {k : Kind} (hend : k.passable = true) (what : String) :
    Yields T (fun t => T t ∧ t.kind = k) (expect k what) := by
  intro p h
  have hne : k ≠ .endOfInput := of_decide_eq_true hend
  unfold expect
  split
  next hk => exact .ok ⟨holds_current h (hk ▸ hne), hk⟩ (holds_advance h)
  next => exact .error trivial h

theorem yields_report (error : SyntaxError) (t : Token) :
    Yields T (fun _ => True) (report error t) := fun _ h => .ok trivial h

theorem yields_fail (error : SyntaxError) (t : Token) : Yields T A (fail error t) :=
  fun _ h => .error trivial h

theorem yields_deepen : Yields T (fun _ => True) deepen := by
  intro p h
  unfold deepen
  split
  · exact .ok trivial h
  · exact .error trivial h

theorem yields_bracket {enter : Parser → Parser} {leave : Parser → Parser → Parser}
    {step : Parse α} (henter : ∀ p, (enter p).rest = p.rest)
    (hleave : ∀ p q, (leave p q).rest = q.rest) (h : Yields T A step) :
    Yields T A (bracket enter leave step) := by
  intro p hp
  have hentered : ∀ t ∈ (enter p).rest, T t := by rwa [henter]
  have hresult := h hentered
  unfold bracket
  generalize step (enter p) = r at hresult ⊢
  cases hresult with
  | ok ha hq => exact .ok ha (by rwa [hleave])
  | error _ hq => exact .error trivial (by rwa [hleave])

theorem yields_restoringDepth {step : Parse α} (h : Yields T A step) :
    Yields T A (restoringDepth step) := yields_bracket (fun _ => rfl) (fun _ _ => rfl) h

theorem yields_nested {step : Parse α} (h : Yields T A step) : Yields T A (nested step) :=
  yields_restoringDepth (yields_deepen.bind fun _ _ => h)

theorem yields_inLoop {step : Parse α} (h : Yields T A step) : Yields T A (inLoop step) :=
  yields_bracket (fun _ => rfl) (fun _ _ => rfl) h

theorem yields_inFunction {step : Parse α} (h : Yields T A step) : Yields T A (inFunction step) :=
  yields_bracket (fun _ => rfl) (fun _ _ => rfl) h

theorem yields_inBlock {step : Parse α} (h : Yields T A step) : Yields T A (inBlock step) :=
  yields_bracket (fun _ => rfl) (fun _ _ => rfl) h

theorem holds_synchronize {p : Parser} (h : ∀ t ∈ p.rest, T t) : ∀ t ∈ p.synchronize.rest, T t := by
  intro t ht
  exact h t (p.follows_synchronize.suffix.subset ht)

theorem yields_recovering {step : Parse α} (h : Yields T A step) :
    Yields T (fun o => ∀ a, o = some a → A a) (recovering step) := by
  intro p hp
  have hresult := h (s := p.startingHere) hp
  rw [recovering_apply]
  generalize step p.startingHere = r at hresult ⊢
  cases hresult with
  | ok ha hq =>
    refine .ok (fun a h => ?_) hq
    cases h
    exact ha
  | @error e q _ hq =>
    cases e with
    | bail => exact .ok (fun a h => by cases h) (holds_synchronize (p := q.startingAt p.start) hq)
    | stalled => exact .error trivial hq

theorem yields_tally (error : SyntaxError) (count : Nat) :
    Yields T (fun _ => True) (tally error count) := by
  intro p h
  refine .ok trivial ?_
  split
  · exact h
  · exact h

theorem yields_demand (holds : Parser → Bool) (error : SyntaxError) (t : Token) :
    Yields T (fun _ => True) (demand holds error t) := by
  intro p h
  refine .ok trivial ?_
  split
  · exact h
  · exact h

/-! Expressions. -/

/-- The parsers of expressions give trees made of the tokens, with `n` steps allotted. -/
structure ExpressionFormation (T : Token → Prop) (n : Nat) : Prop where
  expression : Yields T (Expr.MadeOf T) (expression n)
  chain : ∀ l, Yields T (Expr.MadeOf T) (chain n l)
  operand : ∀ l, Yields T (Expr.MadeOf T) (operand n l)
  links : ∀ l {a : Expr}, a.MadeOf T → Yields T (Expr.MadeOf T) (links n l a)
  assignment : Yields T (Expr.MadeOf T) (assignment n)
  conditional : Yields T (Expr.MadeOf T) (conditional n)
  unary : Yields T (Expr.MadeOf T) (unary n)
  suffixed : Yields T (Expr.MadeOf T) (suffixed n)
  call : Yields T (Expr.MadeOf T) (call n)
  calls : ∀ {a : Expr}, a.MadeOf T → Yields T (Expr.MadeOf T) (calls n a)
  arguments : Yields T (fun es => ∀ e ∈ es, e.MadeOf T) (arguments n)
  argumentList : ∀ count {es : List Expr}, (∀ e ∈ es, e.MadeOf T) →
    Yields T (fun es => ∀ e ∈ es, e.MadeOf T) (argumentList n count es)
  primary : Yields T (Expr.MadeOf T) (primary n)

theorem ExpressionFormation.zero : ExpressionFormation T 0 := by
  constructor <;> intros <;> exact .throw trivial

section
variable {n : Nat} (ih : ExpressionFormation T n)
include ih

theorem yields_operand (l : Level) : Yields T (Expr.MadeOf T) (operand (n + 1) l) := by
  cases l with
  | comma => exact ih.assignment
  | or => exact ih.chain .and
  | and => exact ih.chain .equality
  | equality => exact ih.chain .comparison
  | comparison => exact ih.chain .term
  | term => exact ih.chain .factor
  | factor => exact ih.unary

theorem yields_links (l : Level) {a : Expr} (ha : a.MadeOf T) :
    Yields T (Expr.MadeOf T) (links (n + 1) l a) := by
  refine (yields_accept (joins_endOfInput l)).bind fun o ho => ?_
  cases o with
  | none => exact .pure ha
  | some op =>
    obtain ⟨hop, hl⟩ := ho op rfl
    refine yields_deepen.bind fun _ _ => (ih.operand l).bind fun b hb => ?_
    exact ih.links l (l.madeOf_node hop hl ha hb)

theorem yields_assignment : Yields T (Expr.MadeOf T) (assignment (n + 1)) := by
  refine ih.conditional.bind fun target htarget => (yields_accept rfl).bind fun o _ => ?_
  cases o with
  | none => exact .pure htarget
  | some equals =>
    refine yields_nested (ih.assignment.bind fun value hvalue => ?_)
    split
    next name =>
      have hname : T name ∧ name.kind = .identifier := htarget.here
      exact .pure (.node₁ hname rfl hvalue)
    next => exact (yields_report _ _).bind fun _ _ => .pure htarget

theorem yields_conditional : Yields T (Expr.MadeOf T) (conditional (n + 1)) := by
  refine (ih.chain .or).bind fun c hc => (yields_accept rfl).bind fun o ho => ?_
  cases o with
  | none => exact .pure hc
  | some question =>
    obtain ⟨hq, hk⟩ := ho question rfl
    refine yields_nested (ih.assignment.bind fun yes hyes => ?_)
    refine (yields_expect rfl _).bind fun _ _ => ih.conditional.bind fun no hno => ?_
    exact .pure (.node₃ ⟨hq, of_decide_eq_true hk⟩ rfl hc hyes hno)

theorem yields_unary : Yields T (Expr.MadeOf T) (unary (n + 1)) := by
  refine (yields_accept rfl).bind fun o ho => ?_
  cases o with
  | some op => exact yields_nested (ih.unary.bind fun _ he => .pure (.node₁ (ho op rfl) rfl he))
  | none =>
    refine (yields_accept rfl).bind fun o ho => ?_
    cases o with
    | some op => exact yields_nested (ih.unary.bind fun _ he => .pure (.node₁ (ho op rfl) rfl he))
    | none => exact ih.suffixed

theorem yields_suffixed : Yields T (Expr.MadeOf T) (suffixed (n + 1)) := by
  refine ih.call.bind fun target htarget => (yields_accept rfl).bind fun o ho => ?_
  cases o with
  | none => exact .pure htarget
  | some op => exact .pure (.node₁ (ho op rfl) rfl htarget)

theorem yields_calls {a : Expr} (ha : a.MadeOf T) :
    Yields T (Expr.MadeOf T) (calls (n + 1) a) := by
  refine (yields_accept rfl).bind fun o _ => ?_
  cases o with
  | none => exact .pure ha
  | some _ =>
    refine yields_deepen.bind fun _ _ => ih.arguments.bind fun args hargs => ?_
    refine (yields_expect rfl _).bind fun paren hparen => ih.calls ?_
    exact .node hparen (List.forall_mem_cons.2 ⟨ha, hargs⟩)

theorem yields_arguments : Yields T (fun es => ∀ e ∈ es, e.MadeOf T) (arguments (n + 1)) := by
  refine (yields_check _).bind fun b _ => ?_
  cases b with
  | true => exact .pure (List.forall_mem_nil _)
  | false => exact ih.argumentList 0 (List.forall_mem_nil _)

theorem yields_argumentList (count : Nat) {es : List Expr} (hes : ∀ e ∈ es, e.MadeOf T) :
    Yields T (fun es => ∀ e ∈ es, e.MadeOf T) (argumentList (n + 1) count es) := by
  rw [argumentList_succ]
  refine (yields_tally _ _).bind fun _ _ => ih.assignment.bind fun arg harg => ?_
  have hall : ∀ e ∈ arg :: es, e.MadeOf T := List.forall_mem_cons.2 ⟨harg, hes⟩
  refine (yields_accept rfl).bind fun o _ => ?_
  cases o with
  | none => exact .pure fun e he => hall e (List.mem_reverse.1 he)
  | some _ => exact ih.argumentList (count + 1) hall

theorem yields_primary : Yields T (Expr.MadeOf T) (primary (n + 1)) := by
  intro p hp
  cases hatom : p.current.atom? with
  | some e =>
    have hkind := Token.kind_of_atom? hatom
    rw [primary_atom hatom, ← Parser.advance_eq hkind]
    exact .ok (Token.madeOf_atom hatom (holds_current hp hkind)) (holds_advance hp)
  | none =>
    by_cases hk : p.current.kind = .leftParen
    · rw [primary_grouping hk, ← Parser.advance_eq (by rw [hk]; nofun)]
      have hgrouping : Yields T (Expr.MadeOf T) (do
          let inner ← expression n
          let _ ← expect .rightParen "')' after expression"
          pure (.grouping inner)) :=
        ih.expression.bind fun _ he => (yields_expect rfl _).bind fun _ _ =>
          .pure (.node₁ trivial rfl he)
      exact hgrouping (holds_advance hp)
    · rw [primary_error hatom hk]
      exact .error trivial hp

end

theorem expressionFormation (n : Nat) : ExpressionFormation T n := by
  induction n with
  | zero => exact .zero
  | succ n ih =>
    exact {
      expression := yields_nested (ih.chain .comma)
      chain := fun l => yields_restoringDepth ((ih.operand l).bind fun _ h => ih.links l h)
      operand := yields_operand ih
      links := yields_links ih
      assignment := yields_assignment ih
      conditional := yields_conditional ih
      unary := yields_unary ih
      suffixed := yields_suffixed ih
      call := yields_restoringDepth (ih.primary.bind fun _ h => ih.calls h)
      calls := yields_calls ih
      arguments := yields_arguments ih
      argumentList := yields_argumentList ih
      primary := yields_primary ih }

/-! Statements. -/

theorem yields_varDeclaration (n : Nat) : Yields T (Stmt.MadeOf T) (varDeclaration n) := by
  refine (yields_expect rfl _).bind fun name hname => (yields_accept rfl).bind fun o _ => ?_
  cases o with
  | none =>
    refine (yields_expect rfl _).bind fun _ _ => .pure ?_
    exact .node hname (List.forall_mem_nil _) (List.forall_mem_nil _)
  | some _ =>
    refine (expressionFormation n).expression.bind fun init hinit => ?_
    refine (yields_expect rfl _).bind fun _ _ => .pure ?_
    exact .node hname (List.forall_mem_singleton.2 hinit) (List.forall_mem_nil _)

theorem yields_parameterList (n count : Nat) {names : List Token}
    (h : ∀ p ∈ names, T p ∧ p.kind = .identifier) :
    Yields T (fun names => ∀ p ∈ names, T p ∧ p.kind = .identifier)
      (parameterList n count names) := by
  induction n generalizing count names with
  | zero => exact .throw trivial
  | succ n ih =>
    rw [parameterList_succ]
    refine (yields_tally _ _).bind fun _ _ => (yields_expect rfl _).bind fun name hname => ?_
    have hall : ∀ p ∈ name :: names, T p ∧ p.kind = .identifier :=
      List.forall_mem_cons.2 ⟨hname, h⟩
    refine (yields_accept rfl).bind fun o _ => ?_
    cases o with
    | none => exact .pure fun p hp => hall p (List.mem_reverse.1 hp)
    | some _ => exact ih (count + 1) hall

theorem yields_parameters (n : Nat) :
    Yields T (fun names => ∀ p ∈ names, T p ∧ p.kind = .identifier) (parameters n) := by
  have hnames : Yields T (fun names => ∀ p ∈ names, T p ∧ p.kind = .identifier)
      (optionalParameters n) := by
    refine (yields_check _).bind fun b _ => ?_
    split
    · exact .pure (List.forall_mem_nil _)
    · exact yields_parameterList n 0 (List.forall_mem_nil _)
  rw [parameters_eq]
  exact (yields_expect rfl _).bind fun _ _ => hnames.bind fun names h =>
    (yields_expect rfl _).bind fun _ _ => .pure h

theorem yields_expressionStatement (n : Nat) :
    Yields T (Stmt.MadeOf T) (expressionStatement n) := by
  refine (expressionFormation n).expression.bind fun e he => ?_
  refine (yields_expect rfl _).bind fun _ _ => .pure ?_
  exact .node trivial (List.forall_mem_singleton.2 he) (List.forall_mem_nil _)

theorem yields_printStatement (n : Nat) {keyword : Token} (ht : T keyword)
    (hk : keyword.kind = .kwPrint) : Yields T (Stmt.MadeOf T) (printStatement n keyword) := by
  refine (expressionFormation n).expression.bind fun e he => ?_
  refine (yields_expect rfl _).bind fun _ _ => .pure ?_
  exact .node ⟨ht, hk⟩ (List.forall_mem_singleton.2 he) (List.forall_mem_nil _)

theorem yields_breakStatement {keyword : Token} (ht : T keyword) (hk : keyword.kind = .kwBreak) :
    Yields T (Stmt.MadeOf T) (breakStatement keyword) := by
  rw [breakStatement_eq]
  refine (yields_demand _ _ _).bind fun _ _ => (yields_expect rfl _).bind fun _ _ => .pure ?_
  exact .node ⟨ht, hk⟩ (List.forall_mem_nil _) (List.forall_mem_nil _)

theorem yields_continueStatement {keyword : Token} (ht : T keyword)
    (hk : keyword.kind = .kwContinue) : Yields T (Stmt.MadeOf T) (continueStatement keyword) := by
  rw [continueStatement_eq]
  refine (yields_demand _ _ _).bind fun _ _ => (yields_expect rfl _).bind fun _ _ => .pure ?_
  exact .node ⟨ht, hk⟩ (List.forall_mem_nil _) (List.forall_mem_nil _)

theorem yields_optionalExpression (stop : Kind) (n : Nat) :
    Yields T (fun o => ∀ e ∈ o.toList, e.MadeOf T) (optionalExpression stop n) := by
  refine (yields_check stop).bind fun b _ => ?_
  split
  · exact .pure (List.forall_mem_nil _)
  · exact (expressionFormation n).expression.map fun _ he => List.forall_mem_singleton.2 he

theorem yields_returnStatement (n : Nat) {keyword : Token} (ht : T keyword)
    (hk : keyword.kind = .kwReturn) : Yields T (Stmt.MadeOf T) (returnStatement n keyword) := by
  rw [returnStatement_eq]
  refine (yields_demand _ _ _).bind fun _ _ => ?_
  refine (yields_optionalExpression _ n).bind fun value hvalue => ?_
  refine (yields_expect rfl _).bind fun _ _ => .pure ?_
  exact .node ⟨ht, hk⟩ hvalue (List.forall_mem_nil _)

theorem yields_forInitializer (n : Nat) :
    Yields T (fun o => ∀ s ∈ o.toList, s.MadeOf T) (forInitializer n) := by
  refine (yields_accept rfl).bind fun o _ => ?_
  cases o with
  | some _ => exact .pure (List.forall_mem_nil _)
  | none =>
    refine (yields_accept rfl).bind fun o _ => ?_
    cases o with
    | some _ => exact (yields_varDeclaration n).map fun _ hs => List.forall_mem_singleton.2 hs
    | none => exact (yields_expressionStatement n).map fun _ hs => List.forall_mem_singleton.2 hs

theorem madeOf_forLoop {init : Option Stmt} {condition increment : Option Expr} {body : Stmt}
    (hi : ∀ s ∈ init.toList, s.MadeOf T) (hc : ∀ e ∈ condition.toList, e.MadeOf T)
    (hn : ∀ e ∈ increment.toList, e.MadeOf T) (hb : body.MadeOf T) :
    (forLoop init condition increment body).MadeOf T := by
  have hcondition : (condition.getD (.literal (.bool true))).MadeOf T := by
    cases condition with
    | none => exact .leaf (.inr (.inl ⟨true, rfl⟩)) rfl
    | some e => exact hc e List.mem_cons_self
  have hloop : (Stmt.loop (condition.getD (.literal (.bool true))) body increment).MadeOf T :=
    .node trivial (List.forall_mem_cons.2 ⟨hcondition, hn⟩) (List.forall_mem_singleton.2 hb)
  cases init with
  | none => exact hloop
  | some s =>
    have hs := hi s List.mem_cons_self
    refine .node trivial (List.forall_mem_nil _) ?_
    exact List.forall_mem_cons.2 ⟨hs, List.forall_mem_singleton.2 hloop⟩

/-- The parsers of statements give trees made of the tokens, with `n` steps allotted. -/
structure StatementFormation (T : Token → Prop) (n : Nat) : Prop where
  declaration : Yields T (fun o => ∀ s, o = some s → s.MadeOf T) (declaration n)
  functionDeclaration : Yields T (Stmt.MadeOf T) (functionDeclaration n)
  statement : Yields T (Stmt.MadeOf T) (statement n)
  block : Yields T (fun ss => ∀ s ∈ ss, s.MadeOf T) (block n)
  blockBody : ∀ {ss : List Stmt}, (∀ s ∈ ss, s.MadeOf T) →
    Yields T (fun ss => ∀ s ∈ ss, s.MadeOf T) (blockBody n ss)
  ifStatement : Yields T (Stmt.MadeOf T) (ifStatement n)
  whileStatement : Yields T (Stmt.MadeOf T) (whileStatement n)
  forStatement : Yields T (Stmt.MadeOf T) (forStatement n)

theorem StatementFormation.zero : StatementFormation T 0 := by
  constructor <;> intros <;> exact .throw trivial

section
variable {n : Nat} (ih : StatementFormation T n)
include ih

theorem yields_declaration :
    Yields T (fun o => ∀ s, o = some s → s.MadeOf T) (declaration (n + 1)) := by
  refine yields_recovering ((yields_accept rfl).bind fun o _ => ?_)
  cases o with
  | some _ => exact yields_varDeclaration n
  | none =>
    refine (yields_accept rfl).bind fun o _ => ?_
    cases o with
    | some _ => exact ih.functionDeclaration
    | none =>
      refine (yields_check _).bind fun b _ => ?_
      split
      · exact yields_peek.bind fun _ _ => yields_fail _ _
      · exact ih.statement

theorem yields_functionDeclaration :
    Yields T (Stmt.MadeOf T) (functionDeclaration (n + 1)) := by
  refine (yields_expect rfl _).bind fun name hname => ?_
  refine (yields_parameters n).bind fun params hparams => (yields_expect rfl _).bind fun _ _ => ?_
  refine (yields_inFunction ih.block).bind fun body hbody => .pure ?_
  exact .node ⟨hname, hparams⟩ (List.forall_mem_nil _) hbody

theorem yields_statement : Yields T (Stmt.MadeOf T) (statement (n + 1)) := by
  rw [statement_succ]
  refine yields_nested fun p hp => ?_
  unfold statementProper
  have hnext {k : Kind} (hk : p.current.kind = k) (hend : k.passable = true) :
      T p.current ∧ ∀ t ∈ (p.pass [p.current]).rest, T t := by
    have hne : p.current.kind ≠ .endOfInput := hk ▸ of_decide_eq_true hend
    rw [← Parser.advance_eq hne]
    exact ⟨holds_current hp hne, holds_advance hp⟩
  split
  next hk =>
    obtain ⟨ht, hrest⟩ := hnext hk rfl
    exact yields_printStatement n ht hk hrest
  next hk =>
    have hblock : Yields T (Stmt.MadeOf T) (block n >>= fun body => pure (.block body)) :=
      ih.block.bind fun body hbody => .pure (.node trivial (List.forall_mem_nil _) hbody)
    exact hblock (hnext hk rfl).2
  next hk => exact ih.ifStatement (hnext hk rfl).2
  next hk => exact ih.whileStatement (hnext hk rfl).2
  next hk => exact ih.forStatement (hnext hk rfl).2
  next hk =>
    obtain ⟨ht, hrest⟩ := hnext hk rfl
    exact yields_breakStatement ht hk hrest
  next hk =>
    obtain ⟨ht, hrest⟩ := hnext hk rfl
    exact yields_continueStatement ht hk hrest
  next hk =>
    obtain ⟨ht, hrest⟩ := hnext hk rfl
    exact yields_returnStatement n ht hk hrest
  next hk =>
    exact .ok (.node trivial (List.forall_mem_nil _) (List.forall_mem_nil _)) (hnext hk rfl).2
  next => exact yields_expressionStatement n hp

/-- A declaration, if there is one, joins those before it. -/
theorem yields_next {loop : List Stmt → Parse (List Stmt)} {ss : List Stmt}
    (hloop : ∀ {ss : List Stmt}, (∀ s ∈ ss, s.MadeOf T) →
      Yields T (fun ss => ∀ s ∈ ss, s.MadeOf T) (loop ss))
    (h : ∀ s ∈ ss, s.MadeOf T) :
    Yields T (fun ss => ∀ s ∈ ss, s.MadeOf T)
      (declaration n >>= fun o => match o with
        | none => loop ss
        | some s => loop (s :: ss)) := by
  refine ih.declaration.bind fun o ho => ?_
  cases o with
  | none => exact hloop h
  | some s => exact hloop (List.forall_mem_cons.2 ⟨ho s rfl, h⟩)

theorem yields_blockBody {ss : List Stmt} (h : ∀ s ∈ ss, s.MadeOf T) :
    Yields T (fun ss => ∀ s ∈ ss, s.MadeOf T) (blockBody (n + 1) ss) := by
  have hreverse : ∀ s ∈ ss.reverse, s.MadeOf T := fun s hs => h s (List.mem_reverse.1 hs)
  refine (yields_check _).bind fun b _ => ?_
  split
  · exact .pure hreverse
  · refine yields_atEnd.bind fun b _ => ?_
    split
    · exact .pure hreverse
    · exact yields_next ih ih.blockBody h

theorem yields_ifStatement : Yields T (Stmt.MadeOf T) (ifStatement (n + 1)) := by
  refine (yields_expect rfl _).bind fun _ _ => ?_
  refine (expressionFormation n).expression.bind fun c hc => ?_
  refine (yields_expect rfl _).bind fun _ _ => ih.statement.bind fun yes hyes => ?_
  have hcondition := List.forall_mem_singleton.2 hc
  refine (yields_accept rfl).bind fun o _ => ?_
  cases o with
  | none => exact .pure (.node trivial hcondition (List.forall_mem_singleton.2 hyes))
  | some _ =>
    refine ih.statement.bind fun no hno => .pure (.node trivial hcondition ?_)
    exact List.forall_mem_cons.2 ⟨hyes, List.forall_mem_singleton.2 hno⟩

theorem yields_whileStatement : Yields T (Stmt.MadeOf T) (whileStatement (n + 1)) := by
  refine (yields_expect rfl _).bind fun _ _ => ?_
  refine (expressionFormation n).expression.bind fun c hc => ?_
  refine (yields_expect rfl _).bind fun _ _ => ?_
  refine (yields_inLoop ih.statement).bind fun body hbody => .pure ?_
  exact .node trivial (List.forall_mem_singleton.2 hc) (List.forall_mem_singleton.2 hbody)

theorem yields_forStatement : Yields T (Stmt.MadeOf T) (forStatement (n + 1)) := by
  rw [forStatement_succ]
  refine (yields_expect rfl _).bind fun _ _ => (yields_forInitializer n).bind fun init hinit => ?_
  refine (yields_optionalExpression _ n).bind fun c hc => (yields_expect rfl _).bind fun _ _ => ?_
  refine (yields_optionalExpression _ n).bind fun i hi => (yields_expect rfl _).bind fun _ _ => ?_
  exact (yields_inLoop ih.statement).bind fun _ hbody => .pure (madeOf_forLoop hinit hc hi hbody)

end

theorem statementFormation (n : Nat) : StatementFormation T n := by
  induction n with
  | zero => exact .zero
  | succ n ih =>
    exact {
      declaration := yields_declaration ih
      functionDeclaration := yields_functionDeclaration ih
      statement := yields_statement ih
      block := yields_inBlock ((ih.blockBody (List.forall_mem_nil _)).bind fun _ h =>
        (yields_expect rfl _).bind fun _ _ => .pure h)
      blockBody := yields_blockBody ih
      ifStatement := yields_ifStatement ih
      whileStatement := yields_whileStatement ih
      forStatement := yields_forStatement ih }

theorem yields_program (n : Nat) {ss : List Stmt} (h : ∀ s ∈ ss, s.MadeOf T) :
    Yields T (fun ss => ∀ s ∈ ss, s.MadeOf T) (program n ss) := by
  induction n generalizing ss with
  | zero => exact .throw trivial
  | succ n ih =>
    refine yields_atEnd.bind fun b _ => ?_
    split
    · exact .pure fun s hs => h s (List.mem_reverse.1 hs)
    · exact yields_next (statementFormation n) ih h

end Parse

/-- All statements that a parse returns are made of tokens with a property that all tokens have. -/
theorem Program.madeOf_of_forall {tokens : List Token} {program : Program}
    (htokens : ∀ t ∈ tokens, T t) (h : parse? tokens = some program) :
    ∀ s ∈ program.statements, s.MadeOf T := by
  have hyields := Parse.yields_program (T := T) (Parser.allotment tokens.length)
    (List.forall_mem_nil _)
  unfold parse? at h
  split at h
  next ss q hq =>
    cases h
    have hstart : ∀ t ∈ ({ rest := tokens } : Parser).rest, T t := htokens
    exact (hyields.of_ok hstart hq).1
  next => cases h

/-- All statements that a parse returns are made of its tokens. -/
theorem Program.madeOf_parse? {tokens : List Token} {program : Program}
    (h : parse? tokens = some program) : ∀ s ∈ program.statements, s.MadeOf (· ∈ tokens) :=
  madeOf_of_forall (fun _ ht => ht) h

/-- An expression that a parse returns is made of its tokens. -/
theorem LoneExpression.madeOf_parse {tokens : List Token} {e : Expr}
    (h : (parse tokens).expression = some e) : e.MadeOf (· ∈ tokens) := by
  have hyields : Parse.Yields (· ∈ tokens) (Expr.MadeOf (· ∈ tokens))
      (Parse.loneExpression (Parser.allotment tokens.length)) := by
    refine (Parse.expressionFormation _).expression.bind fun e he => ?_
    refine Parse.yields_atEnd.bind fun b _ => ?_
    split
    · exact .pure he
    · exact Parse.yields_peek.bind fun _ _ => Parse.yields_fail _ _
  unfold parse at h
  split at h
  next e' q hq =>
    cases h
    have hstart : ∀ t ∈ ({ rest := tokens } : Parser).rest, t ∈ tokens := fun _ ht => ht
    exact (hyields.of_ok hstart hq).1
  next => cases h

end Lox
