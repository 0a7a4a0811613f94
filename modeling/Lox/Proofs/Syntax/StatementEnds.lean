import Lox.Proofs.Syntax.StatementCourse

/-! A statement that is parsed, even one with faults, ends with a semicolon or a closing brace. -/
namespace Lox.Parse
variable {α β : Type}

/-- The last token passed ends a statement. -/
def EndsAt (p q : Parser) : Prop :=
  ∃ ts t, p.rest = ts ++ t :: q.rest ∧ (t.kind = .semicolon ∨ t.kind = .rightBrace)

theorem EndsAt.after {allowed : Kind → Bool} {p q r : Parser} (hq : p.Follows allowed q)
    (h : EndsAt q r) : EndsAt p r := by
  obtain ⟨ts, hts, -, -⟩ := hq.passed
  obtain ⟨us, t, hus, ht⟩ := h
  exact ⟨ts ++ us, t, by rw [hts, hus, List.append_assoc], ht⟩

/-- Where the step ends normally, the last token it has passed ends a statement. -/
def Ends (step : Parse α) : Prop := ∀ ⦃p q : Parser⦄ ⦃a : α⦄, step p = .ok a q → EndsAt p q

theorem Ends.after {allowed : Kind → Bool} {x : Parse α} {f : α → Parse β}
    (hx : Steady allowed x) (hf : ∀ a, Ends (f a)) : Ends (x >>= f) := by
  intro p r b h
  obtain ⟨a, q, hq, hr⟩ := bind_eq_ok h
  exact .after (hx.of_ok hq) (hf a hr)

theorem Ends.map {x : Parse α} (g : α → β) (hx : Ends x) : Ends (x >>= fun a => pure (g a)) := by
  intro p r b h
  obtain ⟨a, q, hq, hr⟩ := bind_eq_ok h
  cases hr
  exact hx hq

theorem ends_expect {k : Kind} (what : String) (hk : k = .semicolon ∨ k = .rightBrace) :
    Ends (expect k what) := by
  intro p q t h
  obtain ⟨ht, hp, -⟩ := expect_eq_ok (by rcases hk with rfl | rfl <;> decide) h
  exact ⟨[], t, hp, by rwa [ht]⟩

theorem Ends.nested {step : Parse α} (h : Ends step) : Ends (nested step) := by
  intro p r a hr
  obtain ⟨-, q, hq, rfl⟩ := nested_eq_ok hr
  obtain ⟨ts, t, hts, ht⟩ := h hq
  exact ⟨ts, t, hts, ht⟩

theorem Ends.bracket {enter : Parser → Parser} {leave : Parser → Parser → Parser} {step : Parse α}
    (h : Ends step) (he : ∀ p, (enter p).rest = p.rest) (hl : ∀ p q, (leave p q).rest = q.rest) :
    Ends (bracket enter leave step) := by
  intro p r a hr
  obtain ⟨q, hq, rfl⟩ := bracket_eq_ok hr
  obtain ⟨ts, t, hts, ht⟩ := h hq
  rw [he] at hts
  exact ⟨ts, t, by rw [hts, hl], ht⟩

theorem Ends.inLoop {step : Parse α} (h : Ends step) : Ends (inLoop step) :=
  h.bracket (fun _ => rfl) (fun _ _ => rfl)

theorem Ends.inFunction {step : Parse α} (h : Ends step) : Ends (inFunction step) :=
  h.bracket (fun _ => rfl) (fun _ _ => rfl)

theorem ends_terminated (n : Nat) (what : String) (g : Expr → α) :
    Ends (expression n >>= fun e => expect .semicolon what >>= fun _ => pure (g e)) :=
  .after (keeps_expression n).toSteady fun _ => (ends_expect _ (.inl rfl)).map _

theorem ends_varDeclaration (n : Nat) : Ends (varDeclaration n) := by
  have hname : Keeps Kind.plain (expect .identifier "variable name") := keeps_expect _ rfl rfl
  have hequal : Keeps Kind.plain (accept (· = .equal)) := keeps_accept_kind rfl rfl
  refine .after hname.toSteady fun name => .after hequal.toSteady fun o => ?_
  cases o with
  | none => exact (ends_expect _ (.inl rfl)).map _
  | some _ => exact ends_terminated n _ _

/-- The parsers of statements end normally only at the end of a statement. -/
structure StatementEnds (n : Nat) : Prop where
  statement : Ends (statement n)
  block : Ends (block n)
  functionDeclaration : Ends (functionDeclaration n)
  ifStatement : Ends (ifStatement n)
  whileStatement : Ends (whileStatement n)
  forStatement : Ends (forStatement n)

theorem StatementEnds.zero : StatementEnds 0 := by
  constructor <;> exact fun _ _ _ h => nomatch h

namespace StatementEnds
variable {n : Nat}

private theorem expect_steady {k : Kind} (what : String) (hk : k.passable = true) :
    Steady Kind.passable (expect k what) := (keeps_expect what hk rfl).toSteady

private theorem demand_steady (holds : Parser → Bool) (error : SyntaxError) (t : Token) :
    Steady Kind.plain (demand holds error t) := (keeps_demand holds error t).toSteady

private theorem statement_succ (ih : StatementEnds n) : Ends (Parse.statement (n + 1)) := by
  rw [Parse.statement_succ]
  refine .nested fun p q s h => ?_
  have first {step : Parse Stmt} {kind : Kind} (hk : p.current.kind = kind)
      (hend : kind.passable = true) (hs : Ends step) (h : step (p.pass [p.current]) = .ok s q) :
      EndsAt p q :=
    .after (Parser.Follows.pass_current (hk ▸ hend) rfl) (hs h)
  unfold statementProper at h
  split at h
  next hk => exact first hk rfl (ends_terminated n _ _) h
  next hk => exact first hk rfl (ih.block.map _) h
  next hk => exact first hk rfl ih.ifStatement h
  next hk => exact first hk rfl ih.whileStatement h
  next hk => exact first hk rfl ih.forStatement h
  next hk =>
    rw [breakStatement_eq] at h
    exact first hk rfl (.after (demand_steady _ _ _)
      fun _ => (ends_expect _ (.inl rfl)).map _) h
  next hk =>
    rw [continueStatement_eq] at h
    exact first hk rfl (.after (demand_steady _ _ _)
      fun _ => (ends_expect _ (.inl rfl)).map _) h
  next hk =>
    rw [returnStatement_eq] at h
    exact first hk rfl (.after (demand_steady _ _ _)
      fun _ => .after (keeps_optionalExpression _ n).toSteady
      fun _ => (ends_expect _ (.inl rfl)).map _) h
  next hk =>
    cases h
    exact ⟨[], p.current, Parser.rest_eq_cons (by rw [hk]; decide), .inl hk⟩
  next => exact ends_terminated n _ _ h

private theorem ifStatement_succ (ih : StatementEnds n) : Ends (Parse.ifStatement (n + 1)) := by
  refine .after (expect_steady _ rfl) fun _ => .after (keeps_expression n).toSteady fun condition =>
    .after (expect_steady _ rfl) fun _ p r s h => ?_
  obtain ⟨yes, q, hq, h₀⟩ := bind_eq_ok h
  obtain ⟨o, q', hq', h₁⟩ := bind_eq_ok h₀
  obtain ⟨rfl, rfl, -⟩ | ⟨rfl, rfl, -, -⟩ := accept_eq_ok rfl hq'
  · cases h₁
    exact ih.statement hq
  · have helse : Keeps Kind.passable (accept (· = .kwElse)) := keeps_accept_kind rfl rfl
    exact .after ((statementCourse n).statement.of_ok hq) (.after (helse.of_ok hq')
      (ih.statement.map _ h₁))

theorem succ (ih : StatementEnds n) : StatementEnds (n + 1) where
  statement := statement_succ ih
  block := .bracket (.after ((statementCourse n).blockBody []).toSteady fun _ =>
    (ends_expect _ (.inr rfl)).map _) (fun _ => rfl) (fun _ _ => rfl)
  functionDeclaration := .after (expect_steady _ rfl) fun _ =>
    .after (keeps_parameters n).toSteady fun _ => .after (expect_steady _ rfl) fun _ =>
    ih.block.inFunction.map _
  ifStatement := ifStatement_succ ih
  whileStatement := .after (expect_steady _ rfl) fun _ => .after (keeps_expression n).toSteady
    fun _ => .after (expect_steady _ rfl) fun _ =>
    ih.statement.inLoop.map _
  forStatement := by
    rw [forStatement_succ]
    exact .after (expect_steady _ rfl) fun _ => .after (keeps_forInitializer n).toSteady fun _ =>
      .after (keeps_optionalExpression _ n).toSteady fun _ => .after (expect_steady _ rfl) fun _ =>
      .after (keeps_optionalExpression _ n).toSteady fun _ => .after (expect_steady _ rfl) fun _ =>
      ih.statement.inLoop.map _

end StatementEnds

theorem statementEnds (n : Nat) : StatementEnds n := by
  induction n with
  | zero => exact .zero
  | succ n ih => exact ih.succ

theorem ends_declarationProper (n : Nat) : Ends (declarationProper n) := by
  intro p q s h
  unfold declarationProper at h
  split at h
  next hk =>
    exact .after (Parser.Follows.pass_current (hk ▸ rfl : p.current.kind.passable = true) rfl)
      (ends_varDeclaration n h)
  next hk =>
    exact .after (Parser.Follows.pass_current (hk ▸ rfl : p.current.kind.passable = true) rfl)
      ((statementEnds n).functionDeclaration h)
  next => cases h
  next => exact (statementEnds n).statement h

end Lox.Parse
