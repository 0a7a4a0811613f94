import Lox.Proofs.Syntax.StatementSteps

/-! What the parse of a statement can change: it passes tokens and adds faults, and restores every
counter. Statements without parts pass no brace. -/
namespace Lox

/-- The kinds of the tokens of statements that have no statements within them. -/
def Kind.plain (k : Kind) : Bool := k ≠ .leftBrace && k ≠ .rightBrace && k ≠ .endOfInput

theorem Kind.plain_of_inExpression {k : Kind} (h : k.inExpression = true) : k.plain = true := by
  cases k <;> first | rfl | cases h

theorem Kind.passable_of_plain {k : Kind} (h : k.plain = true) : k.passable = true := by
  cases k <;> first | rfl | cases h

namespace Parser

/-- Recovery passes tokens up to the end of the input at most. -/
theorem skipFrom_passes (start : Nat) (inBlock : Bool) (ts : List Token) :
    ∀ consumed, ∃ us, ts = us ++ (skipFrom start inBlock consumed ts).2 ∧
      (skipFrom start inBlock consumed ts).1 = consumed + us.length ∧
      ∀ t ∈ us, t.kind.passable = true := by
  induction ts with
  | nil => exact fun consumed => ⟨[], rfl, rfl, nofun⟩
  | cons t ts ih =>
    intro consumed
    unfold skipFrom
    split
    · exact ⟨[], rfl, rfl, nofun⟩
    next hend =>
      have ht : t.kind.passable = true := decide_eq_true hend
      split
      · exact ⟨[t], rfl, rfl, List.forall_mem_singleton.2 ht⟩
      · split
        · exact ⟨[], rfl, rfl, nofun⟩
        · obtain ⟨us, hts, hc, hus⟩ := ih (consumed + 1)
          refine ⟨t :: us, congrArg (t :: ·) hts, ?_, List.forall_mem_cons.2 ⟨ht, hus⟩⟩
          rw [hc, List.length_cons]
          omega

theorem follows_synchronize (p : Parser) : p.Follows Kind.passable p.synchronize where
  passed := skipFrom_passes p.start (0 < p.blocks) p.rest p.consumed
  faults := List.suffix_rfl
  loops := rfl
  functions := rfl
  blocks := rfl
  start := rfl

end Parser

namespace Parse
variable {α : Type} {allowed : Kind → Bool}

theorem Keeps.mono {wider : Kind → Bool} (hw : ∀ k, allowed k = true → wider k = true)
    {step : Parse α} (h : Keeps allowed step) : Keeps wider step :=
  ⟨⟨fun p => (h.follows p).mono hw, h.bails⟩, h.depth⟩

theorem keeps_bracket {enter : Parser → Parser} {leave : Parser → Parser → Parser} {step : Parse α}
    (h : Keeps allowed step)
    (hf : ∀ p q, (enter p).Follows allowed q → p.Follows allowed (leave p q))
    (hb : ∀ p q, (enter p).faults.length < q.faults.length →
      p.faults.length < (leave p q).faults.length)
    (hd : ∀ p q, q.depth = (enter p).depth → (leave p q).depth = p.depth) :
    Keeps allowed (bracket enter leave step) := by
  refine ⟨⟨fun p => ?_, fun p q hq => ?_⟩, fun p => ?_⟩
  · have := hf p _ (h.follows (enter p))
    unfold bracket
    cases hs : step (enter p) <;> rw [hs] at this <;> exact this
  · unfold bracket at hq
    cases hs : step (enter p) with
    | ok a r => rw [hs] at hq; cases hq
    | error e r =>
      rw [hs] at hq
      cases hq
      exact hb p r (h.bails _ r hs)
  · have := hd p _ (h.depth (enter p))
    unfold bracket
    cases hs : step (enter p) <;> rw [hs] at this <;> exact this

theorem keeps_inLoop {step : Parse α} (h : Keeps allowed step) : Keeps allowed (inLoop step) :=
  keeps_bracket h (fun _ _ h => ⟨h.passed, h.faults, rfl, h.functions, h.blocks, h.start⟩)
    (fun _ _ h => h) (fun _ _ h => h)

theorem keeps_inFunction {step : Parse α} (h : Keeps allowed step) :
    Keeps allowed (inFunction step) :=
  keeps_bracket h (fun _ _ h => ⟨h.passed, h.faults, rfl, rfl, h.blocks, h.start⟩)
    (fun _ _ h => h) (fun _ _ h => h)

theorem keeps_inBlock {step : Parse α} (h : Keeps allowed step) : Keeps allowed (inBlock step) :=
  keeps_bracket h (fun _ _ h => ⟨h.passed, h.faults, h.loops, h.functions, rfl, h.start⟩)
    (fun _ _ h => h) (fun _ _ h => h)

theorem follows_startingAt {p q : Parser} (h : p.startingHere.Follows allowed q) :
    p.Follows allowed (q.startingAt p.start) :=
  ⟨h.passed, h.faults, h.loops, h.functions, h.blocks, rfl⟩

theorem keeps_recovering {step : Parse α} (h : Keeps Kind.passable step) :
    Keeps Kind.passable (recovering step) := by
  refine ⟨⟨fun p => ?_, fun p q hq => ?_⟩, fun p => ?_⟩
  · have := follows_startingAt (h.follows p.startingHere)
    rw [recovering_apply]
    split
    next hs => rw [hs] at this; exact this
    next hs => rw [hs] at this; exact this.trans (Parser.follows_synchronize _)
    next hs => rw [hs] at this; exact this
  · rw [recovering_apply] at hq
    split at hq <;> cases hq
  · have := h.depth p.startingHere
    rw [recovering_apply]
    split <;> rename_i hs <;> rw [hs] at this <;> exact this

theorem keeps_demand (holds : Parser → Bool) (error : SyntaxError) (t : Token) :
    Keeps allowed (demand holds error t) := by
  refine keeps_of_eq _ _ (fun _ => rfl) (fun p => ?_) (fun p => ?_)
  · split
    · exact .refl _ p
    · exact .report error t
  · split <;> rfl

/-! Statements without parts. -/

theorem keeps_expression (n : Nat) : Keeps Kind.plain (expression n) :=
  (expressionCourse n).expression.mono fun _ => Kind.plain_of_inExpression

theorem keeps_varDeclaration (n : Nat) : Keeps Kind.plain (varDeclaration n) := by
  refine (keeps_expect _ rfl rfl).bind fun name => (keeps_accept_kind rfl rfl).bind fun o => ?_
  cases o with
  | none => exact (keeps_expect _ rfl rfl).bind fun _ => keeps_pure _
  | some _ =>
    exact (keeps_expression n).bind fun init => (keeps_expect _ rfl rfl).bind fun _ => keeps_pure _

theorem keeps_expressionStatement (n : Nat) : Keeps Kind.plain (expressionStatement n) :=
  (keeps_expression n).bind fun _ => (keeps_expect _ rfl rfl).bind fun _ => keeps_pure _

theorem keeps_printStatement (n : Nat) (t : Token) : Keeps Kind.plain (printStatement n t) :=
  (keeps_expression n).bind fun _ => (keeps_expect _ rfl rfl).bind fun _ => keeps_pure _

theorem keeps_breakStatement (t : Token) : Keeps Kind.plain (breakStatement t) := by
  rw [breakStatement_eq]
  exact (keeps_demand _ _ _).bind fun _ => (keeps_expect _ rfl rfl).bind fun _ => keeps_pure _

theorem keeps_continueStatement (t : Token) : Keeps Kind.plain (continueStatement t) := by
  rw [continueStatement_eq]
  exact (keeps_demand _ _ _).bind fun _ => (keeps_expect _ rfl rfl).bind fun _ => keeps_pure _

theorem keeps_optionalExpression (stop : Kind) (n : Nat) :
    Keeps Kind.plain (optionalExpression stop n) := by
  refine (keeps_check stop).bind fun b => ?_
  split
  · exact keeps_pure none
  · exact keeps_map some (keeps_expression n)

theorem keeps_returnStatement (n : Nat) (t : Token) : Keeps Kind.plain (returnStatement n t) := by
  rw [returnStatement_eq]
  exact (keeps_demand _ _ _).bind fun _ => (keeps_optionalExpression _ n).bind fun _ =>
    (keeps_expect _ rfl rfl).bind fun _ => keeps_pure _

theorem keeps_forInitializer (n : Nat) : Keeps Kind.plain (forInitializer n) := by
  refine (keeps_accept_kind rfl rfl).bind fun o => ?_
  cases o with
  | some _ => exact keeps_pure none
  | none =>
    refine (keeps_accept_kind rfl rfl).bind fun o => ?_
    cases o with
    | some _ => exact keeps_map some (keeps_varDeclaration n)
    | none => exact keeps_map some (keeps_expressionStatement n)

theorem keeps_parameterList (n : Nat) :
    ∀ count before, Keeps Kind.plain (parameterList n count before) := by
  induction n with
  | zero => exact fun _ _ => keeps_throw
  | succ n ih =>
    intro count before
    rw [parameterList_succ]
    refine (keeps_tally _ count).bind fun _ => (keeps_expect _ rfl rfl).bind fun name =>
      (keeps_accept_kind rfl rfl).bind fun o => ?_
    cases o with
    | none => exact keeps_pure _
    | some _ => exact ih _ _

theorem keeps_parameters (n : Nat) : Keeps Kind.plain (parameters n) := by
  rw [parameters_eq]
  refine (keeps_expect _ rfl rfl).bind fun _ => Keeps.bind ?_ fun names =>
    (keeps_expect _ rfl rfl).bind fun _ => keeps_pure names
  refine (keeps_check _).bind fun b => ?_
  split
  · exact keeps_pure []
  · exact keeps_parameterList n 0 []

/-! Declarations and statements with parts. -/

/-- The parsers of declarations and statements keep all counters. -/
structure StatementCourse (n : Nat) : Prop where
  declaration : Keeps Kind.passable (declaration n)
  functionDeclaration : Keeps Kind.passable (functionDeclaration n)
  statement : Keeps Kind.passable (statement n)
  block : Keeps Kind.passable (block n)
  blockBody : ∀ before, Keeps Kind.passable (blockBody n before)
  ifStatement : Keeps Kind.passable (ifStatement n)
  whileStatement : Keeps Kind.passable (whileStatement n)
  forStatement : Keeps Kind.passable (forStatement n)

theorem StatementCourse.zero : StatementCourse 0 := by
  constructor <;> intros <;> exact keeps_throw

namespace StatementCourse
variable {n : Nat}

private theorem widen {step : Parse α} (h : Keeps Kind.plain step) : Keeps Kind.passable step :=
  h.mono fun _ => Kind.passable_of_plain

/-- A step on the tokens after the next one. -/
private theorem after {p : Parser} (step : Parse α) (hp : p.current.kind.passable = true)
    (h : Keeps Kind.passable step) : ∃ (next : Parse α) (q : Parser), Keeps Kind.passable next ∧
      p.Follows Kind.passable q ∧ q.depth = p.depth ∧ step (p.pass [p.current]) = next q :=
  ⟨step, _, h, .pass_current hp rfl, rfl, rfl⟩

theorem declarationProper (h : StatementCourse n) :
    Keeps Kind.passable (Parse.declarationProper n) := by
  refine .of_apply fun p => ?_
  unfold Parse.declarationProper
  split
  next hk => exact after (varDeclaration n) (hk ▸ rfl) (widen (keeps_varDeclaration n))
  next hk => exact after _ (hk ▸ rfl) h.functionDeclaration
  next hk => exact ⟨_, p, keeps_fail _ _, .refl _ p, rfl, rfl⟩
  next => exact ⟨_, p, h.statement, .refl _ p, rfl, rfl⟩

theorem statementProper (h : StatementCourse n) : Keeps Kind.passable (Parse.statementProper n) := by
  refine .of_apply fun p => ?_
  unfold Parse.statementProper
  split
  next hk => exact after (printStatement n p.current) (hk ▸ rfl) (widen (keeps_printStatement n _))
  next hk => exact after _ (hk ▸ rfl) (h.block.bind fun body => keeps_pure _)
  next hk => exact after _ (hk ▸ rfl) h.ifStatement
  next hk => exact after _ (hk ▸ rfl) h.whileStatement
  next hk => exact after _ (hk ▸ rfl) h.forStatement
  next hk => exact after (breakStatement p.current) (hk ▸ rfl) (widen (keeps_breakStatement _))
  next hk => exact after (continueStatement p.current) (hk ▸ rfl) (widen (keeps_continueStatement _))
  next hk => exact after (returnStatement n p.current) (hk ▸ rfl) (widen (keeps_returnStatement n _))
  next hk => exact after (pure Stmt.empty) (hk ▸ rfl) (keeps_pure _)
  next => exact ⟨_, p, widen (keeps_expressionStatement n), .refl _ p, rfl, rfl⟩

private theorem blockBody_succ (h : StatementCourse n) (before : List Stmt) :
    Keeps Kind.passable (Parse.blockBody (n + 1) before) := by
  refine (keeps_check _).bind fun b => ?_
  split
  · exact keeps_pure _
  · refine keeps_atEnd.bind fun b => ?_
    split
    · exact keeps_pure _
    · refine h.declaration.bind fun o => ?_
      cases o <;> exact h.blockBody _

private theorem ifStatement_succ (h : StatementCourse n) :
    Keeps Kind.passable (Parse.ifStatement (n + 1)) := by
  refine (keeps_expect _ rfl rfl).bind fun _ => (widen (keeps_expression n)).bind fun condition =>
    (keeps_expect _ rfl rfl).bind fun _ => h.statement.bind fun yes =>
    (keeps_accept_kind rfl rfl).bind fun o => ?_
  cases o with
  | none => exact keeps_pure _
  | some _ => exact h.statement.bind fun no => keeps_pure _

private theorem forStatement_succ (h : StatementCourse n) :
    Keeps Kind.passable (Parse.forStatement (n + 1)) := by
  rw [Parse.forStatement_succ]
  exact (keeps_expect _ rfl rfl).bind fun _ => (widen (keeps_forInitializer n)).bind fun init =>
    (widen (keeps_optionalExpression _ n)).bind fun condition =>
    (keeps_expect _ rfl rfl).bind fun _ =>
    (widen (keeps_optionalExpression _ n)).bind fun increment =>
    (keeps_expect _ rfl rfl).bind fun _ => (keeps_inLoop h.statement).bind fun body => keeps_pure _

theorem succ (h : StatementCourse n) : StatementCourse (n + 1) where
  declaration := declaration_succ n ▸ keeps_recovering h.declarationProper
  functionDeclaration := (keeps_expect _ rfl rfl).bind fun _ =>
    (widen (keeps_parameters n)).bind fun _ => (keeps_expect _ rfl rfl).bind fun _ =>
    (keeps_inFunction h.block).bind fun _ => keeps_pure _
  statement := statement_succ n ▸ keeps_nested h.statementProper.toSteady
  block := keeps_inBlock ((h.blockBody []).bind fun body =>
    (keeps_expect _ rfl rfl).bind fun _ => keeps_pure body)
  blockBody := blockBody_succ h
  ifStatement := ifStatement_succ h
  whileStatement := (keeps_expect _ rfl rfl).bind fun _ =>
    (widen (keeps_expression n)).bind fun _ => (keeps_expect _ rfl rfl).bind fun _ =>
    (keeps_inLoop h.statement).bind fun _ => keeps_pure _
  forStatement := forStatement_succ h

end StatementCourse

theorem statementCourse (n : Nat) : StatementCourse n := by
  induction n with
  | zero => exact .zero
  | succ n ih => exact ih.succ

theorem keeps_program (n : Nat) : ∀ before, Keeps Kind.passable (program n before) := by
  induction n with
  | zero => exact fun _ => keeps_throw
  | succ n ih =>
    intro before
    refine keeps_atEnd.bind fun b => ?_
    split
    · exact keeps_pure _
    · refine (statementCourse n).declaration.bind fun o => ?_
      cases o <;> exact ih _

end Parse
end Lox
