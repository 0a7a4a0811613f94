import Lox.Proofs.Syntax.ExpressionSoundness
import Lox.Proofs.Syntax.StatementGrammar
import Lox.Proofs.Syntax.StatementCourse

/-! What is parsed as a program without a fault is one: the tokens passed compose the statements
that are returned. -/
namespace Lox

/-- What stands around the place of the parse. -/
def Parser.surroundings (p : Parser) : Surroundings := ⟨0 < p.loops, 0 < p.functions⟩

@[simp] theorem Parser.pass_surroundings (p : Parser) (ts : List Token) :
    (p.pass ts).surroundings = p.surroundings := rfl

theorem Parser.Follows.surroundings {allowed : Kind → Bool} {p q : Parser}
    (h : p.Follows allowed q) : q.surroundings = p.surroundings := by
  rw [Parser.surroundings, h.loops, h.functions, Parser.surroundings]

namespace Parse
variable {α : Type} {allowed : Kind → Bool}

theorem loopBody_surroundings (p : Parser) :
    ({ p with loops := p.loops + 1 } : Parser).surroundings = p.surroundings.loopBody := by
  simp [Parser.surroundings, Surroundings.loopBody]

theorem functionBody_surroundings (p : Parser) :
    ({ p with loops := 0, functions := p.functions + 1 } : Parser).surroundings =
      .functionBody := by
  simp [Parser.surroundings, Surroundings.functionBody]

theorem forLoop_eq (init : Option Stmt) (condition increment : Option Expr) (body : Stmt) :
    forLoop init condition increment body =
      .initialized init (.loop (condition.getD (.literal (.bool true))) body increment) := by
  cases init <;> rfl

/-- Where no fault has been found, none had been found before. -/
theorem Steady.faultless {step : Parse α} {p q : Parser} {a : α} (h : Steady allowed step)
    (hs : step p = .ok a q) (hq : q.faults = []) : p.faults = [] :=
  List.suffix_nil.1 (hq ▸ (h.of_ok hs).faults)

theorem expression_sound {n : Nat} {p q : Parser} {e : Expr} (h : expression n p = .ok e q)
    (hq : q.faults = []) :
    ∃ ts, p.rest = ts ++ q.rest ∧ Derives (.phrase .expression e) ts :=
  (expressionSound n).expression h (by simp [hq])

theorem varDeclaration_sound {n : Nat} {p q : Parser} {s : Stmt} (h : varDeclaration n p = .ok s q)
    (hq : q.faults = []) : ∃ ts, p.rest = ts ++ q.rest ∧
      ∀ keyword : Token, keyword.kind = .kwVar → VariableDeclaration s (keyword :: ts) := by
  obtain ⟨name, p₁, h₁, h₂⟩ := bind_eq_ok h
  obtain ⟨hn, hp, rfl⟩ := expect_eq_ok (by decide) h₁
  obtain ⟨o, p₂, h₃, h₄⟩ := bind_eq_ok h₂
  obtain ⟨rfl, rfl, -⟩ | ⟨rfl, rfl, he, hp'⟩ := accept_eq_ok rfl h₃
  · obtain ⟨semicolon, p₃, h₅, h₆⟩ := bind_eq_ok h₄
    obtain ⟨hs, hp₃, rfl⟩ := expect_eq_ok (by decide) h₅
    cases h₆
    refine ⟨[name, semicolon], ?_, fun keyword hv => .bare hv hn hs⟩
    rw [hp, hp₃]
    rfl
  · obtain ⟨e, p₃, h₅, h₆⟩ := bind_eq_ok h₄
    obtain ⟨semicolon, p₄, h₇, h₈⟩ := bind_eq_ok h₆
    obtain ⟨hs, hp₄, rfl⟩ := expect_eq_ok (by decide) h₇
    cases h₈
    obtain ⟨ts, hts, d⟩ := expression_sound h₅ hq
    refine ⟨name :: _ :: (ts ++ [semicolon]), ?_,
      fun keyword hv => .initialized hv hn (of_decide_eq_true he) d hs⟩
    rw [hp, hp', hts, hp₄]
    simp

theorem expressionStatement_sound {n : Nat} {p q : Parser} {s : Stmt}
    (h : expressionStatement n p = .ok s q) (hq : q.faults = []) :
    ∃ e ts semicolon, s = .expression e ∧ p.rest = ts ++ [semicolon] ++ q.rest ∧
      semicolon.kind = .semicolon ∧ Derives (.phrase .expression e) ts := by
  obtain ⟨e, p₁, h₁, h₂⟩ := bind_eq_ok h
  obtain ⟨semicolon, p₂, h₃, h₄⟩ := bind_eq_ok h₂
  obtain ⟨hs, hp, rfl⟩ := expect_eq_ok (by decide) h₃
  cases h₄
  obtain ⟨ts, hts, d⟩ := expression_sound h₁ hq
  refine ⟨e, ts, semicolon, rfl, ?_, hs, d⟩
  rw [hts, hp]
  simp

theorem optionalExpression_sound {stop : Kind} {n : Nat} {p q : Parser} {o : Option Expr}
    (h : optionalExpression stop n p = .ok o q) (hq : q.faults = []) :
    ∃ ts, p.rest = ts ++ q.rest ∧ DerivesOptional o ts := by
  unfold optionalExpression at h
  rw [bind_ok (check_apply _ p)] at h
  split at h
  · cases h
    exact ⟨[], rfl, .none⟩
  · obtain ⟨e, he, rfl⟩ := map_eq_ok h
    obtain ⟨ts, hts, d⟩ := expression_sound he hq
    exact ⟨ts, hts, .some d⟩

theorem forInitializer_sound {n : Nat} {p q : Parser} {o : Option Stmt}
    (h : forInitializer n p = .ok o q) (hq : q.faults = []) :
    ∃ ts, p.rest = ts ++ q.rest ∧ Initializer o ts := by
  obtain ⟨t, p₁, h₁, h₂⟩ := bind_eq_ok h
  obtain ⟨rfl, rfl, -⟩ | ⟨rfl, rfl, hs, hp⟩ := accept_eq_ok rfl h₁
  · obtain ⟨t, p₂, h₃, h₄⟩ := bind_eq_ok h₂
    obtain ⟨rfl, rfl, -⟩ | ⟨rfl, rfl, hv, hp⟩ := accept_eq_ok rfl h₃
    · obtain ⟨s, hs, rfl⟩ := map_eq_ok h₄
      obtain ⟨e, ts, semicolon, rfl, hts, hsemi, d⟩ := expressionStatement_sound hs hq
      exact ⟨ts ++ [semicolon], hts, .expression d hsemi⟩
    · obtain ⟨s, hs, rfl⟩ := map_eq_ok h₄
      obtain ⟨ts, hts, d⟩ := varDeclaration_sound hs hq
      refine ⟨_ :: ts, ?_, .declared (d _ (of_decide_eq_true hv))⟩
      rw [hp, hts]
      rfl
  · cases h₂
    exact ⟨[p.current], hp, .none (of_decide_eq_true hs)⟩

theorem parameterList_sound (n : Nat) : ∀ (count : Nat) (before : List Token) (p q : Parser)
    (names : List Token), parameterList n count before p = .ok names q → q.faults = [] →
    count ≤ maxArguments → ∃ ts f fs, p.rest = ts ++ q.rest ∧ names = before.reverse ++ f :: fs ∧
      Parameters (f :: fs) ts ∧ count + (f :: fs).length ≤ maxArguments := by
  induction n with
  | zero => exact fun _ _ _ _ _ h => nomatch h
  | succ n ih =>
    intro count before p q names h hq hcount
    have hp := (keeps_parameterList (n + 1) count before).faultless h hq
    rw [parameterList_succ] at h
    obtain ⟨_, p₁, h₁, h₂⟩ := bind_eq_ok h
    obtain ⟨name, p₂, h₃, h₄⟩ := bind_eq_ok h₂
    obtain ⟨hn, hp₁, rfl⟩ := expect_eq_ok (by decide) h₃
    obtain ⟨o, p₃, h₅, h₆⟩ := bind_eq_ok h₄
    have hp₃ : p₃.faults = [] := by
      cases o with
      | none => cases h₆; exact hq
      | some _ => exact (keeps_parameterList n _ _).faultless h₆ hq
    have hcomma : Keeps Kind.plain (accept (· = .comma)) := keeps_accept_kind rfl rfl
    have hp₂ : (p₁.pass [name]).faults = [] := hcomma.faultless h₅ hp₃
    rw [Parser.pass_faults] at hp₂
    -- one parameter too many would be reported
    obtain ⟨-, hone⟩ | ⟨hlt, rfl⟩ := tally_eq_ok h₁
    · simp [hp₂] at hone
    obtain ⟨rfl, rfl, -⟩ | ⟨rfl, rfl, hc, hrest⟩ := accept_eq_ok rfl h₅
    · cases h₆
      refine ⟨[name], name, [], hp₁, by simp, .one hn, ?_⟩
      simp only [List.length_singleton]
      omega
    · obtain ⟨ts, f, fs, hts, rfl, d, hlen⟩ := ih _ _ _ _ _ h₆ hq (by omega)
      refine ⟨name :: _ :: ts, name, f :: fs, ?_, by simp, .more hn (of_decide_eq_true hc) d, ?_⟩
      · rw [hp₁, hrest, hts]
        rfl
      · simp only [List.length_cons] at hlen ⊢
        omega

theorem parameters_sound {n : Nat} {p q : Parser} {names : List Token}
    (h : parameters n p = .ok names q) (hq : q.faults = []) :
    ∃ left ts right, p.rest = left :: (ts ++ right :: q.rest) ∧ left.kind = .leftParen ∧
      right.kind = .rightParen ∧ Parameters names ts ∧ names.length ≤ maxArguments := by
  rw [parameters_eq] at h
  obtain ⟨left, p₁, h₁, h₂⟩ := bind_eq_ok h
  obtain ⟨hl, hp, rfl⟩ := expect_eq_ok (by decide) h₁
  obtain ⟨names', p₂, h₃, h₄⟩ := bind_eq_ok h₂
  obtain ⟨right, p₃, h₅, h₆⟩ := bind_eq_ok h₄
  obtain ⟨hr, hp₂, rfl⟩ := expect_eq_ok (by decide) h₅
  cases h₆
  unfold optionalParameters at h₃
  rw [bind_ok (check_apply _ _)] at h₃
  split at h₃
  · cases h₃
    refine ⟨left, [], right, ?_, hl, hr, .none, Nat.zero_le _⟩
    rw [hp, hp₂]
    rfl
  · obtain ⟨ts, f, fs, hts, rfl, d, hlen⟩ :=
      parameterList_sound n 0 [] _ _ _ h₃ hq (Nat.zero_le _)
    refine ⟨left, ts, right, ?_, hl, hr, d, by simpa using hlen⟩
    rw [hp, hts, hp₂]

/-- Where the step ends normally and no fault has been found, it has passed a statement; an `else`
that is next does not belong to it. -/
def PassesStatement (step : Parse Stmt) : Prop :=
  ∀ ⦃p q : Parser⦄ ⦃s : Stmt⦄, step p = .ok s q → q.faults = [] →
    ∃ ts k closed, p.rest = ts ++ q.rest ∧ Composes p.surroundings k (.statement closed s) ts ∧
      (closed = false → nextKind q.rest ≠ .kwElse)

/-- The same of a step after the keyword that the statement starts with. -/
def CompletesStatement (keyword : Token) (step : Parse Stmt) : Prop :=
  ∀ ⦃p q : Parser⦄ ⦃s : Stmt⦄, step p = .ok s q → q.faults = [] →
    ∃ ts k closed, p.rest = ts ++ q.rest ∧
      Composes p.surroundings k (.statement closed s) (keyword :: ts) ∧
      (closed = false → nextKind q.rest ≠ .kwElse)

/-- The parsers of declarations and statements accept only what the grammar composes. -/
structure StatementSound (n : Nat) : Prop where
  declaration : ∀ ⦃p q : Parser⦄ ⦃o : Option Stmt⦄, declaration n p = .ok o q → q.faults = [] →
    ∃ s ts k, o = some s ∧ p.rest = ts ++ q.rest ∧ Composes p.surroundings k (.declaration s) ts
  functionDeclaration : ∀ ⦃p q : Parser⦄ ⦃s : Stmt⦄, functionDeclaration n p = .ok s q →
    q.faults = [] → ∃ ts k, p.rest = ts ++ q.rest ∧ ∀ keyword : Token, keyword.kind = .kwFun →
      Composes p.surroundings k (.declaration s) (keyword :: ts)
  statement : PassesStatement (statement n)
  block : ∀ ⦃p q : Parser⦄ ⦃ss : List Stmt⦄, block n p = .ok ss q → q.faults = [] →
    ∃ ts right k, p.rest = ts ++ right :: q.rest ∧ right.kind = .rightBrace ∧
      Composes p.surroundings k (.declarations ss) ts
  blockBody : ∀ (before : List Stmt) ⦃p q : Parser⦄ ⦃ss : List Stmt⦄,
    blockBody n before p = .ok ss q → q.faults = [] →
    ∃ ts rs k, p.rest = ts ++ q.rest ∧ ss = before.reverse ++ rs ∧
      Composes p.surroundings k (.declarations rs) ts
  ifStatement : ∀ ⦃t : Token⦄, t.kind = .kwIf → CompletesStatement t (ifStatement n)
  whileStatement : ∀ ⦃t : Token⦄, t.kind = .kwWhile → CompletesStatement t (whileStatement n)
  forStatement : ∀ ⦃t : Token⦄, t.kind = .kwFor → CompletesStatement t (forStatement n)

theorem StatementSound.zero : StatementSound 0 where
  declaration _ _ _ h := nomatch h
  functionDeclaration _ _ _ h := nomatch h
  statement _ _ _ h := nomatch h
  block _ _ _ h := nomatch h
  blockBody _ _ _ _ h := nomatch h
  ifStatement _ _ _ _ _ h := nomatch h
  whileStatement _ _ _ _ _ h := nomatch h
  forStatement _ _ _ _ _ h := nomatch h

namespace StatementSound
variable {n : Nat}

/-- What was demanded held, since no fault has been found. -/
private theorem of_demand {holds : Parser → Bool} {error : SyntaxError} {t : Token} {p q : Parser}
    (h : demand holds error t p = .ok () q) (hq : q.faults = []) : holds p = true ∧ q = p := by
  obtain h | h := demand_eq_ok h
  · exact h
  · simp [hq] at h

private theorem declaration_succ (ih : StatementSound n) ⦃p q : Parser⦄ ⦃o : Option Stmt⦄
    (h : Parse.declaration (n + 1) p = .ok o q) (hq : q.faults = []) :
    ∃ s ts k, o = some s ∧ p.rest = ts ++ q.rest ∧
      Composes p.surroundings k (.declaration s) ts := by
  rw [Parse.declaration_succ] at h
  obtain ⟨s, r, hs, rfl, rfl⟩ | ⟨r, hs, -, rfl⟩ := recovering_eq_ok h
  · have hp (hk : p.current.kind ≠ .endOfInput) := Parser.rest_eq_cons hk
    unfold declarationProper at hs
    split at hs
    next hk =>
      change p.current.kind = _ at hk
      obtain ⟨ts, hts, d⟩ := varDeclaration_sound hs hq
      refine ⟨s, p.current :: ts, 0, rfl, ?_, .declareVariable (d _ hk)⟩
      rw [hp (by simp [hk])]
      exact congrArg _ hts
    next hk =>
      change p.current.kind = _ at hk
      obtain ⟨ts, k, hts, d⟩ := ih.functionDeclaration hs hq
      refine ⟨s, p.current :: ts, k, rfl, ?_, d _ hk⟩
      rw [hp (by simp [hk])]
      exact congrArg _ hts
    next => cases hs
    next =>
      obtain ⟨ts, k, closed, hts, d, -⟩ := ih.statement hs hq
      exact ⟨s, ts, k, rfl, hts, .statement d⟩
  · -- a declaration that is given up leaves a fault
    have := (statementCourse n).declarationProper.bails _ r hs
    change r.faults = [] at hq
    simp [hq] at this

private theorem functionDeclaration_succ (ih : StatementSound n) ⦃p q : Parser⦄ ⦃s : Stmt⦄
    (h : Parse.functionDeclaration (n + 1) p = .ok s q) (hq : q.faults = []) :
    ∃ ts k, p.rest = ts ++ q.rest ∧ ∀ keyword : Token, keyword.kind = .kwFun →
      Composes p.surroundings k (.declaration s) (keyword :: ts) := by
  obtain ⟨name, p₁, h₁, h₂⟩ := bind_eq_ok h
  obtain ⟨hn, hp, rfl⟩ := expect_eq_ok (by decide) h₁
  obtain ⟨names, p₂, h₃, h₄⟩ := bind_eq_ok h₂
  obtain ⟨left, p₃, h₅, h₆⟩ := bind_eq_ok h₄
  obtain ⟨hl, hp₂, rfl⟩ := expect_eq_ok (by decide) h₅
  obtain ⟨body, p₄, h₇, h₈⟩ := bind_eq_ok h₆
  cases h₈
  have hp₃ := (keeps_inFunction (statementCourse n).block).faultless h₇ hq
  obtain ⟨lp, ts, rp, hts, hlp, hrp, d, hmax⟩ := parameters_sound h₃ hp₃
  obtain ⟨r, hr, rfl⟩ := bracket_eq_ok h₇
  obtain ⟨us, right, k, hus, hright, dbody⟩ := ih.block hr hq
  rw [functionBody_surroundings] at dbody
  refine ⟨name :: lp :: (ts ++ rp :: left :: (us ++ [right])), k, ?_,
    fun keyword hk => .declareFunction hk hn hlp d hmax hrp hl dbody hright⟩
  change (p₂.pass [left]).rest = us ++ right :: r.rest at hus
  rw [hp, hts, hp₂, hus]
  simp

private theorem ifStatement_succ (ih : StatementSound n) ⦃t : Token⦄ (hk : t.kind = .kwIf) :
    CompletesStatement t (Parse.ifStatement (n + 1)) := by
  intro p q s h hq
  obtain ⟨left, p₁, h₁, h₂⟩ := bind_eq_ok h
  obtain ⟨hl, hp, rfl⟩ := expect_eq_ok (by decide) h₁
  obtain ⟨e, p₂, h₃, h₄⟩ := bind_eq_ok h₂
  obtain ⟨right, p₃, h₅, h₆⟩ := bind_eq_ok h₄
  obtain ⟨hr, hp₂, rfl⟩ := expect_eq_ok (by decide) h₅
  obtain ⟨yes, p₄, h₇, h₈⟩ := bind_eq_ok h₆
  obtain ⟨o, p₅, h₉, h₁₀⟩ := bind_eq_ok h₈
  have hsur : p₂.surroundings = p.surroundings := ((keeps_expression n).of_ok h₃).surroundings
  obtain ⟨rfl, rfl, helse⟩ | ⟨rfl, rfl, helse, hp₄⟩ := accept_eq_ok rfl h₉
  · cases h₁₀
    obtain ⟨us, k, closed, hus, dyes, -⟩ := ih.statement h₇ hq
    have hp₃ := (statementCourse n).statement.faultless h₇ hq
    obtain ⟨ts, hts, d⟩ := expression_sound h₃ hp₃
    rw [Parser.pass_surroundings, hsur] at dyes
    refine ⟨left :: (ts ++ right :: us), k + 1, false, ?_,
      .branch hk hl d hr dyes, fun _ => of_decide_eq_false helse⟩
    rw [hp, hts, hp₂, hus]
    simp
  · obtain ⟨no, p₆, h₁₁, h₁₂⟩ := bind_eq_ok h₁₀
    cases h₁₂
    obtain ⟨vs, k', closed', hvs, dno, hnext⟩ := ih.statement h₁₁ hq
    have hp₅ := (statementCourse n).statement.faultless h₁₁ hq
    rw [Parser.pass_faults] at hp₅
    obtain ⟨us, k, closed, hus, dyes, hclosed⟩ := ih.statement h₇ hp₅
    have hp₃ := (statementCourse n).statement.faultless h₇ hp₅
    obtain ⟨ts, hts, d⟩ := expression_sound h₃ hp₃
    have hsur' := ((statementCourse n).statement.of_ok h₇).surroundings
    rw [Parser.pass_surroundings, hsur] at dyes hsur'
    rw [Parser.pass_surroundings, hsur'] at dno
    -- the `else` would have been taken by an `if` at the end of the first branch
    have : closed = true := by
      cases closed with
      | true => rfl
      | false => exact absurd (of_decide_eq_true helse) (hclosed rfl)
    subst this
    refine ⟨left :: (ts ++ right :: (us ++ _ :: vs)), max k k' + 1, closed', ?_,
      .branches hk hl d hr (dyes.mono (Nat.le_max_left ..))
        (of_decide_eq_true helse) (dno.mono (Nat.le_max_right ..)), hnext⟩
    rw [hp, hts, hp₂, hus, hp₄, hvs]
    simp

private theorem loopBody_sound (ih : StatementSound n) {p q : Parser} {s : Stmt}
    (h : inLoop (Parse.statement n) p = .ok s q) (hq : q.faults = []) :
    p.faults = [] ∧ ∃ ts k closed, p.rest = ts ++ q.rest ∧
      Composes p.surroundings.loopBody k (.statement closed s) ts ∧
      (closed = false → nextKind q.rest ≠ .kwElse) := by
  refine ⟨(keeps_inLoop (statementCourse n).statement).faultless h hq, ?_⟩
  obtain ⟨r, hr, rfl⟩ := bracket_eq_ok h
  obtain ⟨ts, k, closed, hts, d, hnext⟩ := ih.statement hr hq
  rw [loopBody_surroundings] at d
  exact ⟨ts, k, closed, hts, d, hnext⟩

private theorem whileStatement_succ (ih : StatementSound n) ⦃t : Token⦄
    (hk : t.kind = .kwWhile) : CompletesStatement t (Parse.whileStatement (n + 1)) := by
  intro p q s h hq
  obtain ⟨left, p₁, h₁, h₂⟩ := bind_eq_ok h
  obtain ⟨hl, hp, rfl⟩ := expect_eq_ok (by decide) h₁
  obtain ⟨e, p₂, h₃, h₄⟩ := bind_eq_ok h₂
  obtain ⟨right, p₃, h₅, h₆⟩ := bind_eq_ok h₄
  obtain ⟨hr, hp₂, rfl⟩ := expect_eq_ok (by decide) h₅
  obtain ⟨body, p₄, h₇, h₈⟩ := bind_eq_ok h₆
  cases h₈
  obtain ⟨hp₃, us, k, closed, hus, dbody, hnext⟩ := loopBody_sound ih h₇ hq
  obtain ⟨ts, hts, d⟩ := expression_sound h₃ hp₃
  rw [Parser.pass_surroundings, ((keeps_expression n).of_ok h₃).surroundings] at dbody
  refine ⟨left :: (ts ++ right :: us), k + 1, closed, ?_, .whileLoop hk hl d hr dbody, hnext⟩
  rw [hp, hts, hp₂, hus]
  simp

private theorem forStatement_succ (ih : StatementSound n) ⦃t : Token⦄ (hk : t.kind = .kwFor) :
    CompletesStatement t (Parse.forStatement (n + 1)) := by
  intro p q s h hq
  rw [Parse.forStatement_succ] at h
  obtain ⟨left, p₁, h₁, h₂⟩ := bind_eq_ok h
  obtain ⟨hl, hp, rfl⟩ := expect_eq_ok (by decide) h₁
  obtain ⟨init, p₂, h₃, h₄⟩ := bind_eq_ok h₂
  obtain ⟨condition, p₃, h₅, h₆⟩ := bind_eq_ok h₄
  obtain ⟨semicolon, p₄, h₇, h₈⟩ := bind_eq_ok h₆
  obtain ⟨hs, hp₃, rfl⟩ := expect_eq_ok (by decide) h₇
  obtain ⟨increment, p₅, h₉, h₁₀⟩ := bind_eq_ok h₈
  obtain ⟨right, p₆, h₁₁, h₁₂⟩ := bind_eq_ok h₁₀
  obtain ⟨hr, hp₅, rfl⟩ := expect_eq_ok (by decide) h₁₁
  obtain ⟨body, p₇, h₁₃, h₁₄⟩ := bind_eq_ok h₁₂
  cases h₁₄
  obtain ⟨hf₅, us, k, closed, hus, dbody, hnext⟩ := loopBody_sound ih h₁₃ hq
  obtain ⟨rs, hrs, dn⟩ := optionalExpression_sound h₉ hf₅
  have hf₃ := (keeps_optionalExpression _ n).faultless h₉ hf₅
  obtain ⟨cs, hcs, dc⟩ := optionalExpression_sound h₅ hf₃
  have hf₂ := (keeps_optionalExpression _ n).faultless h₅ hf₃
  obtain ⟨is, his, di⟩ := forInitializer_sound h₃ hf₂
  rw [Parser.pass_surroundings, ((keeps_optionalExpression _ n).of_ok h₉).surroundings,
    Parser.pass_surroundings, ((keeps_optionalExpression _ n).of_ok h₅).surroundings,
    ((keeps_forInitializer n).of_ok h₃).surroundings, Parser.pass_surroundings] at dbody
  refine ⟨left :: (is ++ (cs ++ semicolon :: (rs ++ right :: us))), k + 1, closed, ?_, ?_, hnext⟩
  · rw [hp, his, hcs, hp₃, hrs, hp₅, hus]
    simp
  · rw [forLoop_eq]
    exact .forLoop hk hl di dc hs dn hr dbody

private theorem block_succ (ih : StatementSound n) ⦃p q : Parser⦄ ⦃ss : List Stmt⦄
    (h : Parse.block (n + 1) p = .ok ss q) (hq : q.faults = []) :
    ∃ ts right k, p.rest = ts ++ right :: q.rest ∧ right.kind = .rightBrace ∧
      Composes p.surroundings k (.declarations ss) ts := by
  unfold Parse.block at h
  obtain ⟨r, hr, rfl⟩ := bracket_eq_ok h
  obtain ⟨body, p₁, h₁, h₂⟩ := bind_eq_ok hr
  obtain ⟨right, p₂, h₃, h₄⟩ := bind_eq_ok h₂
  obtain ⟨hright, hp₁, rfl⟩ := expect_eq_ok (by decide) h₃
  cases h₄
  obtain ⟨ts, rs, k, hts, rfl, d⟩ := ih.blockBody [] h₁ hq
  refine ⟨ts, right, k, ?_, hright, d⟩
  change p.rest = ts ++ p₁.rest at hts
  rw [hts, hp₁]

private theorem blockBody_succ (ih : StatementSound n) (before : List Stmt) ⦃p q : Parser⦄
    ⦃ss : List Stmt⦄ (h : Parse.blockBody (n + 1) before p = .ok ss q) (hq : q.faults = []) :
    ∃ ts rs k, p.rest = ts ++ q.rest ∧ ss = before.reverse ++ rs ∧
      Composes p.surroundings k (.declarations rs) ts := by
  unfold Parse.blockBody at h
  rw [bind_ok (check_apply _ p)] at h
  split at h
  · cases h
    exact ⟨[], [], 0, rfl, by simp, .done⟩
  rw [bind_ok (atEnd_apply p)] at h
  split at h
  · cases h
    exact ⟨[], [], 0, rfl, by simp, .done⟩
  obtain ⟨o, r, h₁, h₂⟩ := bind_eq_ok h
  have hr : r.faults = [] := by
    cases o <;> exact ((statementCourse n).blockBody _).faultless h₂ hq
  obtain ⟨s, ts, k, rfl, hts, d⟩ := ih.declaration h₁ hr
  obtain ⟨us, rs, k', hus, rfl, d'⟩ := ih.blockBody _ h₂ hq
  rw [((statementCourse n).declaration.of_ok h₁).surroundings] at d'
  refine ⟨ts ++ us, s :: rs, max k k', ?_, by simp,
    .next (d.mono (Nat.le_max_left ..)) (d'.mono (Nat.le_max_right ..))⟩
  rw [hts, hus, List.append_assoc]

/-- A statement that is a keyword, at most one expression and a semicolon. -/
private theorem completes_simple {step : Parse Stmt} {t : Token}
    (h : ∀ ⦃p q : Parser⦄ ⦃s : Stmt⦄, step p = .ok s q → q.faults = [] → ∃ ts semicolon,
      p.rest = ts ++ semicolon :: q.rest ∧
        Composes p.surroundings 1 (.statement true s) (t :: (ts ++ [semicolon]))) :
    CompletesStatement t step := by
  intro p q s hs hq
  obtain ⟨ts, semicolon, hp, d⟩ := h hs hq
  exact ⟨ts ++ [semicolon], 1, true, by simp [hp], d, nofun⟩

private theorem printStatement_sound {t : Token} (hk : t.kind = .kwPrint) :
    CompletesStatement t (printStatement n t) := by
  refine completes_simple fun p q s h hq => ?_
  obtain ⟨e, p₁, h₁, h₂⟩ := bind_eq_ok h
  obtain ⟨semicolon, p₂, h₃, h₄⟩ := bind_eq_ok h₂
  obtain ⟨hs, hp₁, rfl⟩ := expect_eq_ok (by decide) h₃
  cases h₄
  obtain ⟨ts, hts, d⟩ := expression_sound h₁ hq
  exact ⟨ts, semicolon, by rw [hts, hp₁], .print hk d hs⟩

private theorem breakStatement_sound {t : Token} (hk : t.kind = .kwBreak) :
    CompletesStatement t (breakStatement t) := by
  refine completes_simple fun p q s h hq => ?_
  rw [breakStatement_eq] at h
  obtain ⟨_, p₁, h₁, h₂⟩ := bind_eq_ok h
  obtain ⟨semicolon, p₂, h₃, h₄⟩ := bind_eq_ok h₂
  obtain ⟨hs, hp₁, rfl⟩ := expect_eq_ok (by decide) h₃
  cases h₄
  obtain ⟨hw, rfl⟩ := of_demand h₁ hq
  exact ⟨[], semicolon, hp₁, .breakLoop hw hk hs⟩

private theorem continueStatement_sound {t : Token} (hk : t.kind = .kwContinue) :
    CompletesStatement t (continueStatement t) := by
  refine completes_simple fun p q s h hq => ?_
  rw [continueStatement_eq] at h
  obtain ⟨_, p₁, h₁, h₂⟩ := bind_eq_ok h
  obtain ⟨semicolon, p₂, h₃, h₄⟩ := bind_eq_ok h₂
  obtain ⟨hs, hp₁, rfl⟩ := expect_eq_ok (by decide) h₃
  cases h₄
  obtain ⟨hw, rfl⟩ := of_demand h₁ hq
  exact ⟨[], semicolon, hp₁, .continueLoop hw hk hs⟩

private theorem returnStatement_sound {t : Token} (hk : t.kind = .kwReturn) :
    CompletesStatement t (returnStatement n t) := by
  refine completes_simple fun p q s h hq => ?_
  rw [returnStatement_eq] at h
  obtain ⟨_, p₁, h₁, h₂⟩ := bind_eq_ok h
  obtain ⟨value, p₂, h₃, h₄⟩ := bind_eq_ok h₂
  obtain ⟨semicolon, p₃, h₅, h₆⟩ := bind_eq_ok h₄
  obtain ⟨hs, hp₂, rfl⟩ := expect_eq_ok (by decide) h₅
  cases h₆
  obtain ⟨ts, hts, d⟩ := optionalExpression_sound h₃ hq
  obtain ⟨hw, rfl⟩ := of_demand h₁ ((keeps_optionalExpression _ n).faultless h₃ hq)
  exact ⟨ts, semicolon, by rw [hts, hp₂], .returnValue hw hk d hs⟩

private theorem bracedBlock_sound (ih : StatementSound n) {t : Token} (hk : t.kind = .leftBrace) :
    CompletesStatement t (Parse.block n >>= fun body => pure (.block body)) := by
  intro p q s h hq
  obtain ⟨body, p₁, h₁, h₂⟩ := bind_eq_ok h
  cases h₂
  obtain ⟨ts, right, k, hp, hr, d⟩ := ih.block h₁ hq
  exact ⟨ts ++ [right], k + 1, true, by simp [hp], .block hk d hr, nofun⟩

private theorem statement_succ (ih : StatementSound n) :
    PassesStatement (Parse.statement (n + 1)) := by
  intro p r s h hr
  rw [Parse.statement_succ] at h
  obtain ⟨-, q, hs, rfl⟩ := nested_eq_ok h
  have hq : q.faults = [] := hr
  have first {kind : Kind} {step : Parse Stmt} (hk : p.current.kind = kind)
      (hend : kind ≠ .endOfInput) (hc : CompletesStatement p.current step)
      (hs : step (p.pass [p.current] |>.atDepth (p.depth + 1)) = .ok s q) :
      ∃ ts k closed, p.rest = ts ++ q.rest ∧
        Composes p.surroundings k (.statement closed s) ts ∧
        (closed = false → nextKind q.rest ≠ .kwElse) := by
    obtain ⟨ts, k, closed, hts, d, hnext⟩ := hc hs hq
    refine ⟨p.current :: ts, k, closed, ?_, d, hnext⟩
    rw [Parser.rest_eq_cons (hk ▸ hend)]
    exact congrArg _ hts
  unfold statementProper at hs
  split at hs
  next hk => exact first hk nofun (printStatement_sound hk) hs
  next hk => exact first hk nofun (bracedBlock_sound ih hk) hs
  next hk => exact first hk nofun (ih.ifStatement hk) hs
  next hk => exact first hk nofun (ih.whileStatement hk) hs
  next hk => exact first hk nofun (ih.forStatement hk) hs
  next hk => exact first hk nofun (breakStatement_sound hk) hs
  next hk => exact first hk nofun (continueStatement_sound hk) hs
  next hk => exact first hk nofun (returnStatement_sound hk) hs
  next hk =>
    cases hs
    change p.current.kind = .semicolon at hk
    exact ⟨[p.current], 1, true, Parser.rest_eq_cons (by rw [hk]; decide), .empty hk, nofun⟩
  next =>
    obtain ⟨e, ts, semicolon, rfl, hts, hsemi, d⟩ := expressionStatement_sound hs hq
    exact ⟨ts ++ [semicolon], 1, true, hts, .expression d hsemi, nofun⟩

theorem succ (ih : StatementSound n) : StatementSound (n + 1) where
  declaration := declaration_succ ih
  functionDeclaration := functionDeclaration_succ ih
  statement := statement_succ ih
  block := block_succ ih
  blockBody := blockBody_succ ih
  ifStatement := ifStatement_succ ih
  whileStatement := whileStatement_succ ih
  forStatement := forStatement_succ ih

end StatementSound

theorem statementSound (n : Nat) : StatementSound n := by
  induction n with
  | zero => exact .zero
  | succ n ih => exact ih.succ

/-- What is parsed as a program without a fault is a sequence of declarations up to the end. -/
theorem program_sound (n : Nat) : ∀ (before : List Stmt) ⦃p q : Parser⦄ ⦃ss : List Stmt⦄,
    program n before p = .ok ss q → q.faults = [] →
    ∃ ts rs k, p.rest = ts ++ q.rest ∧ nextKind q.rest = .endOfInput ∧ ss = before.reverse ++ rs ∧
      Composes p.surroundings k (.declarations rs) ts := by
  induction n with
  | zero => exact fun _ _ _ _ h => nomatch h
  | succ n ih =>
    intro before p q ss h hq
    unfold program at h
    rw [bind_ok (atEnd_apply p)] at h
    split at h
    next hend =>
      cases h
      exact ⟨[], [], 0, rfl, of_decide_eq_true hend, by simp, .done⟩
    obtain ⟨o, r, h₁, h₂⟩ := bind_eq_ok h
    have hr : r.faults = [] := by
      cases o <;> exact (keeps_program n _).faultless h₂ hq
    obtain ⟨s, ts, k, rfl, hts, d⟩ := (statementSound n).declaration h₁ hr
    obtain ⟨us, rs, k', hus, hend, rfl, d'⟩ := ih _ h₂ hq
    rw [((statementCourse n).declaration.of_ok h₁).surroundings] at d'
    refine ⟨ts ++ us, s :: rs, max k k', ?_, hend, by simp,
      .next (d.mono (Nat.le_max_left ..)) (d'.mono (Nat.le_max_right ..))⟩
    rw [hts, hus, List.append_assoc]

end Parse
end Lox
