import Lox.Proofs.Machine.Course
import Lox.Proofs.Syntax.ExpressionAllotment
import Lox.Proofs.Token.Literals

/-! Parsed code is well formed. Where an operator stands there is one that the machine knows, and a
function is only run with an argument for each parameter; so a run of parsed code ends with a value
or with a fault that is reported. -/
namespace Lox

/-- The literal at a node is finite, or its operator is one that the machine knows. -/
def Expr.WellFormed : Expr → Prop
  | .literal v => v.Finite
  | .unary op _ => op.kind.isNegation = true
  | .binary op _ _ => op.kind.isBinary = true
  | .crement op _ => op.kind.isCrement = true
  | .grouping _ | .logicalAnd _ _ _ | .logicalOr _ _ _ | .conditional _ _ _ _ | .comma _ _
  | .variable _ | .assign _ _ | .call _ _ _ => True

/-- Statements as a parse of a source returns them, whether it finds faults or not. -/
def Program.Parsed (ss : List Stmt) : Prop :=
  ∃ source p, Program.parse? (Scan.ofSource source).tokens = some p ∧ p.statements = ss

/-- An expression as a parse of a source returns it, whether it finds faults or not. -/
def LoneExpression.Parsed (e : Expr) : Prop :=
  ∃ source, (LoneExpression.parse (Scan.ofSource source).tokens).expression = some e

theorem Literal.Formed.finite {T : Token → Prop} (hT : ∀ t, T t → t.literal.Finite) {v : Literal}
    (h : v.Formed T) : v.Finite := by
  obtain rfl | ⟨b, rfl⟩ | ⟨t, ht, -, rfl⟩ := h
  · trivial
  · trivial
  · exact hT t ht

theorem Expr.Formed.wellFormed {T : Token → Prop} (hT : ∀ t, T t → t.literal.Finite) {e : Expr}
    (h : e.Formed T) : e.WellFormed := by
  cases e with
  | literal v => exact Literal.Formed.finite hT h
  | unary op a => exact h.2
  | binary op a b => exact h.2
  | crement op a => exact h.2
  | _ => trivial

theorem Program.Parsed.wellFormed {ss : List Stmt} (h : Parsed ss) :
    ∀ s ∈ ss, s.Every Expr.WellFormed fun _ => True := by
  obtain ⟨source, p, hp, rfl⟩ := h
  intro s hs
  exact (madeOf_parse? hp s hs).mono (fun e => Expr.Formed.wellFormed (Scan.finite_tokens source))
    fun _ _ => trivial

theorem LoneExpression.Parsed.wellFormed {e : Expr} (h : Parsed e) : e.Every Expr.WellFormed := by
  obtain ⟨source, he⟩ := h
  exact (madeOf_parse he).mono fun e => Expr.Formed.wellFormed (Scan.finite_tokens source)

theorem Parse.steady_loneExpression (n : Nat) : Steady Kind.plain (loneExpression n) := by
  have hpeek : Steady Kind.plain peek :=
    (keeps_of_eq id Parser.current (fun _ => rfl) (.refl _) fun _ => rfl).toSteady
  refine (keeps_expression n).toSteady.bind fun e => keeps_atEnd.toSteady.bind fun b => ?_
  split
  · exact (keeps_pure e).toSteady
  · exact hpeek.bind fun t => (keeps_fail _ t).toSteady

theorem Parse.halts_loneExpression {n : Nat} {p : Parser} (hn : 32 * p.rest.length + 26 ≤ n) :
    Halts (loneExpression n p) := by
  refine ((expressionAllotment n).expression p hn).bind fun e q _ => ?_
  have hatEnd : Halts (atEnd q) := halts_ok _ _
  refine hatEnd.bind fun b r _ => ?_
  split
  · exact halts_ok _ _
  · have hpeek : Halts (peek r) := halts_ok _ _
    exact hpeek.bind fun t _ _ => halts_bail _

/-- A parse that gives up has found a fault. -/
theorem LoneExpression.faults_ne_nil {tokens : List Token}
    (h : (parse tokens).expression = none) : (parse tokens).faults ≠ [] := by
  unfold parse at h ⊢
  generalize hresult : Parse.loneExpression _ { rest := tokens } = result at h ⊢
  cases result with
  | ok e q => cases h
  | error i q =>
    cases i with
    | stalled =>
      have henough : 32 * tokens.length + 26 ≤ Parser.allotment tokens.length := by
        rw [Parser.allotment]
        omega
      exact absurd hresult (Parse.halts_loneExpression henough q)
    | bail =>
      have hnew := (Parse.steady_loneExpression _).bails _ _ hresult
      intro hnone
      rw [List.reverse_eq_nil_iff.1 hnone] at hnew
      cases hnew

/-- Well-formed code does not halt as malformed. -/
def Discipline.wellFormed : Discipline where
  expr := Expr.WellFormed
  stmt := fun _ => True
  native := fun _ => True
  halt h := h ≠ .malformed
  exhausted := by simp
  raises he hraises := by
    cases hraises <;> simp_all [Expr.WellFormed]
  hosted {_ _ _ f _} _ _ hraises := by
    generalize f.action = action at hraises
    cases hraises <;> simp

theorem Machine.Reachable.wellFormed {m : Machine}
    (h : Reachable Program.Parsed LoneExpression.Parsed m) : m.Obeys .wellFormed :=
  h.obeys (fun _ => Program.Parsed.wellFormed) (fun _ => LoneExpression.Parsed.wellFormed)
    fun _ => trivial

namespace Exec

/-- The operator or the literal that is come to is well formed, and there is an argument for each
parameter. -/
def Activity.WellFormed : Activity → Prop
  | eval e => e.WellFormed
  | invoke f args => args.length = f.params.length
  | evalAll _ | apply _ _ _ | host _ _ _ | exec _ | execAll _ | execLoop _ _ _ => True

theorem Activity.Obeys.wellFormed {a : Activity} (h : a.Obeys .wellFormed) : a.WellFormed := by
  cases a with
  | eval e => exact Expr.Every.here h
  | invoke f args => exact h.2.2
  | _ => trivial

/-- All operators of parsed code are known and all its literals finite. A parse of an expression
that returns none has found a fault. On every machine that has only run parsed code, whether with
faults or not, a run of parsed code never comes to an operator that is not known, nor to a function
with fewer arguments than parameters; and so it is never malformed. -/
theorem parsed_code_never_malformed :
    (∀ ss, Program.Parsed ss → ∀ s ∈ ss, s.Every Expr.WellFormed fun _ => True) ∧
    (∀ e, LoneExpression.Parsed e → e.Every Expr.WellFormed) ∧
    (∀ tokens, (LoneExpression.parse tokens).expression = none →
      (LoneExpression.parse tokens).faults ≠ []) ∧
    ∀ m, Machine.Reachable Program.Parsed LoneExpression.Parsed m → ∀ limit fuel : Nat,
      (∀ ss, Program.Parsed ss → (∀ x ∈ moments limit fuel ss m, x.activity.WellFormed) ∧
        ∀ m', run limit fuel ss m ≠ .error .malformed m') ∧
      ∀ e, LoneExpression.Parsed e →
        (∀ x ∈ (Activity.eval e).moments limit fuel m, x.activity.WellFormed) ∧
        ∀ m', eval limit fuel e m ≠ .error .malformed m' := by
  refine ⟨fun ss => Program.Parsed.wellFormed, fun e => LoneExpression.Parsed.wellFormed,
    fun tokens => LoneExpression.faults_ne_nil, fun m hm limit fuel => ⟨?_, ?_⟩⟩
  · intro ss hss
    have hmoments := moments_sound (n := fuel) hss.wellFormed (hm.sound hm.wellFormed limit)
    have hobeys := obeys_run (D := .wellFormed) limit fuel hss.wellFormed
    refine ⟨fun x hx => (hmoments x hx).1.wellFormed, fun m' hrun => ?_⟩
    exact (hobeys.of_error hm.wellFormed hrun).1 rfl
  · intro e he
    have hactivity : (Activity.eval e).Obeys .wellFormed := he.wellFormed
    have hmoments :=
      Activity.moments_sound (n := fuel) hactivity (hm.sound hm.wellFormed limit)
    have hobeys := (obedience .wellFormed limit fuel).eval he.wellFormed
    refine ⟨fun x hx => (hmoments x hx).1.wellFormed, fun m' heval => ?_⟩
    exact (hobeys.of_error hm.wellFormed heval).1 rfl

/-- What is left of a program with a fault is run, and then what is left of an expression with a
fault is evaluated. -/
theorem parsed_code_never_malformed_after_faults :
    let program := Program.parse? (Scan.ofSource
      (utf8 "fun f(a) \x7b return -a; \x7d var = 1; print f(2) < 3;")).tokens
    let expression := LoneExpression.parse (Scan.ofSource (utf8 "1 = !f(2)")).tokens
    let nothing := LoneExpression.parse (Scan.ofSource (utf8 "1 +")).tokens
    ∃ p e, program = some p ∧ p.statements.length = 2 ∧ p.faults.length = 1 ∧
      expression.expression = some e ∧ expression.faults.length = 1 ∧
      (∀ s ∈ p.statements, s.Every Expr.WellFormed fun _ => True) ∧ e.Every Expr.WellFormed ∧
      nothing.expression = none ∧ nothing.faults ≠ [] ∧
      ((∀ x ∈ moments 9 50 p.statements (.fresh 0), x.activity.WellFormed) ∧
        ∀ m', run 9 50 p.statements (.fresh 0) ≠ .error .malformed m') ∧
      ∀ m', eval 9 50 e (final (run 9 50 p.statements (.fresh 0))) ≠ .error .malformed m' := by
  intro program expression nothing
  have hp : program.map (fun p => (p.statements.length, p.faults.length)) = some (2, 1) := by
    decide +kernel
  have he : expression.expression.isSome = true := by decide +kernel
  have hfault : expression.faults.length = 1 := by decide +kernel
  have hnothing : nothing.expression.isNone = true := by decide +kernel
  obtain ⟨p, hp, hlengths⟩ := Option.map_eq_some_iff.1 hp
  obtain ⟨e, he⟩ := Option.isSome_iff_exists.1 he
  obtain ⟨hstatements, hfaults⟩ := Prod.mk.inj hlengths
  have hnone := Option.isNone_iff_eq_none.1 hnothing
  have hparsed : Program.Parsed p.statements := ⟨_, p, hp, rfl⟩
  have hreached : Machine.Reachable Program.Parsed LoneExpression.Parsed (.fresh 0) := .fresh 0
  obtain ⟨hprogram, hexpression, hgiven, hsafe⟩ := parsed_code_never_malformed
  exact ⟨p, e, hp, hstatements, hfaults, he, hfault, hprogram _ hparsed, hexpression e ⟨_, he⟩,
    hnone, hgiven _ hnone, (hsafe _ hreached 9 50).1 _ hparsed,
    ((hsafe _ (hreached.ran 9 50 hparsed) 9 50).2 e ⟨_, he⟩).2⟩

end Exec
end Lox
