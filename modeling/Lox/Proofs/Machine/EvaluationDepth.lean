import Lox.Proofs.Machine.CallLimit
import Lox.Proofs.Syntax.Height

/-! How deep the evaluation of an expression goes. Calls aside, it goes down into the parts of the
expression, and so no deeper than the expression is high. -/
namespace Lox.Exec

/-- Evaluates a node whose parts are evaluated by `part`, or by `parts` where they are arguments, and
whose call is made by `call`. -/
def evalNode (part : Expr → Exec Value) (parts : List Expr → Exec (List Value))
    (call : Token → Value → List Value → Exec Value) : Expr → Exec Value
  | .literal v => pure (.ofLiteral v)
  | .grouping e => part e
  | .unary op e => do
    let v ← part e
    unaryOperator op v
  | .binary op a b => do
    let left ← part a
    let right ← part b
    binaryOperator op left right
  | .logicalAnd _ a b => do
    let left ← part a
    if left.isTruthy then part b else pure left
  | .logicalOr _ a b => do
    let left ← part a
    if left.isTruthy then pure left else part b
  | .conditional _ c a b => do
    let condition ← part c
    if condition.isTruthy then part a else part b
  | .comma a b => do
    let _ ← part a
    part b
  | .crement op target => do
    let v ← part target
    let x ← crementOperator op v
    match target with
    | .variable name =>
      assign name (.number x)
      pure (.number x)
    | _ => pure (.number x)
  | .variable name => lookUp name
  | .assign name e => do
    let v ← part e
    assign name v
    pure v
  | .call callee paren args => do
    let f ← part callee
    let vs ← parts args
    call paren f vs

theorem eval_succ (limit n : Nat) (e : Expr) :
    eval limit (n + 1) e = evalNode (eval limit n) (evalAll limit n) (apply limit n) e := by
  cases e <;> rfl

/-- Evaluates an expression, at most so many levels down. Arguments are evaluated one after the
other, on one level. -/
def evalWithin (call : Token → Value → List Value → Exec Value) : Nat → Expr → Exec Value
  | 0, _ => throw .exhausted
  | d + 1, e => evalNode (evalWithin call d) (List.mapM (evalWithin call d)) call e

theorem ExtendedBy.evalNode {part part' : Expr → Exec Value}
    {parts parts' : List Expr → Exec (List Value)}
    {call call' : Token → Value → List Value → Exec Value} {e : Expr}
    (hpart : ∀ a ∈ e.parts, ExtendedBy (part a) (part' a))
    (hparts : ∀ callee paren args, e = .call callee paren args →
      ExtendedBy (parts args) (parts' args))
    (hcall : ∀ paren f vs, ExtendedBy (call paren f vs) (call' paren f vs)) :
    ExtendedBy (evalNode part parts call e) (evalNode part' parts' call' e) := by
  have hfirst {a : Expr} {as : List Expr} (h : e.parts = a :: as) : ExtendedBy (part a) (part' a) :=
    hpart a (h ▸ List.mem_cons_self)
  have hsecond {a b : Expr} {as : List Expr} (h : e.parts = a :: b :: as) :
      ExtendedBy (part b) (part' b) :=
    hpart b (h ▸ List.mem_cons_of_mem _ List.mem_cons_self)
  have hthird {a b c : Expr} {as : List Expr} (h : e.parts = a :: b :: c :: as) :
      ExtendedBy (part c) (part' c) :=
    hpart c (h ▸ List.mem_cons_of_mem _ (List.mem_cons_of_mem _ List.mem_cons_self))
  cases e with
  | literal v => exact .refl _
  | «variable» name => exact .refl _
  | grouping a => exact hfirst rfl
  | unary op a => exact (hfirst rfl).bind fun _ => .refl _
  | binary op a b => exact (hfirst rfl).bind fun _ => (hsecond rfl).bind fun _ => .refl _
  | logicalAnd op a b => exact (hfirst rfl).bind fun _ => .ite (hsecond rfl) (.refl _)
  | logicalOr op a b => exact (hfirst rfl).bind fun _ => .ite (.refl _) (hsecond rfl)
  | conditional question c a b =>
    exact (hfirst rfl).bind fun _ => .ite (hsecond rfl) (hthird rfl)
  | comma a b => exact (hfirst rfl).bind fun _ => hsecond rfl
  | crement op target => exact (hfirst rfl).bind fun _ => .refl _
  | assign name a => exact (hfirst rfl).bind fun _ => .refl _
  | call callee paren args =>
    refine (hfirst rfl).bind fun f => (hparts callee paren args rfl).bind fun vs => ?_
    exact hcall paren f vs

theorem ExtendedBy.mapM {f g : Expr → Exec Value} {es : List Expr}
    (h : ∀ e ∈ es, ExtendedBy (f e) (g e)) : ExtendedBy (es.mapM f) (es.mapM g) := by
  induction es with
  | nil => exact .refl _
  | cons e es ih =>
    obtain ⟨he, hes⟩ := List.forall_mem_cons.1 h
    rw [List.mapM_cons, List.mapM_cons]
    exact he.bind fun _ => (ih hes).bind fun _ => .refl _

/-- As many levels as the expression is high are as good as any number of them. -/
theorem extendedBy_evalWithin_low (call : Token → Value → List Value → Exec Value) {h : Nat}
    {e : Expr} (he : e.Low h) (d : Nat) :
    ExtendedBy (evalWithin call d e) (evalWithin call h e) := by
  induction d generalizing e h with
  | zero => exact .exhausted _
  | succ d ih =>
    cases h with
    | zero => exact absurd he (Nat.not_le_of_lt e.height_pos)
    | succ h =>
      have hparts := Expr.low_succ_iff.1 he
      refine .evalNode (fun a ha => ih (hparts a ha)) ?_ fun _ _ _ => .refl _
      rintro callee paren args rfl
      exact .mapM fun a ha => ih (hparts a (List.mem_cons_of_mem _ ha))

/-- Where the expression is no higher than `h`, no more than `h` levels are needed. -/
theorem extendedBy_evalWithin (limit : Nat) {n k h : Nat} (hk : n ≤ k) {e : Expr} (he : e.Low h) :
    ExtendedBy (eval limit n e) (evalWithin (apply limit k) h e) := by
  -- Arguments take a step each, but all are on one level: they are compared at the same `h`.
  have hall : (∀ (h : Nat) (e : Expr), e.Low h →
        ExtendedBy (eval limit n e) (evalWithin (apply limit k) h e)) ∧
      ∀ (h : Nat) (es : List Expr), (∀ e ∈ es, e.Low h) →
        ExtendedBy (evalAll limit n es) (es.mapM (evalWithin (apply limit k) h)) := by
    clear he
    induction n with
    | zero => exact ⟨fun _ _ _ => .exhausted _, fun _ _ _ => .exhausted _⟩
    | succ n ih =>
      obtain ⟨heval, hevalAll⟩ := ih (Nat.le_of_succ_le hk)
      refine ⟨fun h e he => ?_, fun h es hes => ?_⟩
      · cases h with
        | zero => exact absurd he (Nat.not_le_of_lt e.height_pos)
        | succ h =>
          have hparts := Expr.low_succ_iff.1 he
          rw [eval_succ]
          refine .evalNode (fun a ha => heval h a (hparts a ha)) ?_ fun paren f vs => ?_
          · rintro callee paren args rfl
            exact hevalAll h args fun a ha => hparts a (List.mem_cons_of_mem _ ha)
          · exact .of_le (fun i => (extension limit i).apply paren f vs) (Nat.le_of_succ_le hk)
      · cases es with
        | nil => exact .refl _
        | cons e es =>
          obtain ⟨he, hes⟩ := List.forall_mem_cons.1 hes
          rw [List.mapM_cons]
          exact (heval h e he).bind fun _ => (hevalAll h es hes).bind fun _ => .refl _
  exact hall.1 h e he

theorem mapM_extendedBy {limit k n : Nat} {f : Expr → Exec Value} {es : List Expr}
    (h : ∀ e ∈ es, ∀ n, k + sizeOf e ≤ n → ExtendedBy (f e) (eval limit n e))
    (hn : k + sizeOf es ≤ n) : ExtendedBy (es.mapM f) (evalAll limit n es) := by
  induction es generalizing n with
  | nil =>
    obtain ⟨n, rfl⟩ : ∃ i, n = i + 1 := Nat.exists_eq_add_one_of_ne_zero (by simp at hn; omega)
    exact .refl _
  | cons e es ih =>
    rw [List.cons.sizeOf_spec] at hn
    obtain ⟨n, rfl⟩ : ∃ i, n = i + 1 := Nat.exists_eq_add_one_of_ne_zero (by omega)
    obtain ⟨he, hes⟩ := List.forall_mem_cons.1 h
    rw [List.mapM_cons]
    exact (he n (by omega)).bind fun _ => (ih hes (by omega)).bind fun _ => .refl _

/-- With a step for every node, what is found level by level is found. -/
theorem evalWithin_extendedBy (limit k d : Nat) {n : Nat} {e : Expr} (hn : k + sizeOf e ≤ n) :
    ExtendedBy (evalWithin (apply limit k) d e) (eval limit n e) := by
  induction d generalizing e n with
  | zero => exact .exhausted _
  | succ d ih =>
    have hpos : 0 < sizeOf e := by cases e <;> simp +arith
    obtain ⟨n, rfl⟩ : ∃ i, n = i + 1 := Nat.exists_eq_add_one_of_ne_zero (by omega)
    rw [eval_succ]
    refine .evalNode (fun a ha => ih ?_) ?_ fun paren f vs => ?_
    · have hlt := Expr.sizeOf_part_lt ha
      omega
    · rintro callee paren args rfl
      rw [Expr.call.sizeOf_spec] at hn
      exact mapM_extendedBy (fun a _ i hi => ih hi) (by omega)
    · exact .of_le (fun i => (extension limit i).apply paren f vs) (by omega)

/-- An expression comes to an end just where it does no further than `h` levels down, and then to
the same one. -/
theorem eval_iff_evalWithin (limit : Nat) {h : Nat} {e : Expr} (he : e.Low h) {m : Machine}
    {r : EStateM.Result Halt Machine Value} (hr : ended r = true) :
    (∃ n, eval limit n e m = r) ↔ ∃ n, evalWithin (apply limit n) h e m = r := by
  constructor
  · rintro ⟨n, rfl⟩
    exact ⟨n, ((extendedBy_evalWithin limit (Nat.le_refl n) he).eq_of_ended hr).symm⟩
  · rintro ⟨k, rfl⟩
    exact ⟨_, ((evalWithin_extendedBy limit k h (Nat.le_refl _)).eq_of_ended hr).symm⟩

/-- The height of what is parsed has a bound, whatever the tokens, with or without faults: that of a
single expression, and that of every expression within the statements of a program. An expression of
such a height is evaluated no further levels down than the bound, calls aside. -/
theorem parsed_height_bounded (tokens : List Token) :
    (∀ e, (LoneExpression.parse tokens).expression = some e → e.Low Expr.maxHeight) ∧
    (∀ p, Program.parse? tokens = some p → ∀ s ∈ p.statements,
      s.Every (Expr.Low Expr.maxHeight) fun _ => True) ∧
    ∀ e : Expr, e.Low Expr.maxHeight →
      (∀ call d, ExtendedBy (evalWithin call d e) (evalWithin call Expr.maxHeight e)) ∧
      ∀ limit m r, ended r = true → ((∃ n, eval limit n e m = r) ↔
        ∃ n, evalWithin (apply limit n) Expr.maxHeight e m = r) :=
  ⟨fun _ => LoneExpression.low_of_parse, fun _ => Program.low_of_parse?, fun _ he =>
    ⟨fun call => extendedBy_evalWithin_low call he,
      fun limit _ _ hr => eval_iff_evalWithin limit he hr⟩⟩

/-- An expression, a program with a fault in it, and an expression that is evaluated. -/
theorem parsed_height_bounded_after_fault :
    let expression := LoneExpression.parse (Scan.ofSource (utf8 "(nil ? a : b)(!c, d)")).tokens
    let program := Program.parse? (Scan.ofSource
      (utf8 "var = 1; while (a and b) print c = d;")).tokens
    let evaluated := Expr.grouping (.literal .nil)
    ∃ e p, expression.expression = some e ∧ e.height = 4 ∧ e.Low Expr.maxHeight ∧
      program = some p ∧ p.faults.length = 1 ∧ p.statements.length = 1 ∧
      (∀ s ∈ p.statements, s.Every (Expr.Low Expr.maxHeight) fun _ => True) ∧
      evaluated.Low Expr.maxHeight ∧
      ∃ n, evalWithin (apply 9 n) Expr.maxHeight evaluated (.fresh 0) = .ok .nil (.fresh 0) := by
  intro expression program evaluated
  have he : expression.expression.map Expr.height = some 4 := by decide +kernel
  have hp : program.map (fun p => (p.faults.length, p.statements.length)) = some (1, 1) := by
    decide +kernel
  obtain ⟨e, he, hheight⟩ := Option.map_eq_some_iff.1 he
  obtain ⟨p, hp, hlengths⟩ := Option.map_eq_some_iff.1 hp
  obtain ⟨hfaults, hstatements⟩ := Prod.mk.inj hlengths
  have hlow : evaluated.Low Expr.maxHeight := by decide
  obtain ⟨hexpression, -, heval⟩ := parsed_height_bounded _
  exact ⟨e, p, he, hheight, hexpression e he, hp, hfaults, hstatements,
    (parsed_height_bounded _).2.1 p hp, hlow, ((heval evaluated hlow).2 9 _ _ rfl).1 ⟨2, rfl⟩⟩

end Lox.Exec
