import Lox.Proofs.Machine.Likeness

/-! Running a program does not depend on the places of its tokens: like statements on like machines
end alike, with the same texts printed. -/
namespace Lox.Exec

open Likeness (unplaced)

variable {before : List Bytes}

/-! Operators. -/

theorem agree_unaryOperator {t u : Token} (ht : unplaced.like t u) {v w : Value} (hv : v.Like w) :
    Agree before Value.Like (unaryOperator t v) (unaryOperator u w) := by
  unfold unaryOperator
  rw [← ht.1]
  split
  · rw [hv.isTruthy]
    exact .pure (.bool _)
  · cases hv with
    | number x => exact .pure (.number _)
    | _ => exact agree_fail _ ht
  · exact .throw .malformed

theorem agree_arithmetic {t u : Token} (ht : unplaced.like t u) (x y : Float) :
    Agree before Value.Like (arithmetic t x y) (arithmetic u x y) := by
  unfold arithmetic
  rw [← ht.1]
  split
  · exact .pure (.number _)
  · exact .pure (.number _)
  · split
    · exact agree_fail _ ht
    · exact .pure (.number _)
  · exact .pure (.bool _)
  · exact .pure (.bool _)
  · exact .pure (.bool _)
  · exact .pure (.bool _)
  · exact .throw .malformed

theorem agree_plus {t u : Token} (ht : unplaced.like t u) {v w v' w' : Value} (hv : v.Like w)
    (hv' : v'.Like w') : Agree before Value.Like (plus t v v') (plus u w w') := by
  cases hv with
  | string s =>
    cases hv' with
    | string s' => exact .pure (.string _)
    | _ => exact agree_fail _ ht
  | number x =>
    cases hv' with
    | number y => exact .pure (.number _)
    | _ => exact agree_fail _ ht
  | _ => exact agree_fail _ ht

theorem agree_binaryOperator {t u : Token} (ht : unplaced.like t u) {v w v' w' : Value}
    (hv : v.Like w) (hv' : v'.Like w') :
    Agree before Value.Like (binaryOperator t v v') (binaryOperator u w w') := by
  unfold binaryOperator
  rw [← ht.1]
  split
  · rw [hv.equal hv']
    exact .pure (.bool _)
  · rw [hv.equal hv']
    exact .pure (.bool _)
  · exact agree_plus ht hv hv'
  · cases hv with
    | number x =>
      cases hv' with
      | number y => exact agree_arithmetic ht x y
      | _ => exact agree_fail _ ht
    | _ => exact agree_fail _ ht

theorem agree_crementOperator {t u : Token} (ht : unplaced.like t u) {v w : Value} (hv : v.Like w) :
    Agree before Eq (crementOperator t v) (crementOperator u w) := by
  cases hv with
  | number x =>
    unfold crementOperator
    rw [← ht.1]
    exact .pure rfl
  | _ => exact agree_fail _ ht

/-! Calls. -/

theorem like_parameterBindings {ts us : List Token} {vs ws : List Value}
    {as bs : List (Bytes × Value)} (hts : List.Forall₂ unplaced.like ts us)
    (hvs : List.Forall₂ Value.Like vs ws) (h : Bindings.Like as bs) :
    Option.Rel Bindings.Like (parameterBindings ts vs as) (parameterBindings us ws bs) := by
  induction hts generalizing vs ws as bs with
  | nil => exact .some h
  | cons ht _ ih =>
    cases hvs with
    | nil => exact .none
    | cons hv hvs =>
      unfold parameterBindings
      rw [← unplaced.lexeme ht]
      exact ih hvs (h.insert _ hv)

theorem like_resultOf {c d : Completion} (h : c.Like d) : (resultOf c).Like (resultOf d) := by
  cases h with
  | returned hv => exact hv
  | _ => exact .nil

/-- The value of a condition decides between like computations. -/
theorem agree_ifTruthy {α β : Type} {A : α → β → Prop} {v w : Value} (hv : v.Like w)
    {x x' : Exec α} {y y' : Exec β} (hx : Agree before A x y) (hx' : Agree before A x' y') :
    Agree before A (if v.isTruthy then x else x') (if w.isTruthy then y else y') := by
  rw [hv.isTruthy]
  split
  · exact hx
  · exact hx'

/-- The functions that run a program agree on like programs, with `n` steps allotted. -/
structure Agreement (before : List Bytes) (limit n : Nat) : Prop where
  eval : ∀ {a b : Expr}, a.Like unplaced b →
    Agree before Value.Like (eval limit n a) (eval limit n b)
  evalAll : ∀ {as bs : List Expr}, List.Forall₂ (Expr.Like unplaced) as bs →
    Agree before (List.Forall₂ Value.Like) (evalAll limit n as) (evalAll limit n bs)
  apply : ∀ {t u : Token} {v w : Value} {vs ws : List Value}, unplaced.like t u → v.Like w →
    List.Forall₂ Value.Like vs ws →
    Agree before Value.Like (apply limit n t v vs) (apply limit n u w ws)
  invoke : ∀ {f g : Closure} {vs ws : List Value}, f.Like g → List.Forall₂ Value.Like vs ws →
    Agree before Value.Like (invoke limit n f vs) (invoke limit n g ws)
  exec : ∀ {s t : Stmt}, s.Like unplaced t →
    Agree before Completion.Like (exec limit n s) (exec limit n t)
  execAll : ∀ {ss ts : List Stmt}, List.Forall₂ (Stmt.Like unplaced) ss ts →
    Agree before Completion.Like (execAll limit n ss) (execAll limit n ts)
  execLoop : ∀ {a b : Expr} {s t : Stmt} {x y : Option Expr}, a.Like unplaced b →
    s.Like unplaced t → Option.Rel (Expr.Like unplaced) x y →
    Agree before Completion.Like (execLoop limit n a s x) (execLoop limit n b t y)

section
variable {limit n : Nat} (ih : Agreement before limit n)
include ih

theorem agree_eval {a b : Expr} (h : a.Like unplaced b) :
    Agree before Value.Like (eval limit (n + 1) a) (eval limit (n + 1) b) := by
  cases h with
  | literal h =>
    rw [unplaced.literal h]
    exact .pure (.ofLiteral _)
  | grouping h => exact ih.eval h
  | unary ht h => exact (ih.eval h).bind fun _ _ hv => agree_unaryOperator ht hv
  | binary ht hl hr =>
    exact (ih.eval hl).bind fun _ _ hv => (ih.eval hr).bind fun _ _ hw =>
      agree_binaryOperator ht hv hw
  | logicalAnd _ hl hr =>
    exact (ih.eval hl).bind fun _ _ hv => agree_ifTruthy hv (ih.eval hr) (.pure hv)
  | logicalOr _ hl hr =>
    exact (ih.eval hl).bind fun _ _ hv => agree_ifTruthy hv (.pure hv) (ih.eval hr)
  | conditional _ hc hy hn =>
    exact (ih.eval hc).bind fun _ _ hv => agree_ifTruthy hv (ih.eval hy) (ih.eval hn)
  | comma hl hr => exact (ih.eval hl).bind fun _ _ _ => ih.eval hr
  | crement ht h =>
    refine (ih.eval h).bind fun v w hv => (agree_crementOperator ht hv).bind fun x y hx => ?_
    subst hx
    cases h with
    | name hname => exact (agree_assign hname (.number x)).bind fun _ _ _ => .pure (.number x)
    | _ => exact .pure (.number x)
  | name ht => exact agree_lookUp ht
  | assign ht h =>
    exact (ih.eval h).bind fun _ _ hv => (agree_assign ht hv).bind fun _ _ _ => .pure hv
  | call h ht hs =>
    exact (ih.eval h).bind fun _ _ hf => (ih.evalAll hs).bind fun _ _ hvs => ih.apply ht hf hvs

theorem agree_evalAll {as bs : List Expr} (h : List.Forall₂ (Expr.Like unplaced) as bs) :
    Agree before (List.Forall₂ Value.Like) (evalAll limit (n + 1) as) (evalAll limit (n + 1) bs) := by
  cases h with
  | nil => exact .pure .nil
  | cons he hes =>
    exact (ih.eval he).bind fun _ _ hv => (ih.evalAll hes).bind fun _ _ hvs => .pure (.cons hv hvs)

theorem agree_apply {t u : Token} {v w : Value} {vs ws : List Value} (ht : unplaced.like t u)
    (hv : v.Like w) (hvs : List.Forall₂ Value.Like vs ws) :
    Agree before Value.Like (apply limit (n + 1) t v vs) (apply limit (n + 1) u w ws) := by
  cases hv with
  | function hf =>
    unfold apply
    rw [hvs.length_eq, hf.params.length_eq]
    split
    · exact agree_asCall limit ht (ih.invoke hf hvs)
    · exact agree_fail _ ht
  | native f =>
    unfold apply
    rw [hvs.length_eq]
    split
    · exact agree_asCall limit ht (agree_runNative ht f.action hvs)
    · exact agree_fail _ ht
  | _ => exact agree_fail _ ht

theorem agree_invoke {f g : Closure} {vs ws : List Value} (hf : f.Like g)
    (hvs : List.Forall₂ Value.Like vs ws) :
    Agree before Value.Like (invoke limit (n + 1) f vs) (invoke limit (n + 1) g ws) := by
  have hbindings := like_parameterBindings hf.params hvs .nil
  unfold invoke
  generalize parameterBindings f.params vs [] = as, parameterBindings g.params ws [] = bs
    at hbindings ⊢
  cases hbindings with
  | none => exact .throw .malformed
  | some hb =>
    dsimp only
    rw [hf.scope]
    exact (agree_inScope _ hb (ih.execAll hf.body)).bind fun _ _ hc => .pure (like_resultOf hc)

theorem agree_exec {s t : Stmt} (h : s.Like unplaced t) :
    Agree before Completion.Like (exec limit (n + 1) s) (exec limit (n + 1) t) := by
  cases h with
  | empty => exact .pure .normal
  | expression h => exact (ih.eval h).bind fun _ _ _ => .pure .normal
  | print _ h =>
    refine (ih.eval h).bind fun v w hv => ?_
    rw [hv.text]
    exact (agree_print _).bind fun _ _ _ => .pure .normal
  | declare ht h =>
    cases h with
    | none => exact (agree_declare ht .nil).bind fun _ _ _ => .pure .normal
    | some h =>
      exact (ih.eval h).bind fun _ _ hv => (agree_declare ht hv).bind fun _ _ _ => .pure .normal
  | block h => exact agree_inChild (ih.execAll h)
  | branch hc hy hn =>
    refine (ih.eval hc).bind fun v w hv => agree_ifTruthy hv (agree_inChild (ih.exec hy)) ?_
    cases hn with
    | none => exact .pure .normal
    | some h => exact agree_inChild (ih.exec h)
  | loop hc hb hi => exact ih.execLoop hc hb hi
  | breakLoop => exact .pure .broke
  | continueLoop => exact .pure .continued
  | function ht hts h =>
    exact (agree_close ht hts h).bind fun _ _ hf => (agree_declare ht hf).bind fun _ _ _ =>
      .pure .normal
  | returnValue _ h =>
    cases h with
    | none => exact .pure (.returned .nil)
    | some h => exact (ih.eval h).bind fun _ _ hv => .pure (.returned hv)

theorem agree_execAll {ss ts : List Stmt} (h : List.Forall₂ (Stmt.Like unplaced) ss ts) :
    Agree before Completion.Like (execAll limit (n + 1) ss) (execAll limit (n + 1) ts) := by
  cases h with
  | nil => exact .pure .normal
  | cons hs hss =>
    refine (ih.exec hs).bind fun c d hc => ?_
    cases hc with
    | normal => exact ih.execAll hss
    | returned hv => exact .pure (.returned hv)
    | broke => exact .pure .broke
    | continued => exact .pure .continued

theorem agree_execLoop {a b : Expr} {s t : Stmt} {x y : Option Expr} (hc : a.Like unplaced b)
    (hb : s.Like unplaced t) (hi : Option.Rel (Expr.Like unplaced) x y) :
    Agree before Completion.Like (execLoop limit (n + 1) a s x) (execLoop limit (n + 1) b t y) := by
  refine (ih.eval hc).bind fun v w hv => agree_ifTruthy hv ?_ (.pure .normal)
  refine (agree_inChild (ih.exec hb)).bind fun c d hcd => ?_
  cases hcd with
  | broke => exact .pure .normal
  | returned hv => exact .pure (.returned hv)
  | normal | continued =>
    cases hi with
    | none => exact ih.execLoop hc hb .none
    | some he => exact (ih.eval he).bind fun _ _ _ => ih.execLoop hc hb (.some he)

end

theorem agreement (limit n : Nat) : Agreement before limit n := by
  induction n with
  | zero => constructor <;> (intros; exact .throw .exhausted)
  | succ n ih =>
    exact {
      eval := agree_eval ih
      evalAll := agree_evalAll ih
      apply := agree_apply ih
      invoke := agree_invoke ih
      exec := agree_exec ih
      execAll := agree_execAll ih
      execLoop := agree_execLoop ih }

/-- Like programs on like machines end alike. -/
theorem agree_run (limit fuel : Nat) {ss ts : List Stmt}
    (h : List.Forall₂ (Stmt.Like unplaced) ss ts) :
    Agree before Eq (run limit fuel ss) (run limit fuel ts) := by
  induction h with
  | nil => exact .pure rfl
  | cons hs _ ih => exact ((agreement limit fuel).exec hs).bind fun _ _ _ => ih

end Lox.Exec
