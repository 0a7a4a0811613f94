import Lox.Machine.Run

/-! Relations between computations that every construct of running code respects. What is known of
the elementary steps and of the constructs holds of all code, by one induction. -/
namespace Lox.Exec

/-- The steps of which running code is made up. -/
inductive Elementary : {α : Type} → Exec α → Prop where
  | pure {α : Type} (a : α) : Elementary (Pure.pure a : Exec α)
  | throw {α : Type} (h : Halt) : Elementary (MonadExcept.throw h : Exec α)
  | get : Elementary (MonadState.get : Exec Machine)
  | lookUp (name : Token) : Elementary (lookUp name)
  | assign (name : Token) (v : Value) : Elementary (assign name v)
  | declare (name : Token) (v : Value) : Elementary (declare name v)
  | print (text : Bytes) : Elementary (print text)
  | close (name : Token) (params : List Token) (body : List Stmt) :
      Elementary (close name params body)
  | runNative (paren : Token) (action : Native.Action) (args : List Value) :
      Elementary (runNative paren action args)

/-- The computation gives a value or halts, and has nothing to do with the machine. -/
inductive Outright : {α : Type} → Exec α → Prop where
  | pure {α : Type} (a : α) : Outright (Pure.pure a : Exec α)
  | throw {α : Type} (h : Halt) : Outright (MonadExcept.throw h : Exec α)

theorem Outright.ite {α : Type} {c : Prop} [Decidable c] {x y : Exec α} (hx : Outright x)
    (hy : Outright y) : Outright (if c then x else y) := by
  split
  · exact hx
  · exact hy

theorem outright_unaryOperator (op : Token) (v : Value) : Outright (unaryOperator op v) := by
  unfold unaryOperator
  split
  · exact .pure _
  · split
    · exact .pure _
    · exact .throw _
  · exact .throw _

theorem outright_arithmetic (op : Token) (x y : Float) : Outright (arithmetic op x y) := by
  unfold arithmetic
  split
  · exact .pure _
  · exact .pure _
  · exact .ite (.throw _) (.pure _)
  · exact .pure _
  · exact .pure _
  · exact .pure _
  · exact .pure _
  · exact .throw _

theorem outright_plus (op : Token) (v w : Value) : Outright (plus op v w) := by
  unfold plus
  split
  · exact .pure _
  · exact .pure _
  · exact .throw _

theorem outright_binaryOperator (op : Token) (v w : Value) :
    Outright (binaryOperator op v w) := by
  unfold binaryOperator
  split
  · exact .pure _
  · exact .pure _
  · exact outright_plus op v w
  · split
    · exact outright_arithmetic op _ _
    · exact .throw _

theorem outright_crementOperator (op : Token) (v : Value) : Outright (crementOperator op v) := by
  unfold crementOperator
  split
  · exact .pure _
  · exact .throw _

/-- A relation between computations, of which the first are run under `limit` and the second under
`limit'`. -/
structure Congruence (limit limit' : Nat) where
  rel : {α : Type} → Exec α → Exec α → Prop
  elementary : ∀ {α : Type} {x : Exec α}, Elementary x → rel x x
  bind : ∀ {α β : Type} {x y : Exec α} {f g : α → Exec β}, rel x y → (∀ a, rel (f a) (g a)) →
    rel (x >>= f) (y >>= g)
  inScope : ∀ {α : Type} (parent : ScopeId) (bindings : List (Bytes × Value)) {x y : Exec α},
    rel x y → rel (inScope parent bindings x) (inScope parent bindings y)
  asCall : ∀ {α : Type} (paren : Token) {x y : Exec α}, rel x y →
    rel (asCall limit paren x) (asCall limit' paren y)

namespace Congruence
variable {limit limit' : Nat} (C : Congruence limit limit') {α : Type}

theorem pure (a : α) : C.rel (Pure.pure a) (Pure.pure a) := C.elementary (.pure a)

theorem throw (h : Halt) : C.rel (MonadExcept.throw h : Exec α) (MonadExcept.throw h) :=
  C.elementary (.throw h)

theorem inChild {x y : Exec α} (h : C.rel x y) : C.rel (inChild x) (inChild y) := by
  have hchild (z : Exec α) : Exec.inChild z = MonadState.get >>= fun m =>
      Exec.inScope (Machine.current m) [] z := rfl
  rw [hchild, hchild]
  exact C.bind (C.elementary .get) fun m => C.inScope m.current [] h

theorem ite {c : Prop} [Decidable c] {x x' y y' : Exec α} (h : C.rel x y) (h' : C.rel x' y') :
    C.rel (if c then x else x') (if c then y else y') := by
  split
  · exact h
  · exact h'

theorem outright {x : Exec α} (h : Outright x) : C.rel x x := by
  cases h with
  | pure a => exact C.pure a
  | throw h => exact C.throw h

/-- The functions that run code are related, with `n` steps allotted. -/
structure All (n : Nat) : Prop where
  eval : ∀ e, C.rel (eval limit n e) (eval limit' n e)
  evalAll : ∀ es, C.rel (evalAll limit n es) (evalAll limit' n es)
  apply : ∀ paren v args, C.rel (apply limit n paren v args) (apply limit' n paren v args)
  invoke : ∀ f args, C.rel (invoke limit n f args) (invoke limit' n f args)
  exec : ∀ s, C.rel (exec limit n s) (exec limit' n s)
  execAll : ∀ ss, C.rel (execAll limit n ss) (execAll limit' n ss)
  execLoop : ∀ c s i, C.rel (execLoop limit n c s i) (execLoop limit' n c s i)

section
variable {C} {n : Nat} (ih : C.All n)
include ih

theorem rel_eval (e : Expr) : C.rel (eval limit (n + 1) e) (eval limit' (n + 1) e) := by
  cases e with
  | literal v => exact C.pure _
  | grouping e => exact ih.eval e
  | unary op e => exact C.bind (ih.eval e) fun v => C.outright (outright_unaryOperator op v)
  | binary op a b =>
    exact C.bind (ih.eval a) fun v => C.bind (ih.eval b) fun w =>
      C.outright (outright_binaryOperator op v w)
  | logicalAnd op a b => exact C.bind (ih.eval a) fun v => C.ite (ih.eval b) (C.pure v)
  | logicalOr op a b => exact C.bind (ih.eval a) fun v => C.ite (C.pure v) (ih.eval b)
  | conditional question c a b =>
    exact C.bind (ih.eval c) fun v => C.ite (ih.eval a) (ih.eval b)
  | comma a b => exact C.bind (ih.eval a) fun _ => ih.eval b
  | crement op target =>
    refine C.bind (ih.eval target) fun v =>
      C.bind (C.outright (outright_crementOperator op v)) fun x => ?_
    split
    · exact C.bind (C.elementary (.assign _ _)) fun _ => C.pure _
    · exact C.pure _
  | «variable» name => exact C.elementary (.lookUp name)
  | assign name e =>
    exact C.bind (ih.eval e) fun v => C.bind (C.elementary (.assign name v)) fun _ => C.pure v
  | call callee paren args =>
    exact C.bind (ih.eval callee) fun f => C.bind (ih.evalAll args) fun vs => ih.apply paren f vs

theorem rel_evalAll (es : List Expr) :
    C.rel (evalAll limit (n + 1) es) (evalAll limit' (n + 1) es) := by
  cases es with
  | nil => exact C.pure _
  | cons e es =>
    exact C.bind (ih.eval e) fun v => C.bind (ih.evalAll es) fun vs => C.pure (v :: vs)

theorem rel_apply (paren : Token) (v : Value) (args : List Value) :
    C.rel (apply limit (n + 1) paren v args) (apply limit' (n + 1) paren v args) := by
  cases v with
  | function f => exact C.ite (C.asCall paren (ih.invoke f args)) (C.throw _)
  | native f =>
    exact C.ite (C.asCall paren (C.elementary (.runNative paren f.action args))) (C.throw _)
  | _ => exact C.throw _

theorem rel_invoke (f : Closure) (args : List Value) :
    C.rel (invoke limit (n + 1) f args) (invoke limit' (n + 1) f args) := by
  unfold Exec.invoke
  split
  · exact C.throw _
  · exact C.bind (C.inScope f.scope _ (ih.execAll f.body)) fun c => C.pure (resultOf c)

theorem rel_exec (s : Stmt) : C.rel (exec limit (n + 1) s) (exec limit' (n + 1) s) := by
  cases s with
  | empty => exact C.pure _
  | expression e => exact C.bind (ih.eval e) fun _ => C.pure _
  | print keyword e =>
    exact C.bind (ih.eval e) fun v => C.bind (C.elementary (.print v.text)) fun _ => C.pure _
  | declare name init =>
    cases init with
    | none => exact C.bind (C.elementary (.declare name .nil)) fun _ => C.pure _
    | some e =>
      exact C.bind (ih.eval e) fun v => C.bind (C.elementary (.declare name v)) fun _ => C.pure _
  | block body => exact C.inChild (ih.execAll body)
  | branch c yes no =>
    refine C.bind (ih.eval c) fun v => C.ite (C.inChild (ih.exec yes)) ?_
    cases no with
    | none => exact C.pure _
    | some s => exact C.inChild (ih.exec s)
  | loop c body i => exact ih.execLoop c body i
  | breakLoop keyword => exact C.pure _
  | continueLoop keyword => exact C.pure _
  | function name params body =>
    exact C.bind (C.elementary (.close name params body)) fun f =>
      C.bind (C.elementary (.declare name f)) fun _ => C.pure _
  | returnValue keyword value =>
    cases value with
    | none => exact C.pure _
    | some e => exact C.bind (ih.eval e) fun v => C.pure _

theorem rel_execAll (ss : List Stmt) :
    C.rel (execAll limit (n + 1) ss) (execAll limit' (n + 1) ss) := by
  cases ss with
  | nil => exact C.pure _
  | cons s ss =>
    refine C.bind (ih.exec s) fun completion => ?_
    cases completion with
    | normal => exact ih.execAll ss
    | _ => exact C.pure _

theorem rel_execLoop (c : Expr) (s : Stmt) (i : Option Expr) :
    C.rel (execLoop limit (n + 1) c s i) (execLoop limit' (n + 1) c s i) := by
  refine C.bind (ih.eval c) fun v => C.ite ?_ (C.pure _)
  refine C.bind (C.inChild (ih.exec s)) fun completion => ?_
  cases completion with
  | broke => exact C.pure _
  | returned v => exact C.pure _
  | normal | continued =>
    cases i with
    | none => exact ih.execLoop c s none
    | some e => exact C.bind (ih.eval e) fun _ => ih.execLoop c s (some e)

end

theorem all (n : Nat) : C.All n := by
  induction n with
  | zero => constructor <;> intros <;> exact C.throw _
  | succ n ih =>
    exact {
      eval := rel_eval ih
      evalAll := rel_evalAll ih
      apply := rel_apply ih
      invoke := rel_invoke ih
      exec := rel_exec ih
      execAll := rel_execAll ih
      execLoop := rel_execLoop ih }

theorem run (fuel : Nat) (ss : List Stmt) :
    C.rel (Exec.run limit fuel ss) (Exec.run limit' fuel ss) := by
  induction ss with
  | nil => exact C.pure ()
  | cons s ss ih => exact C.bind ((C.all fuel).exec s) fun _ => ih

end Congruence
end Lox.Exec
