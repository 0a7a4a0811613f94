import Lox.Machine.Run
import Lox.Proofs.Syntax.Formation

/-! How a run can halt. A run only halts in ways that some node of its code raises, and the code it
runs is the code it was given: functions keep their bodies wherever they are stored, passed or
returned. -/
namespace Lox

/-- What an expression can halt with by itself, apart from its parts. -/
inductive Expr.Raises : Expr → Halt → Prop where
  | negation {op : Token} {e : Expr} (hk : op.kind = .minus) :
      Raises (.unary op e) (.fault ⟨.operandNotNumber, op⟩)
  | unknownUnary {op : Token} {e : Expr} (hk : op.kind.isNegation = false) :
      Raises (.unary op e) .malformed
  | addition {op : Token} {a b : Expr} (hk : op.kind = .plus) :
      Raises (.binary op a b) (.fault ⟨.operandsNotAddable, op⟩)
  | arithmetic {op : Token} {a b : Expr}
      (hk : op.kind ≠ .equalEqual ∧ op.kind ≠ .bangEqual ∧ op.kind ≠ .plus) :
      Raises (.binary op a b) (.fault ⟨.operandsNotNumbers, op⟩)
  | division {op : Token} {a b : Expr} (hk : op.kind = .slash) :
      Raises (.binary op a b) (.fault ⟨.divisionByZero, op⟩)
  | unknownBinary {op : Token} {a b : Expr} (hk : op.kind.isBinary = false) :
      Raises (.binary op a b) .malformed
  | crement {op : Token} {e : Expr} : Raises (.crement op e) (.fault ⟨.operandNotNumber, op⟩)
  | undefined {name : Token} (suggestion : Option Bytes) :
      Raises (.variable name) (.fault ⟨.undefinedVariable suggestion, name⟩)
  | unassigned {name : Token} {e : Expr} (suggestion : Option Bytes) :
      Raises (.assign name e) (.fault ⟨.undefinedVariable suggestion, name⟩)
  | notCallable {callee : Expr} {paren : Token} {args : List Expr} :
      Raises (.call callee paren args) (.fault ⟨.notCallable, paren⟩)
  | wrongArity {callee : Expr} {paren : Token} {args : List Expr} (expected : Int) (given : Nat) :
      Raises (.call callee paren args) (.fault ⟨.wrongArity expected given, paren⟩)
  | stackOverflow {callee : Expr} {paren : Token} {args : List Expr} :
      Raises (.call callee paren args) (.fault ⟨.stackOverflow, paren⟩)

/-- What a function of the host can halt with. -/
inductive Native.Action.Raises (paren : Token) : Native.Action → Halt → Prop where
  | failure (text : Bytes) : Raises paren (.fail text) (.fault ⟨.hostFailure text, paren⟩)
  | fault (code : String) (message : Bytes) : Raises paren (.raise code message)
      (.fault ⟨.hostFault code message, ⟨.illegal, [], .nil, ⟨0, 0, 0⟩⟩⟩)

/-- What the nodes of the code are to be, which functions of the host there are to be, and all that
these can halt with. -/
structure Discipline where
  expr : Expr → Prop
  stmt : Stmt → Prop
  native : Native → Prop
  halt : Halt → Prop
  exhausted : halt .exhausted
  raises : ∀ {e : Expr} {h : Halt}, expr e → e.Raises h → halt h
  hosted : ∀ {callee : Expr} {paren : Token} {args : List Expr} {f : Native} {h : Halt},
    expr (.call callee paren args) → native f → f.action.Raises paren h → halt h

/-- The code of a function obeys the discipline. -/
def Closure.Obeys (D : Discipline) (f : Closure) : Prop :=
  (Stmt.function f.name f.params f.body).Every D.expr D.stmt

def Value.Obeys (D : Discipline) : Value → Prop
  | .function f => f.Obeys D
  | .native f => D.native f
  | .nil | .bool _ | .number _ | .string _ => True

def Completion.Obeys (D : Discipline) : Completion → Prop
  | .returned v => v.Obeys D
  | .normal | .broke | .continued => True

/-- All values bound obey the discipline. -/
def Bindings.Obey (D : Discipline) (bindings : List (Bytes × Value)) : Prop :=
  ∀ b ∈ bindings, b.2.Obeys D

def Machine.Obeys (D : Discipline) (m : Machine) : Prop :=
  ∀ s ∈ m.scopes, Bindings.Obey D s.bindings

variable {D : Discipline}

theorem Value.obeys_ofLiteral (v : Literal) : (Value.ofLiteral v).Obeys D := by
  cases v <;> trivial

theorem Exec.obeys_resultOf {c : Completion} (h : c.Obeys D) : (resultOf c).Obeys D := by
  cases c with
  | returned v => exact h
  | _ => trivial

namespace Bindings.Obey
variable {bindings : List (Bytes × Value)}

theorem lookup (h : Obey D bindings) {name : Bytes} {v : Value}
    (hv : bindings.lookup name = some v) : v.Obeys D := by
  obtain ⟨before, after, rfl, -⟩ := List.lookup_eq_some_iff.1 hv
  exact h (name, v) (List.mem_append_right _ List.mem_cons_self)

theorem insert (h : Obey D bindings) (name : Bytes) {v : Value} (hv : v.Obeys D) :
    Obey D (Scope.insert name v bindings) := by
  induction bindings with
  | nil => exact List.forall_mem_singleton.2 hv
  | cons b bindings ih =>
    obtain ⟨n, w⟩ := b
    obtain ⟨hw, hrest⟩ := List.forall_mem_cons.1 h
    unfold Scope.insert
    split
    · exact List.forall_mem_cons.2 ⟨hv, hrest⟩
    · exact List.forall_mem_cons.2 ⟨hw, ih hrest⟩

theorem parameters {params : List Token} {args : List Value} (h : Obey D bindings)
    (hargs : ∀ v ∈ args, v.Obeys D) {bound : List (Bytes × Value)}
    (hbound : Exec.parameterBindings params args bindings = some bound) : Obey D bound := by
  induction params generalizing args bindings with
  | nil =>
    cases hbound
    exact h
  | cons p params ih =>
    cases args with
    | nil => cases hbound
    | cons v args =>
      obtain ⟨hv, hargs⟩ := List.forall_mem_cons.1 hargs
      exact ih (h.insert p.lexeme hv) hargs hbound

end Bindings.Obey

/-- As many arguments as there are parameters are bound. -/
theorem Exec.parameterBindings_isSome {params : List Token} {args : List Value}
    (h : args.length = params.length) (bindings : List (Bytes × Value)) :
    ∃ bound, parameterBindings params args bindings = some bound := by
  induction params generalizing args bindings with
  | nil => exact ⟨bindings, rfl⟩
  | cons p params ih =>
    cases args with
    | nil => cases h
    | cons v args => exact ih (Nat.succ.inj h) (Scope.insert p.lexeme v bindings)

namespace Machine.Obeys
variable {m : Machine}

theorem get? (h : m.Obeys D) {id : ScopeId} {name : Bytes} {v : Value}
    (hv : m.scopes.get? id name = some v) : v.Obeys D := by
  unfold Forest.get? at hv
  split at hv
  · cases hv
  · split at hv
    · cases hv
    next s hs =>
      have hmem : s ∈ m.scopes := Array.mem_of_getElem? hs
      exact (h s hmem).lookup hv

theorem define (h : m.Obeys D) (id : ScopeId) (name : Bytes) {v : Value} (hv : v.Obeys D) :
    ∀ s ∈ m.scopes.define id name v, Bindings.Obey D s.bindings := by
  intro s hs
  obtain ⟨i, hi⟩ := Array.getElem?_of_mem hs
  unfold Forest.define at hi
  rw [Array.getElem?_modify] at hi
  split at hi
  · obtain ⟨t, ht, rfl⟩ := Option.map_eq_some_iff.1 hi
    exact (h t (Array.mem_of_getElem? ht)).insert name hv
  · exact h s (Array.mem_of_getElem? hi)

theorem push (h : m.Obeys D) {s : Scope} (hs : Bindings.Obey D s.bindings) :
    ∀ t ∈ m.scopes.push s, Bindings.Obey D t.bindings := by
  intro t ht
  rw [Array.mem_push] at ht
  obtain ht | rfl := ht
  · exact h t ht
  · exact hs

end Machine.Obeys

namespace Exec
variable {α : Type} {A : α → Prop}

/-- On a machine that obeys the discipline, the computation gives values in `A` and halts as the
discipline allows; and the machine goes on obeying it. -/
abbrev Obeys (D : Discipline) (A : α → Prop) (x : Exec α) : Prop :=
  Upholds (Machine.Obeys D) D.halt A x

/-! Elementary steps. -/

theorem obeys_lookUp {name : Token} (h : D.expr (.variable name)) :
    Obeys D (Value.Obeys D) (lookUp name) := by
  intro m hm
  unfold lookUp
  split
  next hv => exact .ok (hm.get? hv) hm
  next => exact .error (D.raises h (.undefined _)) hm

theorem obeys_assign {name : Token} {v : Value}
    (h : ∀ suggestion, D.halt (.fault ⟨.undefinedVariable suggestion, name⟩)) (hv : v.Obeys D) :
    Obeys D (fun _ => True) (assign name v) := by
  intro m hm
  unfold assign
  split
  next owner _ => exact .ok trivial (hm.define owner name.lexeme hv)
  next => exact .error (h _) hm

theorem obeys_declare (name : Token) {v : Value} (hv : v.Obeys D) :
    Obeys D (fun _ => True) (declare name v) :=
  fun m hm => .ok trivial (hm.define m.current name.lexeme hv)

theorem obeys_print (text : Bytes) : Obeys D (fun _ => True) (print text) :=
  fun _ hm => .ok trivial hm

theorem obeys_close {name : Token} {params : List Token} {body : List Stmt}
    (h : (Stmt.function name params body).Every D.expr D.stmt) :
    Obeys D (Value.Obeys D) (close name params body) := fun _ hm => .ok h hm

theorem obeys_inScope (parent : ScopeId) {bindings : List (Bytes × Value)}
    (hb : Bindings.Obey D bindings) {step : Exec α} (h : Obeys D A step) :
    Obeys D A (inScope parent bindings step) := by
  intro m hm
  have hentered : Machine.Obeys D
      { m with scopes := m.scopes.push ⟨bindings, some parent⟩, current := m.scopes.size } :=
    hm.push hb
  have hresult := h hentered
  unfold inScope
  dsimp only
  generalize step _ = r at hresult ⊢
  cases hresult with
  | ok ha hs => exact .ok ha hs
  | error he hs => exact .error he hs

theorem obeys_inChild {step : Exec α} (h : Obeys D A step) : Obeys D A (inChild step) :=
  fun m hm => obeys_inScope m.current (List.forall_mem_nil _) h hm

theorem obeys_asCall (limit : Nat) {paren : Token}
    (hover : D.halt (.fault ⟨.stackOverflow, paren⟩)) {step : Exec α} (h : Obeys D A step) :
    Obeys D A (asCall limit paren step) := by
  intro m hm
  have hresult := h (s := { m with depth := m.depth + 1 }) hm
  unfold asCall
  split
  · exact .error hover hm
  · generalize step _ = r at hresult ⊢
    cases hresult with
    | ok ha hs => exact .ok ha hs
    | error he hs => exact .error he hs

theorem obeys_runNative {paren : Token} {action : Native.Action}
    (h : ∀ halt, action.Raises paren halt → D.halt halt) {args : List Value}
    (hargs : ∀ v ∈ args, v.Obeys D) : Obeys D (Value.Obeys D) (runNative paren action args) := by
  intro m hm
  unfold runNative
  cases action with
  | clock => exact .ok trivial hm
  | lastArgument =>
    refine .ok ?_ hm
    cases hlast : args.getLast? with
    | none => trivial
    | some v => exact hargs v (List.mem_of_getLast? hlast)
  | fail text => exact .error (h _ (.failure text)) hm
  | raise code message => exact .error (h _ (.fault code message)) hm

/-! Operators. -/

theorem obeys_unaryOperator {op : Token} {e : Expr} (h : D.expr (.unary op e)) (v : Value) :
    Obeys D (Value.Obeys D) (unaryOperator op v) := by
  unfold unaryOperator
  split
  next => exact .pure trivial
  next hk =>
    split
    · exact .pure trivial
    · exact .throw (D.raises h (.negation hk))
  next hbang hminus =>
    have hk : op.kind.isNegation = false := by simpa [Kind.isNegation] using ⟨hbang, hminus⟩
    exact .throw (D.raises h (.unknownUnary hk))

theorem obeys_arithmetic {op : Token} {a b : Expr} (h : D.expr (.binary op a b))
    (hk : op.kind ≠ .equalEqual ∧ op.kind ≠ .bangEqual ∧ op.kind ≠ .plus) (x y : Float) :
    Obeys D (Value.Obeys D) (arithmetic op x y) := by
  unfold arithmetic
  split
  next => exact .pure trivial
  next => exact .pure trivial
  next hslash =>
    split
    · exact .throw (D.raises h (.division hslash))
    · exact .pure trivial
  next => exact .pure trivial
  next => exact .pure trivial
  next => exact .pure trivial
  next => exact .pure trivial
  next =>
    have hunknown : op.kind.isBinary = false := by simp_all [Kind.isBinary, Level.joins]
    exact .throw (D.raises h (.unknownBinary hunknown))

theorem obeys_plus {op : Token} (h : D.halt (.fault ⟨.operandsNotAddable, op⟩)) (v w : Value) :
    Obeys D (Value.Obeys D) (plus op v w) := by
  unfold plus
  split
  · exact .pure trivial
  · exact .pure trivial
  · exact .throw h

theorem obeys_binaryOperator {op : Token} {a b : Expr} (h : D.expr (.binary op a b))
    (v w : Value) : Obeys D (Value.Obeys D) (binaryOperator op v w) := by
  unfold binaryOperator
  split
  next => exact .pure trivial
  next => exact .pure trivial
  next hk => exact obeys_plus (D.raises h (.addition hk)) v w
  next hequal hbang hplus =>
    split
    · exact obeys_arithmetic h ⟨hequal, hbang, hplus⟩ _ _
    · exact .throw (D.raises h (.arithmetic ⟨hequal, hbang, hplus⟩))

theorem obeys_crementOperator {op : Token} {e : Expr} (h : D.expr (.crement op e)) (v : Value) :
    Obeys D (fun _ => True) (crementOperator op v) := by
  unfold crementOperator
  split
  · exact .pure trivial
  · exact .throw (D.raises h .crement)

/-- The functions that run code obey the discipline that the code obeys, with `n` steps allotted. -/
structure Obedience (D : Discipline) (limit n : Nat) : Prop where
  eval : ∀ {e : Expr}, e.Every D.expr → Obeys D (Value.Obeys D) (eval limit n e)
  evalAll : ∀ {es : List Expr}, (∀ e ∈ es, e.Every D.expr) →
    Obeys D (fun vs => ∀ v ∈ vs, v.Obeys D) (evalAll limit n es)
  apply : ∀ {callee : Expr} {paren : Token} {es : List Expr} {v : Value} {args : List Value},
    D.expr (.call callee paren es) → v.Obeys D → (∀ a ∈ args, a.Obeys D) →
    Obeys D (Value.Obeys D) (apply limit n paren v args)
  invoke : ∀ {f : Closure} {args : List Value}, f.Obeys D → (∀ a ∈ args, a.Obeys D) →
    args.length = f.params.length → Obeys D (Value.Obeys D) (invoke limit n f args)
  exec : ∀ {s : Stmt}, s.Every D.expr D.stmt → Obeys D (Completion.Obeys D) (exec limit n s)
  execAll : ∀ {ss : List Stmt}, (∀ s ∈ ss, s.Every D.expr D.stmt) →
    Obeys D (Completion.Obeys D) (execAll limit n ss)
  execLoop : ∀ {c : Expr} {s : Stmt} {i : Option Expr}, c.Every D.expr → s.Every D.expr D.stmt →
    (∀ e ∈ i.toList, e.Every D.expr) → Obeys D (Completion.Obeys D) (execLoop limit n c s i)

section
variable {limit n : Nat} (ih : Obedience D limit n)
include ih

theorem obeys_eval {e : Expr} (h : e.Every D.expr) :
    Obeys D (Value.Obeys D) (eval limit (n + 1) e) := by
  have hpart {a : Expr} (ha : a ∈ e.parts) : Obeys D (Value.Obeys D) (eval limit n a) :=
    ih.eval (h.part ha)
  cases e with
  | literal v => exact .pure (Value.obeys_ofLiteral v)
  | grouping a => exact hpart List.mem_cons_self
  | unary op a => exact (hpart List.mem_cons_self).bind fun v _ => obeys_unaryOperator h.here v
  | binary op a b =>
    refine (hpart List.mem_cons_self).bind fun v _ => ?_
    exact (hpart (List.mem_cons_of_mem _ List.mem_cons_self)).bind fun w _ =>
      obeys_binaryOperator h.here v w
  | logicalAnd op a b =>
    refine (hpart List.mem_cons_self).bind fun v hv => ?_
    split
    · exact hpart (List.mem_cons_of_mem _ List.mem_cons_self)
    · exact .pure hv
  | logicalOr op a b =>
    refine (hpart List.mem_cons_self).bind fun v hv => ?_
    split
    · exact .pure hv
    · exact hpart (List.mem_cons_of_mem _ List.mem_cons_self)
  | conditional question c a b =>
    refine (hpart List.mem_cons_self).bind fun v hv => ?_
    split
    · exact hpart (List.mem_cons_of_mem _ List.mem_cons_self)
    · exact hpart (List.mem_cons_of_mem _ (List.mem_cons_of_mem _ List.mem_cons_self))
  | comma a b =>
    exact (hpart List.mem_cons_self).bind fun _ _ =>
      hpart (List.mem_cons_of_mem _ List.mem_cons_self)
  | crement op target =>
    refine (hpart List.mem_cons_self).bind fun v _ => ?_
    refine (obeys_crementOperator h.here v).bind fun x _ => ?_
    split
    next name =>
      have hname : D.expr (.variable name) := (h.part List.mem_cons_self).here
      refine (obeys_assign (fun _ => D.raises hname (.undefined _)) ?_).bind fun _ _ => .pure ?_
      · trivial
      · trivial
    next => exact .pure trivial
  | «variable» name => exact obeys_lookUp h.here
  | assign name a =>
    refine (hpart List.mem_cons_self).bind fun v hv => ?_
    exact (obeys_assign (fun _ => D.raises h.here (.unassigned _)) hv).bind fun _ _ => .pure hv
  | call callee paren args =>
    refine (hpart List.mem_cons_self).bind fun f hf => ?_
    have hargs : ∀ a ∈ args, a.Every D.expr := fun a ha => h.part (List.mem_cons_of_mem _ ha)
    exact (ih.evalAll hargs).bind fun vs hvs => ih.apply h.here hf hvs

theorem obeys_evalAll {es : List Expr} (h : ∀ e ∈ es, e.Every D.expr) :
    Obeys D (fun vs => ∀ v ∈ vs, v.Obeys D) (evalAll limit (n + 1) es) := by
  cases es with
  | nil => exact .pure (List.forall_mem_nil _)
  | cons e es =>
    obtain ⟨he, hes⟩ := List.forall_mem_cons.1 h
    exact (ih.eval he).bind fun v hv => (ih.evalAll hes).bind fun vs hvs =>
      .pure (List.forall_mem_cons.2 ⟨hv, hvs⟩)

theorem obeys_apply {callee : Expr} {paren : Token} {es : List Expr} {v : Value}
    {args : List Value} (h : D.expr (.call callee paren es)) (hv : v.Obeys D)
    (hargs : ∀ a ∈ args, a.Obeys D) :
    Obeys D (Value.Obeys D) (apply limit (n + 1) paren v args) := by
  cases v with
  | function f =>
    unfold apply
    split
    next hlen => exact obeys_asCall limit (D.raises h .stackOverflow) (ih.invoke hv hargs hlen)
    next => exact .throw (D.raises h (.wrongArity _ _))
  | native f =>
    unfold apply
    split
    next =>
      refine obeys_asCall limit (D.raises h .stackOverflow) (obeys_runNative ?_ hargs)
      exact fun halt hraises => D.hosted h hv hraises
    next => exact .throw (D.raises h (.wrongArity _ _))
  | _ => exact .throw (D.raises h .notCallable)

theorem obeys_invoke {f : Closure} {args : List Value} (hf : f.Obeys D)
    (hargs : ∀ a ∈ args, a.Obeys D) (hlen : args.length = f.params.length) :
    Obeys D (Value.Obeys D) (invoke limit (n + 1) f args) := by
  obtain ⟨bound, hbound⟩ := parameterBindings_isSome hlen []
  have hbindings : Bindings.Obey D bound :=
    Bindings.Obey.parameters (List.forall_mem_nil _) hargs hbound
  have hbody : ∀ s ∈ f.body, s.Every D.expr D.stmt := fun s hs => Stmt.Every.part hf hs
  unfold invoke
  rw [hbound]
  exact (obeys_inScope f.scope hbindings (ih.execAll hbody)).bind fun c hc =>
    .pure (obeys_resultOf hc)

theorem obeys_exec {s : Stmt} (h : s.Every D.expr D.stmt) :
    Obeys D (Completion.Obeys D) (exec limit (n + 1) s) := by
  have hexpr {e : Expr} (he : e ∈ s.expressions) : Obeys D (Value.Obeys D) (eval limit n e) :=
    ih.eval (h.expression he)
  have hpart {t : Stmt} (ht : t ∈ s.parts) : Obeys D (Completion.Obeys D) (exec limit n t) :=
    ih.exec (h.part ht)
  cases s with
  | empty => exact .pure trivial
  | expression e => exact (hexpr List.mem_cons_self).bind fun _ _ => .pure trivial
  | print keyword e =>
    exact (hexpr List.mem_cons_self).bind fun v _ => (obeys_print v.text).bind fun _ _ =>
      .pure trivial
  | declare name init =>
    cases init with
    | none => exact (obeys_declare name (v := .nil) trivial).bind fun _ _ => .pure trivial
    | some e =>
      exact (hexpr List.mem_cons_self).bind fun v hv => (obeys_declare name hv).bind fun _ _ =>
        .pure trivial
  | block body => exact obeys_inChild (ih.execAll fun t ht => h.part ht)
  | branch c yes no =>
    refine (hexpr List.mem_cons_self).bind fun v _ => ?_
    split
    · exact obeys_inChild (hpart List.mem_cons_self)
    · cases no with
      | none => exact .pure trivial
      | some t => exact obeys_inChild (hpart (List.mem_cons_of_mem _ List.mem_cons_self))
  | loop c body i =>
    have hincrement : ∀ e ∈ i.toList, e.Every D.expr :=
      fun e he => h.expression (List.mem_cons_of_mem _ he)
    exact ih.execLoop (h.expression List.mem_cons_self) (h.part List.mem_cons_self) hincrement
  | breakLoop keyword => exact .pure trivial
  | continueLoop keyword => exact .pure trivial
  | function name params body =>
    exact (obeys_close h).bind fun f hf => (obeys_declare name hf).bind fun _ _ => .pure trivial
  | returnValue keyword value =>
    cases value with
    | none => exact .pure trivial
    | some e => exact (hexpr List.mem_cons_self).bind fun v hv => .pure hv

theorem obeys_execAll {ss : List Stmt} (h : ∀ s ∈ ss, s.Every D.expr D.stmt) :
    Obeys D (Completion.Obeys D) (execAll limit (n + 1) ss) := by
  cases ss with
  | nil => exact .pure trivial
  | cons s ss =>
    obtain ⟨hs, hss⟩ := List.forall_mem_cons.1 h
    refine (ih.exec hs).bind fun c hc => ?_
    cases c with
    | normal => exact ih.execAll hss
    | _ => exact .pure hc

theorem obeys_execLoop {c : Expr} {s : Stmt} {i : Option Expr} (hc : c.Every D.expr)
    (hs : s.Every D.expr D.stmt) (hi : ∀ e ∈ i.toList, e.Every D.expr) :
    Obeys D (Completion.Obeys D) (execLoop limit (n + 1) c s i) := by
  refine (ih.eval hc).bind fun v _ => ?_
  split
  · refine (obeys_inChild (ih.exec hs)).bind fun completion hcompletion => ?_
    cases completion with
    | broke => exact .pure trivial
    | returned v => exact .pure hcompletion
    | normal | continued =>
      cases i with
      | none => exact ih.execLoop hc hs hi
      | some e =>
        exact (ih.eval (hi e List.mem_cons_self)).bind fun _ _ => ih.execLoop hc hs hi
  · exact .pure trivial

end

theorem obedience (D : Discipline) (limit n : Nat) : Obedience D limit n := by
  induction n with
  | zero => constructor <;> (intros; exact .throw D.exhausted)
  | succ n ih =>
    exact {
      eval := obeys_eval ih
      evalAll := obeys_evalAll ih
      apply := obeys_apply ih
      invoke := obeys_invoke ih
      exec := obeys_exec ih
      execAll := obeys_execAll ih
      execLoop := obeys_execLoop ih }

/-- A program obeys the discipline that its statements obey. -/
theorem obeys_run (limit fuel : Nat) {ss : List Stmt} (h : ∀ s ∈ ss, s.Every D.expr D.stmt) :
    Obeys D (fun _ => True) (run limit fuel ss) := by
  induction ss with
  | nil => exact .pure trivial
  | cons s ss ih =>
    obtain ⟨hs, hss⟩ := List.forall_mem_cons.1 h
    exact ((obedience D limit fuel).exec hs).bind fun _ _ => ih hss

end Exec
end Lox
