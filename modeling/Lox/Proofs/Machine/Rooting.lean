import Lox.Proofs.Machine.Activity
import Lox.Proofs.Scope.Chains
import Lox.Proofs.Scope.Pairing

/-! Scopes are entered inside scopes that there are. The current scope is one of them, and so is the
scope of every function, wherever the function is kept, passed or returned. -/
namespace Lox

def Completion.Within (n : Nat) : Completion → Prop
  | .returned v => v.Within n
  | .normal | .broke | .continued => True

def Bindings.Within (n : Nat) (bindings : List (Bytes × Value)) : Prop :=
  ∀ b ∈ bindings, b.2.Within n

theorem Value.Within.mono {n k : Nat} {v : Value} (h : v.Within n) (hk : n ≤ k) : v.Within k := by
  cases v with
  | function f => exact Nat.lt_of_lt_of_le h hk
  | _ => trivial

theorem Value.within_ofLiteral (n : Nat) (l : Literal) : (Value.ofLiteral l).Within n := by
  cases l <;> trivial

/-- A property of results that depends on the number of scopes, and lasts while that grows. -/
structure Lasting (α : Type) where
  holds : Nat → α → Prop
  mono : ∀ {n k : Nat} {a : α}, holds n a → n ≤ k → holds k a

namespace Lasting

def any (α : Type) : Lasting α where
  holds _ _ := True
  mono _ _ := trivial

def value : Lasting Value where
  holds := Value.Within
  mono := Value.Within.mono

def values : Lasting (List Value) where
  holds n vs := ∀ v ∈ vs, v.Within n
  mono h hk v hv := (h v hv).mono hk

def completion : Lasting Completion where
  holds := Completion.Within
  mono {_ _ c} h hk := by
    cases c with
    | returned v => exact Value.Within.mono h hk
    | _ => trivial

end Lasting

namespace Bindings.Within
variable {n k : Nat} {bindings : List (Bytes × Value)}

theorem mono (h : Within n bindings) (hk : n ≤ k) : Within k bindings :=
  fun b hb => (h b hb).mono hk

theorem insert (h : Within n bindings) (name : Bytes) {v : Value} (hv : v.Within n) :
    Within n (Scope.insert name v bindings) := by
  induction bindings with
  | nil => exact List.forall_mem_singleton.2 hv
  | cons b bindings ih =>
    obtain ⟨m, w⟩ := b
    obtain ⟨hw, hrest⟩ := List.forall_mem_cons.1 h
    unfold Scope.insert
    split
    · exact List.forall_mem_cons.2 ⟨hv, hrest⟩
    · exact List.forall_mem_cons.2 ⟨hw, ih hrest⟩

theorem parameters {params : List Token} {args : List Value} (h : Within n bindings)
    (hargs : ∀ v ∈ args, v.Within n) {bound : List (Bytes × Value)}
    (hbound : Exec.parameterBindings params args bindings = some bound) : Within n bound := by
  induction params generalizing args bindings with
  | nil =>
    cases hbound
    exact h
  | cons p params ih =>
    cases args with
    | nil => cases hbound
    | cons v args =>
      obtain ⟨hv, hargs⟩ := List.forall_mem_cons.1 hargs
      exact ih (h.insert p.lexeme hv) hargs hbound

end Bindings.Within

/-- The scopes of the machine are rooted in the global names, and the current scope and those of all
functions that are kept are among them. -/
structure Machine.Rooted (m : Machine) : Prop where
  scopes : m.scopes.Rooted
  values : ∀ s ∈ m.scopes, Bindings.Within m.scopes.size s.bindings
  current : m.current < m.scopes.size

namespace Machine.Rooted
variable {m : Machine}

theorem get? (h : m.Rooted) {id : ScopeId} {name : Bytes} {v : Value}
    (hv : m.scopes.get? id name = some v) : v.Within m.scopes.size := by
  obtain ⟨owner, -, s, hs, hfind⟩ := (Forest.get?_eq_some_iff h.scopes.layered).1 hv
  obtain ⟨before, after, heq, -⟩ := List.lookup_eq_some_iff.1 hfind
  refine h.values s (Array.mem_of_getElem? hs) (name, v) ?_
  rw [heq]
  exact List.mem_append_right _ List.mem_cons_self

theorem define (h : m.Rooted) (id : ScopeId) (name : Bytes) {v : Value}
    (hv : v.Within m.scopes.size) :
    Rooted { m with scopes := m.scopes.define id name v } := by
  have hsize := Forest.size_define m.scopes id name v
  refine ⟨h.scopes.define id name v, fun s hs => ?_, hsize ▸ h.current⟩
  obtain ⟨j, hj⟩ := Array.getElem?_of_mem hs
  dsimp only at hj ⊢
  rw [Forest.getElem?_define] at hj
  rw [hsize]
  split at hj
  · obtain ⟨t, ht, rfl⟩ := Option.map_eq_some_iff.1 hj
    exact (h.values t (Array.mem_of_getElem? ht)).insert name hv
  · exact h.values s (Array.mem_of_getElem? hj)

theorem entering (h : m.Rooted) {p : ScopeId} (hp : p < m.scopes.size)
    {bindings : List (Bytes × Value)} (hb : Bindings.Within m.scopes.size bindings) :
    (m.entering p bindings).Rooted := by
  have hsize : (m.entering p bindings).scopes.size = m.scopes.size + 1 := Array.size_push _
  have hgrows : m.scopes.size ≤ (m.entering p bindings).scopes.size := hsize ▸ Nat.le_succ _
  refine ⟨h.scopes.push hp bindings, fun s hs => ?_, hsize ▸ Nat.lt_succ_self _⟩
  obtain hs | rfl := Array.mem_push.1 hs
  · exact (h.values s hs).mono hgrows
  · exact hb.mono hgrows

theorem inside (h : m.Rooted) : (m.entering m.current []).Rooted :=
  h.entering h.current (List.forall_mem_nil _)

end Machine.Rooted

namespace Exec
variable {α β : Type} {A : Lasting α} {B : Lasting β} {n k : Nat}

/-- In the end the machine is rooted, it has `n` scopes or more, and a result is as it should be. -/
inductive Grown (A : Lasting α) (n : Nat) : EStateM.Result Halt Machine α → Prop where
  | ok {a : α} {m : Machine} (machine : m.Rooted) (size : n ≤ m.scopes.size)
      (value : A.holds m.scopes.size a) : Grown A n (.ok a m)
  | error {h : Halt} {m : Machine} (machine : m.Rooted) (size : n ≤ m.scopes.size) :
      Grown A n (.error h m)

theorem Grown.mono {r : EStateM.Result Halt Machine α} (h : Grown A k r) (hk : n ≤ k) :
    Grown A n r := by
  cases h with
  | ok machine size value => exact .ok machine (Nat.le_trans hk size) value
  | error machine size => exact .error machine (Nat.le_trans hk size)

theorem Grown.of_ok {a : α} {m : Machine} (h : Grown A n (.ok a m)) :
    m.Rooted ∧ n ≤ m.scopes.size ∧ A.holds m.scopes.size a := by
  cases h with
  | ok machine size value => exact ⟨machine, size, value⟩

/-- A rooted machine with at least the `n` scopes that the computation knows stays rooted. -/
def Roots (n : Nat) (A : Lasting α) (x : Exec α) : Prop :=
  ∀ ⦃m : Machine⦄, m.Rooted → n ≤ m.scopes.size → Grown A m.scopes.size (x m)

namespace Roots

theorem mono {x : Exec α} (h : Roots n A x) (hk : n ≤ k) : Roots k A x :=
  fun _ hm hsize => h hm (Nat.le_trans hk hsize)

theorem pure {a : α} (h : A.holds n a) : Roots n A (Pure.pure a) :=
  fun _ hm hn => .ok hm (Nat.le_refl _) (A.mono h hn)

theorem throw (h : Halt) : Roots n A (MonadExcept.throw h) :=
  fun _ hm _ => .error hm (Nat.le_refl _)

theorem bind {x : Exec α} {f : α → Exec β} (hx : Roots n A x)
    (hf : ∀ {k a}, n ≤ k → A.holds k a → Roots k B (f a)) : Roots n B (x >>= f) := by
  intro m hm hn
  have hfirst := hx hm hn
  change Grown B m.scopes.size (EStateM.bind x f m)
  unfold EStateM.bind
  generalize x m = r at hfirst ⊢
  cases hfirst with
  | ok machine size value =>
    exact (hf (Nat.le_trans hn size) value machine (Nat.le_refl _)).mono size
  | error machine size => exact .error machine size

theorem ite {c : Prop} [Decidable c] {x y : Exec α} (hx : Roots n A x) (hy : Roots n A y) :
    Roots n A (if c then x else y) := by
  split
  · exact hx
  · exact hy

theorem inScope {p : ScopeId} (hp : p < n) {bindings : List (Bytes × Value)}
    (hb : Bindings.Within n bindings) {x : Exec α} (hx : Roots n A x) :
    Roots n A (inScope p bindings x) := by
  intro m hm hn
  have hentered := hm.entering (Nat.lt_of_lt_of_le hp hn) (hb.mono hn)
  have hsize : (m.entering p bindings).scopes.size = m.scopes.size + 1 := Array.size_push _
  have hinner := hx hentered (Nat.le_trans hn (hsize ▸ Nat.le_succ _))
  rw [hsize] at hinner
  unfold Machine.entering at hinner
  unfold Exec.inScope
  dsimp only
  generalize x _ = r at hinner ⊢
  cases hinner with
  | ok machine size value =>
    have hlater := Nat.le_of_succ_le size
    exact .ok { machine with current := Nat.lt_of_lt_of_le hm.current hlater } hlater value
  | error machine size =>
    have hlater := Nat.le_of_succ_le size
    exact .error { machine with current := Nat.lt_of_lt_of_le hm.current hlater } hlater

theorem inChild {x : Exec α} (hx : Roots n A x) : Roots n A (inChild x) := fun _ hm hn =>
  (hx.mono hn).inScope hm.current (List.forall_mem_nil _) hm (Nat.le_refl _)

theorem asCall (limit : Nat) (paren : Token) {x : Exec α} (hx : Roots n A x) :
    Roots n A (asCall limit paren x) := by
  intro m hm hn
  have hcalled : Machine.Rooted { m with depth := m.depth + 1 } := { hm with }
  have hinner := hx hcalled hn
  unfold Exec.asCall
  split
  · exact .error hm (Nat.le_refl _)
  · generalize x _ = r at hinner ⊢
    cases hinner with
    | ok machine size value => exact .ok { machine with } size value
    | error machine size => exact .error { machine with } size

end Roots

/-! Elementary steps. -/

theorem roots_lookUp (name : Token) : Roots n .value (lookUp name) := by
  intro m hm _
  unfold lookUp
  split
  next hv => exact .ok hm (Nat.le_refl _) (hm.get? hv)
  next => exact .error hm (Nat.le_refl _)

theorem roots_assign (name : Token) {v : Value} (hv : v.Within n) :
    Roots n (.any Unit) (assign name v) := by
  intro m hm hn
  unfold assign
  split
  next owner _ =>
    refine .ok (hm.define owner name.lexeme (hv.mono hn)) ?_ trivial
    exact Nat.le_of_eq (Forest.size_define _ _ _ _).symm
  next => exact .error hm (Nat.le_refl _)

theorem roots_declare (name : Token) {v : Value} (hv : v.Within n) :
    Roots n (.any Unit) (declare name v) := fun m hm hn =>
  .ok (hm.define m.current name.lexeme (hv.mono hn))
    (Nat.le_of_eq (Forest.size_define _ _ _ _).symm) trivial

theorem roots_print (text : Bytes) : Roots n (.any Unit) (print text) := fun _ hm _ =>
  .ok { hm with } (Nat.le_refl _) trivial

/-- A function closes over a scope that there is. -/
theorem roots_close (name : Token) (params : List Token) (body : List Stmt) :
    Roots n .value (close name params body) := fun _ hm _ =>
  .ok { hm with } (Nat.le_refl _) hm.current

theorem roots_runNative (paren : Token) (action : Native.Action) {args : List Value}
    (hargs : ∀ v ∈ args, v.Within n) : Roots n .value (runNative paren action args) := by
  intro m hm hn
  unfold runNative
  cases action with
  | clock => exact .ok { hm with } (Nat.le_refl _) trivial
  | lastArgument =>
    refine .ok hm (Nat.le_refl _) ?_
    cases hlast : args.getLast? with
    | none => trivial
    | some v => exact (hargs v (List.mem_of_getLast? hlast)).mono hn
  | fail text => exact .error hm (Nat.le_refl _)
  | raise code message => exact .error hm (Nat.le_refl _)

/-! Operators give no functions. -/

theorem roots_unaryOperator (op : Token) (v : Value) : Roots n .value (unaryOperator op v) := by
  unfold unaryOperator
  split
  · exact .pure trivial
  · split
    · exact .pure trivial
    · exact .throw _
  · exact .throw _

theorem roots_arithmetic (op : Token) (x y : Float) : Roots n .value (arithmetic op x y) := by
  unfold arithmetic
  split
  · exact .pure trivial
  · exact .pure trivial
  · exact .ite (.throw _) (.pure trivial)
  · exact .pure trivial
  · exact .pure trivial
  · exact .pure trivial
  · exact .pure trivial
  · exact .throw _

theorem roots_binaryOperator (op : Token) (v w : Value) :
    Roots n .value (binaryOperator op v w) := by
  unfold binaryOperator
  split
  · exact .pure trivial
  · exact .pure trivial
  · unfold plus
    split
    · exact .pure trivial
    · exact .pure trivial
    · exact .throw _
  · split
    · exact roots_arithmetic op _ _
    · exact .throw _

theorem roots_crementOperator (op : Token) (v : Value) :
    Roots n (.any Float) (crementOperator op v) := by
  unfold crementOperator
  split
  · exact .pure trivial
  · exact .throw _

/-! Running code. -/

/-- All that runs code keeps a machine rooted, with `fuel` steps allotted. -/
structure Rooting (limit fuel : Nat) : Prop where
  eval : ∀ n e, Roots n .value (eval limit fuel e)
  evalAll : ∀ n es, Roots n .values (evalAll limit fuel es)
  apply : ∀ {n : Nat} (paren : Token) {v : Value} {args : List Value}, v.Within n →
    (∀ a ∈ args, a.Within n) → Roots n .value (apply limit fuel paren v args)
  invoke : ∀ {n : Nat} {f : Closure} {args : List Value}, f.scope < n →
    (∀ a ∈ args, a.Within n) → Roots n .value (invoke limit fuel f args)
  exec : ∀ n s, Roots n .completion (exec limit fuel s)
  execAll : ∀ n ss, Roots n .completion (execAll limit fuel ss)
  execLoop : ∀ n c s i, Roots n .completion (execLoop limit fuel c s i)

section
variable {limit fuel : Nat} (ih : Rooting limit fuel)
include ih

theorem roots_eval (n : Nat) (e : Expr) : Roots n .value (eval limit (fuel + 1) e) := by
  cases e with
  | literal v => exact .pure (Value.within_ofLiteral n v)
  | grouping e => exact ih.eval n e
  | unary op e => exact (ih.eval n e).bind fun _ _ => roots_unaryOperator op _
  | binary op a b =>
    exact (ih.eval n a).bind fun _ _ => (ih.eval _ b).bind fun _ _ => roots_binaryOperator op _ _
  | logicalAnd op a b => exact (ih.eval n a).bind fun _ hv => .ite (ih.eval _ b) (.pure hv)
  | logicalOr op a b => exact (ih.eval n a).bind fun _ hv => .ite (.pure hv) (ih.eval _ b)
  | conditional question c a b =>
    exact (ih.eval n c).bind fun _ _ => .ite (ih.eval _ a) (ih.eval _ b)
  | comma a b => exact (ih.eval n a).bind fun _ _ => ih.eval _ b
  | crement op target =>
    refine (ih.eval n target).bind fun _ _ => (roots_crementOperator op _).bind fun {k x} _ _ => ?_
    have hnumber : (Value.number x).Within k := trivial
    split
    · exact (roots_assign _ hnumber).bind fun _ _ => .pure trivial
    · exact .pure hnumber
  | «variable» name => exact roots_lookUp name
  | assign name e =>
    refine (ih.eval n e).bind fun _ hv => (roots_assign name hv).bind fun hk _ => ?_
    exact .pure (Value.Within.mono hv hk)
  | call callee paren args =>
    refine (ih.eval n callee).bind fun _ hf => (ih.evalAll _ args).bind fun hk hvs => ?_
    exact ih.apply paren (Value.Within.mono hf hk) hvs

theorem roots_evalAll (n : Nat) (es : List Expr) :
    Roots n .values (evalAll limit (fuel + 1) es) := by
  cases es with
  | nil => exact .pure (List.forall_mem_nil _)
  | cons e es =>
    refine (ih.eval n e).bind fun _ hv => (ih.evalAll _ es).bind fun hk hvs => ?_
    exact .pure (List.forall_mem_cons.2 ⟨Value.Within.mono hv hk, hvs⟩)

theorem roots_apply (paren : Token) {v : Value} {args : List Value} (hv : v.Within n)
    (hargs : ∀ a ∈ args, a.Within n) :
    Roots n .value (apply limit (fuel + 1) paren v args) := by
  cases v with
  | function f => exact .ite ((ih.invoke hv hargs).asCall limit paren) (.throw _)
  | native f => exact .ite ((roots_runNative paren f.action hargs).asCall limit paren) (.throw _)
  | _ => exact .throw _

/-- The body of a function is run inside the scope of the function. -/
theorem roots_invoke {f : Closure} {args : List Value} (hf : f.scope < n)
    (hargs : ∀ a ∈ args, a.Within n) : Roots n .value (invoke limit (fuel + 1) f args) := by
  unfold invoke
  split
  · exact .throw _
  next bindings hbound =>
    have hbindings : Bindings.Within n bindings :=
      Bindings.Within.parameters (List.forall_mem_nil _) hargs hbound
    refine ((ih.execAll n f.body).inScope hf hbindings).bind fun {k c} _ hc => .pure ?_
    cases c with
    | returned v => exact hc
    | _ => trivial

theorem roots_exec (n : Nat) (s : Stmt) : Roots n .completion (exec limit (fuel + 1) s) := by
  cases s with
  | empty => exact .pure trivial
  | expression e => exact (ih.eval n e).bind fun _ _ => .pure trivial
  | print keyword e =>
    exact (ih.eval n e).bind fun _ _ => (roots_print _).bind fun _ _ => .pure trivial
  | declare name init =>
    cases init with
    | none =>
      have hnil : Value.nil.Within n := trivial
      exact (roots_declare name hnil).bind fun _ _ => .pure trivial
    | some e =>
      exact (ih.eval n e).bind fun _ hv => (roots_declare name hv).bind fun _ _ => .pure trivial
  | block body => exact (ih.execAll n body).inChild
  | branch c yes no =>
    refine (ih.eval n c).bind fun _ _ => .ite (ih.exec _ yes).inChild ?_
    cases no with
    | none => exact .pure trivial
    | some s => exact (ih.exec _ s).inChild
  | loop c body i => exact ih.execLoop n c body i
  | breakLoop keyword => exact .pure trivial
  | continueLoop keyword => exact .pure trivial
  | function name params body =>
    exact (roots_close name params body).bind fun _ hf =>
      (roots_declare name hf).bind fun _ _ => .pure trivial
  | returnValue keyword value =>
    cases value with
    | none => exact .pure trivial
    | some e => exact (ih.eval n e).bind fun _ hv => .pure hv

theorem roots_execAll (n : Nat) (ss : List Stmt) :
    Roots n .completion (execAll limit (fuel + 1) ss) := by
  cases ss with
  | nil => exact .pure trivial
  | cons s ss =>
    refine (ih.exec n s).bind fun {k c} _ hc => ?_
    cases c with
    | normal => exact ih.execAll k ss
    | _ => exact .pure hc

theorem roots_execLoop (n : Nat) (c : Expr) (s : Stmt) (i : Option Expr) :
    Roots n .completion (execLoop limit (fuel + 1) c s i) := by
  refine (ih.eval n c).bind fun _ _ => .ite ?_ (.pure trivial)
  refine (ih.exec _ s).inChild.bind fun {k completion} _ hcompletion => ?_
  cases completion with
  | broke => exact .pure trivial
  | returned v => exact .pure hcompletion
  | normal | continued =>
    cases i with
    | none => exact ih.execLoop k c s none
    | some e => exact (ih.eval k e).bind fun _ _ => ih.execLoop _ c s (some e)

end

theorem rooting (limit fuel : Nat) : Rooting limit fuel := by
  induction fuel with
  | zero => constructor <;> (intros; exact .throw _)
  | succ fuel ih =>
    exact {
      eval := roots_eval ih
      evalAll := roots_evalAll ih
      apply := roots_apply ih
      invoke := roots_invoke ih
      exec := roots_exec ih
      execAll := roots_execAll ih
      execLoop := roots_execLoop ih }

theorem roots_run (limit fuel n : Nat) (ss : List Stmt) :
    Roots n (.any Unit) (run limit fuel ss) := by
  induction ss generalizing n with
  | nil => exact .pure trivial
  | cons s ss ih => exact ((rooting limit fuel).exec n s).bind fun {k _} _ _ => ih k

end Exec
end Lox
