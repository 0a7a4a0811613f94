import Lox.Machine.Run

/-! More steps allotted to a computation that ends do not change how it ends. -/
namespace Lox.Exec
variable {α β : Type}

/-- The second computation ends as the first does wherever that has steps enough. -/
def ExtendedBy (x y : Exec α) : Prop := ∀ m, x m = y m ∨ ∃ m', x m = .error .exhausted m'

namespace ExtendedBy

theorem refl (x : Exec α) : ExtendedBy x x := fun _ => .inl rfl

theorem exhausted (y : Exec α) : ExtendedBy (throw .exhausted) y := fun m => .inr ⟨m, rfl⟩

theorem trans {x y z : Exec α} (hxy : ExtendedBy x y) (hyz : ExtendedBy y z) : ExtendedBy x z := by
  intro m
  obtain h | h := hxy m
  · rw [h]
    exact hyz m
  · exact .inr h

theorem bind {x y : Exec α} {f g : α → Exec β} (hx : ExtendedBy x y)
    (hf : ∀ a, ExtendedBy (f a) (g a)) : ExtendedBy (x >>= f) (y >>= g) := by
  intro m
  change EStateM.bind x f m = EStateM.bind y g m ∨ ∃ m', EStateM.bind x f m = .error .exhausted m'
  unfold EStateM.bind
  obtain h | ⟨m', h⟩ := hx m
  · rw [h]
    cases y m with
    | ok a m' => exact hf a m'
    | error e m' => exact .inl rfl
  · rw [h]
    exact .inr ⟨m', rfl⟩

theorem inScope {x y : Exec α} (parent : ScopeId) (bindings : List (Bytes × Value))
    (h : ExtendedBy x y) : ExtendedBy (inScope parent bindings x) (inScope parent bindings y) := by
  intro m
  unfold Exec.inScope
  dsimp only
  obtain h | ⟨m', h⟩ := h { m with
    scopes := m.scopes.push ⟨bindings, some parent⟩, current := m.scopes.size }
  · rw [h]
    exact .inl rfl
  · rw [h]
    exact .inr ⟨_, rfl⟩

theorem inChild {x y : Exec α} (h : ExtendedBy x y) : ExtendedBy (inChild x) (inChild y) :=
  fun m => h.inScope m.current [] m

theorem asCall {x y : Exec α} (limit : Nat) (paren : Token) (h : ExtendedBy x y) :
    ExtendedBy (asCall limit paren x) (asCall limit paren y) := by
  intro m
  unfold Exec.asCall
  split
  · exact .inl rfl
  · obtain h | ⟨m', h⟩ := h { m with depth := m.depth + 1 }
    · rw [h]
      exact .inl rfl
    · rw [h]
      exact .inr ⟨_, rfl⟩

theorem ite {c : Prop} [Decidable c] {x x' y y' : Exec α} (h : ExtendedBy x y)
    (h' : ExtendedBy x' y') : ExtendedBy (if c then x else x') (if c then y else y') := by
  split
  · exact h
  · exact h'

theorem of_le {x : Nat → Exec α} (h : ∀ n, ExtendedBy (x n) (x (n + 1))) {n k : Nat}
    (hnk : n ≤ k) : ExtendedBy (x n) (x k) := by
  induction hnk with
  | refl => exact refl _
  | step _ ih => exact ih.trans (h _)

end ExtendedBy

/-- With one step more than `n` all functions that run a program end as with `n`. -/
structure Extension (limit n : Nat) : Prop where
  eval : ∀ e, ExtendedBy (eval limit n e) (eval limit (n + 1) e)
  evalAll : ∀ es, ExtendedBy (evalAll limit n es) (evalAll limit (n + 1) es)
  apply : ∀ t v vs, ExtendedBy (apply limit n t v vs) (apply limit (n + 1) t v vs)
  invoke : ∀ f vs, ExtendedBy (invoke limit n f vs) (invoke limit (n + 1) f vs)
  exec : ∀ s, ExtendedBy (exec limit n s) (exec limit (n + 1) s)
  execAll : ∀ ss, ExtendedBy (execAll limit n ss) (execAll limit (n + 1) ss)
  execLoop : ∀ c s i, ExtendedBy (execLoop limit n c s i) (execLoop limit (n + 1) c s i)

section
variable {limit n : Nat} (ih : Extension limit n)
include ih

theorem extendedBy_eval (e : Expr) :
    ExtendedBy (eval limit (n + 1) e) (eval limit (n + 2) e) := by
  cases e with
  | literal v => exact .refl _
  | grouping e => exact ih.eval e
  | unary op e => exact (ih.eval e).bind fun _ => .refl _
  | binary op a b => exact (ih.eval a).bind fun _ => (ih.eval b).bind fun _ => .refl _
  | logicalAnd op a b => exact (ih.eval a).bind fun _ => .ite (ih.eval b) (.refl _)
  | logicalOr op a b => exact (ih.eval a).bind fun _ => .ite (.refl _) (ih.eval b)
  | conditional op c a b => exact (ih.eval c).bind fun _ => .ite (ih.eval a) (ih.eval b)
  | comma a b => exact (ih.eval a).bind fun _ => ih.eval b
  | crement op target => exact (ih.eval target).bind fun _ => .refl _
  | assign name e => exact (ih.eval e).bind fun _ => .refl _
  | call f paren args =>
    exact (ih.eval f).bind fun _ => (ih.evalAll args).bind fun _ => ih.apply _ _ _
  | _ => exact .refl _

theorem extendedBy_evalAll (es : List Expr) :
    ExtendedBy (evalAll limit (n + 1) es) (evalAll limit (n + 2) es) := by
  cases es with
  | nil => exact .refl _
  | cons e es => exact (ih.eval e).bind fun _ => (ih.evalAll es).bind fun _ => .refl _

theorem extendedBy_apply (t : Token) (v : Value) (vs : List Value) :
    ExtendedBy (apply limit (n + 1) t v vs) (apply limit (n + 2) t v vs) := by
  cases v with
  | function f => exact .ite ((ih.invoke f vs).asCall limit t) (.refl _)
  | _ => exact .refl _

theorem extendedBy_invoke (f : Closure) (vs : List Value) :
    ExtendedBy (invoke limit (n + 1) f vs) (invoke limit (n + 2) f vs) := by
  unfold invoke
  cases parameterBindings f.params vs [] with
  | none => exact .refl _
  | some bindings => exact ((ih.execAll f.body).inScope f.scope bindings).bind fun _ => .refl _

theorem extendedBy_exec (s : Stmt) :
    ExtendedBy (exec limit (n + 1) s) (exec limit (n + 2) s) := by
  cases s with
  | expression e => exact (ih.eval e).bind fun _ => .refl _
  | print keyword e => exact (ih.eval e).bind fun _ => .refl _
  | declare name init =>
    cases init with
    | none => exact .refl _
    | some e => exact (ih.eval e).bind fun _ => .refl _
  | block body => exact (ih.execAll body).inChild
  | branch c yes no =>
    refine (ih.eval c).bind fun _ => .ite (ih.exec yes).inChild ?_
    cases no with
    | none => exact .refl _
    | some s => exact (ih.exec s).inChild
  | loop c body increment => exact ih.execLoop c body increment
  | returnValue keyword value =>
    cases value with
    | none => exact .refl _
    | some e => exact (ih.eval e).bind fun _ => .refl _
  | _ => exact .refl _

theorem extendedBy_execAll (ss : List Stmt) :
    ExtendedBy (execAll limit (n + 1) ss) (execAll limit (n + 2) ss) := by
  cases ss with
  | nil => exact .refl _
  | cons s ss =>
    refine (ih.exec s).bind fun completion => ?_
    cases completion with
    | normal => exact ih.execAll ss
    | _ => exact .refl _

theorem extendedBy_execLoop (c : Expr) (s : Stmt) (i : Option Expr) :
    ExtendedBy (execLoop limit (n + 1) c s i) (execLoop limit (n + 2) c s i) := by
  refine (ih.eval c).bind fun _ => .ite ((ih.exec s).inChild.bind fun completion => ?_) (.refl _)
  cases completion with
  | broke | returned => exact .refl _
  | normal | continued =>
    cases i with
    | none => exact ih.execLoop c s none
    | some e => exact (ih.eval e).bind fun _ => ih.execLoop c s (some e)

end

theorem extension (limit n : Nat) : Extension limit n := by
  induction n with
  | zero => constructor <;> (intros; exact .exhausted _)
  | succ n ih =>
    exact {
      eval := extendedBy_eval ih
      evalAll := extendedBy_evalAll ih
      apply := extendedBy_apply ih
      invoke := extendedBy_invoke ih
      exec := extendedBy_exec ih
      execAll := extendedBy_execAll ih
      execLoop := extendedBy_execLoop ih }

theorem extendedBy_run (limit : Nat) {n k : Nat} (h : n ≤ k) (ss : List Stmt) :
    ExtendedBy (run limit n ss) (run limit k ss) := by
  refine ExtendedBy.of_le (x := fun n => run limit n ss) (fun k => ?_) h
  induction ss with
  | nil => exact .refl _
  | cons s ss ih => exact ((extension limit k).exec s).bind fun _ => ih

/-- A program ends in one way only. -/
theorem run_unique {limit n k : Nat} {ss : List Stmt} {m : Machine}
    (hn : ∀ m', run limit n ss m ≠ .error .exhausted m')
    (hk : ∀ m', run limit k ss m ≠ .error .exhausted m') :
    run limit n ss m = run limit k ss m := by
  obtain h | h := Nat.le_total n k
  · exact (extendedBy_run limit h ss m).resolve_right fun ⟨m', hm'⟩ => hn m' hm'
  · exact ((extendedBy_run limit h ss m).resolve_right fun ⟨m', hm'⟩ => hk m' hm').symm

/-- Programs are run one after the other. -/
theorem run_append (limit fuel : Nat) (ss ts : List Stmt) :
    run limit fuel (ss ++ ts) = (do run limit fuel ss; run limit fuel ts) := by
  induction ss with
  | nil => rfl
  | cons s ss ih =>
    rw [List.cons_append, run, run, ih, bind_assoc]

end Lox.Exec
