import Lox.Proofs.Machine.Course
import Lox.Proofs.Relation
import Lox.Proofs.Scope.Pairing

/-! Machines whose scopes are paired run the same code alike: whatever the one does, the other does
too, and the pairing grows with the scopes that they enter. -/
namespace Lox

namespace Pairing

/-- The machines are in the scopes `i` and `j`, their scopes are paired, and in all else they
agree. -/
structure At (P : Pairing) (i j : ScopeId) (m n : Machine) : Prop where
  scopes : P.Holds m.scopes n.scopes
  covers : P.Covers m.scopes
  current : m.current = i
  current' : n.current = j
  depth : m.depth = n.depth
  functions : m.functions = n.functions
  printed : m.printed = n.printed
  clock : m.clock = n.clock
  readings : m.readings = n.readings

/-- Statements that end alike. -/
inductive Alike (P : Pairing) : Completion → Completion → Prop where
  | normal : P.Alike .normal .normal
  | returned {v w : Value} (h : P.Same v w) : P.Alike (.returned v) (.returned w)
  | broke : P.Alike .broke .broke
  | continued : P.Alike .continued .continued

/-- A relation between the results on both sides, which lasts while the pairing grows. -/
structure Relation (α β : Type) where
  rel : Pairing → α → β → Prop
  mono : ∀ {P Q : Pairing} {a : α} {b : β}, rel P a b → P ≤ Q → rel Q a b

namespace Relation

def equal (α : Type) : Relation α α where
  rel _ := Eq
  mono h _ := h

def value : Relation Value Value where
  rel := Same
  mono := Same.mono

def values : Relation (List Value) (List Value) where
  rel P := List.Forall₂ P.Same
  mono h hPQ := h.imp fun _ _ hv => hv.mono hPQ

def completion : Relation Completion Completion where
  rel := Alike
  mono h hPQ := by
    cases h with
    | normal => exact .normal
    | returned h => exact .returned (h.mono hPQ)
    | broke => exact .broke
    | continued => exact .continued

end Relation
end Pairing

/-- The statement binds a name in the scope in which it stands. -/
def Stmt.isDeclaration : Stmt → Bool
  | .declare _ _ | .function _ _ _ => true
  | _ => false

open Pairing (Relation)

namespace Exec
variable {α β γ δ : Type} {P Q : Pairing} {i j : ScopeId} {A : Relation α β} {B : Relation γ δ}

/-- Both computations end alike, with the machines in the same scopes as before. -/
def Follows (P : Pairing) (i j : ScopeId) (A : Relation α β) (x : Exec α) (y : Exec β) : Prop :=
  ∀ ⦃Q : Pairing⦄, P ≤ Q → ∀ ⦃m n : Machine⦄, Q.At i j m n →
    ∃ R, Q ≤ R ∧ Matching Eq (R.At i j) (A.rel R) (x m) (y n)

namespace Follows

theorem mono {x : Exec α} {y : Exec β} (h : Follows P i j A x y) (hPQ : P ≤ Q) :
    Follows Q i j A x y := fun _ hQ => h (le_trans hPQ hQ)

theorem pure {a : α} {b : β} (h : A.rel P a b) : Follows P i j A (Pure.pure a) (Pure.pure b) :=
  fun Q hPQ _ _ hat => ⟨Q, le_refl Q, .ok (A.mono h hPQ) hat⟩

theorem throw (h : Halt) : Follows P i j A (MonadExcept.throw h) (MonadExcept.throw h) :=
  fun Q _ _ _ hat => ⟨Q, le_refl Q, .error rfl hat⟩

theorem bind {x : Exec α} {y : Exec β} {f : α → Exec γ} {g : β → Exec δ}
    (hx : Follows P i j A x y)
    (hf : ∀ {Q a b}, P ≤ Q → A.rel Q a b → Follows Q i j B (f a) (g b)) :
    Follows P i j B (x >>= f) (y >>= g) := by
  intro Q hPQ m n hat
  change ∃ R, Q ≤ R ∧ Matching Eq (R.At i j) (B.rel R) (EStateM.bind x f m) (EStateM.bind y g n)
  unfold EStateM.bind
  obtain ⟨R, hQR, hmatch⟩ := hx hPQ hat
  generalize x m = r, y n = r' at hmatch ⊢
  cases hmatch with
  | ok ha hat' =>
    obtain ⟨S, hRS, hmatch'⟩ := hf (le_trans hPQ hQR) ha (le_refl R) hat'
    exact ⟨S, le_trans hQR hRS, hmatch'⟩
  | error he hat' => exact ⟨R, hQR, .error he hat'⟩

theorem ite {c : Prop} [Decidable c] {x x' : Exec α} {y y' : Exec β} (h : Follows P i j A x y)
    (h' : Follows P i j A x' y') : Follows P i j A (if c then x else x') (if c then y else y') := by
  split
  · exact h
  · exact h'

theorem ifTruthy {v w : Value} (hv : P.Same v w) {x x' : Exec α} {y y' : Exec β}
    (h : Follows P i j A x y) (h' : Follows P i j A x' y') :
    Follows P i j A (if v.isTruthy then x else x') (if w.isTruthy then y else y') := by
  rw [hv.isTruthy]
  exact h.ite h'

end Follows

/-! Elementary steps. -/

theorem follows_lookUp (hij : P.Meet i j) (name : Token) :
    Follows P i j .value (lookUp name) (lookUp name) := by
  intro Q hPQ m n hat
  have hvalue := hat.scopes.get? (hij.mono hPQ) name.lexeme
  have hnames := hat.scopes.names (hij.mono hPQ)
  refine ⟨Q, le_refl Q, ?_⟩
  unfold lookUp Forest.undefinedName
  rw [hat.current, hat.current', hnames]
  generalize m.scopes.get? i name.lexeme = v, n.scopes.get? j name.lexeme = w at hvalue ⊢
  cases hvalue with
  | none => exact .error rfl hat
  | some hv => exact .ok hv hat

theorem follows_assign (hij : P.Meet i j) (name : Token) {v w : Value} (hv : P.Same v w) :
    Follows P i j (.equal Unit) (assign name v) (assign name w) := by
  intro Q hPQ m n hat
  have howner := hat.scopes.owner? (hij.mono hPQ) name.lexeme
  have hnames := hat.scopes.names (hij.mono hPQ)
  refine ⟨Q, le_refl Q, ?_⟩
  unfold assign Forest.undefinedName
  rw [hat.current, hat.current', hnames]
  generalize m.scopes.owner? i name.lexeme = x, n.scopes.owner? j name.lexeme = y at howner ⊢
  cases howner with
  | none => exact .error rfl hat
  | some htwins =>
    exact .ok rfl { hat with
      scopes := hat.scopes.define htwins _ (hv.mono hPQ)
      covers := hat.covers.define _ _ _
      current := rfl
      current' := rfl }

theorem follows_declare (hij : P.twins i j) (name : Token) {v w : Value} (hv : P.Same v w) :
    Follows P i j (.equal Unit) (declare name v) (declare name w) := by
  intro Q hPQ m n hat
  refine ⟨Q, le_refl Q, ?_⟩
  unfold declare
  rw [hat.current, hat.current']
  exact .ok rfl { hat with
    scopes := hat.scopes.define (hPQ.1 i j hij) _ (hv.mono hPQ)
    covers := hat.covers.define _ _ _
    current := rfl
    current' := rfl }

theorem follows_print (text : Bytes) : Follows P i j (.equal Unit) (print text) (print text) :=
  fun Q _ _ _ hat => ⟨Q, le_refl Q, .ok rfl { hat with printed := by rw [hat.printed] }⟩

theorem follows_close (hij : P.Meet i j) (name : Token) (params : List Token) (body : List Stmt) :
    Follows P i j .value (close name params body) (close name params body) := by
  intro Q hPQ m n hat
  refine ⟨Q, le_refl Q, ?_⟩
  unfold close
  rw [hat.current, hat.current', ← hat.functions]
  exact .ok (.function _ (hij.mono hPQ))
    { hat with current := rfl, current' := rfl, functions := rfl }

/-! Scopes that are entered. -/

/-- Scopes that both computations enter are twins. -/
theorem follows_inScope {p q : ScopeId} (hpq : P.Meet p q) {as bs : List (Bytes × Value)}
    (hb : Bindings.Rel P.Same as bs) {x : Exec α} {y : Exec β}
    (hx : ∀ {Q a b}, P ≤ Q → Q.twins a b → Follows Q a b A x y) :
    Follows P i j A (inScope p as x) (inScope q bs y) := by
  intro Q hPQ m n hat
  have hgrows : Q ≤ Q.withTwins m.scopes.size n.scopes.size := Pairing.le_withTwins _ _
  have htwins : (Q.withTwins m.scopes.size n.scopes.size).twins m.scopes.size n.scopes.size :=
    .inr ⟨rfl, rfl⟩
  have hentered : (Q.withTwins m.scopes.size n.scopes.size).At m.scopes.size n.scopes.size
      (m.entering p as) (n.entering q bs) := { hat with
    scopes := hat.scopes.push (Pairing.bindings_mono hb hPQ) (hpq.mono hPQ)
    covers := hat.covers.push hgrows _ (.inl ⟨_, htwins⟩)
    current := rfl
    current' := rfl }
  have hresult := hx (le_trans hPQ hgrows) htwins (le_refl _) hentered
  unfold Machine.entering at hresult
  unfold inScope
  dsimp only
  obtain ⟨R, hR, hmatch⟩ := hresult
  refine ⟨R, le_trans hgrows hR, ?_⟩
  generalize x _ = r, y _ = r' at hmatch ⊢
  cases hmatch with
  | ok ha hs => exact .ok ha { hs with current := hat.current, current' := hat.current' }
  | error he hs => exact .error he { hs with current := hat.current, current' := hat.current' }

theorem follows_inChild (hij : P.Meet i j) {x : Exec α} {y : Exec β}
    (hx : ∀ {Q a b}, P ≤ Q → Q.twins a b → Follows Q a b A x y) :
    Follows P i j A (inChild x) (inChild y) := by
  intro Q hPQ m n hat
  unfold inChild
  rw [hat.current, hat.current']
  exact follows_inScope hij .nil hx hPQ hat

/-- A scope that the first computation enters alone, and in which nothing is bound. -/
theorem follows_inChild_left (hij : P.Meet i j) {x : Exec α} {y : Exec β}
    (hx : ∀ {Q a}, P ≤ Q → Q.left a i → Follows Q a j A x y) :
    Follows P i j A (inChild x) y := by
  intro Q hPQ m n hat
  have hgrows : Q ≤ Q.withLeft m.scopes.size i := Pairing.le_withLeft _ _
  have hleft : (Q.withLeft m.scopes.size i).left m.scopes.size i := .inr ⟨rfl, rfl⟩
  have hentered : (Q.withLeft m.scopes.size i).At m.scopes.size j (m.entering i []) n := { hat with
    scopes := hat.scopes.push_left (hat.scopes.lt_size (hij.mono hPQ)).1
    covers := hat.covers.push hgrows _ (.inr ⟨_, hleft⟩)
    current := rfl }
  have hresult := hx (le_trans hPQ hgrows) hleft (le_refl _) hentered
  unfold Machine.entering at hresult
  unfold inChild inScope
  rw [hat.current]
  dsimp only
  obtain ⟨R, hR, hmatch⟩ := hresult
  refine ⟨R, le_trans hgrows hR, ?_⟩
  generalize x _ = r, y _ = r' at hmatch ⊢
  cases hmatch with
  | ok ha hs => exact .ok ha { hs with current := rfl }
  | error he hs => exact .error he { hs with current := rfl }

/-- A scope that the second computation enters alone, and in which nothing is bound. -/
theorem follows_inChild_right (hij : P.Meet i j) {x : Exec α} {y : Exec β}
    (hx : ∀ {Q b}, P ≤ Q → Q.right b j → Follows Q i b A x y) :
    Follows P i j A x (inChild y) := by
  intro Q hPQ m n hat
  have hgrows : Q ≤ Q.withRight n.scopes.size j := Pairing.le_withRight _ _
  have hright : (Q.withRight n.scopes.size j).right n.scopes.size j := .inr ⟨rfl, rfl⟩
  have hentered : (Q.withRight n.scopes.size j).At i n.scopes.size m (n.entering j []) := { hat with
    scopes := hat.scopes.push_right (hat.scopes.lt_size (hij.mono hPQ)).2
    current' := rfl }
  have hresult := hx (le_trans hPQ hgrows) hright (le_refl _) hentered
  unfold Machine.entering at hresult
  unfold inChild inScope
  rw [hat.current']
  dsimp only
  obtain ⟨R, hR, hmatch⟩ := hresult
  refine ⟨R, le_trans hgrows hR, ?_⟩
  generalize x _ = r, y _ = r' at hmatch ⊢
  cases hmatch with
  | ok ha hs => exact .ok ha { hs with current' := rfl }
  | error he hs => exact .error he { hs with current' := rfl }

/-! Calls. -/

theorem follows_asCall (limit : Nat) (paren : Token) {x : Exec α} {y : Exec β}
    (hx : Follows P i j A x y) : Follows P i j A (asCall limit paren x) (asCall limit paren y) := by
  intro Q hPQ m n hat
  have hentered : Q.At i j { m with depth := m.depth + 1 } { n with depth := n.depth + 1 } :=
    { hat with depth := by rw [hat.depth] }
  have hresult := hx hPQ hentered
  unfold asCall
  rw [← hat.depth] at hresult ⊢
  split
  · exact ⟨Q, le_refl Q, .error rfl hat⟩
  · obtain ⟨R, hR, hmatch⟩ := hresult
    refine ⟨R, hR, ?_⟩
    generalize x _ = r, y _ = r' at hmatch ⊢
    cases hmatch with
    | ok ha hs => exact .ok ha { hs with depth := by rw [hs.depth] }
    | error he hs => exact .error he { hs with depth := by rw [hs.depth] }

theorem follows_runNative (paren : Token) (action : Native.Action) {vs ws : List Value}
    (h : List.Forall₂ P.Same vs ws) :
    Follows P i j .value (runNative paren action vs) (runNative paren action ws) := by
  intro Q hPQ m n hat
  refine ⟨Q, le_refl Q, ?_⟩
  unfold runNative
  cases action with
  | clock =>
    have htime : m.clock.time m.readings = n.clock.time n.readings := by
      rw [hat.clock, hat.readings]
    rw [← htime]
    exact .ok (.number _) { hat with readings := by rw [hat.readings] }
  | lastArgument =>
    refine .ok ?_ hat
    have hlast := List.forall₂_reverse_iff.2 h
    rw [List.getLast?_eq_head?_reverse, List.getLast?_eq_head?_reverse]
    generalize vs.reverse = vs, ws.reverse = ws at hlast ⊢
    cases hlast with
    | nil => exact .nil
    | cons hv _ => exact hv.mono hPQ
  | fail text => exact .error rfl hat
  | raise code message => exact .error rfl hat

theorem same_parameterBindings {vs ws : List Value} {as bs : List (Bytes × Value)}
    (params : List Token) (hvs : List.Forall₂ P.Same vs ws) (h : Bindings.Rel P.Same as bs) :
    Option.Rel (Bindings.Rel P.Same) (parameterBindings params vs as)
      (parameterBindings params ws bs) := by
  induction params generalizing vs ws as bs with
  | nil => exact .some h
  | cons p params ih =>
    cases hvs with
    | nil => exact .none
    | cons hv hvs => exact ih hvs (h.insert _ hv)

theorem same_resultOf {c d : Completion} (h : P.Alike c d) : P.Same (resultOf c) (resultOf d) := by
  cases h with
  | returned hv => exact hv
  | _ => exact .nil

/-! Operators. -/

theorem follows_unaryOperator (op : Token) {v w : Value} (hv : P.Same v w) :
    Follows P i j .value (unaryOperator op v) (unaryOperator op w) := by
  unfold unaryOperator
  split
  · rw [hv.isTruthy]
    exact .pure (.bool _)
  · cases hv with
    | number x => exact .pure (.number _)
    | _ => exact .throw _
  · exact .throw _

theorem follows_arithmetic (op : Token) (x y : Float) :
    Follows P i j .value (arithmetic op x y) (arithmetic op x y) := by
  unfold arithmetic
  split
  · exact .pure (.number _)
  · exact .pure (.number _)
  · exact .ite (.throw _) (.pure (.number _))
  · exact .pure (.bool _)
  · exact .pure (.bool _)
  · exact .pure (.bool _)
  · exact .pure (.bool _)
  · exact .throw _

theorem follows_plus (op : Token) {v w v' w' : Value} (hv : P.Same v w) (hv' : P.Same v' w') :
    Follows P i j .value (plus op v v') (plus op w w') := by
  cases hv with
  | string s =>
    cases hv' with
    | string s' => exact .pure (.string _)
    | _ => exact .throw _
  | number x =>
    cases hv' with
    | number y => exact .pure (.number _)
    | _ => exact .throw _
  | _ => exact .throw _

theorem follows_binaryOperator (op : Token) {v w v' w' : Value} (hv : P.Same v w)
    (hv' : P.Same v' w') :
    Follows P i j .value (binaryOperator op v v') (binaryOperator op w w') := by
  unfold binaryOperator
  split
  · rw [hv.equal hv']
    exact .pure (.bool _)
  · rw [hv.equal hv']
    exact .pure (.bool _)
  · exact follows_plus op hv hv'
  · cases hv with
    | number x =>
      cases hv' with
      | number y => exact follows_arithmetic op x y
      | _ => exact .throw _
    | _ => exact .throw _

theorem follows_crementOperator (op : Token) {v w : Value} (hv : P.Same v w) :
    Follows P i j (.equal Float) (crementOperator op v) (crementOperator op w) := by
  cases hv with
  | number x => exact .pure rfl
  | _ => exact .throw _

/-- In scopes that meet the functions that run a program do the same, with `n` steps allotted. Only
a declaration needs scopes that are twins. -/
structure Simulation (limit n : Nat) : Prop where
  eval : ∀ {P : Pairing} {i j : ScopeId}, P.Meet i j → ∀ e,
    Follows P i j .value (eval limit n e) (eval limit n e)
  evalAll : ∀ {P : Pairing} {i j : ScopeId}, P.Meet i j → ∀ es,
    Follows P i j .values (evalAll limit n es) (evalAll limit n es)
  apply : ∀ {P : Pairing} {i j : ScopeId} (paren : Token) {v w : Value} {vs ws : List Value},
    P.Same v w → List.Forall₂ P.Same vs ws →
    Follows P i j .value (apply limit n paren v vs) (apply limit n paren w ws)
  invoke : ∀ {P : Pairing} {i j b : ScopeId} (f : Closure) {vs ws : List Value},
    P.Meet f.scope b → List.Forall₂ P.Same vs ws →
    Follows P i j .value (invoke limit n f vs) (invoke limit n { f with scope := b } ws)
  exec : ∀ {P : Pairing} {i j : ScopeId} {s : Stmt}, P.Meet i j →
    (s.isDeclaration = true → P.twins i j) →
    Follows P i j .completion (exec limit n s) (exec limit n s)
  execAll : ∀ {P : Pairing} {i j : ScopeId}, P.twins i j → ∀ ss,
    Follows P i j .completion (execAll limit n ss) (execAll limit n ss)
  execLoop : ∀ {P : Pairing} {i j : ScopeId}, P.Meet i j → ∀ c s e,
    Follows P i j .completion (execLoop limit n c s e) (execLoop limit n c s e)

section
variable {limit n : Nat} (ih : Simulation limit n)
include ih

theorem follows_eval (hij : P.Meet i j) (e : Expr) :
    Follows P i j .value (eval limit (n + 1) e) (eval limit (n + 1) e) := by
  cases e with
  | literal v => exact .pure (.ofLiteral v)
  | grouping e => exact ih.eval hij e
  | unary op e => exact (ih.eval hij e).bind fun _ hv => follows_unaryOperator op hv
  | binary op a b =>
    exact (ih.eval hij a).bind fun hQ hv => (ih.eval (hij.mono hQ) b).bind fun hR hw =>
      follows_binaryOperator op (hv.mono hR) hw
  | logicalAnd op a b =>
    exact (ih.eval hij a).bind fun hQ hv => .ifTruthy hv (ih.eval (hij.mono hQ) b) (.pure hv)
  | logicalOr op a b =>
    exact (ih.eval hij a).bind fun hQ hv => .ifTruthy hv (.pure hv) (ih.eval (hij.mono hQ) b)
  | conditional op c a b =>
    exact (ih.eval hij c).bind fun hQ hv =>
      .ifTruthy hv (ih.eval (hij.mono hQ) a) (ih.eval (hij.mono hQ) b)
  | comma a b => exact (ih.eval hij a).bind fun hQ _ => ih.eval (hij.mono hQ) b
  | crement op target =>
    refine (ih.eval hij target).bind fun hQ hv =>
      (follows_crementOperator op hv).bind fun {R x y} hR hx => ?_
    obtain rfl : x = y := hx
    cases target with
    | «variable» name =>
      exact (follows_assign ((hij.mono hQ).mono hR) name (.number x)).bind fun _ _ =>
        .pure (.number x)
    | _ => exact .pure (.number x)
  | «variable» name => exact follows_lookUp hij name
  | assign name e =>
    exact (ih.eval hij e).bind fun hQ hv =>
      (follows_assign (hij.mono hQ) name hv).bind fun hR _ => .pure (hv.mono hR)
  | call callee paren args =>
    exact (ih.eval hij callee).bind fun hQ hf =>
      (ih.evalAll (hij.mono hQ) args).bind fun hR hvs => ih.apply paren (hf.mono hR) hvs

theorem follows_evalAll (hij : P.Meet i j) (es : List Expr) :
    Follows P i j .values (evalAll limit (n + 1) es) (evalAll limit (n + 1) es) := by
  cases es with
  | nil => exact .pure .nil
  | cons e es =>
    exact (ih.eval hij e).bind fun hQ hv => (ih.evalAll (hij.mono hQ) es).bind fun hR hvs =>
      .pure (.cons (hv.mono hR) hvs)

theorem follows_apply (paren : Token) {v w : Value} {vs ws : List Value} (hv : P.Same v w)
    (hvs : List.Forall₂ P.Same vs ws) :
    Follows P i j .value (apply limit (n + 1) paren v vs) (apply limit (n + 1) paren w ws) := by
  cases hv with
  | function f hscope =>
    unfold apply
    rw [hvs.length_eq]
    exact .ite (follows_asCall limit paren (ih.invoke f hscope hvs)) (.throw _)
  | native f =>
    unfold apply
    rw [hvs.length_eq]
    exact .ite (follows_asCall limit paren (follows_runNative paren f.action hvs)) (.throw _)
  | _ => exact .throw _

theorem follows_invoke {b : ScopeId} (f : Closure) {vs ws : List Value} (hscope : P.Meet f.scope b)
    (hvs : List.Forall₂ P.Same vs ws) :
    Follows P i j .value (invoke limit (n + 1) f vs)
      (invoke limit (n + 1) { f with scope := b } ws) := by
  have hbindings := same_parameterBindings f.params hvs .nil
  unfold invoke
  generalize parameterBindings f.params vs [] = as, parameterBindings f.params ws [] = bs
    at hbindings ⊢
  cases hbindings with
  | none => exact .throw _
  | some hb =>
    exact (follows_inScope hscope hb fun _ htwins => ih.execAll htwins f.body).bind
      fun _ hc => .pure (same_resultOf hc)

theorem follows_exec {s : Stmt} (hij : P.Meet i j) (hs : s.isDeclaration = true → P.twins i j) :
    Follows P i j .completion (exec limit (n + 1) s) (exec limit (n + 1) s) := by
  cases s with
  | empty => exact .pure .normal
  | expression e => exact (ih.eval hij e).bind fun _ _ => .pure .normal
  | print keyword e =>
    refine (ih.eval hij e).bind fun _ hv => ?_
    rw [hv.text]
    exact (follows_print _).bind fun _ _ => .pure .normal
  | declare name init =>
    cases init with
    | none => exact (follows_declare (hs rfl) name .nil).bind fun _ _ => .pure .normal
    | some e =>
      exact (ih.eval hij e).bind fun hQ hv =>
        (follows_declare (hQ.1 i j (hs rfl)) name hv).bind fun _ _ => .pure .normal
  | block body => exact follows_inChild hij fun _ htwins => ih.execAll htwins body
  | branch c yes no =>
    refine (ih.eval hij c).bind fun hQ hv => .ifTruthy hv ?_ ?_
    · exact follows_inChild (hij.mono hQ) fun _ htwins => ih.exec (.twins htwins) fun _ => htwins
    · cases no with
      | none => exact .pure .normal
      | some s =>
        exact follows_inChild (hij.mono hQ) fun _ htwins => ih.exec (.twins htwins) fun _ => htwins
  | loop c body e => exact ih.execLoop hij c body e
  | breakLoop keyword => exact .pure .broke
  | continueLoop keyword => exact .pure .continued
  | function name params body =>
    exact (follows_close hij name params body).bind fun hQ hf =>
      (follows_declare (hQ.1 i j (hs rfl)) name hf).bind fun _ _ => .pure .normal
  | returnValue keyword value =>
    cases value with
    | none => exact .pure (.returned .nil)
    | some e => exact (ih.eval hij e).bind fun _ hv => .pure (.returned hv)

theorem follows_execAll (hij : P.twins i j) (ss : List Stmt) :
    Follows P i j .completion (execAll limit (n + 1) ss) (execAll limit (n + 1) ss) := by
  cases ss with
  | nil => exact .pure .normal
  | cons s ss =>
    refine (ih.exec (.twins hij) fun _ => hij).bind fun hQ hc => ?_
    cases hc with
    | normal => exact ih.execAll (hQ.1 i j hij) ss
    | returned hv => exact .pure (.returned hv)
    | broke => exact .pure .broke
    | continued => exact .pure .continued

theorem follows_execLoop (hij : P.Meet i j) (c : Expr) (s : Stmt) (e : Option Expr) :
    Follows P i j .completion (execLoop limit (n + 1) c s e) (execLoop limit (n + 1) c s e) := by
  refine (ih.eval hij c).bind fun hQ hv => .ifTruthy hv ?_ (.pure .normal)
  replace hij := hij.mono hQ
  refine (follows_inChild hij fun _ ht => ih.exec (.twins ht) fun _ => ht).bind fun hR hc => ?_
  replace hij := hij.mono hR
  cases hc with
  | broke => exact .pure .normal
  | returned hv => exact .pure (.returned hv)
  | normal | continued =>
    cases e with
    | none => exact ih.execLoop hij c s none
    | some e => exact (ih.eval hij e).bind fun hS _ => ih.execLoop (hij.mono hS) c s (some e)

end

theorem simulation (limit n : Nat) : Simulation limit n := by
  induction n with
  | zero => constructor <;> (intros; exact .throw _)
  | succ n ih =>
    exact {
      eval := follows_eval ih
      evalAll := follows_evalAll ih
      apply := follows_apply ih
      invoke := follows_invoke ih
      exec := follows_exec ih
      execAll := follows_execAll ih
      execLoop := follows_execLoop ih }

theorem follows_run (limit n : Nat) (hij : P.twins i j) (ss : List Stmt) :
    Follows P i j (.equal Unit) (run limit n ss) (run limit n ss) := by
  induction ss generalizing P with
  | nil => exact .pure rfl
  | cons s ss ih =>
    exact ((simulation limit n).exec (.twins hij) fun _ => hij).bind fun hQ _ => ih (hQ.1 i j hij)

end Exec

/-! Machines in which every scope that is spoken of exists. -/
namespace Machine

/-- All scopes are in order, and the machine is in one of them. -/
structure Grounded (m : Machine) : Prop where
  scopes : m.scopes.Grounded
  current : m.current < m.scopes.size

namespace Grounded
variable {m : Machine}

theorem at_self (h : m.Grounded) : (Pairing.identity m.scopes.size).At m.current m.current m m where
  scopes := Pairing.holds_identity h.scopes
  covers := Pairing.covers_identity m.scopes
  current := rfl
  current' := rfl
  depth := rfl
  functions := rfl
  printed := rfl
  clock := rfl
  readings := rfl

theorem twins_self (h : m.Grounded) :
    (Pairing.identity m.scopes.size).twins m.current m.current := ⟨rfl, h.current⟩

/-- What runs alike in scopes that are twins leaves the machine grounded: it follows itself. -/
theorem final {α : Type} {A : Relation α α} {x : Exec α} (h : m.Grounded)
    (hx : ∀ {P i j}, P.twins i j → Exec.Follows P i j A x x) :
    (Exec.final (x m)).Grounded := by
  obtain ⟨R, hR, hmatch⟩ := hx h.twins_self (le_refl _) h.at_self
  have hcurrent : R.Meet m.current m.current := .twins (hR.1 _ _ h.twins_self)
  have grounded {m' n' : Machine} (hat : R.At m.current m.current m' n') : m'.Grounded :=
    ⟨hat.scopes.grounded hat.covers, hat.current ▸ (hat.scopes.lt_size hcurrent).1⟩
  generalize x m = r at hmatch ⊢
  cases hmatch with
  | ok _ hat => exact grounded hat
  | error _ hat => exact grounded hat

theorem defineNative (h : m.Grounded) (name : Bytes) (arity : Int) (action : Native.Action) :
    (m.defineNative name arity action).Grounded := by
  have hglobals : (Pairing.identity m.scopes.size).twins globals globals :=
    ⟨rfl, Nat.zero_lt_of_lt h.current⟩
  have hscopes := h.at_self.scopes.define hglobals name (.native ⟨m.functions, arity, action⟩)
  exact ⟨hscopes.grounded (h.at_self.covers.define _ _ _),
    Nat.lt_of_lt_of_eq h.current Array.size_modify.symm⟩

end Grounded

theorem grounded_fresh (clock : Clock) : (fresh clock).Grounded := by
  have hempty {i : ScopeId} {s : Scope} (hs : (#[{}] : Forest)[i]? = some s) : s = {} :=
    Array.mem_singleton.1 (Array.mem_of_getElem? hs)
  have hroot : ({ scopes := #[{}], current := globals, clock } : Machine).Grounded := by
    refine ⟨⟨fun hs hparent => ?_, fun hs b hb => ?_⟩, Nat.zero_lt_one⟩
    · cases hempty hs
      cases hparent
    · cases hempty hs
      cases hb
  exact hroot.defineNative _ _ _

/-- Between runs the machine is grounded. -/
theorem Reachable.grounded {program : List Stmt → Prop} {expression : Expr → Prop} {m : Machine}
    (h : Reachable program expression m) : m.Grounded := by
  induction h with
  | fresh clock => exact grounded_fresh clock
  | hosted _ name arity action ih => exact ih.defineNative name arity action
  | idled _ printed clock ih => exact ⟨ih.scopes, ih.current⟩
  | ran _ limit fuel _ ih => exact ih.final fun htwins => Exec.follows_run limit fuel htwins _
  | evaluated _ limit fuel _ ih =>
    exact ih.final fun htwins => (Exec.simulation limit fuel).eval (.twins htwins) _

end Machine
end Lox
