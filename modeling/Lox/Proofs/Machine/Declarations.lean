import Lox.Proofs.Machine.Course
import Lox.Proofs.Scope.Lookup

/-! Where names are declared. Only a declaration binds a new name, in the scope that is current when
it is executed; all that blocks, branches, loops and calls declare goes into scopes that are new. -/
namespace Lox

/-! The names of the scopes. -/

/-- The names bound in a scope, in order, and the scope around it. -/
def Scope.outline (s : Scope) : List Bytes × Option ScopeId := (s.bindings.map (·.1), s.parent)

def Forest.outline? (f : Forest) (id : ScopeId) : Option (List Bytes × Option ScopeId) :=
  f[id]?.map Scope.outline

/-- Adds a name to names in which it may stand already. -/
def Scope.withName (names : List Bytes) (name : Bytes) : List Bytes :=
  if name ∈ names then names else names ++ [name]

/-- Adds names to those of a scope. -/
def Scope.withNames (names : List Bytes) (outline : List Bytes × Option ScopeId) :
    List Bytes × Option ScopeId := (names.foldl withName outline.1, outline.2)

namespace Scope
variable {name other : Bytes}

theorem withName_cons_of_ne {n : Bytes} (h : name ≠ n) (names : List Bytes) :
    withName (n :: names) name = n :: withName names name := by
  unfold withName
  simp only [List.mem_cons, h, false_or]
  split <;> rfl

theorem names_insert (name : Bytes) (value : Value) (bindings : List (Bytes × Value)) :
    (insert name value bindings).map (·.1) = withName (bindings.map (·.1)) name := by
  induction bindings with
  | nil => rfl
  | cons b rest ih =>
    obtain ⟨n, v⟩ := b
    unfold insert
    split
    next h =>
      cases eq_of_beq h
      exact (if_pos List.mem_cons_self).symm
    next h =>
      have hne : name ≠ n := fun heq => h (beq_iff_eq.2 heq.symm)
      rw [List.map_cons, List.map_cons, ih, withName_cons_of_ne hne]

theorem outline_bind (s : Scope) (name : Bytes) (value : Value) :
    (s.bind name value).outline = withNames [name] s.outline :=
  congrArg (·, s.parent) (names_insert name value s.bindings)

theorem withNames_append (names names' : List Bytes) (outline : List Bytes × Option ScopeId) :
    withNames (names ++ names') outline = withNames names' (withNames names outline) :=
  congrArg (·, outline.2) List.foldl_append

theorem mem_withName {names : List Bytes} :
    other ∈ withName names name ↔ other ∈ names ∨ other = name := by
  unfold withName
  split
  next h => simp_all
  next => simp

theorem mem_withNames {names : List Bytes} {outline : List Bytes × Option ScopeId} :
    other ∈ (withNames names outline).1 ↔ other ∈ outline.1 ∨ other ∈ names := by
  unfold withNames
  obtain ⟨before, parent⟩ := outline
  dsimp only
  induction names generalizing before with
  | nil => simp
  | cons n rest ih => rw [List.foldl_cons, ih, mem_withName, List.mem_cons, or_assoc]

/-- A name that is bound already is not added. -/
theorem withNames_self {s : Scope} (h : (s.find? name).isSome = true) :
    withNames [name] s.outline = s.outline := by
  have hmem : name ∈ s.outline.1 := (s.mem_names_iff name).2 h
  exact congrArg (·, s.parent) (if_pos hmem)

end Scope

namespace Forest
variable {f : Forest} {id : ScopeId} {name : Bytes} {value : Value}

theorem outline?_define_self (f : Forest) (id : ScopeId) (name : Bytes) (value : Value) :
    (f.define id name value).outline? id = (f.outline? id).map (Scope.withNames [name]) := by
  unfold outline?
  rw [getElem?_define, if_pos rfl, Option.map_map, Option.map_map]
  congr 1
  funext s
  exact s.outline_bind name value

theorem outline?_define_of_ne {j : ScopeId} (h : id ≠ j) (name : Bytes) (value : Value) :
    (f.define id name value).outline? j = f.outline? j := by
  unfold outline?
  rw [getElem?_define_of_ne h]

/-- Where a name is found, binding it adds no name. -/
theorem outline?_define_owner {outer : ScopeId} (h : f.owner? outer name = some id) (j : ScopeId)
    (value : Value) : (f.define id name value).outline? j = f.outline? j := by
  by_cases hj : id = j
  · subst hj
    obtain ⟨-, v, s, hs, hv⟩ := resolves_of_ownerFrom h
    rw [outline?_define_self, outline?, hs, Option.map_some, Option.map_some,
      Scope.withNames_self (by rw [hv]; rfl)]
  · exact outline?_define_of_ne hj name value

theorem outline?_push (s : Scope) (h : id < f.size) :
    Forest.outline? (f.push s) id = f.outline? id := by
  unfold outline?
  rw [Array.getElem?_push, if_neg (Nat.ne_of_lt h)]

end Forest

/-- The machine is later in the same scope. Of the scopes that there were, the current one binds
these names besides those that it bound, and every other one binds what it bound. Each stands where
it stood. -/
structure Machine.Declares (names : List Bytes) (m m' : Machine) : Prop where
  current : m'.current = m.current
  size : m.scopes.size ≤ m'.scopes.size
  here : m.current < m.scopes.size → m'.scopes.outline? m.current =
    (m.scopes.outline? m.current).map (Scope.withNames names)
  elsewhere : ∀ id < m.scopes.size, id ≠ m.current → m'.scopes.outline? id = m.scopes.outline? id

namespace Machine.Declares
variable {m m₁ m₂ : Machine} {names names' : List Bytes}

/-- In all scopes that there were the same names are bound. -/
theorem of_outline (hcurrent : m₁.current = m.current) (hsize : m.scopes.size ≤ m₁.scopes.size)
    (h : ∀ id < m.scopes.size, m₁.scopes.outline? id = m.scopes.outline? id) :
    m.Declares [] m₁ where
  current := hcurrent
  size := hsize
  here hlt := (h _ hlt).trans Option.map_id'.symm
  elsewhere id hlt _ := h id hlt

theorem refl (m : Machine) : m.Declares [] m := .of_outline rfl (Nat.le_refl _) fun _ _ => rfl

theorem trans (h : m.Declares names m₁) (h' : m₁.Declares names' m₂) :
    m.Declares (names ++ names') m₂ where
  current := h'.current.trans h.current
  size := Nat.le_trans h.size h'.size
  here hlt := by
    have hlater := h'.here (h.current ▸ Nat.lt_of_lt_of_le hlt h.size)
    rw [h.current, h.here hlt, Option.map_map] at hlater
    rw [hlater]
    congr 1
    funext outline
    exact (Scope.withNames_append names names' outline).symm
  elsewhere id hlt hne := by
    rw [h'.elsewhere id (Nat.lt_of_lt_of_le hlt h.size) (h.current ▸ hne), h.elsewhere id hlt hne]

theorem outline? (h : m.Declares [] m₁) {id : ScopeId} (hid : id < m.scopes.size) :
    m₁.scopes.outline? id = m.scopes.outline? id := by
  by_cases hcurrent : id = m.current
  · subst hcurrent
    exact (h.here hid).trans Option.map_id'
  · exact h.elsewhere id hid hcurrent

end Machine.Declares

namespace Exec
variable {α β : Type}

/-- However the computation ends, no scope that there was binds a new name. -/
def Nameless (x : Exec α) : Prop := ∀ m : Machine, m.Declares [] (final (x m))

/-- However the computation ends, no scope that there was but the current one binds a new name. -/
def Confined (x : Exec α) : Prop := ∀ m : Machine, ∃ names, m.Declares names (final (x m))

theorem Nameless.confined {x : Exec α} (h : Nameless x) : Confined x := fun m => ⟨[], h m⟩

theorem nameless_pure (a : α) : Nameless (pure a) := fun m => .refl m

theorem nameless_throw (h : Halt) : Nameless (throw h : Exec α) := fun m => .refl m

theorem nameless_lookUp (name : Token) : Nameless (lookUp name) := by
  intro m
  unfold lookUp
  split
  · exact .refl m
  · exact .refl m

theorem nameless_assign (name : Token) (v : Value) : Nameless (assign name v) := by
  intro m
  unfold assign
  split
  next howner =>
    refine .of_outline rfl (Nat.le_of_eq (Forest.size_define _ _ _ _).symm) fun id _ => ?_
    exact Forest.outline?_define_owner howner id v
  next => exact .refl m

theorem declares_declare (name : Token) (v : Value) (m : Machine) :
    m.Declares [name.lexeme] (final (declare name v m)) where
  current := rfl
  size := Nat.le_of_eq (Forest.size_define _ _ _ _).symm
  here _ := Forest.outline?_define_self _ _ _ _
  elsewhere _ _ hne := Forest.outline?_define_of_ne hne.symm _ _

theorem nameless_print (text : Bytes) : Nameless (print text) := fun _ =>
  .of_outline rfl (Nat.le_refl _) fun _ _ => rfl

theorem nameless_close (name : Token) (params : List Token) (body : List Stmt) :
    Nameless (close name params body) := fun _ => .of_outline rfl (Nat.le_refl _) fun _ _ => rfl

theorem nameless_runNative (paren : Token) (action : Native.Action) (args : List Value) :
    Nameless (runNative paren action args) := by
  intro m
  unfold runNative
  split
  · exact .of_outline rfl (Nat.le_refl _) fun _ _ => rfl
  · exact .refl m
  · exact .refl m
  · exact .refl m

theorem Nameless.bind {x : Exec α} {f : α → Exec β} (hx : Nameless x) (hf : ∀ a, Nameless (f a)) :
    Nameless (x >>= f) := by
  intro m
  have hfirst := hx m
  change m.Declares [] (final (EStateM.bind x f m))
  unfold EStateM.bind
  generalize x m = r at hfirst ⊢
  cases r with
  | ok a m' => exact hfirst.trans (hf a m')
  | error e m' => exact hfirst

theorem Nameless.ite {c : Prop} [Decidable c] {x y : Exec α} (hx : Nameless x) (hy : Nameless y) :
    Nameless (if c then x else y) := by
  split
  · exact hx
  · exact hy

theorem Confined.bind {x : Exec α} {f : α → Exec β} (hx : Confined x) (hf : ∀ a, Confined (f a)) :
    Confined (x >>= f) := by
  intro m
  obtain ⟨names, hfirst⟩ := hx m
  change ∃ names, m.Declares names (final (EStateM.bind x f m))
  unfold EStateM.bind
  generalize x m = r at hfirst ⊢
  cases r with
  | ok a m' =>
    obtain ⟨names', hnext⟩ := hf a m'
    exact ⟨names ++ names', hfirst.trans hnext⟩
  | error e m' => exact ⟨names, hfirst⟩

theorem final_inScope (parent : ScopeId) (bindings : List (Bytes × Value)) (x : Exec α)
    (m : Machine) : final (inScope parent bindings x m) =
      { final (x (m.entering parent bindings)) with current := m.current } := by
  unfold inScope Machine.entering
  dsimp only
  cases x _ <;> rfl

/-- What is declared in a new scope is declared in none that there was. -/
theorem Confined.inScope (parent : ScopeId) (bindings : List (Bytes × Value)) {x : Exec α}
    (h : Confined x) : Nameless (inScope parent bindings x) := by
  intro m
  obtain ⟨names, hinner⟩ := h (m.entering parent bindings)
  have hgrown : (m.entering parent bindings).scopes.size = m.scopes.size + 1 := Array.size_push _
  have hsize := hinner.size
  rw [final_inScope]
  refine .of_outline rfl (by dsimp only; omega) fun id hid => ?_
  refine (hinner.elsewhere id (by omega) (Nat.ne_of_lt hid)).trans ?_
  exact Forest.outline?_push _ hid

theorem Confined.inChild {x : Exec α} (h : Confined x) : Nameless (inChild x) :=
  fun m => h.inScope m.current [] m

theorem final_asCall (limit : Nat) (paren : Token) (x : Exec α) (m : Machine) :
    final (asCall limit paren x m) = if limit ≤ m.depth then m else
      let called := final (x { m with depth := m.depth + 1 })
      { called with depth := called.depth - 1 } := by
  unfold asCall
  split
  · rfl
  · cases x _ <;> rfl

theorem Nameless.asCall (limit : Nat) (paren : Token) {x : Exec α} (h : Nameless x) :
    Nameless (asCall limit paren x) := by
  intro m
  have hinner := h { m with depth := m.depth + 1 }
  rw [final_asCall]
  split
  · exact .refl m
  · exact ⟨hinner.current, hinner.size, hinner.here, hinner.elsewhere⟩

theorem Confined.asCall (limit : Nat) (paren : Token) {x : Exec α} (h : Confined x) :
    Confined (asCall limit paren x) := by
  intro m
  obtain ⟨names, hinner⟩ := h { m with depth := m.depth + 1 }
  rw [final_asCall]
  split
  · exact ⟨[], .refl m⟩
  · exact ⟨names, hinner.current, hinner.size, hinner.here, hinner.elsewhere⟩

/-- All that runs code declares names in the current scope and in new ones only. -/
def confinement (limit : Nat) : Congruence limit limit where
  rel x _ := Confined x
  elementary h := by
    cases h with
    | pure a => exact (nameless_pure a).confined
    | throw h => exact (nameless_throw h).confined
    | get => exact fun m => ⟨[], .refl m⟩
    | lookUp name => exact (nameless_lookUp name).confined
    | assign name v => exact (nameless_assign name v).confined
    | declare name v => exact fun m => ⟨_, declares_declare name v m⟩
    | print text => exact (nameless_print text).confined
    | close name params body => exact (nameless_close name params body).confined
    | runNative paren action args => exact (nameless_runNative paren action args).confined
  bind hx hf := hx.bind hf
  inScope parent bindings _ _ h := (h.inScope parent bindings).confined
  asCall paren _ _ h := h.asCall limit paren

/-! Expressions. -/

theorem Outright.nameless {x : Exec α} (h : Outright x) : Nameless x := by
  cases h with
  | pure a => exact nameless_pure a
  | throw h => exact nameless_throw h

section
variable (limit n : Nat)

/-- What the body of a function declares goes into the scope of the call. -/
theorem nameless_invoke (f : Closure) (args : List Value) : Nameless (invoke limit n f args) := by
  cases n with
  | zero => exact nameless_throw _
  | succ n =>
    have hbody : Confined (execAll limit n f.body) := ((confinement limit).all n).execAll f.body
    unfold invoke
    split
    · exact nameless_throw _
    · exact (hbody.inScope f.scope _).bind fun _ => nameless_pure _

theorem nameless_apply (paren : Token) (v : Value) (args : List Value) :
    Nameless (apply limit n paren v args) := by
  cases n with
  | zero => exact nameless_throw _
  | succ n =>
    cases v with
    | function f =>
      exact .ite ((nameless_invoke limit n f args).asCall limit paren) (nameless_throw _)
    | native f =>
      exact .ite ((nameless_runNative paren f.action args).asCall limit paren) (nameless_throw _)
    | _ => exact nameless_throw _

theorem nameless_eval_and_evalAll :
    (∀ e, Nameless (eval limit n e)) ∧ ∀ es, Nameless (evalAll limit n es) := by
  induction n with
  | zero => exact ⟨fun _ => nameless_throw _, fun _ => nameless_throw _⟩
  | succ n ih =>
    obtain ⟨heval, hevalAll⟩ := ih
    refine ⟨fun e => ?_, fun es => ?_⟩
    · cases e with
      | literal v => exact nameless_pure _
      | grouping e => exact heval e
      | unary op e => exact (heval e).bind fun v => (outright_unaryOperator op v).nameless
      | binary op a b =>
        exact (heval a).bind fun v => (heval b).bind fun w =>
          (outright_binaryOperator op v w).nameless
      | logicalAnd op a b => exact (heval a).bind fun v => .ite (heval b) (nameless_pure v)
      | logicalOr op a b => exact (heval a).bind fun v => .ite (nameless_pure v) (heval b)
      | conditional question c a b => exact (heval c).bind fun _ => .ite (heval a) (heval b)
      | comma a b => exact (heval a).bind fun _ => heval b
      | crement op target =>
        refine (heval target).bind fun v =>
          (outright_crementOperator op v).nameless.bind fun x => ?_
        split
        · exact (nameless_assign _ _).bind fun _ => nameless_pure _
        · exact nameless_pure _
      | «variable» name => exact nameless_lookUp name
      | assign name e =>
        exact (heval e).bind fun v => (nameless_assign name v).bind fun _ => nameless_pure v
      | call callee paren args =>
        exact (heval callee).bind fun f => (hevalAll args).bind fun vs =>
          nameless_apply limit n paren f vs
    · cases es with
      | nil => exact nameless_pure _
      | cons e es =>
        exact (heval e).bind fun v => (hevalAll es).bind fun vs => nameless_pure (v :: vs)

theorem nameless_eval (e : Expr) : Nameless (eval limit n e) :=
  (nameless_eval_and_evalAll limit n).1 e

end

/-! Statements. -/

/-- If the computation comes to its end, the current scope binds these names besides those that it
bound; otherwise no scope that there was binds a new name, and no other scope does in any case. -/
def Declaring (names : List Bytes) (x : Exec α) : Prop :=
  ∀ m : Machine, (∀ a m', x m = .ok a m' → m.Declares names m') ∧
    ∀ h m', x m = .error h m' → m.Declares [] m'

theorem Nameless.declaring {x : Exec α} (h : Nameless x) : Declaring [] x := by
  intro m
  have hfinal := h m
  refine ⟨fun a m' hx => ?_, fun e m' hx => ?_⟩
  · rw [hx] at hfinal
    exact hfinal
  · rw [hx] at hfinal
    exact hfinal

theorem Declaring.after {x : Exec α} {f : α → Exec β} {names : List Bytes} (hx : Nameless x)
    (hf : ∀ a, Declaring names (f a)) : Declaring names (x >>= f) := by
  intro m
  have hfirst := hx m
  change (∀ b m', EStateM.bind x f m = .ok b m' → m.Declares names m') ∧
    ∀ h m', EStateM.bind x f m = .error h m' → m.Declares [] m'
  unfold EStateM.bind
  generalize x m = r at hfirst ⊢
  cases r with
  | ok a m₁ =>
    exact ⟨fun b m' h => hfirst.trans ((hf a m₁).1 b m' h),
      fun e m' h => hfirst.trans ((hf a m₁).2 e m' h)⟩
  | error e m₁ =>
    refine ⟨fun b m' h => (nomatch h), fun e' m' h => ?_⟩
    cases h
    exact hfirst

theorem declaring_throw (names : List Bytes) (h : Halt) : Declaring names (throw h : Exec α) := by
  intro m
  refine ⟨fun a m' hx => (nomatch hx), fun e m' hx => ?_⟩
  cases hx
  exact .refl m

theorem declaring_declare (name : Token) (v : Value) (completion : Completion) :
    Declaring [name.lexeme] (do declare name v; pure completion) := by
  intro m
  refine ⟨fun a m' h => ?_, fun e m' h => (nomatch h)⟩
  cases h
  exact declares_declare name v m

end Exec

/-- The name that a statement declares. -/
def Stmt.declared : Stmt → Option Bytes
  | .declare name _ | .function name _ _ => some name.lexeme
  | .empty | .expression _ | .print _ _ | .block _ | .branch _ _ _ | .loop _ _ _ | .breakLoop _
  | .continueLoop _ | .returnValue _ _ => none

namespace Exec

theorem nameless_execLoop (limit n : Nat) (c : Expr) (s : Stmt) (i : Option Expr) :
    Nameless (execLoop limit n c s i) := by
  induction n with
  | zero => exact nameless_throw _
  | succ n ih =>
    have hbody : Confined (exec limit n s) := ((confinement limit).all n).exec s
    refine (nameless_eval limit n c).bind fun v => .ite ?_ (nameless_pure _)
    refine hbody.inChild.bind fun completion => ?_
    cases completion with
    | broke => exact nameless_pure _
    | returned v => exact nameless_pure _
    | normal | continued =>
      cases i with
      | none => exact ih
      | some e => exact (nameless_eval limit n e).bind fun _ => ih

theorem declaring_exec (limit n : Nat) (s : Stmt) :
    Declaring s.declared.toList (exec limit n s) := by
  cases n with
  | zero => exact declaring_throw _ _
  | succ n =>
    have heval := nameless_eval limit n
    have hall := (confinement limit).all n
    cases s with
    | empty => exact (nameless_pure _).declaring
    | expression e => exact ((heval e).bind fun _ => nameless_pure _).declaring
    | print keyword e =>
      refine Nameless.declaring ((heval e).bind fun v => ?_)
      exact (nameless_print v.text).bind fun _ => nameless_pure _
    | declare name init =>
      cases init with
      | none => exact declaring_declare name .nil .normal
      | some e => exact .after (heval e) fun v => declaring_declare name v .normal
    | block body => exact (Confined.inChild (hall.execAll body)).declaring
    | branch c yes no =>
      refine ((heval c).bind fun _ => .ite (Confined.inChild (hall.exec yes)) ?_).declaring
      cases no with
      | none => exact nameless_pure _
      | some s => exact Confined.inChild (hall.exec s)
    | loop c body i => exact (nameless_execLoop limit n c body i).declaring
    | breakLoop keyword => exact (nameless_pure _).declaring
    | continueLoop keyword => exact (nameless_pure _).declaring
    | function name params body =>
      exact .after (nameless_close name params body) fun f => declaring_declare name f .normal
    | returnValue keyword value =>
      cases value with
      | none => exact (nameless_pure _).declaring
      | some e => exact ((heval e).bind fun _ => nameless_pure _).declaring

/-! Programs. -/

/-- The statements of a program that come to their end, up to the first one that does not. -/
def completed (limit fuel : Nat) : List Stmt → Machine → List Stmt
  | [], _ => []
  | s :: ss, m =>
    match exec limit fuel s m with
    | .ok _ m' => s :: completed limit fuel ss m'
    | .error _ _ => []

theorem declares_run (limit fuel : Nat) (ss : List Stmt) (m : Machine) :
    m.Declares ((completed limit fuel ss m).filterMap Stmt.declared)
      (final (run limit fuel ss m)) := by
  induction ss generalizing m with
  | nil => exact .refl m
  | cons s ss ih =>
    obtain ⟨hok, herror⟩ := declaring_exec limit fuel s m
    have hrun : run limit fuel (s :: ss) m =
        EStateM.bind (exec limit fuel s) (fun _ => run limit fuel ss) m := rfl
    rw [hrun]
    unfold completed EStateM.bind
    cases h : exec limit fuel s m with
    | ok completion m' =>
      have hnames : (s :: completed limit fuel ss m').filterMap Stmt.declared =
          s.declared.toList ++ (completed limit fuel ss m').filterMap Stmt.declared := by
        rw [List.filterMap_cons]
        cases s.declared <;> rfl
      dsimp only
      rw [hnames]
      exact (hok completion m' h).trans (ih m')
    | error e m' => exact herror e m' h

end Exec

/-! The global names. -/

/-- A scope without a parent shows the names that it binds. -/
theorem Forest.mem_names_of_outline? {f : Forest} {id : ScopeId} {names : List Bytes}
    (h : f.outline? id = some (names, none)) (name : Bytes) : name ∈ f.names id ↔ name ∈ names := by
  obtain ⟨s, hs, houtline⟩ := Option.map_eq_some_iff.1 h
  obtain ⟨rfl, hparent⟩ := Prod.mk.inj houtline
  have hlt : id < f.size := (Array.getElem?_eq_some_iff.1 hs).1
  obtain ⟨size, hsize⟩ : ∃ size, f.size = size + 1 :=
    Nat.exists_eq_add_one_of_ne_zero (Nat.ne_zero_of_lt hlt)
  have howner : (f.owner? id name).isSome = (s.find? name).isSome := by
    rw [owner?, hsize, ownerFrom, hs]
    dsimp only
    rw [hparent]
    cases s.find? name <;> rfl
  rw [mem_names_iff, isSome_get?, howner]
  exact (s.mem_names_iff name).symm

namespace Machine
variable {m m' : Machine} {names : List Bytes}

/-- The machine is in the scope of the global names, which stands in no other. -/
structure AtGlobals (m : Machine) : Prop where
  current : m.current = globals
  outline : ∃ names, m.scopes.outline? globals = some (names, none)

theorem Declares.globals (h : m.Declares names m') (hm : m.AtGlobals) :
    m'.AtGlobals ∧ ∀ name, name ∈ m'.globalNames ↔ name ∈ m.globalNames ∨ name ∈ names := by
  obtain ⟨hcurrent, before, hbefore⟩ := hm
  have hlt : m.current < m.scopes.size := by
    obtain ⟨s, hs, -⟩ := Option.map_eq_some_iff.1 hbefore
    rw [hcurrent]
    exact (Array.getElem?_eq_some_iff.1 hs).1
  have hafter := h.here hlt
  rw [hcurrent, hbefore, Option.map_some] at hafter
  refine ⟨⟨h.current.trans hcurrent, _, hafter⟩, fun name => ?_⟩
  rw [globalNames, globalNames, Forest.mem_names_of_outline? hafter,
    Forest.mem_names_of_outline? hbefore]
  exact Scope.mem_withNames

theorem AtGlobals.define (hm : m.AtGlobals) (name : Bytes) (value : Value) :
    AtGlobals { m with scopes := m.scopes.define globals name value } := by
  obtain ⟨hcurrent, names, hnames⟩ := hm
  refine ⟨hcurrent, Scope.withName names name, ?_⟩
  rw [Forest.outline?_define_self, hnames, Option.map_some]
  rfl

theorem atGlobals_fresh (clock : Clock) : (fresh clock).AtGlobals := ⟨rfl, _, rfl⟩

theorem Reachable.atGlobals {program : List Stmt → Prop} {expression : Expr → Prop}
    (h : Reachable program expression m) : m.AtGlobals := by
  induction h with
  | fresh clock => exact atGlobals_fresh clock
  | hosted _ name arity action ih => exact ⟨ih.current, (ih.define name _).outline⟩
  | idled _ printed clock ih => exact ⟨ih.current, ih.outline⟩
  | ran _ limit fuel _ ih => exact ((Exec.declares_run limit fuel _ _).globals ih).1
  | evaluated _ limit fuel _ ih => exact ((Exec.nameless_eval limit fuel _ _).globals ih).1

/-- Declarations stay in their scope. An expression declares nothing, in whatever scope, and neither
does a statement that faults. A statement that comes to its end declares the name that it is a
declaration of, in the current scope, and nothing else. So the global names after a program are
those that there were and those of its declarations that came to their end. -/
theorem declarations_stay_in_scope (limit fuel : Nat) (m : Machine) :
    (∀ e, m.Declares [] (Exec.final (Exec.eval limit fuel e m))) ∧
    (∀ s, (∀ completion m', Exec.exec limit fuel s m = .ok completion m' →
        m.Declares s.declared.toList m') ∧
      ∀ h m', Exec.exec limit fuel s m = .error h m' → m.Declares [] m') ∧
    (m.AtGlobals → ∀ ss, (Exec.final (Exec.run limit fuel ss m)).AtGlobals ∧
      ∀ name, name ∈ (Exec.final (Exec.run limit fuel ss m)).globalNames ↔
        name ∈ m.globalNames ∨
          ∃ s ∈ Exec.completed limit fuel ss m, s.declared = some name) ∧
    (Reachable (fun _ => True) (fun _ => True) m → m.AtGlobals) ∧
    (m.AtGlobals → ∀ name v, (m.defineGlobal name v).AtGlobals) := by
  refine ⟨fun e => Exec.nameless_eval limit fuel e m, fun s => Exec.declaring_exec limit fuel s m,
    fun hm ss => ?_, Reachable.atGlobals, fun hm name v => hm.define name v⟩
  obtain ⟨hafter, hnames⟩ := (Exec.declares_run limit fuel ss m).globals hm
  refine ⟨hafter, fun name => (hnames name).trans (or_congr Iff.rfl ?_)⟩
  exact List.mem_filterMap

/-- A function declares a name of its own and assigns to a global one, a block declares a name, and
a declaration faults before it binds its name. -/
theorem declarations_stay_in_scope_call_and_fault :
    let token (kind : Kind) (text : String) : Token := ⟨kind, utf8 text, .nil, ⟨1, 1, 1⟩⟩
    let name (text : String) := token .identifier text
    let call := Expr.call (.variable (name "f")) (token .rightParen ")") []
    let program : List Stmt := [.declare (name "a") none,
      .function (name "f") [] [.declare (name "b") none,
        .expression (.assign (name "a") (.literal (.bool true)))],
      .expression call, .block [.declare (name "c") none],
      .declare (name "d") (some (.variable (name "b"))), .declare (name "e") none]
    let m := Exec.final (Exec.run 10 20 program (.fresh 0))
    Reachable (fun _ => True) (fun _ => True) (.fresh 0) ∧ (Machine.fresh 0).AtGlobals ∧
      Declares [] (.fresh 0) (Exec.final (Exec.eval 10 20 call (.fresh 0))) ∧
      Declares [utf8 "a"] (.fresh 0) ((fresh 0).defineGlobal (utf8 "a") .nil) ∧
      utf8 "a" ∈ m.globalNames ∧ utf8 "f" ∈ m.globalNames ∧ utf8 "b" ∉ m.globalNames ∧
      utf8 "c" ∉ m.globalNames ∧ utf8 "d" ∉ m.globalNames ∧ utf8 "e" ∉ m.globalNames := by
  intro token name call program m
  obtain ⟨heval, hexec, hrun, hreachable, -⟩ := declarations_stay_in_scope 10 20 (.fresh 0)
  have hfresh := hreachable (.fresh 0)
  have hbefore : (Machine.fresh 0).globalNames = [utf8 "clock"] := by decide +kernel
  have hdeclared : (Exec.completed 10 20 program (.fresh 0)).filterMap Stmt.declared =
      [utf8 "a", utf8 "f"] := by decide +kernel
  have hnames (x : Bytes) : x ∈ m.globalNames ↔ x ∈ [utf8 "clock"] ∨ x ∈ [utf8 "a", utf8 "f"] := by
    rw [← hbefore, ← hdeclared, List.mem_filterMap]
    exact (hrun hfresh program).2 x
  have hexecuted : Exec.exec 10 20 (.declare (name "a") none) (.fresh 0) =
      .ok .normal ((fresh 0).defineGlobal (utf8 "a") .nil) := rfl
  refine ⟨.fresh 0, hfresh, heval call, (hexec _).1 _ _ hexecuted, ?_⟩
  simp only [hnames]
  decide

end Machine
end Lox
