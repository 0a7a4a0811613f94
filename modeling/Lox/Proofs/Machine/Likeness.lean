import Lox.Proofs.Scope.Bindings
import Lox.Proofs.Syntax.Likeness

/-! Machines that run one program from texts that are laid out differently: the tokens they hold
differ in their places only. Each elementary step keeps such machines alike. -/
namespace Lox

/-- Tokens that differ in their places only. -/
def Likeness.unplaced : Likeness where
  like t u := t.kind = u.kind ∧ t.lexeme = u.lexeme ∧ t.literal = u.literal
  kind h := h.1

namespace Likeness.unplaced
variable {t u : Token}

theorem lexeme (h : unplaced.like t u) : t.lexeme = u.lexeme := h.2.1

theorem literal {v w : Literal} (h : v.Like unplaced w) : v = w := by
  cases h with
  | nil => rfl
  | bool => rfl
  | token _ h => exact h.2.2

end Likeness.unplaced

open Likeness (unplaced)

structure Closure.Like (f g : Closure) : Prop where
  identity : f.identity = g.identity
  name : unplaced.like f.name g.name
  params : List.Forall₂ unplaced.like f.params g.params
  body : List.Forall₂ (Stmt.Like unplaced) f.body g.body
  scope : f.scope = g.scope

inductive Value.Like : Value → Value → Prop where
  | nil : Value.Like .nil .nil
  | bool (b : Bool) : Value.Like (.bool b) (.bool b)
  | number (x : Float) : Value.Like (.number x) (.number x)
  | string (s : Bytes) : Value.Like (.string s) (.string s)
  | function {f g : Closure} (h : f.Like g) : Value.Like (.function f) (.function g)
  | native (f : Native) : Value.Like (.native f) (.native f)

namespace Value.Like
variable {v w v' w' : Value}

theorem ofLiteral (l : Literal) : (Value.ofLiteral l).Like (Value.ofLiteral l) := by
  cases l with
  | nil => exact .nil
  | bool b => exact .bool b
  | number x => exact .number x
  | string s => exact .string s

theorem isTruthy (h : v.Like w) : v.isTruthy = w.isTruthy := by cases h <;> rfl

theorem typeName (h : v.Like w) : v.typeName = w.typeName := by cases h <;> rfl

theorem text (h : v.Like w) : v.text = w.text := by
  cases h with
  | function h => rw [Value.text, Value.text, unplaced.lexeme h.name]
  | _ => rfl

theorem equal (h : v.Like w) (h' : v'.Like w') : v.equal v' = w.equal w' := by
  cases h with
  | function h =>
    cases h' with
    | function h' => rw [Value.equal, Value.equal, h.identity, h'.identity]
    | _ => rfl
  | _ => cases h' <;> rfl

end Value.Like

/-- The same names with like values, in the same order. -/
abbrev Bindings.Like : List (Bytes × Value) → List (Bytes × Value) → Prop :=
  List.Forall₂ fun a b => a.1 = b.1 ∧ a.2.Like b.2

namespace Bindings.Like
variable {as bs : List (Bytes × Value)}

theorem lookup (h : Bindings.Like as bs) (name : Bytes) :
    Option.Rel Value.Like (as.lookup name) (bs.lookup name) :=
  Rel.lookup (R := Value.Like) h name

theorem names (h : Bindings.Like as bs) : as.map (·.1) = bs.map (·.1) :=
  Rel.names (R := Value.Like) h

theorem insert {v w : Value} (name : Bytes) (h : Bindings.Like as bs) (hv : v.Like w) :
    Bindings.Like (Scope.insert name v as) (Scope.insert name w bs) :=
  Rel.insert (R := Value.Like) h name hv

end Bindings.Like

structure Scope.Like (s t : Scope) : Prop where
  bindings : Bindings.Like s.bindings t.bindings
  parent : s.parent = t.parent

/-- The same scopes with like bindings. -/
structure Forest.Like (f g : Forest) : Prop where
  size : f.size = g.size
  scope : ∀ id : ScopeId, Option.Rel Scope.Like f[id]? g[id]?

namespace Forest.Like
variable {f g : Forest}

theorem ownerFrom (h : Like f g) (name : Bytes) (fuel : Nat) (id : ScopeId) :
    Forest.ownerFrom f name fuel id = Forest.ownerFrom g name fuel id := by
  induction fuel generalizing id with
  | zero => rfl
  | succ fuel ih =>
    have hscope := h.scope id
    unfold Forest.ownerFrom
    generalize f[id]? = s, g[id]? = t at hscope ⊢
    cases hscope with
    | none => rfl
    | @some s t hst =>
      have hfound : (s.find? name).isSome = (t.find? name).isSome := by
        have hfind := hst.bindings.lookup name
        unfold Scope.find?
        generalize s.bindings.lookup name = x, t.bindings.lookup name = y at hfind ⊢
        cases hfind <;> rfl
      dsimp only
      rw [hfound, hst.parent]
      cases t.parent with
      | none => rfl
      | some p => dsimp only; rw [ih]

theorem owner? (h : Like f g) (id : ScopeId) (name : Bytes) :
    Forest.owner? f id name = Forest.owner? g id name := by
  unfold Forest.owner?
  rw [h.size, h.ownerFrom]

theorem get? (h : Like f g) (id : ScopeId) (name : Bytes) :
    Option.Rel Value.Like (Forest.get? f id name) (Forest.get? g id name) := by
  unfold Forest.get?
  rw [h.owner?]
  cases Forest.owner? g id name with
  | none => exact .none
  | some owner =>
    have hscope := h.scope owner
    dsimp only
    generalize f[owner]? = s, g[owner]? = t at hscope ⊢
    cases hscope with
    | none => exact .none
    | some hst => exact hst.bindings.lookup name

theorem define (h : Like f g) (id : ScopeId) (name : Bytes) {v w : Value} (hv : v.Like w) :
    Like (Forest.define f id name v) (Forest.define g id name w) where
  size := by
    unfold Forest.define
    rw [Array.size_modify, Array.size_modify, h.size]
  scope i := by
    have hscope := h.scope i
    unfold Forest.define
    rw [Array.getElem?_modify, Array.getElem?_modify]
    split
    · generalize f[i]? = s, g[i]? = t at hscope ⊢
      cases hscope with
      | none => exact .none
      | some hst => exact .some ⟨hst.bindings.insert name hv, hst.parent⟩
    · exact hscope

theorem push (h : Like f g) {s t : Scope} (hst : s.Like t) : Like (f.push s) (g.push t) where
  size := by rw [Array.size_push, Array.size_push, h.size]
  scope i := by
    rw [Array.getElem?_push, Array.getElem?_push, h.size]
    split
    · exact .some hst
    · exact h.scope i

theorem chainFrom (h : Like f g) (fuel : Nat) (id : ScopeId) :
    Forest.chainFrom f fuel id = Forest.chainFrom g fuel id := by
  induction fuel generalizing id with
  | zero => rfl
  | succ fuel ih =>
    have hscope := h.scope id
    unfold Forest.chainFrom
    generalize f[id]? = s, g[id]? = t at hscope ⊢
    cases hscope with
    | none => rfl
    | @some s t hst =>
      dsimp only
      rw [hst.parent]
      cases t.parent with
      | none => rfl
      | some p => dsimp only; rw [ih]

theorem ownNames (h : Like f g) (id : ScopeId) : Forest.ownNames f id = Forest.ownNames g id := by
  have hscope := h.scope id
  unfold Forest.ownNames
  generalize f[id]? = s, g[id]? = t at hscope ⊢
  cases hscope with
  | none => rfl
  | some hst => exact hst.bindings.names

theorem names (h : Like f g) (id : ScopeId) : Forest.names f id = Forest.names g id := by
  have hown : Forest.ownNames f = Forest.ownNames g := funext h.ownNames
  unfold Forest.names Forest.chain
  rw [h.size, h.chainFrom, hown]

end Forest.Like

/-- Machines in like states, of which the second has printed the texts `before` on top. -/
structure Machine.Like (before : List Bytes) (m n : Machine) : Prop where
  scopes : Forest.Like m.scopes n.scopes
  current : m.current = n.current
  depth : m.depth = n.depth
  functions : m.functions = n.functions
  printed : before ++ m.printed.toList = n.printed.toList
  clock : m.clock = n.clock
  readings : m.readings = n.readings

structure RuntimeFault.Like (f g : RuntimeFault) : Prop where
  error : f.error = g.error
  token : unplaced.like f.token g.token

inductive Halt.Like : Halt → Halt → Prop where
  | fault {f g : RuntimeFault} (h : f.Like g) : Halt.Like (.fault f) (.fault g)
  | malformed : Halt.Like .malformed .malformed
  | exhausted : Halt.Like .exhausted .exhausted

inductive Completion.Like : Completion → Completion → Prop where
  | normal : Completion.Like .normal .normal
  | returned {v w : Value} (h : v.Like w) : Completion.Like (.returned v) (.returned w)
  | broke : Completion.Like .broke .broke
  | continued : Completion.Like .continued .continued

namespace Exec
variable {before : List Bytes} {α β : Type} {A : α → β → Prop}

/-- On like machines both computations end alike. -/
abbrev Agree (before : List Bytes) (A : α → β → Prop) (x : Exec α) (y : Exec β) : Prop :=
  Related Halt.Like (Machine.Like before) A x y

theorem agree_fail (error : RuntimeError) {t u : Token} (ht : unplaced.like t u) :
    Agree before A (fail error t) (fail error u) := .throw (.fault ⟨rfl, ht⟩)

theorem like_undefinedName {f g : Forest} (h : Forest.Like f g) (id : ScopeId) {t u : Token}
    (ht : unplaced.like t u) : (f.undefinedName id t).Like (g.undefinedName id u) where
  error := by
    unfold Forest.undefinedName
    rw [h.names, unplaced.lexeme ht]
  token := ht

theorem agree_lookUp {t u : Token} (ht : unplaced.like t u) :
    Agree before Value.Like (lookUp t) (lookUp u) := by
  intro m n h
  have hvalue := h.scopes.get? m.current t.lexeme
  unfold lookUp
  rw [← h.current, ← unplaced.lexeme ht]
  generalize m.scopes.get? m.current t.lexeme = v, n.scopes.get? m.current t.lexeme = w
    at hvalue ⊢
  cases hvalue with
  | none => exact .error (.fault (like_undefinedName h.scopes _ ht)) h
  | some hv => exact .ok hv h

theorem agree_assign {t u : Token} (ht : unplaced.like t u) {v w : Value} (hv : v.Like w) :
    Agree before Eq (assign t v) (assign u w) := by
  intro m n h
  unfold assign
  rw [← h.current, ← unplaced.lexeme ht, ← h.scopes.owner?]
  cases m.scopes.owner? m.current t.lexeme with
  | none => exact .error (.fault (like_undefinedName h.scopes _ ht)) h
  | some owner => exact .ok rfl { h with scopes := h.scopes.define owner _ hv, current := rfl }

theorem agree_declare {t u : Token} (ht : unplaced.like t u) {v w : Value} (hv : v.Like w) :
    Agree before Eq (declare t v) (declare u w) := by
  intro m n h
  unfold declare
  rw [← h.current, ← unplaced.lexeme ht]
  exact .ok rfl { h with scopes := h.scopes.define _ _ hv, current := rfl }

theorem agree_print (text : Bytes) : Agree before Eq (print text) (print text) := by
  intro m n h
  refine .ok rfl { h with printed := ?_ }
  dsimp only
  rw [Array.toList_push, Array.toList_push, ← h.printed, List.append_assoc]

theorem agree_close {t u : Token} {ts us : List Token} {as bs : List Stmt} (ht : unplaced.like t u)
    (hts : List.Forall₂ unplaced.like ts us) (hs : List.Forall₂ (Stmt.Like unplaced) as bs) :
    Agree before Value.Like (close t ts as) (close u us bs) := by
  intro m n h
  exact .ok (.function ⟨h.functions, ht, hts, hs, h.current⟩)
    { h with functions := by rw [h.functions] }

theorem agree_inScope (parent : ScopeId) {as bs : List (Bytes × Value)} (hb : Bindings.Like as bs)
    {x : Exec α} {y : Exec β} (hx : Agree before A x y) :
    Agree before A (inScope parent as x) (inScope parent bs y) := by
  intro m n h
  have hentered : Machine.Like before
      { m with scopes := m.scopes.push ⟨as, some parent⟩, current := m.scopes.size }
      { n with scopes := n.scopes.push ⟨bs, some parent⟩, current := n.scopes.size } :=
    { h with scopes := h.scopes.push ⟨hb, rfl⟩, current := h.scopes.size }
  have hresult := hx hentered
  unfold inScope
  dsimp only
  generalize x _ = r, y _ = r' at hresult ⊢
  cases hresult with
  | ok ha hs => exact .ok ha { hs with current := h.current }
  | error he hs => exact .error he { hs with current := h.current }

theorem agree_inChild {x : Exec α} {y : Exec β} (hx : Agree before A x y) :
    Agree before A (inChild x) (inChild y) := by
  intro m n h
  unfold inChild
  rw [← h.current]
  exact agree_inScope m.current .nil hx h

theorem agree_asCall (limit : Nat) {t u : Token} (ht : unplaced.like t u) {x : Exec α}
    {y : Exec β} (hx : Agree before A x y) :
    Agree before A (asCall limit t x) (asCall limit u y) := by
  intro m n h
  have hentered : Machine.Like before { m with depth := m.depth + 1 }
      { n with depth := n.depth + 1 } := { h with depth := by rw [h.depth] }
  have hresult := hx hentered
  unfold asCall
  rw [← h.depth] at hresult ⊢
  split
  · exact .error (.fault ⟨rfl, ht⟩) h
  · generalize x _ = r, y _ = r' at hresult ⊢
    cases hresult with
    | ok ha hs => exact .ok ha { hs with depth := by rw [hs.depth] }
    | error he hs => exact .error he { hs with depth := by rw [hs.depth] }

theorem agree_runNative {t u : Token} (ht : unplaced.like t u) (action : Native.Action)
    {vs ws : List Value} (h : List.Forall₂ Value.Like vs ws) :
    Agree before Value.Like (runNative t action vs) (runNative u action ws) := by
  intro m n hmn
  unfold runNative
  cases action with
  | clock =>
    have htime : m.clock.time m.readings = n.clock.time n.readings := by
      rw [hmn.clock, hmn.readings]
    rw [← htime]
    exact .ok (.number _) { hmn with readings := by rw [hmn.readings] }
  | lastArgument =>
    refine .ok ?_ hmn
    have hlast := List.forall₂_reverse_iff.2 h
    rw [List.getLast?_eq_head?_reverse, List.getLast?_eq_head?_reverse]
    generalize vs.reverse = vs, ws.reverse = ws at hlast ⊢
    cases hlast with
    | nil => exact .nil
    | cons hv _ => exact hv
  | fail text => exact .error (.fault ⟨rfl, ht⟩) hmn
  | raise code message => exact .error (.fault ⟨rfl, rfl, rfl, rfl⟩) hmn

end Exec
end Lox
