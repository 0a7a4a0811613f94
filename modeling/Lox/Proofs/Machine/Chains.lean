import Lox.Proofs.Machine.Course
import Lox.Proofs.Machine.Rooting

/-! The chains of scopes of a machine, at all moments of its runs and between them. -/
namespace Lox

/-- The scope that a function looks names up from. -/
def Value.scope? : Value → Option ScopeId
  | .function f => some f.scope
  | .nil | .bool _ | .number _ | .string _ | .native _ => none

theorem Value.Within.of_scope? {n : Nat} {v : Value} (h : v.Within n) {id : ScopeId}
    (hid : v.scope? = some id) : id < n := by
  cases v with
  | function f =>
    cases hid
    exact h
  | _ => cases hid

namespace Exec
variable {α : Type} {A : Lasting α} {limit n : Nat} {m m' : Machine}

theorem Grown.final {r : EStateM.Result Halt Machine α} (h : Grown A n r) : (final r).Rooted := by
  cases h with
  | ok machine _ _ => exact machine
  | error machine _ => exact machine

theorem Roots.following {x : Exec α} (hx : ∀ k, Roots k A x) (hm : m.Rooted) {a : α}
    (h : x m = .ok a m') :
    m'.Rooted ∧ m.scopes.size ≤ m'.scopes.size ∧ A.holds m'.scopes.size a := by
  have hresult := hx 0 hm (Nat.zero_le _)
  rw [h] at hresult
  exact hresult.of_ok

namespace Activity

/-- The values that an activity is about, which need not be bound anywhere. -/
def values : Activity → List Value
  | apply _ f args => f :: args
  | invoke f args => .function f :: args
  | host _ _ args => args
  | eval _ | evalAll _ | exec _ | execAll _ | execLoop _ _ _ => []

/-- The activity is begun in a rooted machine, which has the scopes of all functions that the
activity is about. -/
def Rooted (a : Activity) (m : Machine) : Prop :=
  m.Rooted ∧ ∀ v ∈ a.values, v.Within m.scopes.size

theorem rooted_of_code {a : Activity} (h : a.values = []) (hm : m.Rooted) : a.Rooted m := by
  refine ⟨hm, ?_⟩
  rw [h]
  exact List.forall_mem_nil _

theorem rooted_after_eval (hm : m.Rooted) {e : Expr} {v : Value}
    (h : Exec.eval limit n e m = .ok v m') : m'.Rooted :=
  (Roots.following (fun k => (rooting limit n).eval k e) hm h).1

theorem parts_eval_rooted (e : Expr) (hm : m.Rooted) :
    ∀ p ∈ (eval e).parts limit n m, p.1.Rooted p.2 := by
  have hcode (a : Expr) {m : Machine} (hm : m.Rooted) : (eval a).Rooted m := rooted_of_code rfl hm
  cases e with
  | literal v => exact List.forall_mem_nil _
  | «variable» name => exact List.forall_mem_nil _
  | grouping a => exact List.forall_mem_singleton.2 (hcode a hm)
  | unary op a => exact List.forall_mem_singleton.2 (hcode a hm)
  | crement op a => exact List.forall_mem_singleton.2 (hcode a hm)
  | assign name a => exact List.forall_mem_singleton.2 (hcode a hm)
  | binary op a b =>
    refine List.forall_mem_cons.2 ⟨hcode a hm, forall_following.2 fun v m' h => ?_⟩
    exact List.forall_mem_singleton.2 (hcode b (rooted_after_eval hm h))
  | comma a b =>
    refine List.forall_mem_cons.2 ⟨hcode a hm, forall_following.2 fun v m' h => ?_⟩
    exact List.forall_mem_singleton.2 (hcode b (rooted_after_eval hm h))
  | logicalAnd op a b =>
    refine List.forall_mem_cons.2 ⟨hcode a hm, forall_following.2 fun v m' h => ?_⟩
    split
    · exact List.forall_mem_singleton.2 (hcode b (rooted_after_eval hm h))
    · exact List.forall_mem_nil _
  | logicalOr op a b =>
    refine List.forall_mem_cons.2 ⟨hcode a hm, forall_following.2 fun v m' h => ?_⟩
    split
    · exact List.forall_mem_nil _
    · exact List.forall_mem_singleton.2 (hcode b (rooted_after_eval hm h))
  | conditional question c a b =>
    refine List.forall_mem_cons.2 ⟨hcode c hm, forall_following.2 fun v m' h => ?_⟩
    have hm' := rooted_after_eval hm h
    split
    · exact List.forall_mem_singleton.2 (hcode a hm')
    · exact List.forall_mem_singleton.2 (hcode b hm')
  | call callee paren args =>
    refine List.forall_mem_cons.2 ⟨hcode callee hm, forall_following.2 fun f m₁ h => ?_⟩
    obtain ⟨hm₁, -, hf⟩ := Roots.following (fun k => (rooting limit n).eval k callee) hm h
    refine List.forall_mem_cons.2 ⟨rooted_of_code rfl hm₁, forall_following.2 fun vs m₂ h => ?_⟩
    obtain ⟨hm₂, hgrows, hvs⟩ := Roots.following (fun k => (rooting limit n).evalAll k args) hm₁ h
    refine List.forall_mem_singleton.2 ⟨hm₂, List.forall_mem_cons.2 ⟨?_, hvs⟩⟩
    exact Value.Within.mono hf hgrows

theorem parts_apply_rooted {paren : Token} {f : Value} {args : List Value}
    (h : (apply paren f args).Rooted m) :
    ∀ p ∈ (apply paren f args).parts limit n m, p.1.Rooted p.2 := by
  obtain ⟨hm, hvalues⟩ := h
  have hcalled : Machine.Rooted { m with depth := m.depth + 1 } := { hm with }
  cases f with
  | function f =>
    simp only [parts]
    split
    · split
      · exact List.forall_mem_nil _
      · exact List.forall_mem_singleton.2 ⟨hcalled, hvalues⟩
    · exact List.forall_mem_nil _
  | native f =>
    simp only [parts]
    split
    · split
      · exact List.forall_mem_nil _
      · exact List.forall_mem_singleton.2 ⟨hcalled, (List.forall_mem_cons.1 hvalues).2⟩
    · exact List.forall_mem_nil _
  | _ => exact List.forall_mem_nil _

theorem parts_invoke_rooted {f : Closure} {args : List Value} (h : (invoke f args).Rooted m) :
    ∀ p ∈ (invoke f args).parts limit n m, p.1.Rooted p.2 := by
  obtain ⟨hm, hvalues⟩ := h
  obtain ⟨hscope, hargs⟩ := List.forall_mem_cons.1 hvalues
  simp only [parts]
  split
  next => exact List.forall_mem_nil _
  next bindings hbound =>
    have hbindings : Bindings.Within m.scopes.size bindings :=
      Bindings.Within.parameters (List.forall_mem_nil _) hargs hbound
    exact List.forall_mem_singleton.2 (rooted_of_code rfl (hm.entering hscope hbindings))

theorem parts_exec_rooted (s : Stmt) (hm : m.Rooted) :
    ∀ p ∈ (exec s).parts limit n m, p.1.Rooted p.2 := by
  cases s with
  | expression e => exact List.forall_mem_singleton.2 (rooted_of_code rfl hm)
  | print keyword e => exact List.forall_mem_singleton.2 (rooted_of_code rfl hm)
  | declare name init =>
    cases init with
    | none => exact List.forall_mem_nil _
    | some e => exact List.forall_mem_singleton.2 (rooted_of_code rfl hm)
  | returnValue keyword value =>
    cases value with
    | none => exact List.forall_mem_nil _
    | some e => exact List.forall_mem_singleton.2 (rooted_of_code rfl hm)
  | block body => exact List.forall_mem_singleton.2 (rooted_of_code rfl hm.inside)
  | branch c yes no =>
    refine List.forall_mem_cons.2 ⟨rooted_of_code rfl hm, forall_following.2 fun v m' h => ?_⟩
    have hm' := (rooted_after_eval hm h).inside
    split
    · exact List.forall_mem_singleton.2 (rooted_of_code rfl hm')
    · exact List.forall_mem_map.2 fun t _ => rooted_of_code rfl hm'
  | loop c body i => exact List.forall_mem_singleton.2 (rooted_of_code rfl hm)
  | _ => exact List.forall_mem_nil _

theorem parts_execLoop_rooted (c : Expr) (s : Stmt) (i : Option Expr) (hm : m.Rooted) :
    ∀ p ∈ (execLoop c s i).parts limit n m, p.1.Rooted p.2 := by
  refine List.forall_mem_cons.2 ⟨rooted_of_code rfl hm, forall_following.2 fun v m₁ h => ?_⟩
  have hm₁ := rooted_after_eval hm h
  split
  · refine List.forall_mem_cons.2 ⟨rooted_of_code rfl hm₁.inside,
      forall_following.2 fun completion m₂ h => ?_⟩
    have hm₂ := (Roots.following (fun k => ((rooting limit n).exec k s).inChild) hm₁ h).1
    cases completion with
    | broke => exact List.forall_mem_nil _
    | returned v => exact List.forall_mem_nil _
    | normal | continued =>
      cases i with
      | none => exact List.forall_mem_singleton.2 (rooted_of_code rfl hm₂)
      | some e =>
        refine List.forall_mem_cons.2 ⟨rooted_of_code rfl hm₂, forall_following.2 fun v m₃ h => ?_⟩
        exact List.forall_mem_singleton.2 (rooted_of_code rfl (rooted_after_eval hm₂ h))
  · exact List.forall_mem_nil _

/-- The parts of an activity are begun in rooted machines if it is. -/
theorem parts_rooted {a : Activity} (h : a.Rooted m) :
    ∀ p ∈ a.parts limit n m, p.1.Rooted p.2 := by
  have hm := h.1
  cases a with
  | eval e => exact parts_eval_rooted e hm
  | evalAll es =>
    cases es with
    | nil => exact List.forall_mem_nil _
    | cons e es =>
      refine List.forall_mem_cons.2 ⟨rooted_of_code rfl hm, forall_following.2 fun v m' h => ?_⟩
      exact List.forall_mem_singleton.2 (rooted_of_code rfl (rooted_after_eval hm h))
  | apply paren f args => exact parts_apply_rooted h
  | invoke f args => exact parts_invoke_rooted h
  | host paren action args => exact List.forall_mem_nil _
  | exec s => exact parts_exec_rooted s hm
  | execAll ss =>
    cases ss with
    | nil => exact List.forall_mem_nil _
    | cons s ss =>
      refine List.forall_mem_cons.2 ⟨rooted_of_code rfl hm,
        forall_following.2 fun completion m' h => ?_⟩
      have hm' := (Roots.following (fun k => (rooting limit n).exec k s) hm h).1
      cases completion with
      | normal => exact List.forall_mem_singleton.2 (rooted_of_code rfl hm')
      | _ => exact List.forall_mem_nil _
  | execLoop c s i => exact parts_execLoop_rooted c s i hm

theorem moments_rooted {a : Activity} (h : a.Rooted m) :
    ∀ x ∈ a.moments limit n m, x.activity.Rooted x.machine :=
  forall_moments (fun _ _ _ h => parts_rooted h) h

end Activity

/-- At all moments of a program the machine is rooted. -/
theorem moments_rooted (ss : List Stmt) (hm : m.Rooted) :
    ∀ x ∈ moments limit n ss m, x.activity.Rooted x.machine := by
  induction ss generalizing m with
  | nil => exact List.forall_mem_nil _
  | cons s ss ih =>
    refine List.forall_mem_append.2 ⟨Activity.moments_rooted (Activity.rooted_of_code rfl hm), ?_⟩
    refine Activity.forall_following.2 fun completion m' h => ih ?_
    exact (Roots.following (fun k => (rooting limit n).exec k s) hm h).1

end Exec

namespace Machine
variable {program : List Stmt → Prop} {expression : Expr → Prop} {m : Machine}

theorem Rooted.defineNative (h : m.Rooted) (name : Bytes) (arity : Int) (action : Native.Action) :
    (m.defineNative name arity action).Rooted := by
  have hnative : (Value.native ⟨m.functions, arity, action⟩).Within m.scopes.size := trivial
  exact { h.define globals name hnative with }

theorem rooted_fresh (clock : Clock) : (fresh clock).Rooted := by
  have hempty : ({ scopes := #[{}], current := globals, clock } : Machine).Rooted := by
    refine ⟨⟨⟨_, rfl, rfl⟩, fun hs hid => ?_⟩, fun s hs => ?_, Nat.zero_lt_one⟩
    · have hlt := (Array.getElem?_eq_some_iff.1 hs).1
      exact absurd (Nat.lt_one_iff.1 hlt) hid
    · cases Array.mem_singleton.1 hs
      exact List.forall_mem_nil _
  exact hempty.defineNative _ _ _

theorem Reachable.rooted (h : m.Reachable program expression) : m.Rooted := by
  induction h with
  | fresh clock => exact rooted_fresh clock
  | hosted _ name arity action ih => exact ih.defineNative name arity action
  | idled _ printed clock ih => exact { ih with }
  | ran _ limit fuel _ ih => exact (Exec.roots_run limit fuel 0 _ ih (Nat.zero_le _)).final
  | evaluated _ limit fuel _ ih =>
    exact ((Exec.rooting limit fuel).eval 0 _ ih (Nat.zero_le _)).final

/-- Names are looked up from there, now or once a function that is bound in some scope is called. -/
def LooksFrom (m : Machine) (id : ScopeId) : Prop :=
  m.current = id ∨ ∃ s ∈ m.scopes, ∃ b ∈ s.bindings, b.2.scope? = some id

instance (m : Machine) (id : ScopeId) : Decidable (m.LooksFrom id) :=
  inferInstanceAs (Decidable (_ ∨ _))

theorem Rooted.leadsOut (h : m.Rooted) {id : ScopeId} (hid : m.LooksFrom id) :
    m.scopes.LeadsOut id := by
  refine h.scopes.leadsOut ?_
  obtain rfl | ⟨s, hs, b, hb, hscope⟩ := hid
  · exact h.current
  · exact (h.values s hs b hb).of_scope? hscope

end Machine

/-- All that names are looked up from at the moment, or will be when a function that is about to be
called or passed is called, leads out to the global names. -/
structure Exec.Moment.LeadsOut (x : Moment) : Prop where
  machine : ∀ id, x.machine.LooksFrom id → x.machine.scopes.LeadsOut id
  values : ∀ v ∈ x.activity.values, ∀ id, v.scope? = some id → x.machine.scopes.LeadsOut id

theorem Exec.Activity.Rooted.leadsOut {x : Exec.Moment} (h : x.activity.Rooted x.machine) :
    x.LeadsOut where
  machine _ hid := h.1.leadsOut hid
  values v hv _ hid := h.1.scopes.leadsOut ((h.2 v hv).of_scope? hid)

/-- Whatever was run and evaluated before, from the current scope and from the scope of every
function there is a way outwards that ends in the global names, between runs and at each moment of a
program or an expression. -/
theorem Machine.scope_chains_end_in_globals {program : List Stmt → Prop} {expression : Expr → Prop}
    {m : Machine} (h : m.Reachable program expression) :
    (∀ id, m.LooksFrom id → m.scopes.LeadsOut id) ∧
    (∀ limit fuel ss, ∀ x ∈ Exec.moments limit fuel ss m, x.LeadsOut) ∧
    ∀ limit fuel e, ∀ x ∈ (Exec.Activity.eval e).moments limit fuel m, x.LeadsOut := by
  have hm := h.rooted
  refine ⟨fun id hid => hm.leadsOut hid, fun limit fuel ss x hx => ?_, fun limit fuel e x hx => ?_⟩
  · exact (Exec.moments_rooted ss hm x hx).leadsOut
  · exact (Exec.Activity.moments_rooted (Exec.Activity.rooted_of_code rfl hm) x hx).leadsOut

/-- A function that is kept after its program has faulted was declared in a call. When it is called
from a block, names are looked up from inside that call, and not from the block. -/
theorem Machine.scope_chains_end_in_globals_kept_function :
    let token (kind : Kind) (text : String) : Token := ⟨kind, utf8 text, .nil, ⟨1, 1, 1⟩⟩
    let name (text : String) := token .identifier text
    let call (f : String) := Expr.call (.variable (name f)) (token .rightParen ")")
    let give (x : String) := Stmt.returnValue (token .kwReturn "return") (some (.variable (name x)))
    let first : List Stmt := [
      .function (name "make") [name "x"] [.function (name "get") [] [give "x"], give "get"],
      .declare (name "f") (some (call "make" [.literal (.bool true)])),
      .expression (.variable (name "unknown"))]
    let second : List Stmt := [.block [.expression (call "f" [])]]
    let m := Exec.final (Exec.run 10 20 first (.fresh 0))
    m.Reachable (fun _ => True) (fun _ => True) ∧
      (m.LooksFrom globals ∧ m.scopes.LeadsOut globals) ∧
      (m.LooksFrom 1 ∧ m.scopes.LeadsOut 1 ∧ m.scopes.chain 1 = [1, globals]) ∧
      ∃ x ∈ Exec.moments 10 20 second m, x.LeadsOut ∧ x.machine.current = 3 ∧
        x.machine.scopes.chain 3 = [3, 1, globals] := by
  intro token name call give first second m
  have hreachable : m.Reachable (fun _ => True) (fun _ => True) := .ran (.fresh 0) 10 20 trivial
  obtain ⟨hbetween, hrun, -⟩ := scope_chains_end_in_globals hreachable
  have hglobals : m.LooksFrom globals := by decide +kernel
  have hkept : m.LooksFrom 1 ∧ m.scopes.chain 1 = [1, globals] := by decide +kernel
  have hmoment : ∃ x ∈ Exec.moments 10 20 second m, x.machine.current = 3 ∧
      x.machine.scopes.chain 3 = [3, 1, globals] := by decide +kernel
  obtain ⟨x, hx, hcurrent, hchain⟩ := hmoment
  exact ⟨hreachable, ⟨hglobals, hbetween _ hglobals⟩, ⟨hkept.1, hbetween _ hkept.1, hkept.2⟩,
    x, hx, hrun 10 20 second x hx, hcurrent, hchain⟩

end Lox
