import Lox.Proofs.Machine.Activity
import Lox.Proofs.Machine.Discipline
import Lox.Proofs.Machine.Frame

/-! What holds throughout a run: no more calls are in progress than there may be, and the code and
the values that the run is about obey the discipline that its program obeys. -/
namespace Lox.Exec

namespace Activity

/-- The code and the values that an activity is about obey the discipline. -/
def Obeys (D : Discipline) : Activity → Prop
  | eval e => e.Every D.expr
  | evalAll es => ∀ e ∈ es, e.Every D.expr
  | apply paren f args => (∃ callee es, D.expr (.call callee paren es)) ∧ f.Obeys D ∧
      ∀ v ∈ args, v.Obeys D
  | invoke f args => f.Obeys D ∧ (∀ v ∈ args, v.Obeys D) ∧ args.length = f.params.length
  | host paren action args => (∀ h, action.Raises paren h → D.halt h) ∧ ∀ v ∈ args, v.Obeys D
  | exec s => s.Every D.expr D.stmt
  | execAll ss => ∀ s ∈ ss, s.Every D.expr D.stmt
  | execLoop c s i => c.Every D.expr ∧ s.Every D.expr D.stmt ∧ ∀ e ∈ i.toList, e.Every D.expr

theorem returns_perform (limit n : Nat) (a : Activity) : Returns (a.perform limit n) := by
  have hall := (frame limit).all n
  cases a with
  | eval e => exact hall.eval e
  | evalAll es => exact hall.evalAll es
  | apply paren f args => exact hall.apply paren f args
  | invoke f args => exact hall.invoke f args
  | host paren action args => exact returns_elementary (.runNative paren action args)
  | exec s => exact hall.exec s
  | execAll ss => exact hall.execAll ss
  | execLoop c s i => exact hall.execLoop c s i

end Activity

/-- The machine has no more calls in progress than there may be, and its values obey the
discipline. -/
structure Sound (D : Discipline) (limit : Nat) (m : Machine) : Prop where
  depth : m.depth ≤ limit
  obeys : m.Obeys D

section
variable {α : Type} {A : α → Prop} {D : Discipline} {limit n : Nat} {m m' : Machine}

theorem Sound.entering (hm : Sound D limit m) (parent : ScopeId)
    {bindings : List (Bytes × Value)} (hb : Bindings.Obey D bindings) :
    Sound D limit (m.entering parent bindings) := ⟨hm.depth, hm.obeys.push hb⟩

theorem Sound.inside (hm : Sound D limit m) : Sound D limit (m.entering m.current []) :=
  hm.entering m.current (List.forall_mem_nil _)

theorem Sound.called (hm : Sound D limit m) (h : ¬ limit ≤ m.depth) :
    Sound D limit { m with depth := m.depth + 1 } := ⟨Nat.lt_of_not_le h, hm.obeys⟩

theorem Sound.following (hm : Sound D limit m) {x : Exec α} (hreturns : Returns x)
    (hobeys : Obeys D A x) {a : α} (h : x m = .ok a m') : A a ∧ Sound D limit m' := by
  have hcontinues := hreturns m
  rw [h] at hcontinues
  obtain ⟨ha, hm'⟩ := hobeys.of_ok hm.obeys h
  exact ⟨ha, Nat.le_trans (Nat.le_of_eq hcontinues.depth) hm.depth, hm'⟩

theorem Sound.eval (hm : Sound D limit m) {e : Expr} (he : e.Every D.expr) {v : Value}
    (h : eval limit n e m = .ok v m') : v.Obeys D ∧ Sound D limit m' :=
  hm.following (((frame limit).all n).eval e) ((obedience D limit n).eval he) h

namespace Activity

theorem parts_eval {e : Expr} (he : e.Every D.expr) (hm : Sound D limit m) :
    ∀ p ∈ (eval e).parts limit n m, p.1.Obeys D ∧ Sound D limit p.2 := by
  have hfirst {a : Expr} {as : List Expr} (h : e.parts = a :: as) : a.Every D.expr :=
    he.part (h ▸ List.mem_cons_self)
  have hsecond {a b : Expr} {as : List Expr} (h : e.parts = a :: b :: as) : b.Every D.expr :=
    he.part (h ▸ List.mem_cons_of_mem _ List.mem_cons_self)
  have hthird {a b c : Expr} {as : List Expr} (h : e.parts = a :: b :: c :: as) :
      c.Every D.expr :=
    he.part (h ▸ List.mem_cons_of_mem _ (List.mem_cons_of_mem _ List.mem_cons_self))
  cases e with
  | literal v => exact List.forall_mem_nil _
  | «variable» name => exact List.forall_mem_nil _
  | grouping a => exact List.forall_mem_singleton.2 ⟨hfirst rfl, hm⟩
  | unary op a => exact List.forall_mem_singleton.2 ⟨hfirst rfl, hm⟩
  | crement op a => exact List.forall_mem_singleton.2 ⟨hfirst rfl, hm⟩
  | assign name a => exact List.forall_mem_singleton.2 ⟨hfirst rfl, hm⟩
  | binary op a b =>
    refine List.forall_mem_cons.2 ⟨⟨hfirst rfl, hm⟩, forall_following.2 fun v m' h => ?_⟩
    exact List.forall_mem_singleton.2 ⟨hsecond rfl, (hm.eval (hfirst rfl) h).2⟩
  | comma a b =>
    refine List.forall_mem_cons.2 ⟨⟨hfirst rfl, hm⟩, forall_following.2 fun v m' h => ?_⟩
    exact List.forall_mem_singleton.2 ⟨hsecond rfl, (hm.eval (hfirst rfl) h).2⟩
  | logicalAnd op a b =>
    refine List.forall_mem_cons.2 ⟨⟨hfirst rfl, hm⟩, forall_following.2 fun v m' h => ?_⟩
    split
    · exact List.forall_mem_singleton.2 ⟨hsecond rfl, (hm.eval (hfirst rfl) h).2⟩
    · exact List.forall_mem_nil _
  | logicalOr op a b =>
    refine List.forall_mem_cons.2 ⟨⟨hfirst rfl, hm⟩, forall_following.2 fun v m' h => ?_⟩
    split
    · exact List.forall_mem_nil _
    · exact List.forall_mem_singleton.2 ⟨hsecond rfl, (hm.eval (hfirst rfl) h).2⟩
  | conditional question c a b =>
    refine List.forall_mem_cons.2 ⟨⟨hfirst rfl, hm⟩, forall_following.2 fun v m' h => ?_⟩
    have hm' := (hm.eval (hfirst rfl) h).2
    split
    · exact List.forall_mem_singleton.2 ⟨hsecond rfl, hm'⟩
    · exact List.forall_mem_singleton.2 ⟨hthird rfl, hm'⟩
  | call callee paren args =>
    have hargs : ∀ a ∈ args, a.Every D.expr := fun a ha => he.part (List.mem_cons_of_mem _ ha)
    refine List.forall_mem_cons.2 ⟨⟨hfirst rfl, hm⟩, forall_following.2 fun f m₁ h => ?_⟩
    obtain ⟨hf, hm₁⟩ := hm.eval (hfirst rfl) h
    refine List.forall_mem_cons.2 ⟨⟨hargs, hm₁⟩, forall_following.2 fun vs m₂ h => ?_⟩
    obtain ⟨hvs, hm₂⟩ := hm₁.following (((frame limit).all n).evalAll args)
      ((obedience D limit n).evalAll hargs) h
    exact List.forall_mem_singleton.2 ⟨⟨⟨callee, args, he.here⟩, hf, hvs⟩, hm₂⟩

theorem parts_apply {paren : Token} {f : Value} {args : List Value}
    (h : (apply paren f args).Obeys D) (hm : Sound D limit m) :
    ∀ p ∈ (apply paren f args).parts limit n m, p.1.Obeys D ∧ Sound D limit p.2 := by
  obtain ⟨⟨callee, es, hcall⟩, hf, hargs⟩ := h
  cases f with
  | function f =>
    simp only [parts]
    split
    next hlen =>
      split
      next => exact List.forall_mem_nil _
      next hdepth => exact List.forall_mem_singleton.2 ⟨⟨hf, hargs, hlen⟩, hm.called hdepth⟩
    next => exact List.forall_mem_nil _
  | native f =>
    simp only [parts]
    split
    next =>
      split
      next => exact List.forall_mem_nil _
      next hdepth =>
        have hhost : (host paren f.action args).Obeys D := ⟨fun _ => D.hosted hcall hf, hargs⟩
        exact List.forall_mem_singleton.2 ⟨hhost, hm.called hdepth⟩
    next => exact List.forall_mem_nil _
  | _ => exact List.forall_mem_nil _

theorem parts_exec {s : Stmt} (hs : s.Every D.expr D.stmt) (hm : Sound D limit m) :
    ∀ p ∈ (exec s).parts limit n m, p.1.Obeys D ∧ Sound D limit p.2 := by
  have hexpr {e : Expr} {es : List Expr} (h : s.expressions = e :: es) : e.Every D.expr :=
    hs.expression (h ▸ List.mem_cons_self)
  cases s with
  | expression e => exact List.forall_mem_singleton.2 ⟨hexpr rfl, hm⟩
  | print keyword e => exact List.forall_mem_singleton.2 ⟨hexpr rfl, hm⟩
  | declare name init =>
    cases init with
    | none => exact List.forall_mem_nil _
    | some e => exact List.forall_mem_singleton.2 ⟨hexpr rfl, hm⟩
  | returnValue keyword value =>
    cases value with
    | none => exact List.forall_mem_nil _
    | some e => exact List.forall_mem_singleton.2 ⟨hexpr rfl, hm⟩
  | block body =>
    exact List.forall_mem_singleton.2 ⟨fun t ht => hs.part ht, hm.inside⟩
  | branch c yes no =>
    refine List.forall_mem_cons.2 ⟨⟨hexpr rfl, hm⟩, forall_following.2 fun v m' h => ?_⟩
    have hm' := (hm.eval (hexpr rfl) h).2
    split
    · exact List.forall_mem_singleton.2 ⟨hs.part List.mem_cons_self, hm'.inside⟩
    · refine List.forall_mem_map.2 fun t ht => ⟨?_, hm'.inside⟩
      exact hs.part (List.mem_cons_of_mem _ ht)
  | loop c body i =>
    have hi : ∀ e ∈ i.toList, e.Every D.expr :=
      fun e he => hs.expression (List.mem_cons_of_mem _ he)
    exact List.forall_mem_singleton.2 ⟨⟨hexpr rfl, hs.part List.mem_cons_self, hi⟩, hm⟩
  | _ => exact List.forall_mem_nil _

theorem parts_execLoop {c : Expr} {s : Stmt} {i : Option Expr} (h : (execLoop c s i).Obeys D)
    (hm : Sound D limit m) :
    ∀ p ∈ (execLoop c s i).parts limit n m, p.1.Obeys D ∧ Sound D limit p.2 := by
  obtain ⟨hc, hs, hi⟩ := h
  refine List.forall_mem_cons.2 ⟨⟨hc, hm⟩, forall_following.2 fun v m₁ h => ?_⟩
  have hm₁ := (hm.eval hc h).2
  split
  · refine List.forall_mem_cons.2 ⟨⟨hs, hm₁.inside⟩, forall_following.2 fun completion m₂ h => ?_⟩
    obtain ⟨-, hm₂⟩ := hm₁.following ((frame limit).inChild (((frame limit).all n).exec s))
      (obeys_inChild ((obedience D limit n).exec hs)) h
    cases completion with
    | broke => exact List.forall_mem_nil _
    | returned v => exact List.forall_mem_nil _
    | normal | continued =>
      cases i with
      | none => exact List.forall_mem_singleton.2 ⟨⟨hc, hs, hi⟩, hm₂⟩
      | some e =>
        have he := hi e List.mem_cons_self
        refine List.forall_mem_cons.2 ⟨⟨he, hm₂⟩, forall_following.2 fun v m₃ h => ?_⟩
        exact List.forall_mem_singleton.2 ⟨⟨hc, hs, hi⟩, (hm₂.eval he h).2⟩
  · exact List.forall_mem_nil _

/-- The parts of an activity obey the discipline that it obeys, in a machine that is sound. -/
theorem parts_sound {a : Activity} (ha : a.Obeys D) (hm : Sound D limit m) :
    ∀ p ∈ a.parts limit n m, p.1.Obeys D ∧ Sound D limit p.2 := by
  cases a with
  | eval e => exact parts_eval ha hm
  | evalAll es =>
    cases es with
    | nil => exact List.forall_mem_nil _
    | cons e es =>
      obtain ⟨he, hes⟩ := List.forall_mem_cons.1 ha
      refine List.forall_mem_cons.2 ⟨⟨he, hm⟩, forall_following.2 fun v m' h => ?_⟩
      exact List.forall_mem_singleton.2 ⟨hes, (hm.eval he h).2⟩
  | apply paren f args => exact parts_apply ha hm
  | invoke f args =>
    obtain ⟨hf, hargs, -⟩ := ha
    simp only [parts]
    split
    next => exact List.forall_mem_nil _
    next bindings hbound =>
      have hbindings : Bindings.Obey D bindings :=
        Bindings.Obey.parameters (List.forall_mem_nil _) hargs hbound
      have hbody : ∀ s ∈ f.body, s.Every D.expr D.stmt := fun s hs => Stmt.Every.part hf hs
      exact List.forall_mem_singleton.2 ⟨hbody, hm.entering f.scope hbindings⟩
  | host paren action args => exact List.forall_mem_nil _
  | exec s => exact parts_exec ha hm
  | execAll ss =>
    cases ss with
    | nil => exact List.forall_mem_nil _
    | cons s ss =>
      obtain ⟨hs, hss⟩ := List.forall_mem_cons.1 ha
      refine List.forall_mem_cons.2 ⟨⟨hs, hm⟩, forall_following.2 fun completion m' h => ?_⟩
      obtain ⟨-, hm'⟩ := hm.following (((frame limit).all n).exec s)
        ((obedience D limit n).exec hs) h
      cases completion with
      | normal => exact List.forall_mem_singleton.2 ⟨hss, hm'⟩
      | _ => exact List.forall_mem_nil _
  | execLoop c s i => exact parts_execLoop ha hm

end Activity

/-- At all moments of an activity that obeys the discipline, so does what is begun, and the machine
is sound. -/
theorem Activity.moments_sound {a : Activity} (ha : a.Obeys D) (hm : Sound D limit m) :
    ∀ x ∈ a.moments limit n m, x.activity.Obeys D ∧ Sound D limit x.machine := by
  have hparts : ∀ n a m, Activity.Obeys D a ∧ Sound D limit m →
      ∀ p ∈ a.parts limit n m, p.1.Obeys D ∧ Sound D limit p.2 := fun n a m h => parts_sound h.1 h.2
  exact forall_moments hparts ⟨ha, hm⟩

/-- At all moments of a program that obeys the discipline, so does what is begun, and the machine is
sound. -/
theorem moments_sound {ss : List Stmt} (hss : ∀ s ∈ ss, s.Every D.expr D.stmt)
    (hm : Sound D limit m) :
    ∀ x ∈ moments limit n ss m, x.activity.Obeys D ∧ Sound D limit x.machine := by
  induction ss generalizing m with
  | nil => exact List.forall_mem_nil _
  | cons s ss ih =>
    obtain ⟨hs, hss⟩ := List.forall_mem_cons.1 hss
    refine List.forall_mem_append.2 ⟨Activity.moments_sound hs hm, ?_⟩
    refine Activity.forall_following.2 fun completion m' h => ih hss ?_
    exact (hm.following (((frame limit).all n).exec s) ((obedience D limit n).exec hs) h).2

end

end Lox.Exec

/-! Between runs. -/

namespace Lox.Machine

/-- The machines that there are between runs where only such programs have been run and only such
expressions evaluated. Meanwhile the host may define functions and take what was printed. -/
inductive Reachable (program : List Stmt → Prop) (expression : Expr → Prop) : Machine → Prop where
  | fresh (clock : Clock) : Reachable program expression (.fresh clock)
  | hosted {m : Machine} (h : Reachable program expression m) (name : Bytes) (arity : Int)
      (action : Native.Action) : Reachable program expression (m.defineNative name arity action)
  | idled {m : Machine} (h : Reachable program expression m) (printed : Array Bytes)
      (clock : Clock) : Reachable program expression { m with printed, clock }
  | ran {m : Machine} (h : Reachable program expression m) (limit fuel : Nat) {ss : List Stmt}
      (hss : program ss) : Reachable program expression (Exec.final (Exec.run limit fuel ss m))
  | evaluated {m : Machine} (h : Reachable program expression m) (limit fuel : Nat) {e : Expr}
      (he : expression e) : Reachable program expression (Exec.final (Exec.eval limit fuel e m))

variable {D : Discipline} {m : Machine}

theorem Obeys.defineNative (h : m.Obeys D) (name : Bytes) (arity : Int) {action : Native.Action}
    (hnative : D.native ⟨m.functions, arity, action⟩) :
    (m.defineNative name arity action).Obeys D := h.define globals name hnative

theorem Obeys.final {α : Type} {A : α → Prop} {x : Exec α} (h : m.Obeys D)
    (hx : Exec.Obeys D A x) : (Exec.final (x m)).Obeys D := by
  have hresult := hx h
  generalize x m = r at hresult ⊢
  cases hresult with
  | ok _ hm => exact hm
  | error _ hm => exact hm

theorem obeys_fresh (hclock : ∀ id, D.native ⟨id, 0, .clock⟩) (clock : Clock) :
    (fresh clock).Obeys D := by
  have hempty : ({ scopes := #[{}], current := globals, clock } : Machine).Obeys D := by
    intro s hs
    cases Array.mem_singleton.1 hs
    exact List.forall_mem_nil _
  exact hempty.defineNative _ _ (hclock _)

/-- Where all programs and expressions obey a discipline, the machine does. -/
theorem Reachable.obeys {program : List Stmt → Prop} {expression : Expr → Prop}
    (hprogram : ∀ ss, program ss → ∀ s ∈ ss, s.Every D.expr D.stmt)
    (hexpression : ∀ e, expression e → e.Every D.expr) (hnative : ∀ f, D.native f)
    (h : Reachable program expression m) : m.Obeys D := by
  induction h with
  | fresh clock => exact obeys_fresh (fun _ => hnative _) clock
  | hosted _ name arity action ih => exact ih.defineNative name arity (hnative _)
  | idled _ printed clock ih => exact ih
  | ran _ limit fuel hss ih => exact ih.final (Exec.obeys_run limit fuel (hprogram _ hss))
  | evaluated _ limit fuel he ih =>
    exact ih.final ((Exec.obedience D limit fuel).eval (hexpression _ he))

/-- Between runs the machine is in the scope of the global names, and no call is in progress. -/
theorem Reachable.at_rest {program : List Stmt → Prop} {expression : Expr → Prop}
    (h : Reachable program expression m) : m.current = globals ∧ m.depth = 0 := by
  induction h with
  | fresh clock => exact ⟨rfl, rfl⟩
  | hosted _ name arity action ih => exact ih
  | idled _ printed clock ih => exact ih
  | @ran m _ limit fuel ss _ ih =>
    have hcontinues := (Exec.frame limit).run fuel ss m
    exact ⟨hcontinues.current.trans ih.1, hcontinues.depth.trans ih.2⟩
  | @evaluated m _ limit fuel e _ ih =>
    have hcontinues := ((Exec.frame limit).all fuel).eval e m
    exact ⟨hcontinues.current.trans ih.1, hcontinues.depth.trans ih.2⟩

theorem Reachable.sound {program : List Stmt → Prop} {expression : Expr → Prop}
    (h : Reachable program expression m) (hobeys : m.Obeys D) (limit : Nat) :
    Exec.Sound D limit m := by
  refine ⟨?_, hobeys⟩
  rw [h.at_rest.2]
  exact Nat.zero_le limit

end Lox.Machine
