import Lox.Proofs.Machine.CallLimit
import Lox.Proofs.Machine.Safety

/-! Without a loop every program ends. A call goes on to code of any size, but only so many calls
can be in progress; and between two calls a run goes down into its code. -/
namespace Lox

def Stmt.isLoop : Stmt → Bool
  | .loop _ _ _ => true
  | _ => false

/-- The statement holds no loop, neither in itself nor in the functions declared within it. -/
def Stmt.LoopFree (s : Stmt) : Prop := s.Every (fun _ => True) fun t => t.isLoop = false

/-- No function that the machine holds has a loop in it. -/
def Discipline.loopFree : Discipline where
  expr _ := True
  stmt t := t.isLoop = false
  native _ := True
  halt _ := True
  exhausted := trivial
  raises _ _ := trivial
  hosted _ _ _ := trivial

/-- If there is an operator at the node, the machine knows it. -/
def Expr.Operable : Expr → Prop
  | .unary op _ => op.kind.isNegation = true
  | .binary op _ _ => op.kind.isBinary = true
  | .literal _ | .grouping _ | .crement _ _ | .logicalAnd _ _ _ | .logicalOr _ _ _
  | .conditional _ _ _ _ | .comma _ _ | .variable _ | .assign _ _ | .call _ _ _ => True

theorem Halt.exhausted_ne_malformed : exhausted ≠ malformed := by
  rintro ⟨⟩

theorem Expr.Operable.raises {e : Expr} {h : Halt} (he : e.Operable) (hraises : e.Raises h) :
    h ≠ .malformed := by
  rintro rfl
  cases hraises with
  | unknownUnary hk | unknownBinary hk => cases he.symm.trans hk

theorem Native.Action.Raises.ne_malformed {paren : Token} {action : Native.Action} {h : Halt}
    (hraises : action.Raises paren h) : h ≠ .malformed := by
  rintro rfl
  cases hraises

/-- Code with known operators does not halt as malformed. -/
def Discipline.operable : Discipline where
  expr := Expr.Operable
  stmt _ := True
  native _ := True
  halt h := h ≠ .malformed
  exhausted := Halt.exhausted_ne_malformed
  raises := Expr.Operable.raises
  hosted _ _ hraises := hraises.ne_malformed

namespace Exec
variable {α β : Type}

theorem ended_error {h : Halt} {m : Machine} :
    ended (.error h m : EStateM.Result Halt Machine α) = true ↔ h ≠ .exhausted := by
  cases h <;> simp [ended]

/-- From some number of steps on the computation comes to the same end. -/
def Settles (x : Nat → Exec α) (m : Machine) : Prop :=
  ∃ r N, ended r = true ∧ ∀ n, N ≤ n → x n m = r

namespace Settles
variable {m : Machine}

theorem of_ended {x : Exec α} (h : ended (x m) = true) : Settles (fun _ => x) m :=
  ⟨x m, 0, h, fun _ _ => rfl⟩

theorem pure (a : α) : Settles (fun _ => Pure.pure a) m := of_ended rfl

theorem fail (error : RuntimeError) (t : Token) : Settles (fun _ => (fail error t : Exec α)) m :=
  of_ended rfl

/-- One step is for the node itself. -/
theorem succ {x : Nat → Exec α} (h : Settles (fun n => x (n + 1)) m) : Settles x m := by
  obtain ⟨r, N, hr, hx⟩ := h
  refine ⟨r, N + 1, hr, fun n hn => ?_⟩
  obtain ⟨k, rfl⟩ := Nat.exists_eq_add_of_le' (Nat.le_trans (Nat.le_add_left 1 N) hn)
  exact hx k (Nat.le_of_succ_le_succ hn)

theorem bind {x : Nat → Exec α} {f : Nat → α → Exec β} (hx : Settles x m)
    (hf : ∀ n a m', x n m = .ok a m' → Settles (fun k => f k a) m') :
    Settles (fun n => x n >>= f n) m := by
  obtain ⟨r, N, hr, hx⟩ := hx
  cases r with
  | ok a m' =>
    obtain ⟨r', K, hr', hf⟩ := hf N a m' (hx N (Nat.le_refl N))
    refine ⟨r', max N K, hr', fun n hn => ?_⟩
    change EStateM.bind (x n) (f n) m = r'
    unfold EStateM.bind
    rw [hx n (Nat.le_trans (Nat.le_max_left N K) hn)]
    exact hf n (Nat.le_trans (Nat.le_max_right N K) hn)
  | error h m' =>
    refine ⟨.error h m', N, ended_error.2 (ended_error.1 hr), fun n hn => ?_⟩
    change EStateM.bind (x n) (f n) m = .error h m'
    unfold EStateM.bind
    rw [hx n hn]

theorem inScope {x : Nat → Exec α} {parent : ScopeId} {bindings : List (Bytes × Value)}
    (h : Settles x (m.entering parent bindings)) :
    Settles (fun n => inScope parent bindings (x n)) m := by
  obtain ⟨r, N, hr, hx⟩ := h
  refine ⟨_, N, ?_, fun n hn => Activity.inScope_congr (y := fun _ => r) (hx n hn)⟩
  unfold Exec.inScope
  cases r with
  | ok a m' => rfl
  | error h m' => exact ended_error.2 (ended_error.1 hr)

theorem inChild {x : Nat → Exec α} (h : Settles x (m.entering m.current [])) :
    Settles (fun n => inChild (x n)) m := h.inScope

theorem asCall {x : Nat → Exec α} {limit : Nat} {paren : Token}
    (h : ¬ limit ≤ m.depth → Settles x { m with depth := m.depth + 1 }) :
    Settles (fun n => asCall limit paren (x n)) m := by
  by_cases hdepth : limit ≤ m.depth
  · refine ⟨.error (.fault ⟨.stackOverflow, paren⟩) m, 0, rfl, fun n _ => if_pos hdepth⟩
  · obtain ⟨r, N, hr, hx⟩ := h hdepth
    refine ⟨_, N, ?_, fun n hn => Activity.asCall_congr (y := fun _ => r) fun _ => hx n hn⟩
    unfold Exec.asCall
    rw [if_neg hdepth]
    cases r with
    | ok a m' => rfl
    | error h m' => exact ended_error.2 (ended_error.1 hr)

end Settles

/-! Operators take no steps of their own. -/

theorem settles_unaryOperator (op : Token) (v : Value) (m : Machine) :
    Settles (fun _ => unaryOperator op v) m := by
  unfold unaryOperator
  split
  · exact .pure _
  · split
    · exact .pure _
    · exact .fail _ op
  · exact .of_ended rfl

theorem settles_arithmetic (op : Token) (x y : Float) (m : Machine) :
    Settles (fun _ => arithmetic op x y) m := by
  unfold arithmetic
  split
  · exact .pure _
  · exact .pure _
  · split
    · exact .fail _ op
    · exact .pure _
  · exact .pure _
  · exact .pure _
  · exact .pure _
  · exact .pure _
  · exact .of_ended rfl

theorem settles_binaryOperator (op : Token) (v w : Value) (m : Machine) :
    Settles (fun _ => binaryOperator op v w) m := by
  unfold binaryOperator
  split
  · exact .pure _
  · exact .pure _
  · unfold plus
    split
    · exact .pure _
    · exact .pure _
    · exact .fail _ op
  · split
    · exact settles_arithmetic op _ _ m
    · exact .fail _ op

theorem settles_crementOperator (op : Token) (v : Value) (m : Machine) :
    Settles (fun _ => crementOperator op v) m := by
  unfold crementOperator
  split
  · exact .pure _
  · exact .fail _ op

theorem settles_lookUp (name : Token) (m : Machine) : Settles (fun _ => lookUp name) m := by
  refine .of_ended ?_
  unfold lookUp
  split <;> rfl

theorem settles_assign (name : Token) (v : Value) (m : Machine) :
    Settles (fun _ => assign name v) m := by
  refine .of_ended ?_
  unfold assign
  split <;> rfl

/-- The machine has so many calls in progress, and holds no loop. -/
structure Poised (calls : Nat) (m : Machine) : Prop where
  depth : m.depth = calls
  obeys : m.Obeys .loopFree

section
variable {limit calls n : Nat} {m m' : Machine}

theorem Poised.following {A : α → Prop} {x : Exec α} (hm : Poised calls m) (hreturns : Returns x)
    (hobeys : Obeys .loopFree A x) {a : α} (h : x m = .ok a m') : A a ∧ Poised calls m' := by
  have hcontinues := hreturns m
  rw [h] at hcontinues
  obtain ⟨ha, hm'⟩ := hobeys.of_ok hm.obeys h
  exact ⟨ha, hcontinues.depth.trans hm.depth, hm'⟩

theorem Poised.eval (hm : Poised calls m) {e : Expr} (he : e.Every Discipline.loopFree.expr)
    {v : Value} (h : eval limit n e m = .ok v m') : v.Obeys .loopFree ∧ Poised calls m' :=
  hm.following (((frame limit).all n).eval e) ((obedience _ limit n).eval he) h

theorem Poised.inside (hm : Poised calls m) : Poised calls (m.entering m.current []) :=
  ⟨hm.depth, hm.obeys.push (List.forall_mem_nil _)⟩

theorem settles_evalAll {es : List Expr} (hes : ∀ e ∈ es, e.Every Discipline.loopFree.expr)
    (hsettles : ∀ e ∈ es, ∀ {m}, Poised calls m → Settles (fun n => eval limit n e) m)
    (hm : Poised calls m) : Settles (fun n => evalAll limit n es) m := by
  induction es generalizing m with
  | nil => exact .succ (.pure [])
  | cons e es ih =>
    obtain ⟨he, hes⟩ := List.forall_mem_cons.1 hes
    obtain ⟨hfirst, hothers⟩ := List.forall_mem_cons.1 hsettles
    refine .succ ((hfirst hm).bind fun n v m' hv => ?_)
    exact (ih hes hothers (hm.eval he hv).2).bind fun _ vs _ _ => .pure (v :: vs)

theorem settles_execAll_of {ss : List Stmt}
    (hss : ∀ s ∈ ss, s.Every Discipline.loopFree.expr Discipline.loopFree.stmt)
    (hsettles : ∀ s ∈ ss, ∀ {m}, Poised calls m → Settles (fun n => exec limit n s) m)
    (hm : Poised calls m) : Settles (fun n => execAll limit n ss) m := by
  induction ss generalizing m with
  | nil => exact .succ (.pure Completion.normal)
  | cons s ss ih =>
    obtain ⟨hs, hss⟩ := List.forall_mem_cons.1 hss
    obtain ⟨hfirst, hothers⟩ := List.forall_mem_cons.1 hsettles
    refine .succ ((hfirst hm).bind fun n c m' hc => ?_)
    cases c with
    | normal =>
      have hm' := (hm.following (((frame limit).all n).exec s) ((obedience _ limit n).exec hs) hc).2
      exact ih hss hothers hm'
    | _ => exact .pure _

/-- With so many calls in progress, statements without a loop come to an end. -/
def Settled (limit calls : Nat) : Prop := ∀ ⦃ss : List Stmt⦄ ⦃m : Machine⦄,
  (∀ s ∈ ss, s.Every Discipline.loopFree.expr Discipline.loopFree.stmt) → Poised calls m →
    Settles (fun n => execAll limit n ss) m

end

section
variable {limit calls : Nat} (hcalls : calls < limit → Settled limit (calls + 1)) {m : Machine}
include hcalls

theorem settles_apply {paren : Token} {f : Value} {args : List Value} (hm : Poised calls m)
    (hf : f.Obeys .loopFree) (hargs : ∀ v ∈ args, v.Obeys .loopFree) :
    Settles (fun n => apply limit n paren f args) m := by
  refine .succ ?_
  cases f with
  | function f =>
    unfold apply
    split
    next hlength =>
      refine .asCall fun hdepth => .succ ?_
      have hbelow : calls < limit := hm.depth ▸ Nat.lt_of_not_le hdepth
      obtain ⟨bound, hbound⟩ := parameterBindings_isSome hlength []
      have hbindings : Bindings.Obey .loopFree bound :=
        Bindings.Obey.parameters (List.forall_mem_nil _) hargs hbound
      have hcalled : Poised (calls + 1)
          (Machine.entering { m with depth := m.depth + 1 } f.scope bound) :=
        ⟨congrArg (· + 1) hm.depth, hm.obeys.push hbindings⟩
      have hbody := hcalls hbelow (fun s hs => Stmt.Every.part hf hs) hcalled
      unfold invoke
      rw [hbound]
      exact hbody.inScope.bind fun _ c _ _ => .pure (resultOf c)
    next => exact .fail _ _
  | native f =>
    unfold apply
    split
    next =>
      refine .asCall fun _ => .of_ended ?_
      unfold runNative
      cases f.action <;> rfl
    next => exact .fail _ _
  | _ => exact .fail _ _

theorem settles_eval {e : Expr} (he : e.Every Discipline.loopFree.expr) (hm : Poised calls m) :
    Settles (fun n => eval limit n e) m := by
  induction he generalizing m with
  | @node e here parts ih =>
    refine .succ ?_
    have hfirst {a : Expr} {as : List Expr} (h : e.parts = a :: as) :
        Settles (fun n => eval limit n a) m := ih a (h ▸ List.mem_cons_self) hm
    have hafter {a : Expr} {as : List Expr} (h : e.parts = a :: as) {n : Nat} {v : Value}
        {m' : Machine} (hv : eval limit n a m = .ok v m') : v.Obeys .loopFree ∧ Poised calls m' :=
      hm.eval (parts a (h ▸ List.mem_cons_self)) hv
    have hsecond {a b : Expr} {as : List Expr} (h : e.parts = a :: b :: as) {m' : Machine}
        (hm' : Poised calls m') : Settles (fun n => eval limit n b) m' :=
      ih b (h ▸ List.mem_cons_of_mem _ List.mem_cons_self) hm'
    cases e with
    | literal v => exact .pure _
    | grouping a => exact hfirst rfl
    | unary op a => exact (hfirst rfl).bind fun _ v m' _ => settles_unaryOperator op v m'
    | binary op a b =>
      refine (hfirst rfl).bind fun _ v m' hv => ?_
      exact (hsecond rfl (hafter rfl hv).2).bind fun _ w m' _ => settles_binaryOperator op v w m'
    | logicalAnd op a b =>
      refine (hfirst rfl).bind fun _ v m' hv => ?_
      split
      · exact hsecond rfl (hafter rfl hv).2
      · exact .pure v
    | logicalOr op a b =>
      refine (hfirst rfl).bind fun _ v m' hv => ?_
      split
      · exact .pure v
      · exact hsecond rfl (hafter rfl hv).2
    | conditional question c a b =>
      refine (hfirst rfl).bind fun _ v m' hv => ?_
      split
      · exact hsecond rfl (hafter rfl hv).2
      · exact ih b (List.mem_cons_of_mem _ (List.mem_cons_of_mem _ List.mem_cons_self))
          (hafter rfl hv).2
    | comma a b => exact (hfirst rfl).bind fun _ v m' hv => hsecond rfl (hafter rfl hv).2
    | crement op target =>
      refine (hfirst rfl).bind fun _ v m₁ _ => ?_
      refine (settles_crementOperator op v m₁).bind fun _ x m₂ _ => ?_
      split
      · exact (settles_assign _ _ m₂).bind fun _ _ _ _ => .pure _
      · exact .pure _
    | «variable» name => exact settles_lookUp name m
    | assign name a =>
      refine (hfirst rfl).bind fun _ v m' _ => ?_
      exact (settles_assign name v m').bind fun _ _ _ _ => .pure v
    | call callee paren args =>
      have hargs : ∀ a ∈ args, a.Every Discipline.loopFree.expr :=
        fun a ha => parts a (List.mem_cons_of_mem _ ha)
      refine (hfirst rfl).bind fun _ f m₁ hf => ?_
      obtain ⟨hf, hm₁⟩ := hafter rfl hf
      refine (settles_evalAll hargs (fun a ha => ih a (List.mem_cons_of_mem _ ha)) hm₁).bind
        fun n vs m₂ hvs => ?_
      obtain ⟨hvs, hm₂⟩ := hm₁.following (((frame limit).all n).evalAll args)
        ((obedience _ limit n).evalAll hargs) hvs
      exact settles_apply hcalls hm₂ hf hvs

theorem settles_exec {s : Stmt}
    (hs : s.Every Discipline.loopFree.expr Discipline.loopFree.stmt) (hm : Poised calls m) :
    Settles (fun n => exec limit n s) m := by
  induction hs generalizing m with
  | @node s here expressions parts ih =>
    refine .succ ?_
    have hexpr {e : Expr} {es : List Expr} (h : s.expressions = e :: es) :
        Settles (fun n => eval limit n e) m :=
      settles_eval hcalls (expressions e (h ▸ List.mem_cons_self)) hm
    cases s with
    | empty => exact .pure _
    | expression e => exact (hexpr rfl).bind fun _ _ _ _ => .pure _
    | print keyword e =>
      refine (hexpr rfl).bind fun _ v m' _ => ?_
      have hprint : Settles (fun _ => print v.text) m' := .of_ended rfl
      exact hprint.bind fun _ _ _ _ => .pure _
    | declare name init =>
      have hdeclare (v : Value) (m' : Machine) : Settles (fun _ => declare name v) m' :=
        .of_ended rfl
      cases init with
      | none => exact (hdeclare _ m).bind fun _ _ _ _ => .pure _
      | some e =>
        refine (hexpr rfl).bind fun _ v m' _ => ?_
        exact (hdeclare v m').bind fun _ _ _ _ => .pure _
    | block body =>
      exact (settles_execAll_of parts ih hm.inside).inChild
    | branch c yes no =>
      refine (hexpr rfl).bind fun n v m' hv => ?_
      have hm' := (hm.eval (expressions c List.mem_cons_self) hv).2
      split
      · exact (ih yes List.mem_cons_self hm'.inside).inChild
      · cases no with
        | none => exact .pure _
        | some t =>
          exact (ih t (List.mem_cons_of_mem _ List.mem_cons_self) hm'.inside).inChild
    | loop c body i => cases here
    | breakLoop keyword => exact .pure _
    | continueLoop keyword => exact .pure _
    | function name params body =>
      have hclose : Settles (fun _ => close name params body) m := .of_ended rfl
      refine hclose.bind fun _ f m' _ => ?_
      have hdeclare : Settles (fun _ => declare name f) m' := .of_ended rfl
      exact hdeclare.bind fun _ _ _ _ => .pure _
    | returnValue keyword value =>
      cases value with
      | none => exact .pure _
      | some e => exact (hexpr rfl).bind fun _ _ _ _ => .pure _

end

/-- The fewer calls are in progress, the more are left; where none is left, a call ends at once. -/
theorem settled (limit calls : Nat) : Settled limit calls := by
  have hdown (left : Nat) : ∀ calls, limit ≤ calls + left → Settled limit calls := by
    induction left with
    | zero =>
      intro calls hlimit ss m hss hm
      have hcalls : calls < limit → Settled limit (calls + 1) :=
        fun hbelow => absurd hlimit (Nat.not_le.2 hbelow)
      exact settles_execAll_of hss (fun s hs => settles_exec hcalls (hss s hs)) hm
    | succ left ih =>
      intro calls hlimit ss m hss hm
      have hcalls : calls < limit → Settled limit (calls + 1) :=
        fun _ => ih (calls + 1) (by omega)
      exact settles_execAll_of hss (fun s hs => settles_exec hcalls (hss s hs)) hm
  exact hdown limit calls (Nat.le_add_left limit calls)

theorem settles_run (limit : Nat) {calls : Nat} {ss : List Stmt} {m : Machine}
    (hss : ∀ s ∈ ss, s.LoopFree) (hm : Poised calls m) : Settles (fun n => run limit n ss) m := by
  induction ss generalizing m with
  | nil => exact .pure ()
  | cons s ss ih =>
    obtain ⟨hs, hss⟩ := List.forall_mem_cons.1 hss
    refine (settles_exec (fun _ => settled limit (calls + 1)) hs hm).bind fun n c m' hc => ?_
    exact ih hss
      (hm.following (((frame limit).all n).exec s) ((obedience _ limit n).exec hs) hc).2

/-- Under any limit of calls, a program without a loop comes to an end on a fresh machine, and to
the same end with all steps more that it is allotted. Unless the machine comes to an operator that
it does not know, the end is success or a fault. -/
theorem loopFree_run_ends {ss : List Stmt} (hss : ∀ s ∈ ss, s.LoopFree) (limit : Nat)
    (clock : Clock) :
    ∃ fuel r, (∀ n, fuel ≤ n → run limit n ss (.fresh clock) = r) ∧ ended r = true ∧
      ((∀ s ∈ ss, s.Every Expr.Operable fun _ => True) →
        (∃ m, r = .ok () m) ∨ ∃ f m, r = .error (.fault f) m) := by
  have hfresh : Poised 0 (.fresh clock) := ⟨rfl, Machine.obeys_fresh (fun _ => trivial) clock⟩
  obtain ⟨r, fuel, hended, hrun⟩ := settles_run limit hss hfresh
  refine ⟨fuel, r, hrun, hended, fun hoperable => ?_⟩
  have hobeys := obeys_run (D := .operable) limit fuel hoperable
  have hproper := hobeys (Machine.obeys_fresh (fun _ => trivial) clock)
  have hresult : run limit fuel ss (.fresh clock) = r := hrun fuel (Nat.le_refl fuel)
  rw [hresult] at hproper
  cases hproper with
  | ok _ _ => exact .inl ⟨_, rfl⟩
  | @error h m hhalt _ =>
    cases h with
    | fault f => exact .inr ⟨f, m, rfl⟩
    | malformed => exact absurd rfl hhalt
    | exhausted => cases hended

/-- A function that calls its argument with itself, called with itself, calls itself without end;
under every limit the run ends by the limit. -/
theorem loopFree_run_ends_self_call :
    let f : Token := ⟨.identifier, utf8 "f", .nil, .start⟩
    let g : Token := ⟨.identifier, utf8 "g", .nil, .start⟩
    let paren : Token := ⟨.rightParen, utf8 ")", .nil, .start⟩
    let keyword : Token := ⟨.kwReturn, utf8 "return", .nil, .start⟩
    let apply (t : Token) : Expr := .call (.variable t) paren [.variable t]
    let ss : List Stmt :=
      [.function f [g] [.returnValue keyword (some (apply g))], .expression (apply f)]
    (∀ s ∈ ss, s.LoopFree) ∧ (∀ s ∈ ss, s.Every Expr.Operable fun _ => True) ∧
      (∀ limit, ∃ fuel r, (∀ n, fuel ≤ n → run limit n ss (.fresh 0) = r) ∧
        ((∃ m, r = .ok () m) ∨ ∃ f m, r = .error (.fault f) m)) ∧
      faultCode? (run 3 30 ss (.fresh 0)) = some "E3008" := by
  intro f g paren keyword apply ss
  have happly {P : Expr → Prop} (hcall : ∀ t, P (apply t)) (hname : ∀ t, P (.variable t))
      (t : Token) : (apply t).Every P :=
    .node₂ (hcall t) rfl (.leaf (hname t) rfl) (.leaf (hname t) rfl)
  have hevery {P : Expr → Prop} {Q : Stmt → Prop} (hcall : ∀ t, P (apply t))
      (hname : ∀ t, P (.variable t)) (hQ : ∀ s : Stmt, s.isLoop = false → Q s) :
      ∀ s ∈ ss, s.Every P Q := by
    have hbody : (Stmt.returnValue keyword (some (apply g))).Every P Q :=
      .node (hQ _ rfl) (List.forall_mem_singleton.2 (happly hcall hname g)) (List.forall_mem_nil _)
    refine List.forall_mem_cons.2 ⟨?_, List.forall_mem_singleton.2 ?_⟩
    · exact .node (hQ _ rfl) (List.forall_mem_nil _) (List.forall_mem_singleton.2 hbody)
    · exact .node (hQ _ rfl) (List.forall_mem_singleton.2 (happly hcall hname f))
        (List.forall_mem_nil _)
  have hloopFree : ∀ s ∈ ss, s.LoopFree :=
    hevery (fun _ => trivial) (fun _ => trivial) fun _ hs => hs
  have hoperable : ∀ s ∈ ss, s.Every Expr.Operable fun _ => True :=
    hevery (fun _ => trivial) (fun _ => trivial) fun _ _ => trivial
  refine ⟨hloopFree, hoperable, fun limit => ?_, by decide +kernel⟩
  obtain ⟨fuel, r, hrun, -, hends⟩ := loopFree_run_ends hloopFree limit 0
  exact ⟨fuel, r, hrun, hends hoperable⟩

end Exec
end Lox
