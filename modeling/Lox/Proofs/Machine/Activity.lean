import Lox.Machine.Run

/-! What a run consists of. Whatever a run does is an activity that is begun in some state of the
machine, as a part of another activity or at the top of the program; so what holds when the run
begins, and passes from each activity to its parts, holds throughout the run. -/
namespace Lox

/-- The machine when a new scope inside `parent` has been entered. -/
def Machine.entering (m : Machine) (parent : ScopeId) (bindings : List (Bytes × Value)) : Machine :=
  { m with scopes := m.scopes.push ⟨bindings, some parent⟩, current := m.scopes.size }

namespace Exec

/-- What a machine is busy with. -/
inductive Activity where
  | eval (e : Expr)
  | evalAll (es : List Expr)
  | apply (paren : Token) (f : Value) (args : List Value)
  | invoke (f : Closure) (args : List Value)
  | host (paren : Token) (action : Native.Action) (args : List Value)
  | exec (s : Stmt)
  | execAll (ss : List Stmt)
  | execLoop (condition : Expr) (body : Stmt) (increment : Option Expr)

namespace Activity

/-- What an activity gives when it ends normally. -/
def Answer : Activity → Type
  | eval _ | apply _ _ _ | invoke _ _ | host _ _ _ => Value
  | evalAll _ => List Value
  | exec _ | execAll _ | execLoop _ _ _ => Completion

def perform (limit n : Nat) : (a : Activity) → Exec a.Answer
  | eval e => Exec.eval limit n e
  | evalAll es => Exec.evalAll limit n es
  | apply paren f args => Exec.apply limit n paren f args
  | invoke f args => Exec.invoke limit n f args
  | host paren action args => runNative paren action args
  | exec s => Exec.exec limit n s
  | execAll ss => Exec.execAll limit n ss
  | execLoop c s i => Exec.execLoop limit n c s i

/-- What comes after a computation, if it ends normally. -/
def following {α β : Type} (r : EStateM.Result Halt Machine α) (next : α → Machine → List β) :
    List β :=
  match r with
  | .ok a m => next a m
  | .error _ _ => []

/-- The activities that are begun directly as parts of an activity, each in the state of the machine
at that time, while its parts have `n` steps. -/
def parts (limit n : Nat) : Activity → Machine → List (Activity × Machine)
  | eval (.literal _), _ | eval (.variable _), _ => []
  | eval (.grouping e), m | eval (.unary _ e), m | eval (.crement _ e), m
  | eval (.assign _ e), m => [(eval e, m)]
  | eval (.binary _ a b), m | eval (.comma a b), m =>
    (eval a, m) :: following (Exec.eval limit n a m) fun _ m => [(eval b, m)]
  | eval (.logicalAnd _ a b), m =>
    (eval a, m) :: following (Exec.eval limit n a m) fun v m =>
      if v.isTruthy then [(eval b, m)] else []
  | eval (.logicalOr _ a b), m =>
    (eval a, m) :: following (Exec.eval limit n a m) fun v m =>
      if v.isTruthy then [] else [(eval b, m)]
  | eval (.conditional _ c a b), m =>
    (eval c, m) :: following (Exec.eval limit n c m) fun v m =>
      if v.isTruthy then [(eval a, m)] else [(eval b, m)]
  | eval (.call callee paren args), m =>
    (eval callee, m) :: following (Exec.eval limit n callee m) fun f m =>
      (evalAll args, m) :: following (Exec.evalAll limit n args m) fun vs m =>
        [(apply paren f vs, m)]
  | evalAll [], _ => []
  | evalAll (e :: es), m =>
    (eval e, m) :: following (Exec.eval limit n e m) fun _ m => [(evalAll es, m)]
  | apply _ (.function f) args, m =>
    if args.length = f.params.length then
      if limit ≤ m.depth then [] else [(invoke f args, { m with depth := m.depth + 1 })]
    else []
  | apply paren (.native f) args, m =>
    if (args.length : Int) = f.arity then
      if limit ≤ m.depth then [] else [(host paren f.action args, { m with depth := m.depth + 1 })]
    else []
  | apply _ _ _, _ | host _ _ _, _ => []
  | invoke f args, m =>
    match parameterBindings f.params args [] with
    | none => []
    | some bindings => [(execAll f.body, m.entering f.scope bindings)]
  | exec (.expression e), m | exec (.print _ e), m | exec (.declare _ (some e)), m
  | exec (.returnValue _ (some e)), m => [(eval e, m)]
  | exec (.block ss), m => [(execAll ss, m.entering m.current [])]
  | exec (.branch c yes no), m =>
    (eval c, m) :: following (Exec.eval limit n c m) fun v m =>
      if v.isTruthy then [(exec yes, m.entering m.current [])]
      else no.toList.map fun s => (exec s, m.entering m.current [])
  | exec (.loop c s i), m => [(execLoop c s i, m)]
  | exec _, _ => []
  | execAll [], _ => []
  | execAll (s :: ss), m =>
    (exec s, m) :: following (Exec.exec limit n s m) fun completion m =>
      match completion with
      | .normal => [(execAll ss, m)]
      | _ => []
  | execLoop c s i, m =>
    (eval c, m) :: following (Exec.eval limit n c m) fun v m =>
      if v.isTruthy then
        (exec s, m.entering m.current []) ::
          following (inChild (Exec.exec limit n s) m) fun completion m =>
            match completion with
            | .broke | .returned _ => []
            | .normal | .continued =>
              match i with
              | none => [(execLoop c s none, m)]
              | some e =>
                (eval e, m) :: following (Exec.eval limit n e m) fun _ m =>
                  [(execLoop c s (some e), m)]
      else []

theorem forall_following {α β : Type} {r : EStateM.Result Halt Machine α}
    {next : α → Machine → List β} {P : β → Prop} :
    (∀ b ∈ following r next, P b) ↔ ∀ a m, r = .ok a m → ∀ b ∈ next a m, P b := by
  cases r with
  | ok a m =>
    refine ⟨fun h a' m' hr => ?_, fun h => h a m rfl⟩
    cases hr
    exact h
  | error halt m =>
    refine ⟨fun h a' m' hr => ?_, fun h => List.forall_mem_nil _⟩
    cases hr

/-! The parts of an activity are all that it depends on. -/

section
variable {α β : Type} {limit n k : Nat} {m : Machine}

theorem bind_congr {x y : Exec α} {f g : α → Exec β} (hx : x m = y m)
    (hf : ∀ a m', x m = .ok a m' → f a m' = g a m') : (x >>= f) m = (y >>= g) m := by
  change EStateM.bind x f m = EStateM.bind y g m
  unfold EStateM.bind
  rw [← hx]
  cases h : x m with
  | ok a m' => exact hf a m' h
  | error halt m' => rfl

theorem inScope_congr {x y : Exec α} {parent : ScopeId} {bindings : List (Bytes × Value)}
    (h : x (m.entering parent bindings) = y (m.entering parent bindings)) :
    inScope parent bindings x m = inScope parent bindings y m := by
  unfold Machine.entering at h
  unfold inScope
  dsimp only
  rw [h]

theorem asCall_congr {x y : Exec α} {paren : Token}
    (h : ¬ limit ≤ m.depth →
      x { m with depth := m.depth + 1 } = y { m with depth := m.depth + 1 }) :
    asCall limit paren x m = asCall limit paren y m := by
  unfold asCall
  split
  next => rfl
  next hdepth => rw [h hdepth]

/-- The activities come to the same with `n` steps as with `k`. -/
def Agree (limit n k : Nat) (activities : List (Activity × Machine)) : Prop :=
  ∀ p ∈ activities, p.1.perform limit n p.2 = p.1.perform limit k p.2

theorem Agree.first {a : Activity} {others : List (Activity × Machine)}
    (h : Agree limit n k ((a, m) :: others)) : a.perform limit n m = a.perform limit k m :=
  h (a, m) List.mem_cons_self

theorem Agree.following {p : Activity × Machine} {r : EStateM.Result Halt Machine α}
    {next : α → Machine → List (Activity × Machine)} (h : Agree limit n k (p :: following r next))
    {a : α} (hr : r = .ok a m) : Agree limit n k (next a m) :=
  forall_following.1 (fun q hq => h q (List.mem_cons_of_mem _ hq)) a m hr

theorem eval_congr {e : Expr} (h : Agree limit n k ((eval e).parts limit n m)) :
    Exec.eval limit (n + 1) e m = Exec.eval limit (k + 1) e m := by
  cases e with
  | literal v => rfl
  | «variable» name => rfl
  | grouping a =>
    have ha := h.first
    exact ha
  | unary op a =>
    have ha := h.first
    exact bind_congr ha fun _ _ _ => rfl
  | crement op a =>
    have ha := h.first
    exact bind_congr ha fun _ _ _ => rfl
  | assign name a =>
    have ha := h.first
    exact bind_congr ha fun _ _ _ => rfl
  | binary op a b =>
    have ha := h.first
    refine bind_congr ha fun v m' hv => ?_
    have hb := (h.following hv).first
    exact bind_congr hb fun _ _ _ => rfl
  | comma a b =>
    have ha := h.first
    refine bind_congr ha fun v m' hv => ?_
    have hb := (h.following hv).first
    exact hb
  | logicalAnd op a b =>
    have ha := h.first
    refine bind_congr ha fun v m' hv => ?_
    have hothers := h.following hv
    by_cases htruthy : v.isTruthy
    · simp only [htruthy, if_true] at hothers ⊢
      exact hothers.first
    · rw [if_neg htruthy, if_neg htruthy]
  | logicalOr op a b =>
    have ha := h.first
    refine bind_congr ha fun v m' hv => ?_
    have hothers := h.following hv
    by_cases htruthy : v.isTruthy
    · rw [if_pos htruthy, if_pos htruthy]
    · simp only [htruthy] at hothers ⊢
      exact hothers.first
  | conditional question c a b =>
    have hc := h.first
    refine bind_congr hc fun v m' hv => ?_
    have hothers := h.following hv
    by_cases htruthy : v.isTruthy
    · simp only [htruthy, if_true] at hothers ⊢
      exact hothers.first
    · simp only [htruthy] at hothers ⊢
      exact hothers.first
  | call callee paren args =>
    have hcallee := h.first
    refine bind_congr hcallee fun f m₁ hf => ?_
    have hargs := (h.following hf).first
    refine bind_congr hargs fun vs m₂ hvs => ?_
    have happly := ((h.following hf).following hvs).first
    exact happly

theorem apply_congr {paren : Token} {f : Value} {args : List Value}
    (h : Agree limit n k ((apply paren f args).parts limit n m)) :
    Exec.apply limit (n + 1) paren f args m = Exec.apply limit (k + 1) paren f args m := by
  cases f with
  | function f =>
    unfold Exec.apply
    simp only [parts] at h
    split at h
    next hlen =>
      rw [if_pos hlen, if_pos hlen]
      refine asCall_congr fun hdepth => ?_
      rw [if_neg hdepth] at h
      exact h.first
    next hlen => rw [if_neg hlen, if_neg hlen]
  | _ => rfl

theorem invoke_congr {f : Closure} {args : List Value}
    (h : Agree limit n k ((invoke f args).parts limit n m)) :
    Exec.invoke limit (n + 1) f args m = Exec.invoke limit (k + 1) f args m := by
  unfold Exec.invoke
  simp only [parts] at h
  cases hbound : parameterBindings f.params args [] with
  | none => rfl
  | some bindings =>
    rw [hbound] at h
    have hbody := h.first
    exact bind_congr (inScope_congr hbody) fun _ _ _ => rfl

theorem exec_congr {s : Stmt} (h : Agree limit n k ((exec s).parts limit n m)) :
    Exec.exec limit (n + 1) s m = Exec.exec limit (k + 1) s m := by
  cases s with
  | expression e =>
    have he := h.first
    exact bind_congr he fun _ _ _ => rfl
  | print keyword e =>
    have he := h.first
    exact bind_congr he fun _ _ _ => rfl
  | declare name init =>
    cases init with
    | none => rfl
    | some e =>
      have he := h.first
      exact bind_congr he fun _ _ _ => rfl
  | returnValue keyword value =>
    cases value with
    | none => rfl
    | some e =>
      have he := h.first
      exact bind_congr he fun _ _ _ => rfl
  | block body =>
    have hbody := h.first
    exact inScope_congr hbody
  | branch c yes no =>
    have hc := h.first
    refine bind_congr hc fun v m' hv => ?_
    have hothers := h.following hv
    by_cases htruthy : v.isTruthy
    · simp only [htruthy, if_true] at hothers ⊢
      exact inScope_congr hothers.first
    · simp only [htruthy] at hothers ⊢
      cases no with
      | none => rfl
      | some s =>
        have hno := hothers.first
        exact inScope_congr hno
  | loop c body i =>
    have hloop := h.first
    exact hloop
  | _ => rfl

theorem execLoop_congr {c : Expr} {s : Stmt} {i : Option Expr}
    (h : Agree limit n k ((execLoop c s i).parts limit n m)) :
    Exec.execLoop limit (n + 1) c s i m = Exec.execLoop limit (k + 1) c s i m := by
  have hc := h.first
  refine bind_congr hc fun v m₁ hv => ?_
  have hround := h.following hv
  by_cases htruthy : v.isTruthy
  · simp only [htruthy, if_true] at hround ⊢
    have hs := hround.first
    refine bind_congr (inScope_congr hs) fun completion m₂ hcompletion => ?_
    have hothers := hround.following hcompletion
    cases completion with
    | broke => rfl
    | returned v => rfl
    | normal | continued =>
      cases i with
      | none =>
        have hnext := hothers.first
        exact hnext
      | some e =>
        have he := hothers.first
        refine bind_congr he fun v m₃ hv => ?_
        have hnext := (hothers.following hv).first
        exact hnext
  · rw [if_neg htruthy, if_neg htruthy]

/-- An activity depends on nothing but its parts. -/
theorem perform_congr {a : Activity} (h : Agree limit n k (a.parts limit n m)) :
    a.perform limit (n + 1) m = a.perform limit (k + 1) m := by
  cases a with
  | eval e => exact eval_congr h
  | evalAll es =>
    cases es with
    | nil => rfl
    | cons e es =>
      have he := h.first
      refine bind_congr he fun v m' hv => ?_
      have hes := (h.following hv).first
      exact bind_congr hes fun _ _ _ => rfl
  | apply paren f args => exact apply_congr h
  | invoke f args => exact invoke_congr h
  | host paren action args => rfl
  | exec s => exact exec_congr h
  | execAll ss =>
    cases ss with
    | nil => rfl
    | cons s ss =>
      have hs := h.first
      refine bind_congr hs fun completion m' hcompletion => ?_
      have hothers := h.following hcompletion
      cases completion with
      | normal =>
        have hss := hothers.first
        exact hss
      | _ => rfl
  | execLoop c s i => exact execLoop_congr h

end

end Activity

/-- An activity with the steps allotted to it and the state of the machine in which it is begun. -/
structure Moment where
  steps : Nat
  activity : Activity
  machine : Machine

/-- The moments of an activity: its own, and those of its parts. -/
def Activity.moments (limit : Nat) : Nat → Activity → Machine → List Moment
  | 0, a, m => [⟨0, a, m⟩]
  | n + 1, a, m => ⟨n + 1, a, m⟩ :: (a.parts limit n m).flatMap fun p => moments limit n p.1 p.2

/-- What passes from every activity to its parts holds at all moments. -/
theorem Activity.forall_moments {limit : Nat} {P : Activity → Machine → Prop}
    (hparts : ∀ n a m, P a m → ∀ p ∈ a.parts limit n m, P p.1 p.2) {n : Nat} {a : Activity}
    {m : Machine} (h : P a m) : ∀ x ∈ a.moments limit n m, P x.activity x.machine := by
  induction n generalizing a m with
  | zero => exact List.forall_mem_singleton.2 h
  | succ n ih =>
    refine List.forall_mem_cons.2 ⟨h, fun x hx => ?_⟩
    obtain ⟨p, hp, hx⟩ := List.mem_flatMap.1 hx
    exact ih (hparts n a m h p hp) x hx

/-- The moments of a run of a program. -/
def moments (limit fuel : Nat) : List Stmt → Machine → List Moment
  | [], _ => []
  | s :: ss, m => (Activity.exec s).moments limit fuel m ++
      Activity.following (exec limit fuel s m) fun _ m => moments limit fuel ss m

end Exec
end Lox
