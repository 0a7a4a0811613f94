import Lox.Proofs.Machine.Confinement
import Lox.Proofs.Machine.Simulation
import Lox.Proofs.Machine.Termination

/-! The increment of a loop means the same as a last statement of its body. Where the body does not
go on to the next round by a `continue`, a loop with an increment and the loop whose body ends with
the increment cannot be told apart. -/
namespace Lox

/-- The statement has a `continue` that belongs to the loop around it. -/
inductive Stmt.Continues : Stmt → Prop where
  | here (keyword : Token) : Continues (.continueLoop keyword)
  | block {body : List Stmt} {s : Stmt} (hs : s ∈ body) (h : s.Continues) : Continues (.block body)
  | yes {c : Expr} {s : Stmt} {no : Option Stmt} (h : s.Continues) : Continues (.branch c s no)
  | no {c : Expr} {yes s : Stmt} (h : s.Continues) : Continues (.branch c yes (some s))

namespace Exec

/-! Statements without `continue`. -/

/-- Statements without `continue` never end by one, with `n` steps allotted. No loop does. -/
structure Continuing (limit n : Nat) : Prop where
  exec : ∀ {s : Stmt}, ¬ s.Continues → Gives (· ≠ .continued) (exec limit n s)
  execAll : ∀ {ss : List Stmt}, (∀ s ∈ ss, ¬ s.Continues) →
    Gives (· ≠ .continued) (execAll limit n ss)
  execLoop : ∀ c s i, Gives (· ≠ .continued) (execLoop limit n c s i)

section
variable {limit n : Nat} (ih : Continuing limit n)
include ih

theorem not_continued_exec {s : Stmt} (h : ¬ s.Continues) :
    Gives (· ≠ .continued) (exec limit (n + 1) s) := by
  have hnormal : Completion.normal ≠ .continued := Completion.noConfusion
  cases s with
  | empty => exact .pure hnormal
  | expression e => exact (gives_any _).bind fun _ _ => .pure hnormal
  | print keyword e =>
    exact (gives_any _).bind fun _ _ => (gives_any _).bind fun _ _ => .pure hnormal
  | declare name init =>
    cases init with
    | none => exact (gives_any _).bind fun _ _ => .pure hnormal
    | some e => exact (gives_any _).bind fun _ _ => (gives_any _).bind fun _ _ => .pure hnormal
  | block body => exact gives_inChild (ih.execAll fun s hs hcontinues => h (.block hs hcontinues))
  | branch c yes no =>
    refine (gives_any _).bind fun v _ => ?_
    split
    · exact gives_inChild (ih.exec fun hyes => h (.yes hyes))
    · cases no with
      | none => exact .pure hnormal
      | some s => exact gives_inChild (ih.exec fun hno => h (.no hno))
  | loop c body i => exact ih.execLoop c body i
  | breakLoop keyword => exact .pure Completion.noConfusion
  | continueLoop keyword => exact absurd (.here keyword) h
  | function name params body =>
    exact (gives_any _).bind fun _ _ => (gives_any _).bind fun _ _ => .pure hnormal
  | returnValue keyword value =>
    cases value with
    | none => exact .pure Completion.noConfusion
    | some e => exact (gives_any _).bind fun _ _ => .pure Completion.noConfusion

theorem not_continued_execAll {ss : List Stmt} (h : ∀ s ∈ ss, ¬ s.Continues) :
    Gives (· ≠ .continued) (execAll limit (n + 1) ss) := by
  cases ss with
  | nil => exact .pure Completion.noConfusion
  | cons s ss =>
    obtain ⟨hs, hss⟩ := List.forall_mem_cons.1 h
    refine (ih.exec hs).bind fun c hc => ?_
    cases c with
    | normal => exact ih.execAll hss
    | _ => exact .pure hc

theorem not_continued_execLoop (c : Expr) (s : Stmt) (i : Option Expr) :
    Gives (· ≠ .continued) (execLoop limit (n + 1) c s i) := by
  refine (gives_any _).bind fun v _ => ?_
  split
  · refine (gives_any _).bind fun completion _ => ?_
    cases completion with
    | broke => exact .pure Completion.noConfusion
    | returned v => exact .pure Completion.noConfusion
    | normal | continued =>
      cases i with
      | none => exact ih.execLoop c s none
      | some e => exact (gives_any _).bind fun _ _ => ih.execLoop c s (some e)
  · exact .pure Completion.noConfusion

end

theorem continuing (limit n : Nat) : Continuing limit n := by
  induction n with
  | zero => constructor <;> (intros; exact .throw trivial)
  | succ n ih =>
    exact {
      exec := not_continued_exec ih
      execAll := not_continued_execAll ih
      execLoop := not_continued_execLoop ih }

/-! A loop as its rounds. -/

/-- One round of a loop whose condition holds: its body and its increment. -/
def round (limit n : Nat) (body : Stmt) : Option Expr → Exec Completion
  | none => inChild (exec limit n body)
  | some e => do
    match ← inChild (exec limit n body) with
    | .normal | .continued =>
      let _ ← eval limit n e
      pure .normal
    | completion => pure completion

/-- A round if the condition holds, and what follows it if the round does not end the loop. -/
def turn (limit n : Nat) (c : Expr) (round rest : Exec Completion) : Exec Completion := do
  let condition ← eval limit n c
  if condition.isTruthy then
    match ← round with
    | .broke => pure .normal
    | .returned v => pure (.returned v)
    | .normal | .continued => rest
  else pure .normal

/-- At most `k` rounds of one kind. -/
def rounds (limit n : Nat) (c : Expr) (round : Exec Completion) : Nat → Exec Completion
  | 0 => throw .exhausted
  | k + 1 => turn limit n c round (rounds limit n c round k)

theorem execLoop_succ (limit n : Nat) (c : Expr) (body : Stmt) (i : Option Expr) :
    execLoop limit (n + 1) c body i =
      turn limit n c (round limit n body i) (execLoop limit n c body i) := by
  unfold turn
  refine congrArg (eval limit n c >>= ·) (funext fun condition => ?_)
  cases i with
  | none =>
    split
    · refine congrArg _ (funext fun completion => ?_)
      cases completion <;> rfl
    · rfl
  | some e =>
    split
    · unfold round
      rw [bind_assoc]
      refine congrArg _ (funext fun completion => ?_)
      cases completion with
      | broke | returned => rfl
      | normal | continued =>
        dsimp only
        rw [bind_assoc]
        rfl
    · rfl

/-- With steps enough, a round with this body and increment is `r`. -/
structure RoundsAs (limit : Nat) (body : Stmt) (i : Option Expr) (r : Nat → Exec Completion) :
    Prop where
  below : ∀ {n k}, n + 2 ≤ k → ExtendedBy (round limit n body i) (r k)
  above : ∀ {n k}, k + 4 ≤ n → ExtendedBy (r k) (round limit n body i)

section
variable {limit n k : Nat} {c : Expr} {r r' rest rest' : Exec Completion}

theorem extendedBy_turn (h : n ≤ k) (c : Expr) (hr : ExtendedBy r r')
    (hrest : ExtendedBy rest rest') :
    ExtendedBy (turn limit n c r rest) (turn limit k c r' rest') := by
  have hcondition : ExtendedBy (eval limit n c) (eval limit k c) :=
    .of_le (fun n => (extension limit n).eval c) h
  refine hcondition.bind fun _ => .ite (hr.bind fun completion => ?_) (.refl _)
  cases completion with
  | broke | returned => exact .refl _
  | normal | continued => exact hrest

/-- The rounds have a number of steps allotted that does not depend on how many there have been. -/
theorem RoundsAs.extendedBy_rounds {body : Stmt} {i : Option Expr} {r : Nat → Exec Completion}
    (h : RoundsAs limit body i r) (hk : k < n) :
    ExtendedBy (execLoop limit k c body i) (rounds limit n c (r n) k) := by
  induction k with
  | zero => exact .exhausted _
  | succ k ih =>
    have hkn : k < n := Nat.lt_of_succ_lt hk
    rw [execLoop_succ]
    exact extendedBy_turn (Nat.le_of_lt hkn) c (h.below hk) (ih hkn)

theorem RoundsAs.rounds_extendedBy {body : Stmt} {i : Option Expr} {r : Nat → Exec Completion}
    (h : RoundsAs limit body i r) :
    ExtendedBy (rounds limit n c (r n) k) (execLoop limit (n + 4 + k) c body i) := by
  induction k with
  | zero => exact .exhausted _
  | succ k ih =>
    have hn : n + 4 ≤ n + 4 + k := Nat.le_add_right (n + 4) k
    rw [← Nat.add_assoc, execLoop_succ]
    exact extendedBy_turn (Nat.le_of_add_right_le hn) c (h.above hn) ih

theorem follows_rounds {P : Pairing} {a b : ScopeId} (hab : P.Meet a b)
    (hr : ∀ {Q : Pairing}, Q.Meet a b → Follows Q a b .completion r r') (k : Nat) :
    Follows P a b .completion (rounds limit n c r k) (rounds limit n c r' k) := by
  induction k generalizing P with
  | zero => exact .throw _
  | succ k ih =>
    refine ((simulation limit n).eval hab c).bind fun hQ hv => .ifTruthy hv ?_ (.pure .normal)
    refine (hr (hab.mono hQ)).bind fun hR hc => ?_
    cases hc with
    | broke => exact .pure .normal
    | returned hv => exact .pure (.returned hv)
    | normal | continued => exact ih ((hab.mono hQ).mono hR)

end

/-! The rounds of the two loops. -/

/-- The last statement of a body, after the others. -/
def lastly (limit n : Nat) (e : Expr) : Completion → Exec Completion
  | .normal => do
    let _ ← eval limit n e
    pure .normal
  | completion => pure completion

section
variable {limit n k : Nat} {body : Stmt} {e : Expr}

theorem extendedBy_round (h : n ≤ k) (body : Stmt) (i : Option Expr) :
    ExtendedBy (round limit n body i) (round limit k body i) := by
  have hbody : ExtendedBy (inChild (exec limit n body)) (inChild (exec limit k body)) :=
    .inChild (.of_le (fun n => (extension limit n).exec body) h)
  cases i with
  | none => exact hbody
  | some e =>
    have hincrement : ExtendedBy (eval limit n e) (eval limit k e) :=
      .of_le (fun n => (extension limit n).eval e) h
    refine hbody.bind fun completion => ?_
    cases completion with
    | broke | returned => exact .refl _
    | normal | continued => exact hincrement.bind fun _ => .refl _

theorem roundsAs_round (limit : Nat) (body : Stmt) (i : Option Expr) :
    RoundsAs limit body i fun n => round limit n body i where
  below h := extendedBy_round (Nat.le_of_add_right_le h) body i
  above h := extendedBy_round (Nat.le_of_add_right_le h) body i

theorem exec_pair (limit n : Nat) (body : Stmt) (e : Expr) :
    exec limit (n + 4) (.block [body, .expression e]) =
      inChild (exec limit (n + 2) body >>= lastly limit n e) := by
  refine congrArg inChild (congrArg (exec limit (n + 2) body >>= ·) (funext fun completion => ?_))
  cases completion with
  | normal => exact bind_assoc (eval limit n e) _ _
  | _ => rfl

theorem extendedBy_lastly {n' k' : Nat} (h : n ≤ k) (h' : n' ≤ k') :
    ExtendedBy (exec limit n body >>= lastly limit n' e)
      (exec limit k body >>= lastly limit k' e) := by
  have hbody : ExtendedBy (exec limit n body) (exec limit k body) :=
    .of_le (fun n => (extension limit n).exec body) h
  have hlast : ExtendedBy (eval limit n' e) (eval limit k' e) :=
    .of_le (fun n => (extension limit n).eval e) h'
  refine hbody.bind fun completion => ?_
  cases completion with
  | normal => exact hlast.bind fun _ => .refl _
  | _ => exact .refl _

/-- The body and its last statement, in the scope of the block inside that of the round. -/
theorem roundsAs_pair (limit : Nat) (body : Stmt) (e : Expr) :
    RoundsAs limit (.block [body, .expression e]) none fun n =>
      inChild (inChild (exec limit n body >>= lastly limit n e)) where
  below {n N} h := by
    have hmore : ExtendedBy (exec limit n (.block [body, .expression e]))
        (exec limit (n + 4) (.block [body, .expression e])) :=
      .of_le (fun n => (extension limit n).exec _) (Nat.le_add_right n 4)
    rw [exec_pair] at hmore
    exact (hmore.trans (extendedBy_lastly h (Nat.le_of_add_right_le h)).inChild).inChild
  above {n N} h := by
    obtain ⟨k, rfl⟩ := Nat.exists_eq_add_of_le h
    have hpair : ExtendedBy (inChild (exec limit N body >>= lastly limit N e))
        (exec limit (N + k + 4) (.block [body, .expression e])) := by
      rw [exec_pair]
      exact (extendedBy_lastly (Nat.le_add_right N (k + 2)) (Nat.le_add_right N k)).inChild
    rw [Nat.add_right_comm]
    exact hpair.inChild

end

/-- Without `continue` in the body, a round goes on to its increment just where a block does. -/
theorem round_some (limit n : Nat) {body : Stmt} (hbody : ¬ body.Continues) (e : Expr) :
    round limit n body (some e) = inChild (exec limit n body) >>= lastly limit n e := by
  funext m
  have hcompletion := gives_inChild ((continuing limit n).exec hbody) (s := m) trivial
  change EStateM.bind _ _ m = EStateM.bind _ _ m
  unfold EStateM.bind
  generalize inChild (exec limit n body) m = r at hcompletion ⊢
  cases hcompletion with
  | @ok completion _ hne _ =>
    cases completion with
    | continued => exact absurd rfl hne
    | _ => rfl
  | error _ _ => rfl

section
variable {P : Pairing} {a b : ScopeId} {limit n : Nat} {body : Stmt}

theorem follows_lastly (e : Expr) (hab : P.Meet a b) {c d : Completion} (hcd : P.Alike c d) :
    Follows P a b .completion (lastly limit n e c) (lastly limit n e d) := by
  cases hcd with
  | normal => exact ((simulation limit n).eval hab e).bind fun _ _ => .pure .normal
  | returned hv => exact .pure (.returned hv)
  | broke => exact .pure .broke
  | continued => exact .pure .continued

theorem follows_body (hbody : body.isDeclaration = false) (hab : P.Meet a b) :
    Follows P a b .completion (exec limit n body) (exec limit n body) :=
  (simulation limit n).exec hab fun hdeclares =>
    absurd (hbody.symm.trans hdeclares) Bool.noConfusion

/-- The first side runs the body in a scope of its own and the increment outside of it, the second
both in the inner one of two scopes. Nothing is bound in any of the three. -/
theorem follows_pair (hbody : body.isDeclaration = false) (e : Expr) (hab : P.Meet a b) :
    Follows P a b .completion (inChild (exec limit n body) >>= lastly limit n e)
      (inChild (inChild (exec limit n body >>= lastly limit n e))) := by
  refine follows_inChild_right hab fun hQ hround => ?_
  replace hab := Pairing.Meet.right hround (hab.mono hQ)
  refine follows_inChild_right hab fun hR hblock => ?_
  replace hab := Pairing.Meet.right hblock (hab.mono hR)
  have hown : Follows _ a _ .completion (inChild (exec limit n body)) (exec limit n body) :=
    follows_inChild_left hab fun hS hown => follows_body hbody (.left hown (hab.mono hS))
  exact hown.bind fun hS hcd => follows_lastly e (hab.mono hS) hcd

theorem pair_follows (hbody : body.isDeclaration = false) (e : Expr) (hab : P.Meet a b) :
    Follows P a b .completion (inChild (inChild (exec limit n body >>= lastly limit n e)))
      (inChild (exec limit n body) >>= lastly limit n e) := by
  refine follows_inChild_left hab fun hQ hround => ?_
  replace hab := Pairing.Meet.left hround (hab.mono hQ)
  refine follows_inChild_left hab fun hR hblock => ?_
  replace hab := Pairing.Meet.left hblock (hab.mono hR)
  have hown : Follows _ _ b .completion (exec limit n body) (inChild (exec limit n body)) :=
    follows_inChild_right hab fun hS hown => follows_body hbody (.right hown (hab.mono hS))
  exact hown.bind fun hS hcd => follows_lastly e (hab.mono hS) hcd

end

theorem exec_unique {limit n k : Nat} {s : Stmt} {m : Machine}
    (hn : ended (exec limit n s m) = true) (hk : ended (exec limit k s m) = true) :
    exec limit n s m = exec limit k s m := by
  have hextends {n k : Nat} (h : n ≤ k) : ExtendedBy (exec limit n s) (exec limit k s) :=
    .of_le (fun n => (extension limit n).exec s) h
  obtain h | h := Nat.le_total n k
  · exact (hextends h).eq_of_ended hn
  · exact ((hextends h).eq_of_ended hk).symm

end Exec

/-! What can be seen of a machine. -/

/-- Values of the same type that print the same. -/
structure Value.LooksLike (v w : Value) : Prop where
  typeName : v.typeName = w.typeName
  text : v.text = w.text

inductive Completion.LooksLike : Completion → Completion → Prop where
  | normal : LooksLike .normal .normal
  | returned {v w : Value} (h : v.LooksLike w) : LooksLike (.returned v) (.returned w)
  | broke : LooksLike .broke .broke
  | continued : LooksLike .continued .continued

/-- The machines have printed the same texts and are at the same place, and in each of the first `n`
scopes the same names are bound, to values that look alike. -/
structure Machine.LooksLike (n : Nat) (m m' : Machine) : Prop where
  printed : m.printed = m'.printed
  current : m.current = m'.current
  depth : m.depth = m'.depth
  scopes : ∀ id < n, ∃ s t, m.scopes[id]? = some s ∧ m'.scopes[id]? = some t ∧
    Bindings.Rel Value.LooksLike s.bindings t.bindings

theorem Pairing.Alike.looksLike {P : Pairing} {c d : Completion} (h : P.Alike c d) :
    c.LooksLike d := by
  cases h with
  | normal => exact .normal
  | returned hv => exact .returned ⟨hv.typeName, hv.text⟩
  | broke => exact .broke
  | continued => exact .continued

theorem Pairing.At.looksLike {P : Pairing} {n : Nat} (hP : identity n ≤ P) {id : ScopeId}
    {m m' : Machine} (h : P.At id id m m') : m.LooksLike n m' where
  printed := h.printed
  current := h.current.trans h.current'.symm
  depth := h.depth
  scopes id hid := by
    obtain ⟨s, t, hs, ht, hbindings, -⟩ := h.scopes.twins (hP.1 id id ⟨rfl, hid⟩)
    exact ⟨s, t, hs, ht, hbindings.imp fun _ _ hb => ⟨hb.1, hb.2.typeName, hb.2.text⟩⟩

namespace Exec

/-- Results that cannot be told apart by what is seen of the first `n` scopes. -/
abbrev Indistinguishable (n : Nat) :
    EStateM.Result Halt Machine Completion → EStateM.Result Halt Machine Completion → Prop :=
  Matching Eq (Machine.LooksLike n) Completion.LooksLike

theorem Indistinguishable.ended_eq {n : Nat} {r r' : EStateM.Result Halt Machine Completion}
    (h : Indistinguishable n r r') : ended r = ended r' := by
  cases h with
  | ok _ _ => rfl
  | @error halt _ _ _ he _ =>
    subst he
    cases halt <;> rfl

/-- Where the rounds of a loop are followed by those of another, that one comes to the same end. -/
theorem loop_indistinguishable {limit n : Nat} {c : Expr} {body body' : Stmt}
    {i i' : Option Expr} {r r' : Nat → Exec Completion} (hr : RoundsAs limit body i r)
    (hr' : RoundsAs limit body' i' r')
    (hfollows : ∀ {N : Nat} {P : Pairing} {a b : ScopeId}, P.Meet a b →
      Follows P a b .completion (r N) (r' N))
    {m : Machine} (hm : m.Grounded) (hended : ended (exec limit n (.loop c body i) m) = true) :
    ∃ k, Indistinguishable m.scopes.size (exec limit n (.loop c body i) m)
      (exec limit k (.loop c body' i') m) := by
  cases n with
  | zero => cases hended
  | succ n =>
    have hrounds : execLoop limit n c body i m = rounds limit (n + 1) c (r (n + 1)) n m :=
      (hr.extendedBy_rounds (Nat.lt_succ_self n)).eq_of_ended hended
    have hfollowed : Follows (.identity m.scopes.size) m.current m.current .completion
        (rounds limit (n + 1) c (r (n + 1)) n) (rounds limit (n + 1) c (r' (n + 1)) n) :=
      follows_rounds (.twins hm.twins_self) hfollows n
    obtain ⟨R, hR, hmatch⟩ := hfollowed (le_refl _) hm.at_self
    have hmatches : Indistinguishable m.scopes.size (rounds limit (n + 1) c (r (n + 1)) n m)
        (rounds limit (n + 1) c (r' (n + 1)) n m) := by
      generalize rounds limit (n + 1) c (r (n + 1)) n m = x,
        rounds limit (n + 1) c (r' (n + 1)) n m = y at hmatch ⊢
      cases hmatch with
      | ok hcd hat => exact .ok hcd.looksLike (hat.looksLike hR)
      | error he hat => exact .error he (hat.looksLike hR)
    have hended' : ended (rounds limit (n + 1) c (r' (n + 1)) n m) = true := by
      rw [← hmatches.ended_eq, ← hrounds]
      exact hended
    refine ⟨n + 1 + 4 + n + 1, ?_⟩
    change Indistinguishable _ (execLoop limit n c body i m)
      (execLoop limit (n + 1 + 4 + n) c body' i' m)
    rw [hrounds, ← hr'.rounds_extendedBy.eq_of_ended hended']
    exact hmatches

/-- Every loop with an increment, whose body is no declaration and has no `continue` of this loop,
and the loop whose body ends with the increment: on every machine the one comes to an end if and
only if the other does, and their ends cannot be told apart. Nor can the scopes that were there
before. -/
theorem increment_is_last_statement {m : Machine} (hm : m.Grounded) (limit : Nat) (c e : Expr)
    {body : Stmt} (hdeclares : body.isDeclaration = false) (hcontinues : ¬ body.Continues) :
    ((∃ n, ended (exec limit n (.loop c body (some e)) m) = true) ↔
      ∃ n, ended (exec limit n (.loop c (.block [body, .expression e]) none) m) = true) ∧
    ∀ n k, ended (exec limit n (.loop c body (some e)) m) = true →
      ended (exec limit k (.loop c (.block [body, .expression e]) none) m) = true →
      Indistinguishable m.scopes.size (exec limit n (.loop c body (some e)) m)
        (exec limit k (.loop c (.block [body, .expression e]) none) m) := by
  have hforward {N : Nat} {P : Pairing} {a b : ScopeId} (hab : P.Meet a b) :
      Follows P a b .completion (round limit N body (some e))
        (inChild (inChild (exec limit N body >>= lastly limit N e))) := by
    rw [round_some limit N hcontinues e]
    exact follows_pair hdeclares e hab
  have hbackward {N : Nat} {P : Pairing} {a b : ScopeId} (hab : P.Meet a b) :
      Follows P a b .completion (inChild (inChild (exec limit N body >>= lastly limit N e)))
        (round limit N body (some e)) := by
    rw [round_some limit N hcontinues e]
    exact pair_follows hdeclares e hab
  have hends {n : Nat} (h : ended (exec limit n (.loop c body (some e)) m) = true) :=
    loop_indistinguishable (roundsAs_round limit body (some e)) (roundsAs_pair limit body e)
      hforward hm h
  refine ⟨⟨?_, ?_⟩, ?_⟩
  · rintro ⟨n, hn⟩
    obtain ⟨k, hk⟩ := hends hn
    exact ⟨k, hk.ended_eq ▸ hn⟩
  · rintro ⟨n, hn⟩
    obtain ⟨k, hk⟩ := loop_indistinguishable (roundsAs_pair limit body e)
      (roundsAs_round limit body (some e)) hbackward hm hn
    exact ⟨k, hk.ended_eq ▸ hn⟩
  · intro n k hn hk
    obtain ⟨k', hk'⟩ := hends hn
    rw [exec_unique hk (hk'.ended_eq ▸ hn)]
    exact hk'

/-- The body makes a function, which keeps the scope of the body alive. -/
theorem increment_is_last_statement_closure :
    let name (text : String) : Token := ⟨.identifier, utf8 text, .nil, ⟨0, 0, 0⟩⟩
    let a := Expr.variable (name "a")
    let body := Stmt.block [.function (name "f") [] [.returnValue (name "return") (some a)],
      .expression (.assign (name "b") (.literal .nil)),
      .expression (.assign (name "g") (.variable (name "f")))]
    let e := Expr.assign (name "a") (.variable (name "b"))
    let m := final (run 5 20 [.declare (name "a") (some (.literal (.bool true))),
      .declare (name "b") (some a), .declare (name "g") none] (.fresh 0))
    m.Grounded ∧ body.isDeclaration = false ∧ ¬ body.Continues ∧
      ended (exec 5 20 (.loop a body (some e)) m) = true ∧
      ended (exec 5 20 (.loop a (.block [body, .expression e]) none) m) = true ∧
      Indistinguishable m.scopes.size (exec 5 20 (.loop a body (some e)) m)
        (exec 5 20 (.loop a (.block [body, .expression e]) none) m) := by
  intro name a body e m
  have hreachable : Machine.Reachable (fun _ => True) (fun _ => True) m :=
    .ran (.fresh 0) 5 20 trivial
  have hdeclares : body.isDeclaration = false := rfl
  have hcontinues : ¬ body.Continues := by
    intro h
    change Stmt.Continues (.block _) at h
    cases h with
    | block hs h =>
      simp only [List.mem_cons, List.not_mem_nil, or_false] at hs
      obtain rfl | rfl | rfl := hs <;> cases h
  have hn : ended (exec 5 20 (.loop a body (some e)) m) = true := by decide +kernel
  have hk : ended (exec 5 20 (.loop a (.block [body, .expression e]) none) m) = true := by
    decide +kernel
  exact ⟨hreachable.grounded, hdeclares, hcontinues, hn, hk,
    (increment_is_last_statement hreachable.grounded 5 a e hdeclares hcontinues).2 20 20 hn hk⟩

end Exec
end Lox
