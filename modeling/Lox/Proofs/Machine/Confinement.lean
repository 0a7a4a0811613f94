import Lox.Proofs.Machine.Course
import Lox.Proofs.Syntax.Program
import Lox.Token.Scan

/-! Where jumps lead. In a program without faults every `break` and `continue` stands in a loop of
its own function, and every `return` in a function; and so a run never leaves more than that by a
jump. -/
namespace Lox

/-- Every jump within the statement leaves a loop or a function within it or around it. -/
inductive Stmt.Confined : Surroundings → Stmt → Prop where
  | empty {w : Surroundings} : Confined w .empty
  | expression {w : Surroundings} (e : Expr) : Confined w (.expression e)
  | print {w : Surroundings} (keyword : Token) (e : Expr) : Confined w (.print keyword e)
  | declare {w : Surroundings} (name : Token) (init : Option Expr) : Confined w (.declare name init)
  | block {w : Surroundings} {ss : List Stmt} (body : ∀ s ∈ ss, Confined w s) :
      Confined w (.block ss)
  | branch {w : Surroundings} {c : Expr} {yes : Stmt} {no : Option Stmt} (hyes : Confined w yes)
      (hno : ∀ s ∈ no.toList, Confined w s) : Confined w (.branch c yes no)
  | loop {w : Surroundings} {c : Expr} {s : Stmt} {i : Option Expr} (body : Confined w.loopBody s) :
      Confined w (.loop c s i)
  | breakLoop {w : Surroundings} (hw : w.loop = true) (keyword : Token) :
      Confined w (.breakLoop keyword)
  | continueLoop {w : Surroundings} (hw : w.loop = true) (keyword : Token) :
      Confined w (.continueLoop keyword)
  | function {w : Surroundings} {name : Token} {params : List Token} {ss : List Stmt}
      (body : ∀ s ∈ ss, Confined .functionBody s) : Confined w (.function name params ss)
  | returnValue {w : Surroundings} (hw : w.function = true) (keyword : Token)
      (value : Option Expr) : Confined w (.returnValue keyword value)

def Part.Confined (w : Surroundings) : Part → Prop
  | .statement _ s | .declaration s => s.Confined w
  | .declarations ss => ∀ s ∈ ss, s.Confined w

theorem VariableDeclaration.confined {s : Stmt} {ts : List Token} (h : VariableDeclaration s ts)
    (w : Surroundings) : s.Confined w := by
  cases h with
  | bare => exact .declare _ _
  | initialized => exact .declare _ _

theorem Initializer.confined {init : Option Stmt} {ts : List Token} (h : Initializer init ts)
    {w : Surroundings} {s : Stmt} (hs : s.Confined w) : (Stmt.initialized init s).Confined w := by
  cases h with
  | none => exact hs
  | declared h =>
    exact .block (List.forall_mem_cons.2 ⟨h.confined w, List.forall_mem_singleton.2 hs⟩)
  | expression =>
    exact .block (List.forall_mem_cons.2 ⟨.expression _, List.forall_mem_singleton.2 hs⟩)

/-- What the grammar composes is confined. -/
theorem Composes.confined {w : Surroundings} {k : Nat} {part : Part} {ts : List Token}
    (h : Composes w k part ts) : part.Confined w := by
  induction h with
  | empty => exact .empty
  | expression => exact .expression _
  | print => exact .print _ _
  | breakLoop hw => exact .breakLoop hw _
  | continueLoop hw => exact .continueLoop hw _
  | returnValue hw => exact .returnValue hw _ _
  | block _ _ _ ih => exact .block ih
  | branch _ _ _ _ _ ih => exact .branch ih (List.forall_mem_nil _)
  | branches _ _ _ _ _ _ _ ihyes ihno => exact .branch ihyes (List.forall_mem_singleton.2 ihno)
  | whileLoop _ _ _ _ _ ih => exact .loop ih
  | forLoop _ _ hi _ _ _ _ _ ih => exact hi.confined (.loop ih)
  | declareVariable h => exact h.confined _
  | declareFunction _ _ _ _ _ _ _ _ _ ih => exact .function ih
  | statement _ ih => exact ih
  | done => exact List.forall_mem_nil _
  | next _ _ ihfirst ihothers => exact List.forall_mem_cons.2 ⟨ihfirst, ihothers⟩

/-- The statements of a program that is parsed without faults. -/
def Program.Accepted (ss : List Stmt) : Prop := ∃ tokens, Program.parse? tokens = some ⟨ss, []⟩

/-- An expression that is parsed without faults. -/
def LoneExpression.Accepted (e : Expr) : Prop :=
  ∃ tokens, LoneExpression.parse tokens = ⟨some e, []⟩

theorem Program.Accepted.confined {ss : List Stmt} (h : Accepted ss) :
    ∀ s ∈ ss, s.Confined .program := by
  obtain ⟨tokens, hparse⟩ := h
  obtain ⟨k, hcomposes⟩ := composes_of_parse? hparse rfl
  exact hcomposes.confined

theorem Stmt.Confined.part {w : Surroundings} {s t : Stmt} (h : s.Confined w) (ht : t ∈ s.parts) :
    ∃ w', t.Confined w' := by
  cases h with
  | block body => exact ⟨w, body t ht⟩
  | branch hyes hno => exact ⟨w, List.forall_mem_cons.2 ⟨hyes, hno⟩ t ht⟩
  | loop body =>
    cases List.mem_singleton.1 ht
    exact ⟨w.loopBody, body⟩
  | function body => exact ⟨.functionBody, body t ht⟩
  | _ => cases ht

/-- All code is confined to what stands around it. -/
def Discipline.confined : Discipline where
  expr _ := True
  stmt s := ∃ w, s.Confined w
  native _ := True
  halt _ := True
  exhausted := trivial
  raises _ _ := trivial
  hosted _ _ _ := trivial

theorem Stmt.Every.confined {P : Expr → Prop} {Q : Stmt → Prop} {s : Stmt} (h : s.Every P Q)
    {w : Surroundings} (hs : s.Confined w) :
    s.Every Discipline.confined.expr Discipline.confined.stmt := by
  induction h generalizing w with
  | node _ expressions _ ih =>
    refine .node ⟨w, hs⟩ (fun e he => (expressions e he).mono fun _ _ => trivial) fun t ht => ?_
    obtain ⟨w', ht'⟩ := hs.part ht
    exact ih t ht ht'

theorem Program.Accepted.every {ss : List Stmt} (h : Accepted ss) :
    ∀ s ∈ ss, s.Every Discipline.confined.expr Discipline.confined.stmt := by
  intro s hs
  have hconfined := h.confined s hs
  obtain ⟨tokens, hparse⟩ := h
  exact (madeOf_parse? hparse s hs).confined hconfined

theorem LoneExpression.Accepted.every {e : Expr} (h : Accepted e) :
    e.Every Discipline.confined.expr := by
  obtain ⟨tokens, hparse⟩ := h
  have he : (parse tokens).expression = some e := by rw [hparse]
  exact (madeOf_parse he).mono fun _ _ => trivial

/-! How confined statements end. -/

/-- There is a loop to leave, or a function, for a statement that ends so. -/
def Completion.Fits (w : Surroundings) : Completion → Prop
  | .normal => True
  | .broke | .continued => w.loop = true
  | .returned _ => w.function = true

/-- Not by a jump that belongs to a loop. -/
def Completion.LeavesNoLoop (c : Completion) : Prop := c = .normal ∨ ∃ v, c = .returned v

theorem Completion.Fits.leavesNoLoop {w : Surroundings} {c : Completion} (h : c.Fits w)
    (hw : w.loop = false) : c.LeavesNoLoop := by
  cases c with
  | normal => exact .inl rfl
  | returned v => exact .inr ⟨v, rfl⟩
  | broke | continued =>
    have hloop : w.loop = true := h
    rw [hw] at hloop
    cases hloop

theorem Completion.Fits.outer {w : Surroundings} {c : Completion}
    (h : c.Fits { w with loop := false }) : c.Fits w := by
  cases c with
  | normal => trivial
  | returned v => exact h
  | broke => cases h
  | continued => cases h

namespace Exec
variable {α : Type} {A : α → Prop}

/-- If the computation gives a value, it is one of `A`. -/
abbrev Gives (A : α → Prop) (x : Exec α) : Prop := Upholds (fun _ => True) (fun _ => True) A x

theorem gives_any (x : Exec α) : Gives (fun _ => True) x := by
  intro m _
  cases x m with
  | ok a m' => exact .ok trivial trivial
  | error h m' => exact .error trivial trivial

theorem gives_inChild {x : Exec α} (h : Gives A x) : Gives A (inChild x) := by
  intro m _
  have hresult := h (s := m.entering m.current []) trivial
  unfold Machine.entering at hresult
  unfold inChild inScope
  dsimp only
  generalize x _ = r at hresult ⊢
  cases hresult with
  | ok ha _ => exact .ok ha trivial
  | error _ _ => exact .error trivial trivial

/-- Confined statements end as fits what stands around them, with `n` steps allotted. -/
structure Fitting (limit n : Nat) : Prop where
  exec : ∀ {w : Surroundings} {s : Stmt}, s.Confined w → Gives (Completion.Fits w) (exec limit n s)
  execAll : ∀ {w : Surroundings} {ss : List Stmt}, (∀ s ∈ ss, s.Confined w) →
    Gives (Completion.Fits w) (execAll limit n ss)
  execLoop : ∀ {w : Surroundings} {s : Stmt} (c : Expr) (i : Option Expr), s.Confined w.loopBody →
    Gives (Completion.Fits { w with loop := false }) (execLoop limit n c s i)

section
variable {limit n : Nat} (ih : Fitting limit n) {w : Surroundings} {s : Stmt}
include ih

theorem fits_exec (h : s.Confined w) : Gives (Completion.Fits w) (exec limit (n + 1) s) := by
  cases h with
  | empty => exact .pure trivial
  | expression e => exact (gives_any _).bind fun _ _ => .pure trivial
  | print keyword e =>
    exact (gives_any _).bind fun _ _ => (gives_any _).bind fun _ _ => .pure trivial
  | declare name init =>
    cases init with
    | none => exact (gives_any _).bind fun _ _ => .pure trivial
    | some e => exact (gives_any _).bind fun _ _ => (gives_any _).bind fun _ _ => .pure trivial
  | block body => exact gives_inChild (ih.execAll body)
  | @branch _ c yes no hyes hno =>
    refine (gives_any _).bind fun v _ => ?_
    split
    · exact gives_inChild (ih.exec hyes)
    · cases no with
      | none => exact .pure trivial
      | some s => exact gives_inChild (ih.exec (hno s List.mem_cons_self))
  | @loop _ c s i body => exact (ih.execLoop c i body).mono fun _ => Completion.Fits.outer
  | breakLoop hw keyword => exact .pure hw
  | continueLoop hw keyword => exact .pure hw
  | function body => exact (gives_any _).bind fun _ _ => (gives_any _).bind fun _ _ => .pure trivial
  | returnValue hw keyword value =>
    cases value with
    | none => exact .pure hw
    | some e => exact (gives_any _).bind fun _ _ => .pure hw

theorem fits_execAll {ss : List Stmt} (h : ∀ s ∈ ss, s.Confined w) :
    Gives (Completion.Fits w) (execAll limit (n + 1) ss) := by
  cases ss with
  | nil => exact .pure trivial
  | cons s ss =>
    obtain ⟨hs, hss⟩ := List.forall_mem_cons.1 h
    refine (ih.exec hs).bind fun c hc => ?_
    cases c with
    | normal => exact ih.execAll hss
    | _ => exact .pure hc

theorem fits_execLoop (c : Expr) (i : Option Expr) (h : s.Confined w.loopBody) :
    Gives (Completion.Fits { w with loop := false }) (execLoop limit (n + 1) c s i) := by
  refine (gives_any _).bind fun v _ => ?_
  split
  · refine (gives_inChild (ih.exec h)).bind fun completion hcompletion => ?_
    -- The jumps of the body that leave the loop end here, all but a `return`.
    cases completion with
    | broke => exact .pure trivial
    | returned v => exact .pure hcompletion
    | normal | continued =>
      cases i with
      | none => exact ih.execLoop c none h
      | some e => exact (gives_any _).bind fun _ _ => ih.execLoop c (some e) h
  · exact .pure trivial

end

theorem fitting (limit n : Nat) : Fitting limit n := by
  induction n with
  | zero => constructor <;> (intros; exact .throw trivial)
  | succ n ih =>
    exact {
      exec := fits_exec ih
      execAll := fits_execAll ih
      execLoop := fits_execLoop ih }

theorem leavesNoLoop_body {limit n : Nat} {f : Closure} (hf : f.Obeys .confined) :
    Gives Completion.LeavesNoLoop (execAll limit n f.body) := by
  obtain ⟨w, hconfined⟩ := Stmt.Every.here hf
  cases hconfined with
  | function body =>
    exact ((fitting limit n).execAll body).mono fun _ hfits => hfits.leavesNoLoop rfl

theorem leavesNoLoop_loop {limit n : Nat} {c : Expr} {s : Stmt} {i : Option Expr}
    (h : (Activity.exec (.loop c s i)).Obeys .confined) :
    Gives Completion.LeavesNoLoop (exec limit n (.loop c s i)) := by
  obtain ⟨w, hconfined⟩ := Stmt.Every.here h
  cases hconfined with
  | loop body =>
    cases n with
    | zero => exact .throw trivial
    | succ n =>
      exact ((fitting limit n).execLoop c i body).mono fun _ hfits => hfits.leavesNoLoop rfl

theorem Gives.of_ok {x : Exec α} (h : Gives A x) {m m' : Machine} {a : α} (hx : x m = .ok a m') :
    A a := (Upholds.of_ok h trivial hx).1

/-- On every machine that has only run programs without faults, in every run of one more: each of
its statements ends normally unless it halts; the body of each function that is called never ends by
a `break` or `continue`; and no loop does. -/
theorem jumps_are_confined {m : Machine}
    (hm : Machine.Reachable Program.Accepted LoneExpression.Accepted m) {ss : List Stmt}
    (hss : Program.Accepted ss) (limit fuel : Nat) :
    (∀ before s after m₁ c m₂, ss = before ++ s :: after → run limit fuel before m = .ok () m₁ →
      exec limit fuel s m₁ = .ok c m₂ → c = .normal) ∧
    (∀ n f args m₁, ⟨n, .invoke f args, m₁⟩ ∈ moments limit fuel ss m → ∀ k m₂ c m₃,
      execAll limit k f.body m₂ = .ok c m₃ → c.LeavesNoLoop) ∧
    ∀ n e s i m₁ c m₂, ⟨n, .exec (.loop e s i), m₁⟩ ∈ moments limit fuel ss m →
      exec limit n (.loop e s i) m₁ = .ok c m₂ → c.LeavesNoLoop := by
  have hobeys : m.Obeys .confined :=
    hm.obeys (fun _ => Program.Accepted.every) (fun _ => LoneExpression.Accepted.every)
      fun _ => trivial
  have hmoments := moments_sound (n := fuel) hss.every (hm.sound hobeys limit)
  refine ⟨?_, ?_, ?_⟩
  · rintro before s after m₁ c m₂ rfl - hexec
    have hs : s.Confined .program :=
      hss.confined s (List.mem_append_right _ List.mem_cons_self)
    have hfits := ((fitting limit fuel).exec hs).of_ok hexec
    cases c with
    | normal => rfl
    | _ => cases hfits
  · intro n f args m₁ hmoment k m₂ c m₃ hexec
    obtain ⟨⟨hf, -⟩, -⟩ := hmoments _ hmoment
    exact (leavesNoLoop_body hf).of_ok hexec
  · intro n e s i m₁ c m₂ hmoment hexec
    obtain ⟨hloop, -⟩ := hmoments _ hmoment
    exact (leavesNoLoop_loop hloop).of_ok hexec

def Activity.isCall : Activity → Bool
  | invoke _ _ => true
  | _ => false

def Activity.isLoop : Activity → Bool
  | exec (.loop _ _ _) => true
  | _ => false

/-- A function leaves a loop by `return`, and the program leaves one by `break`. -/
theorem jumps_are_confined_return :
    let source := utf8 "fun f(n) \x7b while (true) \x7b if (n) return n; break; \x7d \x7d
      f(1); while (true) break;"
    let m := Machine.fresh 0
    ∃ ss, Program.parse? (Scan.ofSource source).tokens = some ⟨ss, []⟩ ∧ ss.length = 3 ∧
      (∀ before s after m₁ c m₂, ss = before ++ s :: after → run 5 30 before m = .ok () m₁ →
        exec 5 30 s m₁ = .ok c m₂ → c = .normal) ∧
      (∃ n f args m₁, ⟨n, .invoke f args, m₁⟩ ∈ moments 5 30 ss m ∧ ∀ k m₂ c m₃,
        execAll 5 k f.body m₂ = .ok c m₃ → c.LeavesNoLoop) ∧
      ∃ n e s i m₁, ⟨n, .exec (.loop e s i), m₁⟩ ∈ moments 5 30 ss m ∧ ∀ c m₂,
        exec 5 n (.loop e s i) m₁ = .ok c m₂ → c.LeavesNoLoop := by
  intro source m
  have hrun : (Program.parse? (Scan.ofSource source).tokens).map (fun p =>
      (p.faults.length, p.statements.length,
        (moments 5 30 p.statements m).any fun x => x.activity.isCall,
        (moments 5 30 p.statements m).any fun x => x.activity.isLoop)) =
      some (0, 3, true, true) := by decide +kernel
  obtain ⟨⟨ss, faults⟩, hparse, hfacts⟩ := Option.map_eq_some_iff.1 hrun
  simp only [Prod.mk.injEq, List.length_eq_zero_iff, List.any_eq_true] at hfacts
  obtain ⟨rfl, hlength, ⟨x, hx, hcall⟩, ⟨y, hy, hloop⟩⟩ := hfacts
  have hreached : Machine.Reachable Program.Accepted LoneExpression.Accepted m := .fresh 0
  obtain ⟨hnormal, hbodies, hloops⟩ := jumps_are_confined hreached ⟨_, hparse⟩ 5 30
  refine ⟨ss, hparse, hlength, hnormal, ?_, ?_⟩
  · obtain ⟨n, a, m₁⟩ := x
    cases a with
    | invoke f args => exact ⟨n, f, args, m₁, hx, hbodies n f args m₁ hx⟩
    | _ => cases hcall
  · obtain ⟨n, a, m₁⟩ := y
    cases a with
    | exec s =>
      cases s with
      | loop e s i => exact ⟨n, e, s, i, m₁, hy, fun c m₂ => hloops n e s i m₁ c m₂ hy⟩
      | _ => cases hloop
    | _ => cases hloop

end Exec
end Lox
