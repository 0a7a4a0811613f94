import Lox.Proofs.Machine.Safety
import Lox.Proofs.Session.Units

/-! What is asked of a session, and how it is left. Whatever a unit of source comes to, the machine
is then back in the scope of the global names with no call in progress; and a unit that cannot be
read changes nothing. -/
namespace Lox

theorem Reads.not_faulty {source : Bytes} {ss : List Stmt} (h : Reads source ss)
    {p : Program} (hparse : Program.parse? (Scan.ofSource source).tokens = some p)
    (hp : p.faults ≠ []) : False := by
  cases h.parse.symm.trans hparse
  exact hp rfl

namespace Session

/-- What may be asked of a session. -/
inductive Request where
  | run (source : Bytes)
  | runLine (source : Bytes)
  | parse (source : Bytes)

def Request.source : Request → Bytes
  | .run source | .runLine source | .parse source => source

/-- Serves a request. There is no result if it does not end within `fuel`. -/
def serve? (fuel : Nat) (s : Session) : Request → Option (UnitReport × Session)
  | .run source => s.run? fuel source
  | .runLine source => s.runLine? fuel source
  | .parse source => (s.parse? source).map fun r => (⟨r.outcome, [], r.notices⟩, s)

/-- The sessions that there are between requests, each of which ended. -/
inductive Reached : Session → Prop where
  | fresh (colour : Bool) (callLimit : Int) (clock : Clock) :
      Reached (.fresh colour callLimit clock)
  | served {s s' : Session} (h : Reached s) {fuel : Nat} {q : Request} {report : UnitReport}
      (hserve : s.serve? fuel q = some (report, s')) : Reached s'

/-- What is run when a unit has been read. -/
inductive Task where
  | program (ss : List Stmt)
  | expression (e : Expr)

namespace Task

def perform (limit fuel : Nat) : Task → Exec Unit
  | program ss => Exec.run limit fuel ss
  | expression e => echo limit fuel e

def moments (limit fuel : Nat) : Task → Machine → List Exec.Moment
  | program ss, m => Exec.moments limit fuel ss m
  | expression e, m => (Exec.Activity.eval e).moments limit fuel m

/-- The code comes from a parse. -/
def Parsed : Task → Prop
  | program ss => Program.Parsed ss
  | expression e => LoneExpression.Parsed e

theorem reachable_perform {task : Task} (htask : task.Parsed) (limit fuel : Nat) {m : Machine}
    (h : m.Reachable Program.Parsed LoneExpression.Parsed) (s : Session) :
    (s.leaving (Exec.final (task.perform limit fuel m))).machine.Reachable Program.Parsed
      LoneExpression.Parsed := by
  cases task with
  | program ss => exact (h.ran limit fuel htask).idled _ _
  | expression e =>
    have hevaluated := h.evaluated limit fuel htask
    have hecho : perform limit fuel (.expression e) m =
        EStateM.bind (Exec.eval limit fuel e) (fun v => Exec.print v.text) m := rfl
    rw [hecho]
    unfold EStateM.bind
    cases heval : Exec.eval limit fuel e m with
    | ok v m' =>
      rw [heval] at hevaluated
      exact hevaluated.idled _ _
    | error halt m' =>
      rw [heval] at hevaluated
      exact hevaluated.idled _ _

theorem moments_depth {task : Task} (htask : task.Parsed) (limit fuel : Nat) {m : Machine}
    (h : m.Reachable Program.Parsed LoneExpression.Parsed) :
    ∀ x ∈ task.moments limit fuel m, x.machine.depth ≤ limit := by
  intro x hx
  have hsound := h.sound h.wellFormed limit
  cases task with
  | program ss => exact (Exec.moments_sound (Program.Parsed.wellFormed htask) hsound x hx).2.depth
  | expression e =>
    have he : (Exec.Activity.eval e).Obeys .wellFormed := LoneExpression.Parsed.wellFormed htask
    exact (Exec.Activity.moments_sound he hsound x hx).2.depth

end Task

/-- What a request comes to run. A line that is an expression is evaluated; otherwise a unit that is
read without faults is run. -/
inductive Request.Asks : Request → Task → Prop where
  | run {source : Bytes} {ss : List Stmt} (h : Reads source ss) : Asks (.run source) (.program ss)
  | evaluate {source : Bytes} {e : Expr} (hscan : (Scan.ofSource source).faults = [])
      (h : LoneExpression.parse (Scan.ofSource source).tokens = ⟨some e, []⟩) :
      Asks (.runLine source) (.expression e)
  | runLine {source : Bytes} {ss : List Stmt} (h : Reads source ss)
      (hlone : ∀ e, LoneExpression.parse (Scan.ofSource source).tokens ≠ ⟨some e, []⟩) :
      Asks (.runLine source) (.program ss)

theorem Request.Asks.parsed {q : Request} {task : Task} (h : q.Asks task) : task.Parsed := by
  cases h with
  | run h => exact ⟨_, _, h.parse, rfl⟩
  | evaluate _ h => exact ⟨_, by rw [h]⟩
  | runLine h _ => exact ⟨_, _, h.parse, rfl⟩

theorem Request.Asks.scan {q : Request} {task : Task} (h : q.Asks task) :
    (Scan.ofSource q.source).faults = [] := by
  cases h with
  | run h => exact h.scan
  | evaluate hscan _ => exact hscan
  | runLine h _ => exact h.scan

theorem Request.Asks.unique {q : Request} {task task' : Task} (h : q.Asks task)
    (h' : q.Asks task') : task = task' := by
  cases h with
  | run h =>
    cases h' with
    | run h' =>
      cases h.parse.symm.trans h'.parse
      rfl
  | evaluate _ h =>
    cases h' with
    | evaluate _ h' =>
      cases h.symm.trans h'
      rfl
    | runLine _ hlone => exact absurd h (hlone _)
  | runLine h hlone =>
    cases h' with
    | evaluate _ h' => exact absurd h' (hlone _)
    | runLine h' _ =>
      cases h.parse.symm.trans h'.parse
      rfl

/-- How a request is served. -/
inductive Served (fuel : Nat) (s : Session) (q : Request) : UnitReport → Session → Prop where
  | worked {task : Task} (htask : q.Asks task) {report : UnitReport}
      (houtcome : report.outcome = .ok ∨ report.outcome = .runtimeFault) :
      Served fuel s q report (s.leaving (Exec.final (task.perform s.callLimit fuel s.machine)))
  | checked (hq : ∀ task, ¬ q.Asks task) {report : UnitReport} (houtcome : report.outcome = .ok) :
      Served fuel s q report s
  | misspelt (hscan : (Scan.ofSource q.source).faults ≠ []) {report : UnitReport}
      (houtcome : report.outcome = .scanFault) (hprinted : report.printed = [])
      (hrendered : Notice.rendered report.notices = Diagnostic.renderAll s.colour q.source
        ((Scan.ofSource q.source).faults.map (·.diagnostic))) : Served fuel s q report s
  | misformed (hq : ∀ task, ¬ q.Asks task) {p : Program}
      (hscan : (Scan.ofSource q.source).faults = [])
      (hparse : Program.parse? (Scan.ofSource q.source).tokens = some p) (hp : p.faults ≠ [])
      {report : UnitReport} (houtcome : report.outcome = .parseFault)
      (hprinted : report.printed = [])
      (hrendered : Notice.rendered report.notices =
        Diagnostic.renderAll s.colour q.source (p.faults.map (·.diagnostic))) :
      Served fuel s q report s

section
variable {s s' : Session} {fuel : Nat} {source : Bytes} {report : UnitReport}

theorem rendered_append (before after : List Notice) :
    Notice.rendered (before ++ after) = Notice.rendered before ++ Notice.rendered after :=
  List.flatMap_append

/-- Of scanning, the faults are shown and nothing else. -/
theorem rendered_scanNotices (s : Session) (source : Bytes) (scan : Scan) :
    Notice.rendered (s.scanNotices source scan) =
      Diagnostic.renderAll s.colour source (scan.faults.map (·.diagnostic)) := by
  unfold scanNotices
  cases scan.faults with
  | nil => rfl
  | cons f fs => exact List.append_nil _

theorem rendered_parseNotices (s : Session) (source : Bytes) (p : Program) :
    Notice.rendered (s.parseNotices source p) =
      Diagnostic.renderAll s.colour source (p.faults.map (·.diagnostic)) := by
  unfold parseNotices
  cases p.faults with
  | nil => rfl
  | cons f fs => exact List.append_nil _

theorem rendered_scanned (s : Session) (h : (Scan.ofSource source).faults = [])
    (after : List Notice) :
    Notice.rendered (s.scanNotices source (Scan.ofSource source) ++ after) =
      Notice.rendered after := by
  rw [rendered_append, rendered_scanNotices, h]
  rfl

theorem report?_eq_some {before : List Notice} {r : EStateM.Result Halt Machine Unit}
    (h : s.report? source before r = some (report, s')) :
    (report.outcome = .ok ∨ report.outcome = .runtimeFault) ∧ s' = s.leaving (Exec.final r) := by
  unfold report? at h
  split at h
  next => cases h; exact ⟨.inl rfl, rfl⟩
  next => cases h; exact ⟨.inr rfl, rfl⟩
  next => cases h
  next => cases h

/-- How a unit is read. -/
theorem parse?_cases {r : Reading} (h : s.parse? source = some r) :
    r.outcome = .ok ∧ Reads source r.statements ∨
    (r.outcome = .scanFault ∧ (Scan.ofSource source).faults ≠ [] ∧ Notice.rendered r.notices =
      Diagnostic.renderAll s.colour source ((Scan.ofSource source).faults.map (·.diagnostic))) ∨
    r.outcome = .parseFault ∧ (Scan.ofSource source).faults = [] ∧
      ∃ p, Program.parse? (Scan.ofSource source).tokens = some p ∧ p.faults ≠ [] ∧
        Notice.rendered r.notices =
          Diagnostic.renderAll s.colour source (p.faults.map (·.diagnostic)) := by
  unfold parse? at h
  dsimp only at h
  split at h
  next hscan =>
    have hscan := List.isEmpty_iff.1 hscan
    split at h
    next => cases h
    next p hparse =>
      split at h
      next hfaults =>
        cases h
        have hp : p = ⟨p.statements, []⟩ := by rw [← List.isEmpty_iff.1 hfaults]
        exact .inl ⟨rfl, hscan, hparse.trans (congrArg some hp)⟩
      next hfaults =>
        cases h
        refine .inr (.inr ⟨rfl, hscan, p, hparse, mt List.isEmpty_iff.2 hfaults, ?_⟩)
        dsimp only
        rw [rendered_scanned s hscan]
        exact rendered_parseNotices s source p
  next hscan =>
    cases h
    exact .inr (.inl ⟨rfl, mt List.isEmpty_iff.2 hscan, rendered_scanNotices s source _⟩)

theorem run?_served (h : s.run? fuel source = some (report, s')) :
    Served fuel s (.run source) report s' := by
  unfold run? at h
  split at h
  next => cases h
  next r hr =>
    dsimp only at h
    obtain ⟨hok, hreads⟩ | ⟨hfault, hscan, hrendered⟩ | ⟨hfault, hscan, p, hparse, hp, hrendered⟩ :=
      parse?_cases hr
    · rw [if_pos hok] at h
      obtain ⟨⟨told, t⟩, htold, heq⟩ := Option.map_eq_some_iff.1 h
      cases heq
      obtain ⟨houtcome, rfl⟩ := report?_eq_some htold
      exact .worked (.run hreads) houtcome
    · rw [if_neg (by rw [hfault]; decide)] at h
      cases h
      refine .misspelt (q := .run source) hscan hfault rfl ?_
      dsimp only
      rw [rendered_append, hrendered]
      exact List.append_nil _
    · rw [if_neg (by rw [hfault]; decide)] at h
      cases h
      refine .misformed (q := .run source) (fun task htask => ?_) hscan hparse hp hfault rfl ?_
      · cases htask with
        | run hreads => exact hreads.not_faulty hparse hp
      · dsimp only
        rw [rendered_append, hrendered]
        exact List.append_nil _

theorem runLine?_served (h : s.runLine? fuel source = some (report, s')) :
    Served fuel s (.runLine source) report s' := by
  unfold runLine? at h
  dsimp only at h
  split at h
  next hscan =>
    have hscan := List.isEmpty_iff.1 hscan
    split at h
    next e hlone =>
      obtain ⟨houtcome, rfl⟩ := report?_eq_some h
      exact .worked (.evaluate hscan hlone) houtcome
    next hlone =>
      split at h
      next => cases h
      next p hparse =>
        split at h
        next hfaults =>
          have hp : p = ⟨p.statements, []⟩ := by rw [← List.isEmpty_iff.1 hfaults]
          have hreads : Reads source p.statements := ⟨hscan, hparse.trans (congrArg some hp)⟩
          obtain ⟨houtcome, rfl⟩ := report?_eq_some h
          exact .worked (.runLine hreads hlone) houtcome
        next hfaults =>
          cases h
          have hp : p.faults ≠ [] := mt List.isEmpty_iff.2 hfaults
          refine .misformed (q := .runLine source) (fun task htask => ?_) hscan hparse hp rfl
            rfl ?_
          · cases htask with
            | evaluate _ h => exact hlone _ h
            | runLine hreads _ => exact hreads.not_faulty hparse hp
          · exact (rendered_scanned s hscan _).trans (rendered_parseNotices s source p)
  next hscan =>
    cases h
    have hfaults : (Scan.ofSource source).faults ≠ [] := mt List.isEmpty_iff.2 hscan
    exact .misspelt (q := .runLine source) hfaults rfl rfl (rendered_scanNotices s source _)

theorem parse?_served {r : Reading} (h : s.parse? source = some r) :
    Served fuel s (.parse source) ⟨r.outcome, [], r.notices⟩ s := by
  obtain ⟨hok, -⟩ | ⟨hfault, hscan, hrendered⟩ | ⟨hfault, hscan, p, hparse, hp, hrendered⟩ :=
    parse?_cases h
  · exact .checked (fun task htask => by cases htask) hok
  · exact .misspelt (q := .parse source) hscan hfault rfl hrendered
  · exact .misformed (q := .parse source) (fun task htask => by cases htask) hscan hparse hp hfault
      rfl hrendered

theorem serve?_served {q : Request} (h : s.serve? fuel q = some (report, s')) :
    Served fuel s q report s' := by
  cases q with
  | run source => exact run?_served h
  | runLine source => exact runLine?_served h
  | parse source =>
    obtain ⟨r, hr, heq⟩ := Option.map_eq_some_iff.1 h
    cases heq
    exact parse?_served hr

/-- A session that has something to run is left as the machine is then. -/
theorem serve?_of_asks {q : Request} {task : Task} (htask : q.Asks task)
    (h : s.serve? fuel q = some (report, s')) :
    s' = s.leaving (Exec.final (task.perform s.callLimit fuel s.machine)) := by
  cases serve?_served h with
  | worked htask' _ => rw [htask.unique htask']
  | checked hq _ => exact absurd htask (hq task)
  | misspelt hscan _ _ _ => exact absurd htask.scan hscan
  | misformed hq _ _ _ _ _ _ => exact absurd htask (hq task)

/-- A session has only run parsed code. -/
theorem Reached.reachable (h : Reached s) :
    s.machine.Reachable Program.Parsed LoneExpression.Parsed := by
  induction h with
  | fresh colour callLimit clock => exact .fresh clock
  | served _ hserve ih =>
    cases serve?_served hserve with
    | worked htask _ => exact Task.reachable_perform htask.parsed _ _ ih _
    | _ => exact ih

end

/-- Nothing is run and nothing printed, and these faults are shown, all of them and in order. -/
structure Rejects (s : Session) (source : Bytes) (faults : List Diagnostic) (report : UnitReport)
    (s' : Session) : Prop where
  faulty : faults ≠ []
  unchanged : s' = s
  silent : report.output = []
  shown : Notice.rendered report.notices = Diagnostic.renderAll s.colour source faults

/-- Between requests the machine of a session is in the scope of the global names, with no call in
progress. While a request is served there are never more calls in progress than there may be; and
all evaluations, executions and calls, however they end, leave the machine in the scope in which
they found it and with as many calls in progress. A request that ends by faults of its source
changes nothing, prints nothing, and shows the faults of the scan if there are any, and otherwise
those of the parse. -/
theorem requests_leave_session_at_rest {s : Session} (hs : Reached s) :
    (s.machine.current = Machine.globals ∧ s.machine.depth = 0) ∧
    (∀ (fuel : Nat) (q : Request) (task : Task), q.Asks task →
      (∀ x ∈ task.moments s.callLimit fuel s.machine, x.machine.depth ≤ s.callLimit) ∧
      ∀ report s', s.serve? fuel q = some (report, s') →
        s' = s.leaving (Exec.final (task.perform s.callLimit fuel s.machine))) ∧
    (∀ (limit n : Nat) (a : Exec.Activity) (m : Machine),
      (Exec.final (a.perform limit n m)).current = m.current ∧
      (Exec.final (a.perform limit n m)).depth = m.depth) ∧
    (∀ (limit n : Nat) (parent : ScopeId) (bindings : List (Bytes × Value)) (ss : List Stmt)
      (m : Machine),
      (Exec.final (Exec.inScope parent bindings (Exec.execAll limit n ss) m)).current = m.current ∧
      (Exec.final (Exec.inScope parent bindings (Exec.execAll limit n ss) m)).depth = m.depth) ∧
    ∀ (fuel : Nat) (q : Request) (report : UnitReport) (s' : Session),
      s.serve? fuel q = some (report, s') →
      (report.outcome = .scanFault →
        s.Rejects q.source ((Scan.ofSource q.source).faults.map (·.diagnostic)) report s') ∧
      (report.outcome = .parseFault → (Scan.ofSource q.source).faults = [] ∧
        ∃ p, Program.parse? (Scan.ofSource q.source).tokens = some p ∧
          s.Rejects q.source (p.faults.map (·.diagnostic)) report s') := by
  have hreached := hs.reachable
  refine ⟨hreached.at_rest, ?_, ?_, ?_, ?_⟩
  · intro fuel q task htask
    exact ⟨Task.moments_depth htask.parsed s.callLimit fuel hreached,
      fun report s' => serve?_of_asks htask⟩
  · intro limit n a m
    have hcontinues := Exec.Activity.returns_perform limit n a m
    exact ⟨hcontinues.current, hcontinues.depth⟩
  · intro limit n parent bindings ss m
    have hreturns := ((Exec.frame limit).all n).execAll ss
    have hcontinues := (Exec.frame limit).inScope parent bindings hreturns m
    exact ⟨hcontinues.current, hcontinues.depth⟩
  · intro fuel q report s' hserve
    cases serve?_served hserve with
    | worked _ houtcome =>
      refine ⟨fun hfault => ?_, fun hfault => ?_⟩ <;> simp [hfault] at houtcome
    | checked _ houtcome =>
      refine ⟨fun hfault => ?_, fun hfault => ?_⟩ <;> simp [hfault] at houtcome
    | misspelt hscan houtcome hprinted hrendered =>
      have hsilent : report.output = [] := by rw [UnitReport.output, hprinted, List.flatMap_nil]
      refine ⟨fun _ => ⟨?_, rfl, hsilent, hrendered⟩, fun hfault => ?_⟩
      · simpa using hscan
      · simp [hfault] at houtcome
    | misformed _ hscan hparse hp houtcome hprinted hrendered =>
      have hsilent : report.output = [] := by rw [UnitReport.output, hprinted, List.flatMap_nil]
      refine ⟨fun hfault => ?_, fun _ => ⟨hscan, _, hparse, ?_, rfl, hsilent, hrendered⟩⟩
      · simp [hfault] at houtcome
      · simpa using hp

/-- A program that calls itself too deep, and after it a line with a fault. -/
theorem requests_leave_session_at_rest_after_overflow :
    let s₀ := Session.fresh false 3 0
    let deep := utf8 "fun f() \x7b f(); \x7d f();"
    let line := utf8 "print 1; var = 2;"
    ∃ ss report s report' s' p,
      Reads deep ss ∧ s₀.serve? 40 (.run deep) = some (report, s) ∧
      report.outcome = .runtimeFault ∧
      (∃ x ∈ Exec.moments s₀.callLimit 40 ss s₀.machine, x.machine.depth = 3) ∧
      (∀ x ∈ Exec.moments s₀.callLimit 40 ss s₀.machine, x.machine.depth ≤ s₀.callLimit) ∧
      s.machine.current = Machine.globals ∧ s.machine.depth = 0 ∧
      s.serve? 40 (.runLine line) = some (report', s') ∧ report'.outcome = .parseFault ∧
      Program.parse? (Scan.ofSource line).tokens = some p ∧
      s.Rejects line (p.faults.map (·.diagnostic)) report' s' := by
  intro s₀ deep line
  have hread : (Program.parse? (Scan.ofSource deep).tokens).map (fun p => (p.faults.length,
      (Exec.moments s₀.callLimit 40 p.statements s₀.machine).any fun x => x.machine.depth == 3)) =
      some (0, true) := by decide +kernel
  have hscan : (Scan.ofSource deep).faults = [] := by decide +kernel
  have hserve : (s₀.serve? 40 (.run deep)).bind (fun first =>
      (first.2.serve? 40 (.runLine line)).map fun second => (first.1.outcome, second.1.outcome)) =
      some (.runtimeFault, .parseFault) := by decide +kernel
  obtain ⟨⟨ss, faults⟩, hparse, hfacts⟩ := Option.map_eq_some_iff.1 hread
  simp only [Prod.mk.injEq, List.length_eq_zero_iff, List.any_eq_true, beq_iff_eq] at hfacts
  obtain ⟨rfl, hdeep⟩ := hfacts
  obtain ⟨⟨report, s⟩, hfirst, hserve⟩ := Option.bind_eq_some_iff.1 hserve
  obtain ⟨⟨report', s'⟩, hsecond, houtcomes⟩ := Option.map_eq_some_iff.1 hserve
  obtain ⟨houtcome, houtcome'⟩ := Prod.mk.inj houtcomes
  have hfresh : Reached s₀ := .fresh false 3 0
  obtain ⟨-, hduring, -⟩ := requests_leave_session_at_rest hfresh
  obtain ⟨⟨hcurrent, hdepth⟩, -, -, -, hrejects⟩ :=
    requests_leave_session_at_rest (hfresh.served hfirst)
  have hreads : Reads deep ss := ⟨hscan, hparse⟩
  obtain ⟨-, p, hp, hrejected⟩ := (hrejects 40 _ _ _ hsecond).2 houtcome'
  exact ⟨ss, report, s, report', s', p, hreads, hfirst, houtcome, hdeep,
    (hduring 40 _ _ (.run hreads)).1, hcurrent, hdepth, hsecond, houtcome', hp, hrejected⟩

end Session
end Lox
