import Lox.Proofs.Session.Requests
import Lox.Proofs.Syntax.Separation

/-! What a request tells, its log entries aside. A request that has something to run tells how that
ran and nothing else; so a program does the same whether it is run or typed in as a line. -/
namespace Lox.Session

/-- What two requests give is the same but for log entries. -/
structure Same (x y : UnitReport × Session) : Prop where
  outcome : x.1.outcome = y.1.outcome
  printed : x.1.printed = y.1.printed
  rendered : Notice.rendered x.1.notices = Notice.rendered y.1.notices
  session : x.2 = y.2

/-- Requests that give the same as a third both end or neither does, and then they give the same. -/
theorem Same.of_rel {x y z : Option (UnitReport × Session)} (hx : Option.Rel Same x z)
    (hy : Option.Rel Same y z) : Option.Rel Same x y := by
  cases hx with
  | none =>
    cases hy
    exact .none
  | some hx =>
    cases hy with
    | some hy =>
      exact .some ⟨hx.outcome.trans hy.outcome.symm, hx.printed.trans hy.printed.symm,
        hx.rendered.trans hy.rendered.symm, hx.session.trans hy.session.symm⟩

section
variable {s s' : Session} {fuel : Nat} {source : Bytes} {report : UnitReport}

/-- What is logged before a run does not change what the run tells. -/
theorem report?_same {before : List Notice} (h : Notice.rendered before = [])
    (r : EStateM.Result Halt Machine Unit) :
    Option.Rel Same (s.report? source before r) (s.report? source [] r) := by
  cases r with
  | ok _ m => exact .some ⟨rfl, rfl, h, rfl⟩
  | error e m =>
    cases e with
    | fault f =>
      refine .some ⟨rfl, rfl, ?_, rfl⟩
      dsimp only
      rw [rendered_append, h, rendered_append]
      rfl
    | malformed => exact .none
    | exhausted => exact .none

/-- A run that is reported as a fault ended in one, and that is shown against the source. -/
theorem report?_fault {r : EStateM.Result Halt Machine Unit}
    (h : s.report? source [] r = some (report, s')) (hfault : report.outcome = .runtimeFault) :
    ∃ f m, r = .error (.fault f) m ∧
      Notice.rendered report.notices = Diagnostic.renderAll s.colour source [f.diagnostic] := by
  unfold report? at h
  split at h
  next =>
    cases h
    cases hfault
  next f m =>
    cases h
    exact ⟨f, m, rfl, List.append_nil _⟩
  next => cases h
  next => cases h

theorem run?_same {ss : List Stmt} (h : Reads source ss) :
    Option.Rel Same (s.run? fuel source)
      (s.report? source [] (Exec.run s.callLimit fuel ss s.machine)) := by
  obtain ⟨notices, hparse, hsilent⟩ : ∃ notices, s.parse? source = some ⟨.ok, ss, notices⟩ ∧
      Notice.rendered notices = [] := by
    unfold parse?
    dsimp only
    rw [h.scan, h.parse]
    refine ⟨_, rfl, ?_⟩
    exact (rendered_scanned s h.scan _).trans (rendered_parseNotices s source ⟨ss, []⟩)
  have hsame :
      Option.Rel Same (s.report? source notices (Exec.run s.callLimit fuel ss s.machine))
        (s.report? source [] (Exec.run s.callLimit fuel ss s.machine)) :=
    report?_same hsilent _
  unfold run?
  rw [hparse]
  dsimp only
  rw [if_pos rfl]
  generalize s.report? source notices _ = x, s.report? source [] _ = y at hsame ⊢
  cases hsame with
  | none => exact .none
  | some hx =>
    refine .some ⟨hx.outcome, hx.printed, ?_, hx.session⟩
    dsimp only
    rw [rendered_append]
    exact (List.append_nil _).trans hx.rendered

theorem runLine?_program {ss : List Stmt} (h : Reads source ss)
    (hlone : ∀ e, LoneExpression.parse (Scan.ofSource source).tokens ≠ ⟨some e, []⟩) :
    Option.Rel Same (s.runLine? fuel source)
      (s.report? source [] (Exec.run s.callLimit fuel ss s.machine)) := by
  have hsilent : Notice.rendered (s.scanNotices source (Scan.ofSource source)) = [] := by
    rw [rendered_scanNotices, h.scan]
    rfl
  unfold runLine?
  dsimp only
  rw [if_pos (by rw [h.scan]; rfl)]
  split
  next e he => exact absurd he (hlone e)
  next =>
    rw [h.parse]
    exact report?_same hsilent _

theorem runLine?_expression {e : Expr} (hscan : (Scan.ofSource source).faults = [])
    (h : LoneExpression.parse (Scan.ofSource source).tokens = ⟨some e, []⟩) :
    Option.Rel Same (s.runLine? fuel source)
      (s.report? source [] (echo s.callLimit fuel e s.machine)) := by
  unfold runLine?
  dsimp only
  rw [if_pos (by rw [hscan]; rfl), h]
  exact report?_same (rendered_scanned s hscan _) _

/-- A request that has something to run tells how that ran. -/
theorem serve?_same {q : Request} {task : Task} (h : q.Asks task) :
    Option.Rel Same (s.serve? fuel q)
      (s.report? q.source [] (task.perform s.callLimit fuel s.machine)) := by
  cases h with
  | run h => exact run?_same h
  | evaluate hscan h => exact runLine?_expression hscan h
  | runLine h hlone => exact runLine?_program h hlone

/-- A request that ends in a runtime fault had something to run, which ended in that fault. -/
theorem serve?_fault {q : Request} (h : s.serve? fuel q = some (report, s'))
    (hfault : report.outcome = .runtimeFault) :
    ∃ task f m, q.Asks task ∧
      task.perform s.callLimit fuel s.machine = .error (.fault f) m ∧
      Notice.rendered report.notices = Diagnostic.renderAll s.colour q.source [f.diagnostic] := by
  cases serve?_served h with
  | @worked task htask _ _ =>
    have hsame : Option.Rel Same (s.serve? fuel q)
        (s.report? q.source [] (task.perform s.callLimit fuel s.machine)) := serve?_same htask
    rw [h] at hsame
    generalize hreport : s.report? q.source [] _ = x at hsame
    cases hsame with
    | @some _ x hx =>
      obtain ⟨f, m, hrun, hrendered⟩ := report?_fault hreport (hx.outcome.symm.trans hfault)
      exact ⟨task, f, m, htask, hrun, hx.rendered.trans hrendered⟩
  | checked _ houtcome => simp [hfault] at houtcome
  | misspelt _ houtcome _ _ => simp [hfault] at houtcome
  | misformed _ _ _ _ houtcome _ _ => simp [hfault] at houtcome

end

/-- Tokens that are a program without faults are no lone expression without faults. So a source
without a fault of its text does the same when it is typed in as a line as when it is run: both come
to an end or neither does, and then with the same outcome, the same output and the same faults shown,
and the sessions they leave are the same. -/
theorem line_runs_as_program :
    (∀ tokens p, Program.parse? tokens = some p → p.faults = [] →
      (LoneExpression.parse tokens).faults ≠ []) ∧
    ∀ (s : Session) (source : Bytes), Faultless source → ∀ fuel : Nat,
      Option.Rel (fun x y => x.1.outcome = y.1.outcome ∧ x.1.output = y.1.output ∧
          Notice.rendered x.1.notices = Notice.rendered y.1.notices ∧ x.2 = y.2)
        (s.runLine? fuel source) (s.run? fuel source) := by
  have hseparate : ∀ tokens p, Program.parse? tokens = some p → p.faults = [] →
      (LoneExpression.parse tokens).faults ≠ [] := fun _ _ => LoneExpression.faults_of_program
  refine ⟨hseparate, fun s source hsource fuel => ?_⟩
  obtain ⟨ss, hreads⟩ := hsource.reads
  have hlone : ∀ e, LoneExpression.parse (Scan.ofSource source).tokens ≠ ⟨some e, []⟩ := by
    intro e he
    exact hseparate _ _ hreads.parse rfl (by rw [he])
  have hsame : Option.Rel Same (s.runLine? fuel source) (s.run? fuel source) :=
    Same.of_rel (runLine?_program hreads hlone) (run?_same hreads)
  generalize s.runLine? fuel source = x, s.run? fuel source = y at hsame ⊢
  cases hsame with
  | none => exact .none
  | some h =>
    refine .some ⟨h.outcome, ?_, h.rendered, h.session⟩
    rw [UnitReport.output, UnitReport.output, h.printed]

/-- A line that prints and then ends in a fault does so as a program too. -/
theorem line_runs_as_program_fault :
    let s := Session.fresh false 0 0
    let source := utf8 "fun f(n) \x7b return n + n; \x7d print f(2); f(nil);"
    Faultless source ∧ (LoneExpression.parse (Scan.ofSource source).tokens).faults ≠ [] ∧
      ∃ x y, s.runLine? 12 source = some x ∧ s.run? 12 source = some y ∧
        y.1.outcome = .runtimeFault ∧ y.1.output = utf8 "4\n" ∧ x.1.outcome = y.1.outcome ∧
        x.1.output = y.1.output ∧
        Notice.rendered x.1.notices = Notice.rendered y.1.notices ∧ x.2 = y.2 := by
  intro s source
  have hsource : Faultless source := by decide +kernel
  have hrun : (s.run? 12 source).map (fun y => (y.1.outcome, y.1.output)) =
      some (.runtimeFault, utf8 "4\n") := by decide +kernel
  obtain ⟨ss, hreads⟩ := hsource.reads
  obtain ⟨y, hy, hends⟩ := Option.map_eq_some_iff.1 hrun
  obtain ⟨houtcome, houtput⟩ := Prod.mk.inj hends
  obtain ⟨hseparate, hsame⟩ := line_runs_as_program
  have hboth := hsame s source hsource 12
  rw [hy] at hboth
  generalize hx : s.runLine? 12 source = x at hboth
  cases hboth with
  | @some x _ h =>
    exact ⟨hsource, hseparate _ _ hreads.parse rfl, x, y, rfl, hy, houtcome, houtput, h⟩

end Lox.Session
