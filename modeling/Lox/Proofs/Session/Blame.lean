import Lox.Proofs.Machine.Provenance
import Lox.Proofs.Session.Reports

/-! The source that a runtime fault belongs to. A fault is at a token of the unit that is run or of
one that was run before, whose functions may be called later; it is always shown against the unit
that is run. -/
namespace Lox

/-- The source has the lexeme of the diagnostic at its offset, and the line and the column are those
of the offset. -/
def Diagnostic.StandsIn (d : Diagnostic) (source : Bytes) : Prop :=
  (0 ≤ d.offset ∧ d.offset ≤ source.length) ∧ d.lexeme <+: source.drop d.offset.toNat ∧
    d.line = (Position.after (source.take d.offset.toNat)).line ∧
    d.column = (Position.after (source.take d.offset.toNat)).column

instance (d : Diagnostic) (source : Bytes) : Decidable (d.StandsIn source) :=
  inferInstanceAs (Decidable (_ ∧ _))

/-- A fault at a token of a source stands in that source. -/
theorem RuntimeFault.standsIn {f : RuntimeFault} {source : Bytes}
    (h : f.token ∈ (Scan.ofSource source).tokens) : f.diagnostic.StandsIn source := by
  obtain ⟨v, w, hsource, hposition⟩ := Scan.token_placed h
  have hoffset : f.diagnostic.offset = (v.length : Int) := by
    change (f.token.position.offset : Int) = v.length
    rw [hposition]
    rfl
  have hlength : source.length = v.length + (f.token.lexeme ++ w).length := by
    rw [hsource, List.length_append]
  have htake : source.take v.length = v := by rw [hsource, List.take_left]
  have hdrop : source.drop v.length = f.token.lexeme ++ w := by rw [hsource, List.drop_left]
  unfold Diagnostic.StandsIn
  rw [hoffset, Int.toNat_natCast, htake, hdrop]
  refine ⟨⟨by omega, by omega⟩, List.prefix_append _ w, ?_, ?_⟩
  · change (f.token.position.line : Int) = _
    rw [hposition]
  · change (f.token.position.column : Int) = _
    rw [hposition]

namespace Session

/-- The sessions that there are between requests, each of which ended, with the requests so far,
the latest first. -/
inductive History : List Request → Session → Prop where
  | fresh (colour : Bool) (callLimit : Int) (clock : Clock) :
      History [] (.fresh colour callLimit clock)
  | served {qs : List Request} {s s' : Session} (h : History qs s) {fuel : Nat} {q : Request}
      {report : UnitReport} (hserve : s.serve? fuel q = some (report, s')) : History (q :: qs) s'

/-- The token is one of the source of a request. -/
def Request.Hold (qs : List Request) (t : Token) : Prop :=
  ∃ q ∈ qs, t ∈ (Scan.ofSource q.source).tokens

theorem Request.Hold.cons {qs : List Request} {t : Token} (h : Hold qs t) (q : Request) :
    Hold (q :: qs) t := by
  obtain ⟨q', hq', ht⟩ := h
  exact ⟨q', List.mem_cons_of_mem q hq', ht⟩

namespace Task
variable {T T' : Token → Prop} {task : Task}

/-- The code is made of tokens with the property `T`. -/
def MadeOf (T : Token → Prop) : Task → Prop
  | program ss => ∀ s ∈ ss, s.Every (Expr.Formed T) fun _ => True
  | expression e => e.MadeOf T

theorem MadeOf.mono (hT : ∀ t, T t → T' t) (h : task.MadeOf T) : task.MadeOf T' := by
  cases task with
  | program ss => exact fun s hs => (h s hs).mono (fun _ he => he.mono hT) fun _ ht => ht
  | expression e => exact Expr.Every.mono (fun _ he => he.mono hT) h

theorem MadeOf.obeys (h : task.MadeOf T) (limit fuel : Nat) :
    Exec.Obeys (.madeOf T) (fun _ => True) (task.perform limit fuel) := by
  cases task with
  | program ss => exact Exec.obeys_run limit fuel h
  | expression e =>
    have heval := (Exec.obedience (.madeOf T) limit fuel).eval h
    exact heval.bind fun v _ => Exec.obeys_print v.text

/-- A fault of code that is made of such tokens, on a machine whose functions are too, is at one. -/
theorem MadeOf.blames (h : task.MadeOf T) {m m' : Machine} (hm : m.Obeys (.madeOf T))
    {limit fuel : Nat} {f : RuntimeFault}
    (hrun : task.perform limit fuel m = .error (.fault f) m') : f.Blames T :=
  ((h.obeys limit fuel).of_error hm hrun).1

end Task

theorem Request.Asks.madeOf {q : Request} {task : Task} (h : q.Asks task) :
    task.MadeOf (· ∈ (Scan.ofSource q.source).tokens) := by
  have hprogram {source : Bytes} {ss : List Stmt} (h : Reads source ss) :
      (Task.program ss).MadeOf (· ∈ (Scan.ofSource source).tokens) :=
    fun s hs => (Program.madeOf_parse? h.parse s hs).mono (fun _ he => he) fun _ _ => trivial
  cases h with
  | run h => exact hprogram h
  | evaluate _ h => exact LoneExpression.madeOf_parse (congrArg LoneExpression.expression h)
  | runLine h _ => exact hprogram h

theorem Request.Asks.madeOf_hold {q : Request} {task : Task} (h : q.Asks task)
    (qs : List Request) : task.MadeOf (Hold (q :: qs)) :=
  h.madeOf.mono fun _ ht => ⟨q, List.mem_cons_self, ht⟩

/-- The functions of a session are made of the tokens of the requests so far. -/
theorem History.obeys {qs : List Request} {s : Session} (h : History qs s) :
    s.machine.Obeys (.madeOf (Request.Hold qs)) := by
  induction h with
  | fresh colour callLimit clock => exact Machine.obeys_fresh (fun _ => rfl) clock
  | @served qs s s' _ fuel q report hserve ih =>
    have hbefore : s.machine.Obeys (.madeOf (Request.Hold (q :: qs))) :=
      ih.madeOf_mono fun _ ht => ht.cons q
    cases serve?_served hserve with
    | worked htask _ => exact hbefore.final ((htask.madeOf_hold qs).obeys s.callLimit fuel)
    | _ => exact hbefore

/-- On a fresh session, a program that ends in a runtime fault ends in one at a token of its own
source other than the end of the input. It has one of eight codes, and the token is an operator, a
name or a closing parenthesis as belongs to the code. -/
theorem fault_is_at_token_of_source {colour : Bool} {callLimit : Int} {clock : Clock} {fuel : Nat}
    {source : Bytes} {report : UnitReport} {s' : Session}
    (h : (fresh colour callLimit clock).run? fuel source = some (report, s'))
    (hfault : report.outcome = .runtimeFault) :
    ∃ f : RuntimeFault, (fresh colour callLimit clock).fault? fuel source = some f ∧
      Notice.rendered report.notices = Diagnostic.renderAll colour source [f.diagnostic] ∧
      f.token ∈ (Scan.ofSource source).tokens ∧ f.token.kind ≠ .endOfInput ∧
      RuntimeFault.ArisesAt f.code f.token.kind := by
  have hmachine : (fresh colour callLimit clock).machine.Obeys
      (.madeOf (· ∈ (Scan.ofSource source).tokens)) := Machine.obeys_fresh (fun _ => rfl) clock
  obtain ⟨task, f, m, htask, hrun, hrendered⟩ := serve?_fault (q := .run source) h hfault
  have hblames := htask.madeOf.blames hmachine hrun
  have hend : f.token.kind ≠ .endOfInput := by
    intro hkind
    have hsite := hblames.site
    rw [hkind] at hsite
    exact RuntimeFault.not_arisesAt_end f.code hsite
  cases htask with
  | run hreads =>
    obtain ⟨-, -, -, -, hends⟩ := run?_fault hreads hrun
    exact ⟨f, hends, hrendered, hblames.token, hend, hblames.site⟩

/-- A function that is passed to another is called with too many arguments. -/
theorem fault_is_at_token_of_source_arity :
    let s := fresh true 7 0
    let source := utf8 "fun f() \x7b\x7d fun g(h) \x7b h(1); \x7d g(f);"
    ∃ report s' f, s.run? 20 source = some (report, s') ∧ report.outcome = .runtimeFault ∧
      s.fault? 20 source = some f ∧ f.code = "E3007" ∧
      Notice.rendered report.notices = Diagnostic.renderAll true source [f.diagnostic] ∧
      f.token ∈ (Scan.ofSource source).tokens ∧ f.token.kind ≠ .endOfInput ∧
      RuntimeFault.ArisesAt f.code f.token.kind := by
  intro s source
  have hrun : (s.run? 20 source).map (·.1.outcome) = some .runtimeFault := by decide +kernel
  have hcode : (s.fault? 20 source).map (·.code) = some "E3007" := by decide +kernel
  obtain ⟨⟨report, s'⟩, hreport, houtcome⟩ := Option.map_eq_some_iff.1 hrun
  obtain ⟨f, hends, htold⟩ := fault_is_at_token_of_source hreport houtcome
  rw [hends] at hcode
  exact ⟨report, s', f, hreport, houtcome, hends, Option.some.inj hcode, htold⟩

/-- Whatever a session has served before, a request that ends in a runtime fault shows it against
the source of the request. The fault stands in that source or in the source of an earlier request;
and where no function is left of those, it stands in the source that it is shown against. -/
theorem fault_stands_in_some_source {qs : List Request} {s : Session} (hs : History qs s)
    {fuel : Nat} {q : Request} {report : UnitReport} {s' : Session}
    (h : s.serve? fuel q = some (report, s')) (hfault : report.outcome = .runtimeFault) :
    ∃ f : RuntimeFault,
      Notice.rendered report.notices = Diagnostic.renderAll s.colour q.source [f.diagnostic] ∧
      (∃ q' ∈ q :: qs, f.diagnostic.StandsIn q'.source) ∧
      (s.machine.HasNoFunction → f.diagnostic.StandsIn q.source) := by
  obtain ⟨task, f, m, htask, hrun, hrendered⟩ := serve?_fault h hfault
  refine ⟨f, hrendered, ?_, fun hnone => ?_⟩
  · have hmachine : s.machine.Obeys (.madeOf (Request.Hold (q :: qs))) :=
      hs.obeys.madeOf_mono fun _ ht => ht.cons q
    obtain ⟨q', hq', htoken⟩ := ((htask.madeOf_hold qs).blames hmachine hrun).token
    exact ⟨q', hq', RuntimeFault.standsIn htoken⟩
  · exact RuntimeFault.standsIn (htask.madeOf.blames (hnone.madeOf hs.obeys) hrun).token

/-- A function of an earlier unit fails when a later one calls it; and a line fails on a session
without functions. -/
theorem fault_stands_in_some_source_earlier :
    let first := Request.run (utf8 "fun half(a) \x7b return a / 0; \x7d")
    let second := Request.run (utf8 "print \"one, two, three\"; half(1);")
    let line := Request.runLine (utf8 "2 / 0")
    (∃ (s : Session) (report : UnitReport) (s' : Session) (f : RuntimeFault),
      History [first] s ∧ s.serve? 12 second = some (report, s') ∧
      report.outcome = .runtimeFault ∧
      Notice.rendered report.notices = Diagnostic.renderAll false second.source [f.diagnostic] ∧
      ∃ q ∈ [second, first], f.diagnostic.StandsIn q.source) ∧
    ∃ (report : UnitReport) (s' : Session) (f : RuntimeFault),
      (fresh false 0 0).serve? 12 line = some (report, s') ∧ report.outcome = .runtimeFault ∧
      Notice.rendered report.notices = Diagnostic.renderAll false line.source [f.diagnostic] ∧
      f.diagnostic.StandsIn line.source := by
  intro first second line
  constructor
  · have hserve : ((fresh false 0 0).serve? 12 first).bind (fun x => (x.2.serve? 12 second).map
        fun y => (x.2.colour, y.1.outcome)) = some (false, .runtimeFault) := by decide +kernel
    obtain ⟨⟨r, s⟩, hfirst, hserve⟩ := Option.bind_eq_some_iff.1 hserve
    obtain ⟨⟨report, s'⟩, hsecond, hends⟩ := Option.map_eq_some_iff.1 hserve
    obtain ⟨hcolour, houtcome⟩ := Prod.mk.inj hends
    have hs : History [first] s := (History.fresh false 0 0).served hfirst
    obtain ⟨f, hrendered, hstands, -⟩ := fault_stands_in_some_source hs hsecond houtcome
    rw [show s.colour = false from hcolour] at hrendered
    exact ⟨s, report, s', f, hs, hsecond, houtcome, hrendered, hstands⟩
  · have hserve : ((fresh false 0 0).serve? 12 line).map (·.1.outcome) = some .runtimeFault := by
      decide +kernel
    obtain ⟨⟨report, s'⟩, hline, houtcome⟩ := Option.map_eq_some_iff.1 hserve
    obtain ⟨f, hrendered, -, hstands⟩ :=
      fault_stands_in_some_source (.fresh false 0 0) hline houtcome
    exact ⟨report, s', f, hline, houtcome, hrendered, hstands (Machine.hasNoFunction_fresh 0)⟩

/-- The fault of the function is shown against the later unit, where it does not stand: the caret is
below a comma. -/
theorem fault_shown_against_later_source :
    let first := utf8 "fun half(a) \x7b return a / 0; \x7d"
    let second := utf8 "print \"one, two, three\"; half(1);"
    ∃ (r : UnitReport) (s : Session) (report : UnitReport) (s' : Session) (f : RuntimeFault),
      (fresh false 0 0).run? 12 first = some (r, s) ∧ s.run? 12 second = some (report, s') ∧
      report.outcome = .runtimeFault ∧ s.fault? 12 second = some f ∧
      Notice.rendered report.notices = utf8 ("[line: 1, column: 24 at /] error: division by zero\n" ++
        "1 | print \"one, two, three\"; half(1);\n" ++ "  |                        ^\n") ∧
      f.diagnostic.StandsIn first ∧ ¬ f.diagnostic.StandsIn second := by
  intro first second
  have hrun : ((fresh false 0 0).run? 12 first).bind (fun x => (x.2.run? 12 second).bind fun y =>
      (x.2.fault? 12 second).map fun f => (y.1.outcome, Notice.rendered y.1.notices,
        decide (f.diagnostic.StandsIn first), decide (f.diagnostic.StandsIn second))) =
      some (.runtimeFault, utf8 ("[line: 1, column: 24 at /] error: division by zero\n" ++
        "1 | print \"one, two, three\"; half(1);\n" ++ "  |                        ^\n"),
        true, false) := by decide +kernel
  obtain ⟨⟨r, s⟩, hfirst, hrun⟩ := Option.bind_eq_some_iff.1 hrun
  obtain ⟨⟨report, s'⟩, hsecond, hrun⟩ := Option.bind_eq_some_iff.1 hrun
  obtain ⟨f, hfault, hends⟩ := Option.map_eq_some_iff.1 hrun
  simp only [Prod.mk.injEq, decide_eq_true_eq, decide_eq_false_iff_not] at hends
  obtain ⟨houtcome, hrendered, hstands, hstray⟩ := hends
  exact ⟨r, s, report, s', f, hfirst, hsecond, houtcome, hfault, hrendered, hstands, hstray⟩

end Session
end Lox
