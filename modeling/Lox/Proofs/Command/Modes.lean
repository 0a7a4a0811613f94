import Lox.Command.Run
import Lox.Proofs.Session.Requests
import Lox.Proofs.Syntax.StatementAllotment
import Lox.Proofs.Syntax.Writable

/-! The modes of the command. Whether a script is run or printed, as a tree or as JSON, the same
scripts are refused, in the same words; and nothing is printed by a command that does not come to
run the script, unless the tokens are asked for. On a script whose parse never ends no mode
reports. -/
namespace Lox

/-- Where a unit is not read to its end, its tokens are not parsed to their end. -/
theorem Session.parse?_eq_none {s : Session} {source : Bytes} (h : s.parse? source = none) :
    Program.parse? (Scan.ofSource source).tokens = none := by
  unfold parse? at h
  dsimp only at h
  split at h
  next =>
    split at h
    next hparse => exact hparse
    next => split at h <;> cases h
  next => cases h

namespace Command

theorem consoleText_append (level : Log.Level) (before after : List Notice) :
    consoleText level (before ++ after) = consoleText level before ++ consoleText level after :=
  List.flatMap_append

/-- Entries for debugging are not shown at any level above. -/
theorem consoleText_debugEntry {level : Log.Level} (h : Log.Level.debug.rank < level.rank)
    (message : String) (fields : List (String × Log.Datum)) :
    consoleText level [Session.debugEntry message fields] = [] := by
  have hshown : ¬ level.rank ≤ Log.Level.debug.rank := Int.not_le.2 h
  rw [consoleText, List.flatMap_singleton, Session.debugEntry]
  exact if_neg hshown

/-- The report is no failure of a stage before the run, or nothing is printed. -/
def Report.PrintsOnlyAfterRun (r : Report) : Prop := r.output = [] ∨ r.code = 0 ∨ r.code = 70

namespace Plan
variable {p : Plan} {w : World} {source : Bytes} {fuel : Nat} {reading : Session.Reading}
  {render : List Stmt → Except Json.EncodingError Bytes} {r : Report}

/-! Where a script is not read to its end, no mode reports on it. -/

theorem syntaxReport?_of_endless (hreading : (p.session w).parse? source = none) :
    p.syntaxReport? w source render = none := by
  rw [syntaxReport?, hreading]

theorem runReport?_of_endless (hreading : (p.session w).parse? source = none) :
    p.runReport? fuel w source = none := by
  rw [runReport?, Session.run?, hreading]

theorem scriptReport?_of_endless (hreading : (p.session w).parse? source = none)
    (haction : p.action ≠ .tokens) : p.scriptReport? fuel w source = none := by
  unfold scriptReport?
  split
  next => exact runReport?_of_endless hreading
  next htokens => exact absurd htokens haction
  next => exact syntaxReport?_of_endless hreading
  next => exact syntaxReport?_of_endless hreading

theorem syntaxReport?_of_ok (hreading : (p.session w).parse? source = some reading)
    (hok : reading.outcome = .ok) {output : Bytes}
    (hrender : render reading.statements = .ok output) :
    ∃ r, p.syntaxReport? w source render = some r ∧ r.code = 0 := by
  unfold syntaxReport?
  rw [hreading]
  dsimp only
  rw [if_pos hok, hrender]
  exact ⟨_, rfl, rfl⟩

theorem syntaxReport?_of_fault (hreading : (p.session w).parse? source = some reading)
    (hfault : reading.outcome ≠ .ok) : p.syntaxReport? w source render =
      some { code := reading.outcome.exitCode, errors := p.console reading.notices } := by
  unfold syntaxReport?
  rw [hreading]
  exact if_neg hfault

theorem runReport?_of_fault (hlevel : Log.Level.debug.rank < p.settings.level.rank)
    (hreading : (p.session w).parse? source = some reading) (hfault : reading.outcome ≠ .ok) :
    p.runReport? fuel w source =
      some { code := reading.outcome.exitCode, errors := p.console reading.notices } := by
  unfold runReport? Session.run?
  rw [hreading]
  dsimp only
  rw [if_neg hfault]
  dsimp only
  rw [console, consoleText_append, Session.runNotice, consoleText_debugEntry hlevel,
    List.append_nil]
  rfl

theorem runReport?_of_ok (hreading : (p.session w).parse? source = some reading)
    (hok : reading.outcome = .ok) (h : p.runReport? fuel w source = some r) :
    r.code = 0 ∨ r.code = 70 := by
  unfold runReport? at h
  split at h
  next => cases h
  next report s hrun =>
    cases h
    unfold Session.run? at hrun
    rw [hreading] at hrun
    dsimp only at hrun
    rw [if_pos hok] at hrun
    obtain ⟨⟨told, t⟩, htold, heq⟩ := Option.map_eq_some_iff.1 hrun
    cases heq
    dsimp only
    obtain h | h := (Session.report?_eq_some htold).1 <;> rw [h]
    · exact .inl rfl
    · exact .inr rfl

theorem runReport?_prints (h : p.runReport? fuel w source = some r) : r.PrintsOnlyAfterRun := by
  unfold runReport? at h
  split at h
  next => cases h
  next report s hrun =>
    cases h
    cases Session.run?_served hrun with
    | worked _ houtcome =>
      refine .inr ?_
      dsimp only
      obtain h | h := houtcome <;> rw [h]
      · exact .inl rfl
      · exact .inr rfl
    | checked _ houtcome =>
      refine .inr (.inl ?_)
      dsimp only
      rw [houtcome]
      rfl
    | misspelt _ _ hprinted _ | misformed _ _ _ _ _ hprinted _ =>
      refine .inl ?_
      dsimp only
      rw [UnitReport.output, hprinted]
      rfl

theorem syntaxReport?_prints (h : p.syntaxReport? w source render = some r) :
    r.PrintsOnlyAfterRun := by
  unfold syntaxReport? at h
  split at h
  next => cases h
  next =>
    dsimp only at h
    split at h
    next =>
      split at h <;> cases h
      · exact .inr (.inl rfl)
      · exact .inl rfl
    next =>
      cases h
      exact .inl rfl

theorem report?_prints (haction : p.action ≠ .tokens) (h : p.report? fuel w = some r) :
    r.PrintsOnlyAfterRun := by
  obtain ⟨r, hr, rfl⟩ := Option.map_eq_some_iff.1 h
  change r.PrintsOnlyAfterRun
  split at hr
  next =>
    cases hr
    exact .inl rfl
  next =>
    split at hr
    next =>
      cases hr
      exact .inl rfl
    next =>
      unfold scriptReport? at hr
      split at hr
      next => exact runReport?_prints hr
      next htokens => exact absurd htokens haction
      next => exact syntaxReport?_prints hr
      next => exact syntaxReport?_prints hr

end Plan

theorem Action.ofName?_eq_tokens {name : Bytes} (h : ofName? name = some .tokens) :
    name = utf8 "tokens" := by
  unfold ofName? at h
  split at h
  next => cases h
  next =>
    split at h
    next hname => exact hname
    next => split at h <;> [cases h; (split at h <;> cases h)]

/-- The action of a plan is the one that the arguments name. -/
theorem plan_action {w : World} {arguments : List Bytes} {p : Plan} (h : plan w arguments = .ok p) :
    ∃ a, Arguments.read arguments = .ok a ∧ Action.ofName? a.dump = some p.action := by
  unfold plan at h
  split at h
  next => cases h
  next a hread =>
    refine ⟨a, hread, ?_⟩
    cases hjob : jobOf a with
    | error e =>
      rw [hjob] at h
      cases h
    | ok job =>
      rw [hjob] at h
      cases hsettings : settingsFor w a with
      | error e =>
        rw [hsettings] at h
        cases h
      | ok s =>
        rw [hsettings] at h
        cases h
        unfold jobOf at hjob
        split at hjob
        next => cases hjob
        next =>
          split at hjob
          next => cases hjob
          next action haction =>
            split at hjob <;> cases hjob
            exact haction

/-- No command prints anything before it fails, unless it prints tokens. -/
theorem run?_prints {fuel : Nat} {w : World} {arguments : List Bytes} {r : Report}
    (h : run? fuel w arguments = some r)
    (htokens : ∀ a, Arguments.read arguments = .ok a → a.dump ≠ utf8 "tokens") :
    r.PrintsOnlyAfterRun := by
  unfold run? at h
  split at h
  next =>
    cases h
    exact .inl rfl
  next p hp =>
    obtain ⟨a, hread, haction⟩ := plan_action hp
    refine Plan.report?_prints (fun ht => htokens a hread ?_) h
    exact Action.ofName?_eq_tokens (ht ▸ haction)

/-- The report on a script where the arguments and the settings are in order. -/
theorem run?_of_read {fuel : Nat} {w : World} {arguments : List Bytes} {a : Arguments}
    {action : Action} {s : Settings} {path source : Bytes}
    (hread : Arguments.read arguments = .ok a) (haction : Action.ofName? a.dump = some action)
    (hoperands : a.operands = [path]) (hsource : w.files.read path = .ok source)
    (hsettings : settingsFor w a = .ok s) (hlevel : Log.Level.debug.rank < s.level.rank) :
    run? fuel w arguments = Plan.scriptReport? ⟨s, action, some path⟩ fuel w source := by
  have hjob : jobOf a = .ok (action, some path) := by
    unfold jobOf
    rw [hoperands, haction]
    exact if_neg fun h => nomatch h.2
  have hplan : plan w arguments = .ok ⟨s, action, some path⟩ := by
    unfold plan
    rw [hread]
    dsimp only
    rw [hjob, hsettings]
    rfl
  have hloaded :
      Plan.console ⟨s, action, some path⟩ [Plan.loadedNotice ⟨s, action, some path⟩] = [] :=
    consoleText_debugEntry hlevel _ _
  unfold run?
  rw [hplan]
  dsimp only
  rw [Plan.report?, hloaded]
  dsimp only
  rw [hsource]
  exact Option.map_id'

/-- How running a script, printing its tree and printing it as JSON go together. -/
inductive Concord (source : Bytes) : (plain tree json : Option Report) → Prop where
  /-- The script is refused, by all in the same words. -/
  | refused {r : Report} (hcode : r.code = 65 ∨ r.code = 66) (houtput : r.output = []) :
      Concord source (some r) (some r) (some r)
  /-- It is printed, and when it is run no syntax is at fault. -/
  | accepted {plain : Option Report} {tree json : Report} (htree : tree.code = 0)
      (hjson : json.code = 0) (hplain : ∀ r, plain = some r → r.code = 0 ∨ r.code = 70) :
      Concord source plain (some tree) (some json)
  /-- It is never parsed to its end. -/
  | endless (hends : Program.NeverEnds (Scan.ofSource source).tokens)
      (htoken : ∃ t, Program.HoldsUp (Scan.ofSource source).tokens t) :
      Concord source none none none

/-- Running and printing go together where all parsed statements can be printed. -/
theorem Plan.concord {p : Plan} (hlevel : Log.Level.debug.rank < p.settings.level.rank)
    (fuel : Nat) (w : World) (source : Bytes)
    {tree json : List Stmt → Except Json.EncodingError Bytes}
    (htree : ∀ ss, Program.Parsed ss → ∃ output, tree ss = .ok output)
    (hjson : ∀ ss, Program.Parsed ss → ∃ output, json ss = .ok output) :
    Concord source (p.runReport? fuel w source) (p.syntaxReport? w source tree)
      (p.syntaxReport? w source json) := by
  cases hreading : (p.session w).parse? source with
  | none =>
    rw [runReport?_of_endless hreading, syntaxReport?_of_endless hreading,
      syntaxReport?_of_endless hreading]
    obtain ⟨hends, htoken⟩ := Program.parse?_eq_none (Session.parse?_eq_none hreading)
    exact .endless hends htoken
  | some reading =>
    have refused (hcode : reading.outcome.exitCode = 65 ∨ reading.outcome.exitCode = 66) :
        Concord source (p.runReport? fuel w source) (p.syntaxReport? w source tree)
          (p.syntaxReport? w source json) := by
      have hfault : reading.outcome ≠ .ok := by
        intro h
        rw [h] at hcode
        revert hcode
        decide
      rw [runReport?_of_fault hlevel hreading hfault, syntaxReport?_of_fault hreading hfault,
        syntaxReport?_of_fault hreading hfault]
      exact .refused hcode rfl
    obtain ⟨hok, hreads⟩ | ⟨hfault, -⟩ | ⟨hfault, -⟩ := Session.parse?_cases hreading
    · have hparsed : Program.Parsed reading.statements := ⟨source, _, hreads.parse, rfl⟩
      obtain ⟨_, htree⟩ := htree _ hparsed
      obtain ⟨_, hjson⟩ := hjson _ hparsed
      obtain ⟨r, hr, hcode⟩ := syntaxReport?_of_ok hreading hok htree
      obtain ⟨r', hr', hcode'⟩ := syntaxReport?_of_ok hreading hok hjson
      rw [hr, hr']
      exact .accepted hcode hcode' fun _ => runReport?_of_ok hreading hok
    · exact refused (.inl (by rw [hfault]; rfl))
    · exact refused (.inr (by rw [hfault]; rfl))

/-- A command that ends before it runs its script prints nothing, unless it prints tokens. Of three
commands that differ in nothing but that the script is run, printed as a tree or printed as JSON, at
a log level above that of debugging, as the default one is: all refuse the script, with the same
code and the same words; or none does, and both that print it succeed; or the parse of the script
never ends, which takes a `class` behind the first token or a statement that nests too deep. -/
theorem modes_refuse_same_scripts (fuel : Nat) (w : World) :
    (∀ arguments r, run? fuel w arguments = some r → r.code ∈ [1, 2, 65, 66, 78] →
      (∀ a, Arguments.read arguments = .ok a → a.dump ≠ utf8 "tokens") → r.output = []) ∧
    ∀ (a : Arguments) (s : Settings) (path source : Bytes) (plain tree json : List Bytes),
      a.operands = [path] → w.files.read path = .ok source → settingsFor w a = .ok s →
      Log.Level.debug.rank < s.level.rank →
      Arguments.read plain = .ok { a with dump := [] } →
      Arguments.read tree = .ok { a with dump := utf8 "ast" } →
      Arguments.read json = .ok { a with dump := utf8 "json" } →
      Concord source (run? fuel w plain) (run? fuel w tree) (run? fuel w json) := by
  refine ⟨fun arguments r h hcode htokens => ?_, ?_⟩
  · obtain houtput | h | h := run?_prints h htokens
    · exact houtput
    · exact absurd (h ▸ hcode) (by decide)
    · exact absurd (h ▸ hcode) (by decide)
  · intro a s path source plain tree json hoperands hsource hsettings hlevel hplain htree hjson
    rw [run?_of_read hplain rfl hoperands hsource hsettings hlevel,
      run?_of_read htree rfl hoperands hsource hsettings hlevel,
      run?_of_read hjson rfl hoperands hsource hsettings hlevel]
    exact Plan.concord (p := ⟨s, .run, some path⟩) hlevel fuel w source
      (fun ss _ => ⟨_, rfl⟩) fun ss hss => ⟨_, Json.encode_of_writable hss.writable _⟩

/-- A script that lacks its last semicolon is refused in all modes, and nothing is printed. -/
theorem modes_refuse_same_scripts_unfinished :
    let w : World :=
      { files := fun path => if path = utf8 "a" then .file (utf8 "print a") else .missing
        environment := fun _ => [] }
    (∃ r, run? 0 w [utf8 "a"] = some r ∧ r.code = 66 ∧ r.output = []) ∧
      Concord (utf8 "print a") (run? 0 w [utf8 "a"]) (run? 0 w [utf8 "-dump", utf8 "ast", utf8 "a"])
        (run? 0 w [utf8 "-dump", utf8 "json", utf8 "a"]) := by
  intro w
  obtain ⟨hsilent, hconcord⟩ := modes_refuse_same_scripts 0 w
  refine ⟨?_, ?_⟩
  · have hcode : (run? 0 w [utf8 "a"]).map (·.code) = some 66 := by decide +kernel
    obtain ⟨r, hr, hcode⟩ := Option.map_eq_some_iff.1 hcode
    refine ⟨r, hr, hcode, hsilent _ r hr (by rw [hcode]; decide) fun a ha => ?_⟩
    cases ha
    decide
  · exact hconcord { operands := [utf8 "a"] } {} (utf8 "a") (utf8 "print a") _ _ _ rfl
      (by decide +kernel) (by rfl) (by decide +kernel) (by decide +kernel) (by decide +kernel)
      (by decide +kernel)

/-- The script `print 1; class A {}` is neither refused nor accepted. Its parse is held up at
`class` for ever, and so no mode reports on it, however many steps there are. -/
theorem no_mode_reports_on_class :
    let source := utf8 "print 1; class A \x7b\x7d"
    let w : World :=
      { files := fun path => if path = utf8 "a" then .file source else .missing
        environment := fun _ => [] }
    Program.NeverEnds (Scan.ofSource source).tokens ∧
      ∀ fuel, run? fuel w [utf8 "a"] = none ∧
        run? fuel w [utf8 "-dump", utf8 "ast", utf8 "a"] = none ∧
        run? fuel w [utf8 "-dump", utf8 "json", utf8 "a"] = none := by
  intro source w
  have hreading : (Plan.session ⟨{}, .run, some (utf8 "a")⟩ w).parse? source = none :=
    Option.isNone_iff_eq_none.1 (by decide +kernel)
  have hsource : w.files.read (utf8 "a") = .ok source := by decide +kernel
  have hlevel : Log.Level.debug.rank < ({} : Settings).level.rank := by decide +kernel
  have silent (fuel : Nat) (dump : Bytes) {arguments : List Bytes} {action : Action}
      (hread : Arguments.read arguments = .ok { operands := [utf8 "a"], dump })
      (haction : Action.ofName? dump = some action) (htokens : action ≠ .tokens) :
      run? fuel w arguments = none := by
    rw [run?_of_read hread haction rfl hsource (by rfl) hlevel]
    exact Plan.scriptReport?_of_endless hreading htokens
  refine ⟨(Program.parse?_eq_none (Session.parse?_eq_none hreading)).1, fun fuel => ⟨?_, ?_, ?_⟩⟩
  · exact silent fuel [] (by decide +kernel) rfl (by decide)
  · exact silent fuel (utf8 "ast") (by decide +kernel) rfl (by decide)
  · exact silent fuel (utf8 "json") (by decide +kernel) rfl (by decide)

end Command
end Lox
