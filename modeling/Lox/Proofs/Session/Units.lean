import Lox.Proofs.Machine.Agreement
import Lox.Proofs.Machine.Fuel
import Lox.Proofs.Session.Reading
import Lox.Session

/-! A program that is split into units does what it does as a whole. -/
namespace Lox

open Likeness (unplaced)

/-- How units went that were run one after the other. -/
structure Proceedings where
  reports : List UnitReport
  /-- The fault that ended the last unit. -/
  fault : Option RuntimeFault
  session : Session

namespace Session

/-- The fault in which a unit ends when it is run. -/
def fault? (fuel : Nat) (s : Session) (source : Bytes) : Option RuntimeFault :=
  match s.parse? source with
  | none => none
  | some r =>
    match Exec.run s.callLimit fuel r.statements s.machine with
    | .error (.fault f) _ => some f
    | _ => none

/-- Runs units in order, up to the first that ends in a runtime fault. There is no result if one of
them does not end within `fuel`. -/
def runAll? (fuel : Nat) (s : Session) : List Bytes → Option Proceedings
  | [] => some ⟨[], none, s⟩
  | u :: us =>
    match s.run? fuel u with
    | none => none
    | some (report, t) =>
      if report.outcome = .runtimeFault then some ⟨[report], s.fault? fuel u, t⟩
      else (runAll? fuel t us).map fun x => ⟨report :: x.reports, x.fault, x.session⟩

end Session

/-- The global names, each with the type and the text of its value. -/
def Machine.globalValues (m : Machine) : List (Bytes × Option (String × Bytes)) :=
  m.globalNames.map fun name =>
    (name, (m.scopes.get? globals name).map fun v => (v.typeName, v.text))

theorem Machine.Like.globalValues {before : List Bytes} {m n : Machine} (h : m.Like before n) :
    m.globalValues = n.globalValues := by
  have hvalue (name : Bytes) : (m.scopes.get? globals name).map (fun v => (v.typeName, v.text)) =
      (n.scopes.get? globals name).map fun v => (v.typeName, v.text) := by
    have hget := h.scopes.get? globals name
    generalize m.scopes.get? globals name = v, n.scopes.get? globals name = w at hget ⊢
    cases hget with
    | none => rfl
    | some hv => rw [Option.map_some, Option.map_some, hv.typeName, hv.text]
  unfold Machine.globalValues Machine.globalNames
  rw [h.scopes.names]
  exact List.map_congr_left fun name _ => by rw [hvalue]

/-- What a fault tells, but for its place. -/
def RuntimeFault.text (f : RuntimeFault) : String × Bytes × Bytes × Bytes :=
  (f.code, f.message, f.hint, f.token.lexeme)

theorem RuntimeFault.Like.text {f g : RuntimeFault} (h : f.Like g) : f.text = g.text := by
  unfold RuntimeFault.text RuntimeFault.code RuntimeFault.message RuntimeFault.hint
  rw [h.error, unplaced.lexeme h.token]

namespace Proceedings

/-- The outcome of the last unit. -/
def outcome (x : Proceedings) : Outcome := (x.reports.getLast?.map (·.outcome)).getD .ok

/-- The texts that all units printed. -/
def printed (x : Proceedings) : List Bytes := x.reports.flatMap (·.printed)

def output (x : Proceedings) : Bytes := x.reports.flatMap (·.output)

theorem output_eq (x : Proceedings) : x.output = x.printed.flatMap (· ++ [newline]) := by
  unfold output printed
  rw [List.flatMap_assoc]
  rfl

end Proceedings

namespace Session
variable {fuel : Nat} {s : Session} {source : Bytes} {ss : List Stmt}

/-- The session after a unit that left the machine in the state `m`. -/
def leaving (s : Session) (m : Machine) : Session := { s with machine := { m with printed := #[] } }

theorem like_leaving {before : List Bytes} {m n : Machine} (h : Machine.Like before m n) :
    Machine.Like (before ++ m.printed.toList) (s.leaving m).machine n :=
  { h with printed := (List.append_nil _).trans h.printed }

theorem parse?_of_reads (h : Reads source ss) :
    ∃ notices, s.parse? source = some ⟨.ok, ss, notices⟩ := by
  unfold parse?
  dsimp only
  rw [h.scan, h.parse]
  exact ⟨_, rfl⟩

theorem run?_ok (h : Reads source ss) {m : Machine}
    (hrun : Exec.run s.callLimit fuel ss s.machine = .ok () m) :
    ∃ report, s.run? fuel source = some (report, s.leaving m) ∧ report.outcome = .ok ∧
      report.printed = m.printed.toList := by
  obtain ⟨notices, hparse⟩ := parse?_of_reads (s := s) h
  unfold run?
  rw [hparse]
  dsimp only
  rw [hrun]
  exact ⟨_, rfl, rfl, rfl⟩

theorem run?_fault (h : Reads source ss) {m : Machine} {f : RuntimeFault}
    (hrun : Exec.run s.callLimit fuel ss s.machine = .error (.fault f) m) :
    ∃ report, s.run? fuel source = some (report, s.leaving m) ∧ report.outcome = .runtimeFault ∧
      report.printed = m.printed.toList ∧ s.fault? fuel source = some f := by
  obtain ⟨notices, hparse⟩ := parse?_of_reads (s := s) h
  unfold run? fault?
  rw [hparse]
  dsimp only
  rw [hrun]
  exact ⟨_, rfl, rfl, rfl, rfl⟩

theorem run?_none (h : Reads source ss) {m : Machine} {e : Halt}
    (hrun : Exec.run s.callLimit fuel ss s.machine = .error e m) (he : ∀ f, e ≠ .fault f) :
    s.run? fuel source = none := by
  obtain ⟨notices, hparse⟩ := parse?_of_reads (s := s) h
  unfold run?
  rw [hparse]
  dsimp only
  rw [hrun]
  cases e with
  | fault f => exact absurd rfl (he f)
  | malformed => rfl
  | exhausted => rfl

end Session

/-- The proceedings are those of one run that ended so, on a machine that had printed `before`. -/
inductive Proceedings.Tells (before : List Bytes) :
    Option Proceedings → EStateM.Result Halt Machine Unit → Prop where
  | ok {x : Proceedings} {m : Machine} (hfault : x.fault = none) (houtcome : x.outcome = .ok)
      (hflushed : x.session.machine.printed = #[])
      (hlike : Machine.Like (before ++ x.printed) x.session.machine m) :
      Tells before (some x) (.ok () m)
  | fault {x : Proceedings} {m : Machine} {f g : RuntimeFault} (hfault : x.fault = some f)
      (hf : f.Like g) (houtcome : x.outcome = .runtimeFault)
      (hflushed : x.session.machine.printed = #[])
      (hlike : Machine.Like (before ++ x.printed) x.session.machine m) :
      Tells before (some x) (.error (.fault g) m)
  | none {e : Halt} {m : Machine} (he : ∀ f, e ≠ .fault f) : Tells before none (.error e m)

namespace Proceedings

/-- The proceedings with a unit before all others. -/
def after (report : UnitReport) (x : Proceedings) : Proceedings :=
  ⟨report :: x.reports, x.fault, x.session⟩

theorem outcome_after {report : UnitReport} (h : report.outcome = .ok) (x : Proceedings) :
    (after report x).outcome = x.outcome := by
  unfold outcome after
  dsimp only
  cases x.reports with
  | nil => exact h
  | cons first others => rw [List.getLast?_cons_cons]

theorem Tells.after {before : List Bytes} {report : UnitReport} {x : Option Proceedings}
    {r : EStateM.Result Halt Machine Unit} (h : report.outcome = .ok)
    (hx : Tells (before ++ report.printed) x r) :
    Tells before (x.map (Proceedings.after report)) r := by
  cases hx with
  | ok hfault houtcome hflushed hlike =>
    refine .ok hfault ((outcome_after h _).trans houtcome) hflushed ?_
    rwa [List.append_assoc] at hlike
  | fault hfault hf houtcome hflushed hlike =>
    refine .fault hfault hf ((outcome_after h _).trans houtcome) hflushed ?_
    rwa [List.append_assoc] at hlike
  | none he => exact .none he

end Proceedings

/-- Units with the statements of a program, run one after the other, proceed as the program. -/
theorem Session.runAll?_tells {fuel : Nat} {units : List Bytes} {sss : List (List Stmt)}
    (hreads : List.Forall₂ Reads units sss) {before : List Bytes} {s : Session} {m : Machine}
    {ss : List Stmt} (hss : List.Forall₂ (Stmt.Like unplaced) sss.flatten ss)
    (hm : Machine.Like before s.machine m) (hflushed : s.machine.printed = #[]) :
    Proceedings.Tells before (s.runAll? fuel units) (Exec.run s.callLimit fuel ss m) := by
  induction hreads generalizing before s m ss with
  | nil =>
    cases hss
    exact .ok rfl rfl hflushed (by rwa [Proceedings.printed, List.flatMap_nil, List.append_nil])
  | @cons u statements units sss hu _ ih =>
    -- The program is that of the unit and that of the other units.
    have hfirst := List.forall₂_take statements.length hss
    have hothers := List.forall₂_drop statements.length hss
    rw [List.flatten_cons, List.take_left] at hfirst
    rw [List.flatten_cons, List.drop_left] at hothers
    rw [← List.take_append_drop statements.length ss, Exec.run_append]
    generalize ss.take statements.length = as, ss.drop statements.length = bs at hfirst hothers
    have hresult := Exec.agree_run s.callLimit fuel hfirst hm
    change Proceedings.Tells before _ (EStateM.bind _ _ m)
    unfold runAll? EStateM.bind
    generalize hrun : Exec.run s.callLimit fuel statements s.machine = r at hresult
    generalize Exec.run s.callLimit fuel as m = r' at hresult ⊢
    cases hresult with
    | @ok _ _ m₁ m₂ _ hstate =>
      obtain ⟨report, hreport, houtcome, hprinted⟩ := run?_ok hu hrun
      have hleft := like_leaving (s := s) hstate
      rw [← hprinted] at hleft
      have hrest := ih hothers hleft rfl
      rw [hreport]
      dsimp only
      rw [houtcome, if_neg nofun]
      exact hrest.after houtcome
    | error he hstate =>
      cases he with
      | fault hf =>
        obtain ⟨report, hreport, houtcome, hprinted, hfault⟩ := run?_fault hu hrun
        have hleft := like_leaving (s := s) hstate
        rw [← hprinted] at hleft
        rw [hreport]
        dsimp only
        rw [if_pos houtcome, hfault]
        exact .fault rfl hf houtcome rfl (by simpa [Proceedings.printed] using hleft)
      | malformed =>
        rw [run?_none hu hrun fun _ => nofun]
        exact .none fun _ => nofun
      | exhausted =>
        rw [run?_none hu hrun fun _ => nofun]
        exact .none fun _ => nofun

namespace Proceedings

/-- Machines alike to one have printed the same and have the same global values. -/
theorem same_of_like {before : List Bytes} {x y : Proceedings} {m : Machine}
    (hx : Machine.Like (before ++ x.printed) x.session.machine m)
    (hy : Machine.Like (before ++ y.printed) y.session.machine m)
    (hxf : x.session.machine.printed = #[]) (hyf : y.session.machine.printed = #[]) :
    x.output = y.output ∧
      x.session.machine.globalValues = y.session.machine.globalValues := by
  have hprinted := hx.printed.trans hy.printed.symm
  rw [hxf, hyf, List.append_nil, List.append_nil, List.append_right_inj] at hprinted
  rw [output_eq, output_eq, hprinted, hx.globalValues, hy.globalValues]
  exact ⟨rfl, rfl⟩

/-- How the run ended settles what is seen of the proceedings. -/
theorem Tells.same {before : List Bytes} {x y : Proceedings}
    {r : EStateM.Result Halt Machine Unit} (hx : Tells before (some x) r)
    (hy : Tells before (some y) r) : x.outcome = y.outcome ∧ x.output = y.output ∧
      x.session.machine.globalValues = y.session.machine.globalValues ∧
      x.fault.map RuntimeFault.text = y.fault.map RuntimeFault.text := by
  cases hx with
  | ok hfault houtcome hflushed hlike =>
    cases hy with
    | ok hfault' houtcome' hflushed' hlike' =>
      obtain ⟨houtput, hglobals⟩ := same_of_like hlike hlike' hflushed hflushed'
      exact ⟨houtcome.trans houtcome'.symm, houtput, hglobals, by rw [hfault, hfault']⟩
  | fault hfault hf houtcome hflushed hlike =>
    cases hy with
    | fault hfault' hf' houtcome' hflushed' hlike' =>
      obtain ⟨houtput, hglobals⟩ := same_of_like hlike hlike' hflushed hflushed'
      refine ⟨houtcome.trans houtcome'.symm, houtput, hglobals, ?_⟩
      rw [hfault, hfault', Option.map_some, Option.map_some, hf.text, hf'.text]

/-- There are proceedings exactly if the run came to its end. -/
theorem Tells.isSome_iff {before : List Bytes} {x : Option Proceedings}
    {r : EStateM.Result Halt Machine Unit} (h : Tells before x r) :
    x.isSome = true ↔ ∀ e m, r = .error e m → ∃ f, e = .fault f := by
  cases h with
  | ok => simp
  | fault => simp
  | none he => simpa using he

theorem Tells.not_exhausted {before : List Bytes} {x : Proceedings}
    {r : EStateM.Result Halt Machine Unit} (h : Tells before (some x) r) (m : Machine) :
    r ≠ .error .exhausted m := by
  cases h <;> nofun

end Proceedings

namespace Session

/-- The source has no fault of its text. -/
def Faultless (source : Bytes) : Prop :=
  (Scan.ofSource source).faults = [] ∧
    (Program.parse? (Scan.ofSource source).tokens).map (·.faults) = some []

instance (source : Bytes) : Decidable (Faultless source) := inferInstanceAs (Decidable (_ ∧ _))

theorem Faultless.reads {source : Bytes} (h : Faultless source) : ∃ ss, Reads source ss := by
  obtain ⟨hscan, hparse⟩ := h
  obtain ⟨⟨statements, faults⟩, hp, hfaults⟩ := Option.map_eq_some_iff.1 hparse
  dsimp only at hfaults
  exact ⟨statements, hscan, by rw [hp, hfaults]⟩

theorem reads_all {units : List Bytes} (h : ∀ u ∈ units, Faultless u) :
    ∃ sss, List.Forall₂ Reads units sss := by
  induction units with
  | nil => exact ⟨[], .nil⟩
  | cons u us ih =>
    rw [List.forall_mem_cons] at h
    obtain ⟨ss, hss⟩ := h.1.reads
    obtain ⟨sss, hsss⟩ := ih h.2
    exact ⟨ss :: sss, .cons hss hsss⟩

theorem like_fresh (clock : Clock) :
    Machine.Like [] (Machine.fresh clock) (Machine.fresh clock) := by
  have hempty : Forest.Like #[] #[] := ⟨rfl, fun id => by rw [Array.getElem?_empty]; exact .none⟩
  have hroot : Forest.Like #[{}] #[{}] := hempty.push ⟨.nil, rfl⟩
  exact {
    scopes := hroot.define Machine.globals (utf8 "clock") (.native _)
    current := rfl, depth := rfl, functions := rfl, printed := rfl, clock := rfl,
    readings := rfl }

/-- Units without a fault of their text, run in order up to the first runtime fault, and their
texts on consecutive lines, run as one program, come to an end both or neither; and then they end
with the same outcome and the same output, leave the same global values, and tell the same fault. -/
theorem units_run_as_one (colour : Bool) (callLimit : Int) (clock : Clock) (units : List Bytes)
    (h : ∀ u ∈ units, Faultless u) :
    let s := fresh colour callLimit clock
    let joined := [newline].intercalate units
    ((∃ fuel, (s.runAll? fuel units).isSome) ↔ ∃ fuel, (s.runAll? fuel [joined]).isSome) ∧
    ∀ fuel fuel' x y, s.runAll? fuel units = some x → s.runAll? fuel' [joined] = some y →
      x.outcome = y.outcome ∧ x.output = y.output ∧
      x.session.machine.globalValues = y.session.machine.globalValues ∧
      x.fault.map RuntimeFault.text = y.fault.map RuntimeFault.text := by
  intro s joined
  obtain ⟨sss, hreads⟩ := reads_all h
  obtain ⟨ss, hjoined, hlike⟩ := Reads.join hreads
  have hself : List.Forall₂ (Stmt.Like unplaced) [ss].flatten ss := by
    rw [List.flatten_cons, List.flatten_nil, List.append_nil]
    exact hjoined.like_self
  have hmachine : Machine.Like [] s.machine s.machine := like_fresh clock
  -- Both proceed as one run of the joined program does.
  have hunits (fuel : Nat) :
      Proceedings.Tells [] (s.runAll? fuel units) (Exec.run s.callLimit fuel ss s.machine) :=
    runAll?_tells hreads hlike hmachine rfl
  have hone (fuel : Nat) :
      Proceedings.Tells [] (s.runAll? fuel [joined]) (Exec.run s.callLimit fuel ss s.machine) :=
    runAll?_tells (.cons hjoined .nil) hself hmachine rfl
  refine ⟨exists_congr fun fuel => ?_, fun fuel fuel' x y hx hy => ?_⟩
  · rw [(hunits fuel).isSome_iff, (hone fuel).isSome_iff]
  · have htold := hunits fuel
    have htold' := hone fuel'
    rw [hx] at htold
    rw [hy] at htold'
    rw [Exec.run_unique htold.not_exhausted htold'.not_exhausted] at htold
    exact htold.same htold'

/-- The second of three units ends in a fault, and so does the program on three lines. Both read
the clock, which moves on. -/
theorem units_run_as_one_misspelt :
    let s := fresh false 0 ⟨fun reading => reading⟩
    let units := [utf8 "var long = \"x\"; var begun = clock();",
      utf8 "begun = clock(); print long; print lng;", utf8 "print long;"]
    (∀ u ∈ units, Faultless u) ∧ ∃ fuel y, s.runAll? fuel [[newline].intercalate units] = some y ∧
      y.outcome = .runtimeFault ∧ y.output = utf8 "x\n" ∧
      y.fault.map RuntimeFault.text = some ("E3004", utf8 "undefined variable 'lng'",
        utf8 "did you mean 'long'?", utf8 "lng") := by
  intro s units
  have hunits : ∀ u ∈ units, Faultless u := by decide +kernel
  have hrun : (s.runAll? 9 units).map (fun x => (x.outcome, x.output)) =
      some (.runtimeFault, utf8 "x\n") := by decide +kernel
  have hfault : ((s.runAll? 9 units).bind (·.fault)).map RuntimeFault.text =
      some ("E3004", utf8 "undefined variable 'lng'", utf8 "did you mean 'long'?",
        utf8 "lng") := by decide +kernel
  obtain ⟨x, hx, hseen⟩ := Option.map_eq_some_iff.1 hrun
  rw [hx] at hfault
  obtain ⟨hends, hsame⟩ := units_run_as_one false 0 ⟨fun reading => reading⟩ units hunits
  obtain ⟨fuel, hy⟩ := hends.1 ⟨9, by rw [hx]; rfl⟩
  obtain ⟨y, hy⟩ := Option.isSome_iff_exists.1 hy
  obtain ⟨houtcome, houtput, -, htext⟩ := hsame 9 fuel x y hx hy
  refine ⟨hunits, fuel, y, hy, ?_, ?_, ?_⟩
  · exact houtcome.symm.trans (congrArg Prod.fst hseen)
  · exact houtput.symm.trans (congrArg Prod.snd hseen)
  · exact htext.symm.trans hfault

end Session
end Lox
