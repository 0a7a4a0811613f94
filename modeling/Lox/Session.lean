import Lox.Diagnostic.Render
import Lox.Log.Entry
import Lox.Machine.Run
import Lox.Syntax.Statement
import Lox.Token.Scan

/-! Sessions: units of source run one after the other on one machine. -/
namespace Lox

/-- How a unit of source ends. -/
inductive Outcome where
  | ok | scanFault | parseFault | runtimeFault | unknown
  deriving DecidableEq, Repr

namespace Outcome

def name : Outcome → String
  | ok => "ok"
  | scanFault => "scan fault"
  | parseFault => "parse fault"
  | runtimeFault => "runtime fault"
  | unknown => "unknown"

def exitCode : Outcome → Nat
  | scanFault => 65
  | parseFault => 66
  | runtimeFault => 70
  | ok | unknown => 0

def ofNumber (n : Int) : Outcome :=
  if n = 0 then ok else if n = 1 then scanFault else if n = 2 then parseFault
  else if n = 3 then runtimeFault else unknown

end Outcome

/-- What a unit tells besides its output. -/
inductive Notice where
  | log (entry : Log.Entry)
  | faults (rendered : Bytes)
  deriving DecidableEq

/-- The texts of rendered faults among notices. -/
def Notice.rendered (notices : List Notice) : Bytes :=
  notices.flatMap fun
    | .faults text => text
    | .log _ => []

/-- The entries of at least the given level among notices. -/
def Notice.entries (level : Log.Level) (notices : List Notice) : List Log.Entry :=
  notices.filterMap fun
    | .log entry => if level.rank ≤ entry.level.rank then some entry else none
    | .faults _ => none

/-- The result of a unit. -/
structure UnitReport where
  outcome : Outcome
  /-- The texts printed, in order. -/
  printed : List Bytes
  notices : List Notice

/-- The output of a unit: each printed text on a line of its own. -/
def UnitReport.output (r : UnitReport) : Bytes := r.printed.flatMap (· ++ [newline])

structure Session where
  machine : Machine
  colour : Bool := false
  /-- The greatest number of calls in progress. -/
  callLimit : Nat := 1024

namespace Session

/-- The limit that a setting stands for; without a positive one it is 1024. -/
def limitOf (setting : Int) : Nat := if setting ≤ 0 then 1024 else setting.toNat

def fresh (colour : Bool) (callLimit : Int) (clock : Clock) : Session :=
  ⟨.fresh clock, colour, limitOf callLimit⟩

def debugEntry (message : String) (fields : List (String × Log.Datum)) : Notice :=
  .log ⟨.debug, message, fields⟩

def renderFaults (s : Session) (source : Bytes) (ds : List Diagnostic) : Notice :=
  .faults (Diagnostic.renderAll s.colour source ds)

/-- What scanning a unit tells: its size, and its faults if it has any. -/
def scanNotices (s : Session) (source : Bytes) (scan : Scan) : List Notice :=
  debugEntry "scanned" [("tokens", .number scan.tokens.length), ("faults", .number scan.faults.length)]
    :: if scan.faults.isEmpty then []
      else [s.renderFaults source (scan.faults.map (·.diagnostic))]

/-- What parsing a unit tells. -/
def parseNotices (s : Session) (source : Bytes) (p : Program) : List Notice :=
  if p.faults.isEmpty then [] else [s.renderFaults source (p.faults.map (·.diagnostic))]

/-- The statements of a unit if it has no fault. -/
structure Reading where
  outcome : Outcome
  statements : List Stmt
  notices : List Notice

/-- Scans and parses a unit. -/
def parse? (s : Session) (source : Bytes) : Option Reading :=
  let scan := Scan.ofSource source
  let scanned := s.scanNotices source scan
  if scan.faults.isEmpty then
    match Program.parse? scan.tokens with
    | none => none
    | some p =>
      let parsed := debugEntry "parsed"
        [("statements", .number p.statements.length), ("faults", .number p.faults.length)]
      let notices := scanned ++ parsed :: s.parseNotices source p
      if p.faults.isEmpty then some ⟨.ok, p.statements, notices⟩
      else some ⟨.parseFault, [], notices⟩
  else some ⟨.scanFault, [], scanned⟩

/-- The report of a computation on the machine of the session, unless it does not end. -/
def report? (s : Session) (source : Bytes) (before : List Notice) :
    EStateM.Result Halt Machine Unit → Option (UnitReport × Session)
  | .ok () m =>
    some (⟨.ok, m.printed.toList, before⟩, { s with machine := { m with printed := #[] } })
  | .error (.fault f) m =>
    let entry : Notice := .log ⟨.info, "runtime fault",
      [("code", .text (utf8 f.code)), ("message", .text f.message)]⟩
    some (⟨.runtimeFault, m.printed.toList,
      before ++ [entry, s.renderFaults source [f.diagnostic]]⟩,
      { s with machine := { m with printed := #[] } })
  | .error .malformed _ => none
  | .error .exhausted _ => none

/-- What running a unit tells at its end. -/
def runNotice (statements : Nat) (outcome : Outcome) : Notice :=
  debugEntry "run" [("statements", .number statements), ("elapsed", .number 0),
    ("outcome", .text (utf8 outcome.name))]

/-- Runs a unit as a program. There is no result if it does not end within `fuel`. -/
def run? (fuel : Nat) (s : Session) (source : Bytes) : Option (UnitReport × Session) :=
  match s.parse? source with
  | none => none
  | some r =>
    let finish (report : UnitReport) : UnitReport :=
      { report with
        notices := report.notices ++ [runNotice r.statements.length report.outcome] }
    if r.outcome = .ok then
      (s.report? source r.notices (Exec.run s.callLimit fuel r.statements s.machine)).map
        fun (report, s) => (finish report, s)
    else some (finish ⟨r.outcome, [], r.notices⟩, s)

/-- Evaluates an expression and prints its value. -/
def echo (limit fuel : Nat) (e : Expr) : Exec Unit := do
  let v ← Exec.eval limit fuel e
  Exec.print v.text

/-- Runs a unit as it is typed in: an expression alone is evaluated and its value printed, and all
else is a program. There is no result if it does not end within `fuel`. -/
def runLine? (fuel : Nat) (s : Session) (source : Bytes) : Option (UnitReport × Session) :=
  let scan := Scan.ofSource source
  let scanned := s.scanNotices source scan
  if scan.faults.isEmpty then
    match LoneExpression.parse scan.tokens with
    | ⟨some e, []⟩ =>
      s.report? source (scanned ++ [debugEntry "evaluating bare expression" []])
        (echo s.callLimit fuel e s.machine)
    | _ =>
      match Program.parse? scan.tokens with
      | none => none
      | some p =>
        if p.faults.isEmpty then
          s.report? source scanned (Exec.run s.callLimit fuel p.statements s.machine)
        else some (⟨.parseFault, [], scanned ++ s.parseNotices source p⟩, s)
  else some (⟨.scanFault, [], scanned⟩, s)

end Session
end Lox
